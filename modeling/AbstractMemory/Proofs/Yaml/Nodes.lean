import AbstractMemory.Yaml.Node
import AbstractMemory.Proofs.Yaml.Tokens

/-! The nodes of a tree, and that its tokens are read into them. With the tokens
of its text this makes writing a map and reading it inverse to each other. -/

namespace AbstractMemory.Yaml

mutual

/-- The node that stands for a tree. -/
def Tree.node : Tree → Node
  | .null => .scalar { text := "null", style := .plain }
  | .bool b => .scalar { text := if b then "true" else "false", style := .plain }
  | .number n => .scalar { text := toString n, style := .plain }
  | .text s => .scalar { text := s, style := styleOf s }
  | .list items => .sequence (itemNodes items)
  | .map entries => .mapping (entryNodes entries)

def itemNodes : List Tree → List Node
  | [] => []
  | item :: rest => item.node :: itemNodes rest

def entryNodes : List (String × Tree) → List (Node × Node)
  | [] => []
  | (key, value) :: rest =>
    (.scalar { text := key, style := .plain }, value.node) :: entryNodes rest

end

namespace Reading

variable {r : Reading} {fuel : Nat} {ts : List Token} {inBlock unindented : Bool}

/-- A reading with other tokens ahead. -/
def facing (r : Reading) (ts : List Token) : Reading := { r with tokens := ts }

theorem node_scalar (text : List Char) (style : ScalarStyle) :
    node (fuel + 1) inBlock unindented (r.facing (.scalar text style :: ts)) =
      some (.scalar { text := String.ofList text, style }, r.facing ts) := rfl

theorem node_emptySequence :
    node (fuel + 2) inBlock unindented
        (r.facing (.flowSequenceStart :: .flowSequenceEnd :: ts)) =
      some (.sequence [], r.facing ts) := rfl

theorem node_emptyMapping :
    node (fuel + 2) inBlock unindented
        (r.facing (.flowMappingStart :: .flowMappingEnd :: ts)) =
      some (.mapping [], r.facing ts) := rfl

theorem node_blockSequence :
    node (fuel + 1) true unindented (r.facing (.blockSequenceStart :: ts)) =
      blockItems fuel [] (r.facing ts) :=
  Option.bind_fun_some _

theorem node_blockMapping :
    node (fuel + 1) true unindented (r.facing (.blockMappingStart :: ts)) =
      blockEntries fuel [] (r.facing ts) :=
  Option.bind_fun_some _

theorem node_unindented :
    node (fuel + 1) inBlock true (r.facing (.blockEntry :: ts)) =
      unindentedItems fuel [] (r.facing (.blockEntry :: ts)) :=
  Option.bind_fun_some _

/-- Whether a node that should come before a token is missing. -/
def endsNode (inMap : Bool) : Token → Bool
  | .key => true
  | .value => true
  | .blockEnd => true
  | .blockEntry => !inMap
  | _ => false

theorem tokens_head (t : Tree) (inMap : Bool) :
    ∃ s ss, t.tokens inMap = s :: ss ∧ endsNode inMap s = false := by
  cases t with
  | null => exact ⟨_, _, rfl, rfl⟩
  | bool b => exact ⟨_, _, rfl, rfl⟩
  | number n => exact ⟨_, _, rfl, rfl⟩
  | text s => exact ⟨_, _, rfl, rfl⟩
  | list items =>
    cases items with
    | nil => exact ⟨_, _, rfl, rfl⟩
    | cons item items =>
      rw [Tree.tokens_list (List.cons_ne_nil _ _)]
      cases inMap with
      | false => exact ⟨_, _, rfl, rfl⟩
      | true => exact ⟨_, _, rfl, rfl⟩
  | map entries =>
    cases entries with
    | nil => exact ⟨_, _, rfl, rfl⟩
    | cons entry entries =>
      rw [Tree.tokens_map (List.cons_ne_nil _ _)]
      exact ⟨_, _, rfl, rfl⟩

theorem nodeUnless_tokens {stops : List Token} {inMap : Bool} {t : Tree}
    (hstops : ∀ s ∈ stops, endsNode inMap s = true) :
    nodeUnless (fuel + 1) stops true inMap (r.facing (t.tokens inMap ++ ts)) =
      node fuel true inMap (r.facing (t.tokens inMap ++ ts)) := by
  obtain ⟨s, ss, hs, hnode⟩ := tokens_head t inMap
  have hhead : (r.facing (t.tokens inMap ++ ts)).head = s := by
    rw [hs]
    rfl
  have hnot : s ∉ stops := by
    intro hmem
    rw [hstops s hmem] at hnode
    cases hnode
  rw [nodeUnless, hhead, if_neg (by simpa using hnot)]

theorem blockItems_entry (done : List Node) :
    blockItems (fuel + 1) done (r.facing (.blockEntry :: ts)) =
      (nodeUnless fuel [.blockEntry, .blockEnd] true false (r.facing ts)).bind fun x =>
        blockItems fuel (done ++ [x.1]) x.2 := rfl

theorem unindentedItems_entry (done : List Node) :
    unindentedItems (fuel + 1) done (r.facing (.blockEntry :: ts)) =
      (nodeUnless fuel [.blockEntry, .key, .value, .blockEnd] true false (r.facing ts)).bind
        fun x => unindentedItems fuel (done ++ [x.1]) x.2 := rfl

theorem unindentedItems_end (done : List Node) (h : ts.headD .streamEnd ≠ .blockEntry) :
    unindentedItems (fuel + 1) done (r.facing ts) = some (.sequence done, r.facing ts) := by
  rw [unindentedItems]
  split
  · rename_i heq
    exact absurd heq h
  · rfl

/-- An entry whose key is a scalar. -/
theorem blockEntries_entry (done : List (Node × Node)) (key : List Char) :
    blockEntries (fuel + 3) done (r.facing (.key :: .scalar key .plain :: .value :: ts)) =
      (nodeUnless (fuel + 1) [.key, .value, .blockEnd] true true (r.facing ts)).bind fun x =>
        blockEntries (fuel + 2)
          (done ++ [(.scalar { text := String.ofList key, style := .plain }, x.1)]) x.2 := rfl

theorem entryTokens_head (entries : List (String × Tree)) (ts : List Token) :
    (entryTokens entries ++ .blockEnd :: ts).headD .streamEnd ≠ .blockEntry := by
  cases entries <;> simp [entryTokens]

mutual

/-- The tokens of a tree are read into its node. -/
theorem node_tree (t : Tree) (inMap : Bool) {fuel : Nat} {r : Reading} {ts : List Token}
    (hfuel : 3 * (t.tokens inMap).length + 2 ≤ fuel)
    (hts : inMap = true → ts.headD .streamEnd ≠ .blockEntry) :
    node fuel true inMap (r.facing (t.tokens inMap ++ ts)) = some (t.node, r.facing ts) := by
  obtain ⟨n, rfl⟩ : ∃ n, fuel = n + 2 := ⟨fuel - 2, by omega⟩
  cases t with
  | null => exact node_scalar _ _
  | bool b => cases b <;> exact node_scalar _ _
  | number m =>
    rw [Tree.tokens, Tree.node, List.singleton_append, node_scalar, String.ofList_toList]
  | text s =>
    rw [Tree.tokens, Tree.node, List.singleton_append, node_scalar, String.ofList_toList]
  | list items =>
    by_cases hne : items = []
    · subst hne
      exact node_emptySequence
    · rw [Tree.tokens_list hne] at hfuel ⊢
      rw [Tree.node]
      cases inMap with
      | true =>
        rw [if_pos rfl] at hfuel
        -- stated before `items` is taken apart, for the recursion to be on a part of the tree
        have hitems : unindentedItems (n + 1) [] (r.facing (itemTokens items ++ ts)) =
            some (.sequence ([] ++ itemNodes items), r.facing ts) :=
          unindentedItems_items items [] (by omega) (hts rfl)
        obtain ⟨item, rest, rfl⟩ := List.exists_cons_of_ne_nil hne
        exact node_unindented.trans hitems
      | false =>
        rw [if_neg (by decide)] at hfuel
        simp only [List.cons_append, List.length_cons, List.length_append] at hfuel
        rw [if_neg (by decide), List.cons_append, List.cons_append, List.append_assoc,
          List.singleton_append, node_blockSequence, blockItems_items items [] (by omega),
          List.nil_append]
  | map entries =>
    by_cases hne : entries = []
    · subst hne
      exact node_emptyMapping
    · rw [Tree.tokens_map hne] at hfuel ⊢
      simp only [List.cons_append, List.length_cons, List.length_append] at hfuel
      rw [Tree.node, List.cons_append, List.cons_append, List.append_assoc,
        List.singleton_append, node_blockMapping, blockEntries_entries entries [] (by omega),
        List.nil_append]
termination_by structural t

theorem blockItems_items (items : List Tree) (done : List Node) {fuel : Nat} {r : Reading}
    {ts : List Token} (hfuel : 3 * (itemTokens items).length + 1 ≤ fuel) :
    blockItems fuel done (r.facing (itemTokens items ++ .blockEnd :: ts)) =
      some (.sequence (done ++ itemNodes items), r.facing ts) := by
  cases items with
  | nil =>
    obtain ⟨n, rfl⟩ : ∃ n, fuel = n + 1 := ⟨fuel - 1, by omega⟩
    rw [itemNodes, List.append_nil]
    rfl
  | cons item items =>
    simp only [itemTokens, List.cons_append, List.length_cons, List.length_append] at hfuel
    obtain ⟨n, rfl⟩ : ∃ n, fuel = n + 2 := ⟨fuel - 2, by omega⟩
    rw [itemTokens, List.cons_append, List.cons_append, List.append_assoc, blockItems_entry,
      nodeUnless_tokens (by simp [endsNode]), node_tree item false (by omega) (fun h => nomatch h),
      Option.bind_some, blockItems_items items _ (by omega), itemNodes, List.append_assoc,
      List.singleton_append]
termination_by structural items

theorem unindentedItems_items (items : List Tree) (done : List Node) {fuel : Nat} {r : Reading}
    {ts : List Token} (hfuel : 3 * (itemTokens items).length + 1 ≤ fuel)
    (hts : ts.headD .streamEnd ≠ .blockEntry) :
    unindentedItems fuel done (r.facing (itemTokens items ++ ts)) =
      some (.sequence (done ++ itemNodes items), r.facing ts) := by
  cases items with
  | nil =>
    obtain ⟨n, rfl⟩ : ∃ n, fuel = n + 1 := ⟨fuel - 1, by omega⟩
    rw [itemNodes, List.append_nil]
    exact unindentedItems_end done hts
  | cons item items =>
    simp only [itemTokens, List.cons_append, List.length_cons, List.length_append] at hfuel
    obtain ⟨n, rfl⟩ : ∃ n, fuel = n + 2 := ⟨fuel - 2, by omega⟩
    rw [itemTokens, List.cons_append, List.cons_append, List.append_assoc, unindentedItems_entry,
      nodeUnless_tokens (by simp [endsNode]), node_tree item false (by omega) (fun h => nomatch h),
      Option.bind_some, unindentedItems_items items _ (by omega) hts, itemNodes, List.append_assoc,
      List.singleton_append]
termination_by structural items

theorem blockEntries_entries (entries : List (String × Tree)) (done : List (Node × Node))
    {fuel : Nat} {r : Reading} {ts : List Token}
    (hfuel : 3 * (entryTokens entries).length + 1 ≤ fuel) :
    blockEntries fuel done (r.facing (entryTokens entries ++ .blockEnd :: ts)) =
      some (.mapping (done ++ entryNodes entries), r.facing ts) := by
  cases entries with
  | nil =>
    obtain ⟨n, rfl⟩ : ∃ n, fuel = n + 1 := ⟨fuel - 1, by omega⟩
    rw [entryNodes, List.append_nil]
    rfl
  | cons entry entries =>
    obtain ⟨key, value⟩ := entry
    simp only [entryTokens, List.cons_append, List.length_cons, List.length_append] at hfuel
    obtain ⟨n, rfl⟩ : ∃ n, fuel = n + 3 := ⟨fuel - 3, by omega⟩
    simp only [entryTokens, List.cons_append, List.append_assoc]
    rw [blockEntries_entry, nodeUnless_tokens (by simp [endsNode]),
      node_tree value true (by omega) (fun _ => entryTokens_head entries ts), Option.bind_some,
      blockEntries_entries entries _ (by omega), entryNodes, List.append_assoc,
      List.singleton_append, String.ofList_toList]
termination_by structural entries

end

theorem document_blockMapping (ts : List Token) :
    document (.blockMappingStart :: ts) =
      (node (4 * (ts.length + 1) + 8) true false
        (facing { tokens := [], handles := standardHandles } (.blockMappingStart :: ts))).bind
          fun x => document.finish x.1 x.2 := rfl

/-- The only document of a stream that is one map. -/
theorem document_map {entries : List (String × Tree)} (hne : entries ≠ []) :
    document ((Tree.map entries).tokens false ++ [.streamEnd]) =
      some { root := some (Tree.map entries).node } := by
  have hfuel : 3 * ((Tree.map entries).tokens false).length + 2 ≤
      4 * (((Tree.map entries).tokens false ++ [Token.streamEnd]).length) + 8 := by
    rw [List.length_append]
    omega
  have hnode := @node_tree (.map entries) false _ { tokens := [], handles := standardHandles }
    [.streamEnd] hfuel (fun h => nomatch h)
  rw [Tree.tokens_map hne] at hnode ⊢
  rw [List.cons_append, List.cons_append] at hnode ⊢
  rw [document_blockMapping, ← List.length_cons, hnode]
  rfl

end Reading

/-- Writing a map whose keys are simple and reading it gives its node. -/
theorem parse?_renderMap {entries : List (String × Tree)} (hne : entries ≠ [])
    (hkeys : TextFormat.WritableEntries IsSimpleKey entries) :
    Document.parse? (renderMap entries) = some { root := some (Tree.map entries).node } := by
  have htokens : .blockMappingStart :: entryTokens entries ++ [.blockEnd, .streamEnd] =
      (Tree.map entries).tokens false ++ [.streamEnd] := by
    rw [Tree.tokens_map hne]
    simp
  rw [Document.parse?, scan?_renderMap hne hkeys, htokens]
  exact Reading.document_map hne

end AbstractMemory.Yaml
