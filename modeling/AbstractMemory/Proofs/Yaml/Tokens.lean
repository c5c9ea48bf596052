import AbstractMemory.Proofs.Formats
import AbstractMemory.Proofs.Yaml.Scanning
import AbstractMemory.Proofs.Yaml.Writing

/-! The tokens of a tree, and that a tree is read into them once it is written.
Keys are simple ones, which no mark announces. -/

namespace AbstractMemory.Yaml

open TextFormat

/-- Whether a key can be written plain and is short enough. -/
structure IsSimpleKey (key : String) : Prop where
  plain : styleOf key = .plain
  short : (key.toList.map Char.utf8Size).sum ≤ maxKeyLength

mutual

/-- The tokens of a tree. A list that is the value of a key is not indented, so
that nothing marks its start and end. -/
def Tree.tokens (inMap : Bool) : Tree → List Token
  | .null => [.scalar "null".toList .plain]
  | .bool b => [.scalar (if b then "true".toList else "false".toList) .plain]
  | .number n => [.scalar (toString n).toList .plain]
  | .text s => [.scalar s.toList (styleOf s)]
  | .list [] => [.flowSequenceStart, .flowSequenceEnd]
  | .list items =>
    if inMap then itemTokens items else .blockSequenceStart :: itemTokens items ++ [.blockEnd]
  | .map [] => [.flowMappingStart, .flowMappingEnd]
  | .map entries => .blockMappingStart :: entryTokens entries ++ [.blockEnd]

def itemTokens : List Tree → List Token
  | [] => []
  | item :: rest => .blockEntry :: item.tokens false ++ itemTokens rest

def entryTokens : List (String × Tree) → List Token
  | [] => []
  | (key, value) :: rest =>
    .key :: .scalar key.toList .plain :: .value :: value.tokens true ++ entryTokens rest

end

theorem startsToken_items {items : List Tree} (h : items ≠ []) (n : Nat) (cs : List Char) :
    StartsToken (writeItems n false items ++ cs) := by
  obtain ⟨item, rest, rfl⟩ := List.exists_cons_of_ne_nil h
  rw [writeItems]
  exact .cons (by decide) _

theorem IsSimpleKey.isPlainSafe {key : String} (h : IsSimpleKey key) :
    isPlainSafe key.toList = true := by
  rcases styleOf_cases key with ⟨_, hsafe⟩ | ⟨hs, _⟩ | hs | ⟨hs, _⟩
  · exact hsafe
  all_goals
    rw [h.plain] at hs
    cases hs

theorem writeEntries_cons {key : String} (h : IsSimpleKey key) (value : Tree)
    (entries : List (String × Tree)) (n : Nat) (cs : List Char) :
    writeEntries n false ((key, value) :: entries) ++ cs =
      key.toList ++ ':' :: (writeTree n true value ++ (writeEntries n true entries ++ cs)) := by
  have hkey : writeText n key = key.toList := by rw [writeText, h.plain]
  rw [writeEntries, hkey]
  simp

theorem startsToken_entries {entries : List (String × Tree)}
    (hkeys : WritableEntries IsSimpleKey entries)
    (h : entries ≠ []) (n : Nat) (cs : List Char) :
    StartsToken (writeEntries n false entries ++ cs) := by
  obtain ⟨⟨key, value⟩, rest, rfl⟩ := List.exists_cons_of_ne_nil h
  rw [writeEntries_cons hkeys.1]
  exact Scanner.startsToken_of_safe hkeys.1.isPlainSafe

theorem Tree.tokens_list {items : List Tree} (h : items ≠ []) (inMap : Bool) :
    (Tree.list items).tokens inMap =
      if inMap then itemTokens items
      else .blockSequenceStart :: itemTokens items ++ [.blockEnd] := by
  rw [Tree.tokens]
  exact h

theorem Tree.tokens_map {entries : List (String × Tree)} (h : entries ≠ []) (inMap : Bool) :
    (Tree.map entries).tokens inMap =
      .blockMappingStart :: entryTokens entries ++ [.blockEnd] := by
  rw [Tree.tokens]
  exact h

namespace Scanner

variable {f : Frame} {keyAllowed : Bool} {p : Spot} {i k : Nat} {rest : List Char}

theorem column_endLine (cs : List Char) : (p.afterAll (endLine cs ++ spaces k)).column = k := by
  rw [endLine]
  split
  · rename_i h
    rcases List.eq_nil_or_concat cs with rfl | ⟨ds, c, rfl⟩
    · cases h
    · rw [List.concat_eq_append] at h ⊢
      rw [List.append_assoc]
      exact p.column_line ds (by simpa using h) k
  · rw [List.append_assoc]
    exact p.column_line cs (by decide) k

/-- A text, in the style that it is written in. -/
theorem Leads.text (s : String) (hindent : f.indent = i) (hcol : i < p.column) (hk : k ≤ i)
    (hrest : StartsToken rest) :
    (f.facing none keyAllowed p (endLine (' ' :: writeText i s) ++ (spaces k ++ rest))).Leads
      ((f.add [.scalar s.toList (styleOf s)]).facing none true
        (p.afterAll (endLine (' ' :: writeText i s) ++ spaces k)) rest) := by
  have hcol' : i < (p.after ' ').column := Nat.lt_succ_of_lt hcol
  rcases styleOf_cases s with ⟨hs, h⟩ | ⟨hs, h, hfeed⟩ | hs | ⟨hs, h, hfeed⟩
  · rw [line_plain hs h, line_plain hs h, hs]
    apply (Leads.space (startsToken_of_safe h)).trans
    exact Leads.plain h hindent hcol' hk hrest
  · rw [line_single hs, line_single hs, hs]
    apply (Leads.space (.cons (by decide) _)).trans
    exact Leads.single h hfeed hindent hcol' hrest
  · rw [line_double hs, line_double hs, hs]
    apply (Leads.space (.cons (by decide) _)).trans
    exact Leads.double hindent hcol' hrest
  · have hne : s.toList ≠ [] := List.ne_nil_of_mem hfeed
    rw [line_literal hs hne, line_literal hs hne, hs, ← List.append_assoc _ _ (spaces k)]
    apply (Leads.space (.cons (by decide) _)).trans
    exact Leads.lines hne (List.all_eq_true.mp h) hindent hcol' hk hrest

/-- A word that is written plain. -/
theorem Leads.word {cs : List Char} (h : isPlainSafe cs = true) (hindent : f.indent = i)
    (hcol : i < p.column) (hk : k ≤ i) (hrest : StartsToken rest) :
    ∃ q : Spot, q.column = k ∧
      (f.facing none keyAllowed p (' ' :: (cs ++ '\n' :: (spaces k ++ rest)))).Leads
        ((f.add [.scalar cs .plain]).facing none true q rest) := by
  have hcol' : i < (p.after ' ').column := Nat.lt_succ_of_lt hcol
  exact ⟨_, Spot.column_line _ cs (by decide) k,
    (Leads.space (startsToken_of_safe h)).trans (Leads.plain h hindent hcol' hk hrest)⟩

theorem column_next_line : (p.afterAll ('\n' :: spaces k)).column = k :=
  p.column_line [] (by decide) k

/-- A collection without anything in it. -/
theorem Leads.nothing {o e : Char} {t t' : Token} (h : ((o, t), (e, t')) ∈ flowMarks)
    (hindent : f.indent = i) (hcol : i < p.column) (hrest : StartsToken rest) :
    ∃ q : Spot, q.column = k ∧
      (f.facing none keyAllowed p (' ' :: o :: e :: '\n' :: (spaces k ++ rest))).Leads
        ((f.add [t, t']).facing none true q rest) := by
  have hstart : StartsToken (o :: e :: '\n' :: (spaces k ++ rest)) := by
    simp only [flowMarks, List.mem_cons, Prod.mk.injEq, List.not_mem_nil, or_false] at h
    rcases h with ⟨⟨rfl, _⟩, _⟩ | ⟨⟨rfl, _⟩, _⟩ <;> exact .cons (by decide) _
  have hcol' : f.indent < (p.after ' ').column := by
    have hspot : (p.after ' ').column = p.column + 1 := rfl
    omega
  exact ⟨_, column_next_line, (Leads.space hstart).trans (Leads.emptyFlow h hcol' hrest)⟩

mutual

/-- A tree after a key or a dash is read into its tokens, up to where a line
starts that is no part of it. -/
theorem leads_tree (t : Tree) (ht : Writable IsSimpleKey t) (inMap : Bool) {f : Frame} {p : Spot}
    {i k : Nat} {rest : List Char} (hindent : f.indent = i) (hcol : i < p.column)
    (hdash : inMap = false → p.column = i + 1) (hk : k ≤ i) (hrest : StartsToken rest) :
    ∃ q : Spot, q.column = k ∧
      (f.facing none (!inMap) p (writeTree i inMap t ++ (spaces k ++ rest))).Leads
        ((f.add (t.tokens inMap)).facing none true q rest) := by
  cases t with
  | null => exact Leads.word (show isPlainSafe "null".toList = true by decide) hindent hcol hk hrest
  | bool b =>
    cases b
    · exact Leads.word (show isPlainSafe "false".toList = true by decide) hindent hcol hk hrest
    · exact Leads.word (show isPlainSafe "true".toList = true by decide) hindent hcol hk hrest
  | number n =>
    rw [writeTree, Tree.tokens, List.cons_append, List.cons_append, List.append_assoc]
    exact Leads.word (isPlainSafe_number n) hindent hcol hk hrest
  | text s =>
    rw [writeTree, Tree.tokens]
    exact ⟨_, column_endLine _, Leads.text s hindent hcol hk hrest⟩
  | list items =>
    by_cases hne : items = []
    · subst hne
      exact Leads.nothing (List.mem_cons_self) hindent hcol hrest
    · have hstart := fun n => startsToken_items hne n (spaces k ++ rest)
      rw [writeTree_list hne, Tree.tokens_list hne]
      cases inMap with
      | true =>
        obtain ⟨q, hq, hrun⟩ := leads_items items ht hne column_next_line
          (Int.le_of_eq hindent) hk hrest
        refine ⟨q, hq, ?_⟩
        rw [Frame.within_eq hindent] at hrun
        rw [writeItems_fresh hne, if_pos rfl, if_pos rfl, List.cons_append, List.append_assoc]
        exact (Leads.line (hstart i) (fades_none _)).trans hrun
      | false =>
        have hnext : (p.after ' ').column = i + 2 := congrArg Nat.succ (hdash rfl)
        have hless : f.indent < (i + 2 : Nat) := by omega
        obtain ⟨q, hq, hrun⟩ := leads_items items ht hne hnext (Int.le_of_lt hless)
          (Nat.le_add_right_of_le hk) hrest
        refine ⟨q, hq, (Leads.space (hstart (i + 2))).trans (hrun.trans ?_)⟩
        rw [Frame.within_eq_enter hless]
        exact Leads.leave (by omega) hrest
  | map entries =>
    by_cases hne : entries = []
    · subst hne
      exact Leads.nothing (List.mem_cons_of_mem _ List.mem_cons_self) hindent hcol hrest
    · have hstart := startsToken_entries ht hne (i + 2) (spaces k ++ rest)
      have hless : f.indent < (i + 2 : Nat) := by omega
      have hrun : ∀ q : Spot, q.column = i + 2 → ∃ r : Spot, r.column = k ∧
          (f.facing none true q (writeEntries (i + 2) false entries ++ (spaces k ++ rest))).Leads
            ((f.add (.blockMappingStart :: entryTokens entries ++ [.blockEnd])).facing none true r
              rest) := by
        intro q hq
        obtain ⟨r, hr, hrun⟩ := leads_entries entries ht hne hq (Int.le_of_lt hless)
          (Nat.le_add_right_of_le hk) hrest
        rw [Frame.within_eq_enter hless] at hrun
        exact ⟨r, hr, hrun.trans (Leads.leave (by omega) hrest)⟩
      rw [writeTree_map hne, Tree.tokens_map hne]
      cases inMap with
      | true =>
        obtain ⟨q, hq, hrun⟩ := hrun _ column_next_line
        refine ⟨q, hq, ?_⟩
        rw [writeEntries_fresh hne, if_pos rfl, List.cons_append, List.append_assoc]
        exact (Leads.line hstart (fades_none _)).trans hrun
      | false =>
        obtain ⟨q, hq, hrun⟩ := hrun (p.after ' ') (congrArg Nat.succ (hdash rfl))
        exact ⟨q, hq, (Leads.space hstart).trans hrun⟩

theorem leads_items (items : List Tree) (hitems : WritableItems IsSimpleKey items)
    (hne : items ≠ []) {f : Frame} {p : Spot} {c k : Nat} {rest : List Char} (hp : p.column = c)
    (hcol : f.indent ≤ c) (hk : k ≤ c) (hrest : StartsToken rest) :
    ∃ q : Spot, q.column = k ∧
      (f.facing none true p (writeItems c false items ++ (spaces k ++ rest))).Leads
        (((f.within c .blockSequenceStart).add (itemTokens items)).facing none true q rest) := by
  cases items with
  | nil => exact absurd rfl hne
  | cons item items =>
    obtain ⟨hitem, hitems⟩ := hitems
    have htext : writeItems c false (item :: items) ++ (spaces k ++ rest) =
        '-' :: (writeTree c false item ++ (writeItems c true items ++ (spaces k ++ rest))) := by
      rw [writeItems]
      simp
    have hstart := Leads.dash (f := f) (p := p) (by omega)
      (isGap_writeTree c false item (writeItems c true items ++ (spaces k ++ rest)))
    have hindent : ∀ ts, ((f.within c .blockSequenceStart).add ts).indent = c :=
      fun _ => Frame.indent_within hcol
    have hnext : (p.after '-').column = c + 1 := by rw [← hp]; rfl
    rw [hp] at hstart
    rw [htext, itemTokens]
    by_cases hlast : items = []
    · subst hlast
      obtain ⟨q, hq, htree⟩ := leads_tree item hitem false (hindent _) (by omega) (fun _ => hnext)
        hk hrest
      rw [Frame.add_add] at htree
      rw [itemTokens, List.append_nil, writeItems, List.nil_append]
      rw [writeItems, List.nil_append] at hstart
      exact ⟨q, hq, hstart.trans htree⟩
    · obtain ⟨q, hq, htree⟩ := leads_tree item hitem false (hindent _) (by omega) (fun _ => hnext)
        (Nat.le_refl c) (startsToken_items hlast c (spaces k ++ rest))
      rw [Frame.add_add] at htree
      obtain ⟨r, hr, hrun⟩ := leads_items items hitems hlast hq
        (Int.le_of_eq (hindent ([.blockEntry] ++ item.tokens false))) hk hrest
      refine ⟨r, hr, hstart.trans ?_⟩
      rw [writeItems_fresh hlast, List.append_assoc]
      have h := htree.trans hrun
      rwa [Frame.within_add hcol, Frame.add_add] at h

theorem leads_entries (entries : List (String × Tree))
    (hentries : WritableEntries IsSimpleKey entries) (hne : entries ≠ []) {f : Frame}
    {p : Spot} {c k : Nat} {rest : List Char} (hp : p.column = c) (hcol : f.indent ≤ c)
    (hk : k ≤ c) (hrest : StartsToken rest) :
    ∃ q : Spot, q.column = k ∧
      (f.facing none true p (writeEntries c false entries ++ (spaces k ++ rest))).Leads
        (((f.within c .blockMappingStart).add (entryTokens entries)).facing none true q rest) := by
  cases entries with
  | nil => exact absurd rfl hne
  | cons entry entries =>
    obtain ⟨key, value⟩ := entry
    obtain ⟨hkey, hvalue, hentries⟩ := hentries
    have hstart := Leads.key (f := f) (p := p) hkey.isPlainSafe hkey.short (by omega)
      (isGap_writeTree c true value (writeEntries c true entries ++ (spaces k ++ rest)))
    have hindent : ∀ ts, ((f.within c .blockMappingStart).add ts).indent = c :=
      fun _ => Frame.indent_within hcol
    have hnext : c < (p.afterAll (key.toList ++ [':'])).column := by
      rw [Spot.afterAll_append, p.afterAll_same_line (isBreak_of_safe hkey.isPlainSafe), ← hp]
      exact Nat.lt_succ_of_le (Nat.le_add_right _ _)
    rw [hp] at hstart
    rw [writeEntries_cons hkey, entryTokens]
    by_cases hlast : entries = []
    · subst hlast
      obtain ⟨q, hq, htree⟩ := leads_tree value hvalue true (hindent _) hnext (fun h => nomatch h)
        hk hrest
      rw [Frame.add_add] at htree
      rw [entryTokens, List.append_nil, writeEntries, List.nil_append]
      rw [writeEntries, List.nil_append] at hstart
      exact ⟨q, hq, hstart.trans htree⟩
    · obtain ⟨q, hq, htree⟩ := leads_tree value hvalue true (hindent _) hnext (fun h => nomatch h)
        (Nat.le_refl c) (startsToken_entries hentries hlast c (spaces k ++ rest))
      rw [Frame.add_add] at htree
      obtain ⟨r, hr, hrun⟩ := leads_entries entries hentries hlast hq (Int.le_of_eq
        (hindent ([.key, .scalar key.toList .plain, .value] ++ value.tokens true))) hk hrest
      refine ⟨r, hr, hstart.trans ?_⟩
      rw [writeEntries_fresh hlast, List.append_assoc]
      have h := htree.trans hrun
      rwa [Frame.within_add hcol, Frame.add_add] at h

end

end Scanner

/-- The text of a map is read into the tokens of the map. -/
theorem scan?_renderMap {entries : List (String × Tree)} (hne : entries ≠ [])
    (hkeys : WritableEntries IsSimpleKey entries) :
    Token.scan? (renderMap entries) =
      some (.blockMappingStart :: entryTokens entries ++ [.blockEnd, .streamEnd]) := by
  have htext : (renderMap entries).toList =
      writeEntries 0 false entries ++ (spaces 0 ++ []) := by
    rw [renderMap, String.toList_ofList, writeEntries_fresh hne]
    simp [spaces]
  have hprint : ∀ c ∈ (renderMap entries).toList, isPrintable c = true := by
    rw [renderMap, String.toList_ofList]
    exact List.all_eq_true.mp (all_writeEntries 0 true entries)
  obtain ⟨q, hq, hrun⟩ := Scanner.leads_entries entries hkeys hne (f := ⟨[], -1, []⟩)
    (p := ⟨0, 0, 0⟩) rfl (by decide) (Nat.le_refl 0) .nil
  obtain ⟨fuel, hfuel, hend⟩ := hrun _ (Nat.lt_succ_self _)
  rw [Token.scan?, cells?_of_printable hprint, htext]
  refine Eq.trans hend ?_
  exact Scanner.run_end (Nat.zero_lt_of_lt hfuel) hq

end AbstractMemory.Yaml
