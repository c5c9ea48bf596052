import AbstractMemory.Node.Lookup
import AbstractMemory.Proofs.Blocks
import AbstractMemory.Proofs.Steps
import Mathlib

/-! What steps on the arena keep. Looking up and merging nodes adds values at
most and leaves every allocation as it is. An allocation is built field by
field after all that was there. -/

namespace AbstractMemory

open Steps

namespace Arena

variable {a a' a'' : Arena} {v : Nat} {done : List Bool}

/-- No object is added, and no value is mapped to another one. -/
structure Retains (a a' : Arena) : Prop extends a.Extends a' where
  added : ∀ n node, a'.get? n = some node → a.size ≤ n → node.isObject = false ∧ node.offset = 0
  objectNodes : a'.objectNodes = a.objectNodes
  variadicNodes : a'.variadicNodes = a.variadicNodes

theorem Retains.refl (a : Arena) : a.Retains a :=
  ⟨Extends.refl a, fun n _ hn hle => by simp [get?_eq_none.mpr hle] at hn, rfl, rfl⟩

theorem Retains.trans (h : a.Retains a') (h' : a'.Retains a'') : a.Retains a'' where
  toExtends := h.toExtends.trans h'.toExtends
  added := by
    intro n node hn hle
    by_cases hlt : n < a'.size
    · obtain ⟨old, link, hold, rfl⟩ := h'.get?_old hlt hn
      exact h.added n old hold hle
    · exact h'.added n node hn (by omega)
  objectNodes := h'.objectNodes.trans h.objectNodes
  variadicNodes := h'.variadicNodes.trans h.variadicNodes

theorem Retains.tidy (h : a.Retains a') (ht : a.Tidy) : a'.Tidy where
  follows := by
    intro n node hn hoff
    by_cases hlt : n < a.size
    · obtain ⟨old, link, hold, rfl⟩ := h.get?_old hlt hn
      obtain ⟨hobj, horigin, m, before, rfl, hm, hbefore, hnext⟩ := ht.follows n old hold hoff
      obtain ⟨link', hm'⟩ := h.keeps m before hm
      exact ⟨hobj, horigin, m, _, rfl, hm', hbefore, hnext⟩
    · exact absurd (h.added n node hn (by omega)).2 hoff
  owner := by
    intro n node v hn hobj horigin
    rw [h.objectNodes, h.variadicNodes]
    by_cases hlt : n < a.size
    · obtain ⟨old, link, hold, rfl⟩ := h.get?_old hlt hn
      exact ht.owner n old v hold hobj horigin
    · simp [(h.added n node hn (by omega)).1] at hobj

theorem get?_push {node : MemoryNode} (h : a'.nodes = a.nodes.push node) (n : Nat) :
    a'.get? n = if n = a.size then some node else a.get? n := by
  rw [get?, get?, h, Array.getElem?_push]
  rfl

theorem size_push {node : MemoryNode} (h : a'.nodes = a.nodes.push node) :
    a'.size = a.size + 1 := by
  simp [size, h]

theorem keeps_push {node : MemoryNode} (h : a'.nodes = a.nodes.push node) (n : Nat)
    (old : MemoryNode) (hn : a.get? n = some old) :
    ∃ link, a'.get? n = some { old with link := link } := by
  have hlt := lt_size_of_get? hn
  exact ⟨old.link, by rw [get?_push h, if_neg (by omega), hn]⟩

theorem extends_push {node : MemoryNode} (h : a'.nodes = a.nodes.push node)
    (hoff : node.offset = 0) : a.Extends a' := by
  refine ⟨keeps_push h, ?_⟩
  intro node' hn
  rw [get?_push h, if_pos rfl] at hn
  rwa [← Option.some.inj hn]

theorem Extends.push {node : MemoryNode} (h : a.Extends a') (hlt : a.size < a'.size)
    (hn : a''.nodes = a'.nodes.push node) : a.Extends a'' where
  keeps := by
    intro n old hold
    obtain ⟨_, hn'⟩ := h.keeps n old hold
    obtain ⟨link, hn''⟩ := keeps_push hn n _ hn'
    exact ⟨link, hn''⟩
  starts := by
    intro node' hstart
    rw [get?_push hn, if_neg (by omega)] at hstart
    exact h.starts node' hstart

theorem retains_push {node : MemoryNode} (h : a'.nodes = a.nodes.push node)
    (hobj : node.isObject = false) (hoff : node.offset = 0)
    (hobjects : a'.objectNodes = a.objectNodes) (hvariadic : a'.variadicNodes = a.variadicNodes) :
    a.Retains a' := by
  refine ⟨extends_push h hoff, ?_, hobjects, hvariadic⟩
  intro n node' hn hle
  rw [get?_push h] at hn
  split at hn
  · obtain rfl := Option.some.inj hn
    exact ⟨hobj, hoff⟩
  · simp [get?_eq_none.mpr hle] at hn

theorem retains_of_nodes (h : a'.nodes = a.nodes) (hobjects : a'.objectNodes = a.objectNodes)
    (hvariadic : a'.variadicNodes = a.variadicNodes) : a.Retains a' := by
  have hget : ∀ n, a'.get? n = a.get? n := fun n => by simp [get?, h]
  have hrefl := Retains.refl a
  refine ⟨⟨?_, ?_⟩, ?_, hobjects, hvariadic⟩
  · simpa only [hget] using hrefl.keeps
  · simpa only [hget] using hrefl.starts
  · simpa only [hget] using hrefl.added

/-- One more node leaves an arena tidy if it goes on with the last one or starts
anew, and its origin knows of it. -/
theorem Tidy.push {node : MemoryNode} (ht : a.Tidy) (h : a'.nodes = a.nodes.push node)
    (hobjects : ∀ v n : Nat, a.objectNodes[v]? = some n → a'.objectNodes[v]? = some n)
    (hvariadic : ∀ v n : Nat, a.variadicNodes[v]? = some n → a'.variadicNodes[v]? = some n)
    (hfollows : node.offset ≠ 0 → node.isObject = true ∧ node.origin = none ∧ ∃ m before,
      a.size = m + 1 ∧ a.get? m = some before ∧ before.isObject = true ∧
        node.offset = before.offset + 1)
    (howner : ∀ v, node.isObject = true → node.origin = some v →
      a'.objectNodes[v]? = some a.size ∨ a'.variadicNodes[v]? = some a.size) : a'.Tidy where
  follows := by
    intro n node' hn hoff
    rw [get?_push h] at hn
    split at hn
    · rename_i hnew
      obtain rfl := Option.some.inj hn
      obtain ⟨hobj, horigin, m, before, hm, hbefore, hnext⟩ := hfollows hoff
      exact ⟨hobj, horigin, m, before, by omega, by rw [get?_push h, if_neg (by omega), hbefore],
        hnext⟩
    · obtain ⟨hobj, horigin, m, before, rfl, hm, hnext⟩ := ht.follows n node' hn hoff
      have hlt := lt_size_of_get? hm
      exact ⟨hobj, horigin, m, before, rfl, by rw [get?_push h, if_neg (by omega), hm], hnext⟩
  owner := by
    intro n node' v hn hobj horigin
    rw [get?_push h] at hn
    split at hn
    · rename_i hnew
      obtain rfl := Option.some.inj hn
      exact hnew ▸ howner v hobj horigin
    · exact (ht.owner n node' v hn hobj horigin).imp (hobjects v n) (hvariadic v n)

theorem meets_ask {α : Type} {f : Arena → Except NodeError α} {good : α → Arena → Prop}
    {bad : Arena → Prop} (hok : ∀ x, f a = .ok x → good x a)
    (herr : ∀ e, f a = .error e → bad a) : Meets (ask f) a good bad := by
  unfold Meets ask
  cases hf : f a with
  | ok x => exact hok x hf
  | error e => exact herr e hf

theorem meets_askProgram {α : Type} {answer : Except ProgramError α} {good : α → Arena → Prop}
    {bad : Arena → Prop} (hok : ∀ x, answer = .ok x → good x a)
    (herr : ∀ e, answer = .error e → bad a) : Meets (askProgram answer) a good bad := by
  cases answer with
  | ok x => exact hok x rfl
  | error e => exact herr e rfl

/-! ### What each step does -/

section Cases

variable {base offset field function n : Nat} {isUnion isHeap : Bool} {good : Nat → Arena → Prop}
  {bad : Arena → Prop}

theorem meets_createValue (hold : v ∈ a.valueNodes → bad a)
    (hnew : v ∉ a.valueNodes → good a.size
      { a with
        nodes := a.nodes.push { kind := .value, link := a.size, origin := some v }
        valueNodes := a.valueNodes.insert v a.size }) :
    Meets (createValue (some v)) a good bad := by
  unfold createValue
  rw [meets_get_bind]
  dsimp only
  split
  · rename_i hin
    exact hold (Std.TreeMap.contains_iff_mem.mp hin)
  · rename_i hout
    exact hnew (by simpa using hout)

theorem meets_createObject (hold : ∀ n, a.objectNodes[v]? = some n → good n a)
    (hnew : v ∉ a.objectNodes → good a.size
      { a with
        nodes := a.nodes.push
          { kind := .object, link := a.size, origin := some v, isUnion, isHeap }
        objectNodes := a.objectNodes.insert v a.size }) :
    Meets (createObject (some v) isUnion isHeap) a good bad := by
  unfold createObject
  rw [meets_get_bind]
  split
  · rename_i n hn
    exact hold n hn
  · rename_i hnone
    exact hnew (by simpa using hnone)

theorem meets_createField
    (hrefused : offset = 0 ∨ (∀ node, a.object base ≠ .ok node) ∨ base + offset ≠ a.size → bad a)
    (hnew : 0 < offset → base + offset = a.size → good a.size
      { a with
        nodes := a.nodes.push
          { kind := .object, link := a.size, origin := none, offset, isUnion, isHeap } }) :
    Meets (createField base offset isUnion isHeap) a good bad := by
  unfold createField
  split
  · rename_i hzero
    exact hrefused (.inl hzero)
  · rename_i hpos
    refine Meets.bind (meets_ask (fun _ _ => rfl) (fun e he => hrefused (.inr (.inl ?_)))
      : Meets _ a (fun _ a₁ => a = a₁) bad) ?_
    · intro node hnode
      simp [hnode] at he
    · rintro _ _ rfl
      rw [meets_get_bind]
      split
      · rename_i hgap
        exact hrefused (.inr (.inr hgap))
      · rename_i hnext
        exact hnew (by omega) (by omega)

theorem meets_createReturn (hold : function ∈ a.returnNodes → bad a)
    (hnew : function ∉ a.returnNodes → good a.size
      { a with
        nodes := a.nodes.push { kind := .value, link := a.size, origin := some function }
        returnNodes := a.returnNodes.insert function a.size }) :
    Meets (createReturn function) a good bad := by
  unfold createReturn
  rw [meets_get_bind]
  split
  · rename_i hin
    exact hold (Std.TreeMap.contains_iff_mem.mp hin)
  · rename_i hout
    exact hnew (by simpa using hout)

theorem meets_createVariadic (hold : function ∈ a.variadicNodes → bad a)
    (hnew : function ∉ a.variadicNodes → good a.size
      { a with
        nodes := a.nodes.push { kind := .object, link := a.size, origin := some function }
        variadicNodes := a.variadicNodes.insert function a.size }) :
    Meets (createVariadic function) a good bad := by
  unfold createVariadic
  rw [meets_get_bind]
  split
  · rename_i hin
    exact hold (Std.TreeMap.contains_iff_mem.mp hin)
  · rename_i hout
    exact hnew (by simpa using hout)

theorem meets_aliasObject {good : Unit → Arena → Prop}
    (hrefused : (∀ node, a.object n ≠ .ok node) → bad a)
    (hnew : good () { a with objectNodes := a.objectNodes.insert v n }) :
    Meets (aliasObject v n) a good bad := by
  unfold aliasObject
  refine Meets.bind (meets_ask (fun _ _ => rfl) (fun e he => hrefused ?_)
    : Meets _ a (fun _ a₁ => a = a₁) bad) ?_
  · intro node hnode
    simp [hnode] at he
  · rintro _ _ rfl
    exact hnew

/-- The node for a field is the one that is known, or else the node of the
address that asks, which gets one if it has none. It does not fail. -/
theorem meets_fieldPointer
    (hknown : ∀ n, a.fieldPointers.lookup (base, field) = some n → good n a)
    (hown : ∀ n, a.fieldPointers.lookup (base, field) = none → a.valueNodes[v]? = some n → good n
      { a with
        fieldPointers := ((base, field), n) :: a.fieldPointers
        fieldPointerOrigins := a.fieldPointerOrigins.insert n (base, field) })
    (hnew : a.fieldPointers.lookup (base, field) = none → v ∉ a.valueNodes → good a.size
      { a with
        nodes := a.nodes.push { kind := .value, link := a.size, origin := some v }
        valueNodes := a.valueNodes.insert v a.size
        fieldPointers := ((base, field), a.size) :: a.fieldPointers
        fieldPointerOrigins := a.fieldPointerOrigins.insert a.size (base, field) }) :
    Meets (fieldPointer v base field) a good bad := by
  unfold fieldPointer
  rw [meets_get_bind]
  split
  · rename_i n hn
    exact hknown n hn
  · rename_i hlookup
    dsimp only
    split
    · rename_i n hn
      exact hown n hlookup hn
    · rename_i hnone
      have hv : v ∉ a.valueNodes := by simpa using hnone
      refine Meets.bind (meets_createValue (fun hin => absurd hin hv) (fun _ => ⟨rfl, rfl⟩)
        : Meets _ a (fun n a' => n = a.size ∧ a' = _) bad) ?_
      rintro _ _ ⟨rfl, rfl⟩
      exact hnew hlookup hv

end Cases

/-! ### Looking up and merging -/

theorem get?_setLink (a : Arena) (n target m : Nat) : (a.setLink n target).get? m =
    (a.get? m).map fun node => if n = m then { node with link := target } else node := by
  simp only [get?, setLink, Array.getElem?_modify]
  split <;> simp

theorem setLink_retains (a : Arena) (n target : Nat) : a.Retains (a.setLink n target) := by
  refine ⟨⟨?_, ?_⟩, ?_, rfl, rfl⟩
  · intro m node hm
    rw [get?_setLink, hm]
    by_cases hnm : n = m
    · exact ⟨target, by simp [hnm]⟩
    · exact ⟨node.link, by simp [hnm]⟩
  · simp [get?_setLink, get?_eq_none.mpr (Nat.le_refl a.size)]
  · intro m node hm hle
    simp [get?_setLink, get?_eq_none.mpr hle] at hm

theorem target_retains (a : Arena) (n : Nat) :
    Meets (target n) a (fun _ => a.Retains) a.Retains := by
  have hrun : ∀ (l : List Nat) (root : Nat) (a : Arena),
      a.Retains (l.foldl (fun a m => a.setLink m root) a) := by
    intro l root
    induction l with
    | nil => exact Retains.refl
    | cons m rest ih => exact fun a => (setLink_retains a m root).trans (ih _)
  unfold target
  rw [meets_get_bind]
  refine Meets.bind (meets_ask (fun _ _ => rfl) (fun _ _ => Retains.refl a)
    : Meets _ a (fun _ a' => a' = a) a.Retains) ?_
  rintro root _ rfl
  exact hrun _ root _

theorem merge_retains (a : Arena) (m n : Nat) :
    Meets (merge m n) a (fun _ => a.Retains) a.Retains := by
  unfold merge
  refine (target_retains a m).bind ?_
  intro rootA a₁ h₁
  refine Meets.bind ((target_retains a₁ n).mono (fun _ _ h => h₁.trans h) fun _ h => h₁.trans h) ?_
  intro rootB a₂ h₂
  split
  · exact h₂
  · split
    · exact h₂
    · exact h₂.trans (setLink_retains a₂ rootB rootA)

theorem taint_retains (a : Arena) (n : Nat) :
    Meets (taint n) a (fun _ => a.Retains) a.Retains := by
  unfold taint
  refine Meets.bind (meets_ask (fun _ _ => rfl) (fun _ _ => Retains.refl a)
    : Meets _ a (fun _ a' => a' = a) a.Retains) ?_
  rintro node _ rfl
  split
  · exact retains_of_nodes rfl rfl rfl
  · exact Retains.refl _

theorem createValue_meets (a : Arena) (v : Nat) :
    Meets (createValue (some v)) a
      (fun _ a' => a.Retains a' ∧ v ∉ a.valueNodes ∧ a'.valueNodes = a.valueNodes.insert v a.size)
      a.Retains :=
  meets_createValue (fun _ => Retains.refl a)
    fun hnew => ⟨retains_push rfl rfl rfl rfl rfl, hnew, rfl⟩

theorem fieldPointer_retains (a : Arena) (v base field : Nat) :
    Meets (fieldPointer v base field) a (fun _ => a.Retains) a.Retains :=
  meets_fieldPointer (fun _ _ => Retains.refl a) (fun _ _ _ => retains_of_nodes rfl rfl rfl)
    fun _ _ => retains_push rfl rfl rfl rfl rfl

/-- A look-up moves the arena only as far as nodes for fields do. -/
theorem valueNode_moves {moves : Arena → Arena → Prop} (hrefl : ∀ a, moves a a)
    (htrans : ∀ a a' a'', moves a a' → moves a' a'' → moves a a'')
    (hfield : ∀ a v base field, Meets (fieldPointer v base field) a (fun _ => moves a) (moves a))
    (p : Program) (c : Catalog) (a : Arena) (v : Nat) :
    Meets (valueNode p c v) a (fun _ => moves a) (moves a) := by
  induction v using Nat.strong_induction_on generalizing a with
  | _ v ih =>
    have hask : ∀ {α : Type} (answer : Except ProgramError α) (a : Arena),
        Meets (askProgram answer) a (fun _ a' => a' = a) (moves a) :=
      fun _ a => meets_askProgram (fun _ _ => rfl) (fun _ _ => hrefl a)
    have hbelow : ∀ (u : Nat) (a : Arena) (next : Option Nat → Arranging (Option Nat)),
        (∀ found a₁, moves a a₁ → Meets (next found) a₁ (fun _ => moves a) (moves a)) →
        Meets (if u < v then valueNode p c u >>= next else pure none >>= next) a
          (fun _ => moves a) (moves a) := by
      intro u a next hnext
      split
      · rename_i hlt
        exact (ih u hlt a).bind hnext
      · exact hnext none a (hrefl a)
    rw [valueNode]
    refine (hask _ a).bind ?_
    rintro value _ rfl
    split
    · split
      · exact hrefl _
      · split
        · exact hrefl _
        · exact hrefl _
        · exact hrefl _
        · exact hrefl _
        · refine (hask _ _).bind ?_
          rintro object _ rfl
          extract_lets next
          refine hbelow object _ next ?_
          intro found a₁ h₁
          cases found with
          | none => exact h₁
          | some base =>
            dsimp only [next]
            split
            · exact h₁
            · refine Meets.bind ((hask _ a₁).mono (fun _ _ h => h) fun _ h =>
                htrans _ _ _ h₁ h) ?_
              rintro field _ rfl
              split
              · exact h₁
              · exact Meets.bind ((hfield _ v base field.index).mono
                  (fun _ _ h => htrans _ _ _ h₁ h) fun _ h => htrans _ _ _ h₁ h) fun _ _ h => h
        · split
          · extract_lets next
            refine hbelow _ _ next ?_
            intro found a₁ h₁
            cases found with
            | none => exact h₁
            | some base => exact h₁
          · split
            · exact hrefl _
            · exact hrefl _
        · exact hrefl _
    · refine (hask _ _).bind ?_
      rintro found _ rfl
      split <;> exact hrefl _
    · refine (hask _ _).bind ?_
      rintro found _ rfl
      split <;> exact hrefl _
    · exact hrefl _

theorem valueNode_retains (p : Program) (c : Catalog) (a : Arena) (v : Nat) :
    Meets (valueNode p c v) a (fun _ => a.Retains) a.Retains :=
  valueNode_moves Retains.refl (fun _ _ _ => Retains.trans) fieldPointer_retains
    p c a v

/-! ### Building allocations -/

theorem createReturn_meets (a : Arena) (function : Nat) :
    Meets (createReturn function) a (fun _ a' => a.Retains a' ∧ a'.valueNodes = a.valueNodes)
      (fun _ => True) :=
  meets_createReturn (fun _ => trivial) fun _ => ⟨retains_push rfl rfl rfl rfl rfl, rfl⟩

theorem getElem?_insert_node {nodes : Std.TreeMap Nat Nat} {k u n : Nat} :
    (nodes.insert k n)[u]? = if k = u then some n else nodes[u]? := by
  simp only [Std.TreeMap.getElem?_insert, Std.LawfulEqCmp.compare_eq_iff_eq]

theorem getElem?_insert_new {nodes : Std.TreeMap Nat Nat} {k u m n : Nat} (hk : k ∉ nodes)
    (h : nodes[u]? = some m) : (nodes.insert k n)[u]? = some m := by
  have hne : k ≠ u := by
    rintro rfl
    rw [Std.TreeMap.getElem?_eq_none hk] at h
    cases h
  rw [getElem?_insert_node, if_neg hne, h]

theorem createVariadic_meets (ht : a.Tidy) (function : Nat) :
    Meets (createVariadic function) a
      (fun _ a' => a'.Tidy ∧ a.Extends a' ∧ a'.objectNodes = a.objectNodes ∧
        a'.valueNodes = a.valueNodes ∧ a'.variadicNodes = a.variadicNodes.insert function a.size)
      (fun _ => True) := by
  refine meets_createVariadic (fun _ => trivial) ?_
  intro hnew
  refine ⟨ht.push rfl (fun _ _ h => h) ?_ (fun h => absurd rfl h) ?_, extends_push rfl rfl, rfl,
    rfl, rfl⟩
  · exact fun v n h => getElem?_insert_new hnew h
  · intro v _ horigin
    obtain rfl := Option.some.inj horigin
    exact .inr (by simp)

/-- Only `v` is mapped to an object anew, and what is added does not go on with
the last allocation. -/
structure Maps (a a' : Arena) (v : Nat) : Prop extends a.Extends a' where
  valueNodes : a'.valueNodes = a.valueNodes
  variadicNodes : a'.variadicNodes = a.variadicNodes
  others : ∀ u, u ≠ v → a'.objectNodes[u]? = a.objectNodes[u]?

/-- The arena `a'` is `a` with an allocation for `v` that has the fields `done`
so far. -/
structure Building (a a' : Arena) (v : Nat) (done : List Bool) : Prop extends a.Maps a' v where
  tidy : a'.Tidy
  mapped : a'.objectNodes[v]? = some a.size
  block : a'.Block v a.size done
  size : a'.size = a.size + done.length

theorem createObject_meets (ht : a.Tidy) (hv : v ∉ a.objectNodes) (isUnion isHeap : Bool) :
    Meets (createObject (some v) isUnion isHeap) a
      (fun n a' => n = a.size ∧ Building a a' v [isUnion]) (fun _ => True) := by
  refine meets_createObject (fun n hn => by simp [Std.TreeMap.getElem?_eq_none hv] at hn) ?_
  intro _
  refine ⟨rfl, ⟨⟨extends_push rfl rfl, rfl, rfl, ?_⟩, ?_, ?_, ?_, size_push rfl⟩⟩
  · intro u hu
    rw [getElem?_insert_node, if_neg fun h => hu h.symm]
  · refine ht.push rfl (fun u n h => getElem?_insert_new hv h) (fun _ _ h => h)
      (fun h => absurd rfl h) ?_
    intro u _ horigin
    obtain rfl := Option.some.inj horigin
    exact .inl (by simp)
  · simp
  · refine ⟨by simp, ?_, ?_⟩
    · intro i flag hi
      obtain ⟨rfl, rfl⟩ : i = 0 ∧ isUnion = flag := by simpa [List.getElem?_singleton] using hi
      exact ⟨_, (get?_push rfl _).trans (if_pos rfl), rfl, rfl, rfl, rfl⟩
    · intro node hn
      exact absurd ((lt_size_of_get? hn).trans_eq (size_push (a := a) rfl)) (Nat.lt_irrefl _)

theorem Building.push (h : Building a a' v done) (node : MemoryNode)
    (hn : a''.nodes = a'.nodes.push node) (hobj : node.isObject = true)
    (hoff : node.offset = done.length) (horigin : node.origin = none)
    (hvalues : a''.valueNodes = a'.valueNodes) (hobjects : a''.objectNodes = a'.objectNodes)
    (hvariadic : a''.variadicNodes = a'.variadicNodes) :
    Building a a'' v (done ++ [node.isUnion]) := by
  have hpos := h.block.pos
  have hsize := h.size
  refine ⟨⟨h.toExtends.push (by omega) hn, hvalues.trans h.valueNodes,
    hvariadic.trans h.variadicNodes, hobjects ▸ h.others⟩, ?_, hobjects ▸ h.mapped, ?_, ?_⟩
  · refine h.tidy.push hn (fun v n => by rw [hobjects]; exact id)
      (fun v n => by rw [hvariadic]; exact id) (fun _ => ?_) (fun _ _ hv => by simp [horigin] at hv)
    -- the field before is the last one of the block
    obtain ⟨before, hbefore, hobj', hoff', _⟩ := h.block.get (i := done.length - 1) (by omega)
    exact ⟨hobj, horigin, _, before, by omega, hbefore, hobj', by omega⟩
  · refine ⟨by simp, ?_, ?_⟩
    · intro i flag hi
      rw [get?_push hn, hsize]
      rcases Nat.lt_trichotomy i done.length with hlt | rfl | hgt
      · rw [List.getElem?_append_left hlt] at hi
        rw [if_neg (by omega)]
        exact h.block.field i flag hi
      · obtain rfl : node.isUnion = flag := by simpa using hi
        rw [if_pos rfl]
        exact ⟨node, rfl, hobj, hoff, by rw [horigin, if_neg (by omega)], rfl⟩
      · rw [List.getElem?_eq_none (by simp; omega)] at hi
        cases hi
    · intro last hlast
      have hlt := lt_size_of_get? hlast
      rw [size_push hn, List.length_append, List.length_singleton] at hlt
      omega
  · rw [size_push hn, List.length_append, List.length_singleton]
    omega

theorem createField_meets (h : Building a a' v done) (isUnion isHeap : Bool) :
    Meets (createField a.size done.length isUnion isHeap) a'
      (fun _ a'' => Building a a'' v (done ++ [isUnion])) (fun _ => True) := by
  refine meets_createField (fun _ => trivial) ?_
  intro _ _
  exact h.push
    { kind := .object, link := a'.size, origin := none, offset := done.length, isUnion, isHeap }
    rfl rfl rfl rfl rfl rfl rfl

theorem aliasObject_meets (ht : a.Tidy) (hv : v ∉ a.objectNodes) (n : Nat) :
    Meets (aliasObject v n) a
      (fun _ a' => a.Maps a' v ∧ a'.Tidy ∧ a'.objectNodes[v]? = some n) (fun _ => True) := by
  refine meets_aliasObject (fun _ => trivial) ?_
  refine ⟨⟨⟨(Extends.refl a).keeps, (Extends.refl a).starts⟩, rfl, rfl, ?_⟩,
    ⟨ht.follows, ?_⟩, by simp⟩
  · intro u hu
    rw [getElem?_insert_node, if_neg fun h => hu h.symm]
  · intro m node u hm hobj horigin
    exact (ht.owner m node u hm hobj horigin).imp (getElem?_insert_new hv) id

end Arena

end AbstractMemory
