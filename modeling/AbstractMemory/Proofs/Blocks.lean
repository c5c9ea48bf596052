import AbstractMemory.Node.Arena
import Mathlib

/-! Where objects lie in the arena. The nodes of one allocation are a block:
their fields count up from zero, and the node after them does not go on. What
the arena finds by looking at neighbours is then what the block says. -/

namespace AbstractMemory

namespace Arena

variable {a a' a'' : Arena} {v b : Nat} {flags : List Bool}

/-- A further field follows the field before it and has no origin of its own.
Objects with an origin are the ones that their origin is mapped to. -/
structure Tidy (a : Arena) : Prop where
  follows : ∀ n node, a.get? n = some node → node.offset ≠ 0 →
    node.isObject = true ∧ node.origin = none ∧ ∃ m before, n = m + 1 ∧
      a.get? m = some before ∧ before.isObject = true ∧ node.offset = before.offset + 1
  owner : ∀ n node v, a.get? n = some node → node.isObject = true → node.origin = some v →
    a.objectNodes[v]? = some n ∨ a.variadicNodes[v]? = some n

/-- The nodes from `b` on are the fields of one allocation made for `v`, and
`flags` says which of them are unions. -/
structure Block (a : Arena) (v b : Nat) (flags : List Bool) : Prop where
  nonempty : flags ≠ []
  field : ∀ i flag, flags[i]? = some flag → ∃ node, a.get? (b + i) = some node ∧
    node.isObject = true ∧ node.offset = i ∧ node.origin = (if i = 0 then some v else none) ∧
    node.isUnion = flag
  ends : ∀ node, a.get? (b + flags.length) = some node → node.offset = 0

/-- All nodes stay up to their links, and the nodes added do not go on with the
last allocation. -/
structure Extends (a a' : Arena) : Prop where
  keeps : ∀ n node, a.get? n = some node → ∃ link, a'.get? n = some { node with link := link }
  starts : ∀ node, a'.get? a.size = some node → node.offset = 0

theorem get?_eq_none {n : Nat} : a.get? n = none ↔ a.size ≤ n :=
  Array.getElem?_eq_none_iff

theorem get?_of_lt {n : Nat} (hn : n < a.size) : ∃ node, a.get? n = some node :=
  ⟨_, Array.getElem?_eq_getElem hn⟩

theorem Extends.refl (a : Arena) : a.Extends a :=
  ⟨fun _ node h => ⟨node.link, h⟩, fun _ h => by simp [get?_eq_none.mpr (Nat.le_refl a.size)] at h⟩

theorem Extends.size_le (h : a.Extends a') : a.size ≤ a'.size := by
  by_contra hlt
  obtain ⟨node, hn⟩ := get?_of_lt (a := a) (n := a'.size) (by omega)
  obtain ⟨link, hn'⟩ := h.keeps _ _ hn
  exact Nat.lt_irrefl _ (lt_size_of_get? hn')

theorem Extends.get?_old (h : a.Extends a') {n : Nat} {node : MemoryNode} (hlt : n < a.size)
    (hn : a'.get? n = some node) :
    ∃ old link, a.get? n = some old ∧ node = { old with link := link } := by
  obtain ⟨old, hold⟩ := get?_of_lt hlt
  obtain ⟨link, hn'⟩ := h.keeps n old hold
  exact ⟨old, link, hold, Option.some.inj (hn.symm.trans hn')⟩

theorem Extends.trans (h : a.Extends a') (h' : a'.Extends a'') : a.Extends a'' where
  keeps := by
    intro n node hn
    obtain ⟨_, hn'⟩ := h.keeps n node hn
    obtain ⟨link, hn''⟩ := h'.keeps n _ hn'
    exact ⟨link, hn''⟩
  starts := by
    intro node hn
    rcases Nat.lt_or_eq_of_le h.size_le with hlt | heq
    · obtain ⟨old, link, hold, rfl⟩ := h'.get?_old hlt hn
      exact h.starts old hold
    · exact h'.starts node (heq ▸ hn)

theorem Tidy.back (h : a.Tidy) {n : Nat} {node : MemoryNode} (hn : a.get? n = some node)
    (hobj : node.isObject = true) {k : Nat} (hk : k ≤ node.offset) :
    ∃ m before, n = m + k ∧ a.get? m = some before ∧ before.isObject = true ∧
      node.offset = before.offset + k := by
  induction k with
  | zero => exact ⟨n, node, rfl, hn, hobj, rfl⟩
  | succ k ih =>
    obtain ⟨m, before, rfl, hm, _, hoff⟩ := ih (by omega)
    obtain ⟨_, _, m', first, rfl, hm', hfirst, hoff'⟩ := h.follows m before hm (by omega)
    exact ⟨m', first, by omega, hm', hfirst, by omega⟩

theorem object_eq_ok {n : Nat} {node : MemoryNode} :
    a.object n = .ok node ↔ a.get? n = some node ∧ node.isObject = true := by
  unfold object
  cases a.get? n with
  | none => simp
  | some found =>
    by_cases ho : found.isObject = true
    · simp only [ho, if_true, Except.ok.injEq, Option.some.injEq]
      exact ⟨fun he => ⟨he, he ▸ ho⟩, fun he => he.1⟩
    · simp only [ho, Bool.false_eq_true, if_false, reduceCtorEq, Option.some.injEq, false_iff]
      rintro ⟨rfl, hn⟩
      exact ho hn

theorem originOf_own {n : Nat} {node : MemoryNode} (hn : a.get? n = some node)
    (hv : node.origin = some v) : a.originOf n = .ok (some v) := by
  simp [originOf, Arena.node, hn, hv, bind, Except.bind, pure, Except.pure]

theorem originOf_field {m : Nat} {node first : MemoryNode}
    (hn : a.get? (m + node.offset) = some node) (hnone : node.origin = none)
    (hm : a.get? m = some first) : a.originOf (m + node.offset) = .ok first.origin := by
  simp [originOf, Arena.node, hn, hnone, hm, bind, Except.bind, pure, Except.pure]

namespace Block

theorem pos (h : a.Block v b flags) : 0 < flags.length :=
  List.length_pos_iff.mpr h.nonempty

theorem get (h : a.Block v b flags) {i : Nat} (hi : i < flags.length) :
    ∃ node, a.get? (b + i) = some node ∧ node.isObject = true ∧ node.offset = i ∧
      node.origin = (if i = 0 then some v else none) ∧ node.isUnion = flags[i] :=
  h.field i _ (List.getElem?_eq_getElem hi)

theorem le_size (h : a.Block v b flags) : b + flags.length ≤ a.size := by
  obtain ⟨node, hn, _⟩ := h.get (i := flags.length - 1) (by have := h.pos; omega)
  have hlt := lt_size_of_get? hn
  have hpos := h.pos
  omega

theorem mono (h : a.Block v b flags) (he : a.Extends a') : a'.Block v b flags where
  nonempty := h.nonempty
  field := by
    intro i flag hi
    obtain ⟨node, hn, hfield⟩ := h.field i flag hi
    obtain ⟨link, hn'⟩ := he.keeps _ _ hn
    exact ⟨_, hn', hfield⟩
  ends := by
    intro node hn
    rcases Nat.lt_or_eq_of_le h.le_size with hlt | heq
    · obtain ⟨old, link, hold, rfl⟩ := he.get?_old hlt hn
      exact h.ends old hold
    · exact he.starts node (heq ▸ hn)

theorem base (h : a.Block v b flags) :
    ∃ node, a.get? b = some node ∧ node.isObject = true ∧ node.offset = 0 ∧
      node.origin = some v ∧ some node.isUnion = flags.head? := by
  obtain ⟨node, hn, hobj, hoff, horigin, hunion⟩ := h.get h.pos
  refine ⟨node, hn, hobj, hoff, horigin, ?_⟩
  rw [hunion, List.head?_eq_getElem?, List.getElem?_eq_getElem h.pos]

theorem lastField (h : a.Block v b flags) {i : Nat} (hi : i < flags.length) :
    a.lastField (b + i) i + 1 = flags.length := by
  induction hk : flags.length - i using Nat.strong_induction_on generalizing i with
  | _ k ih =>
    rw [Arena.lastField]
    split
    · rename_i hnone
      by_contra hne
      obtain ⟨node, hn, _⟩ := h.get (show i + 1 < flags.length by omega)
      rw [← Nat.add_assoc, hnone] at hn
      cases hn
    · rename_i next hnext
      by_cases hlast : i + 1 < flags.length
      · obtain ⟨node, hn, hobj, hoff, _⟩ := h.get hlast
        rw [← Nat.add_assoc, hnext] at hn
        obtain rfl := Option.some.inj hn
        simp only [hobj, hoff, beq_self_eq_true, Bool.and_self, if_true]
        exact ih _ (by omega) hlast rfl
      · have hend := h.ends next (by rw [← hnext]; congr 1; omega)
        simp only [hend, Nat.right_eq_add, Nat.add_eq_zero_iff, Nat.one_ne_zero, and_false,
          beq_iff_eq, Bool.and_eq_true, if_false]
        omega

theorem objectOffset (h : a.Block v b flags) {i : Nat} (hi : i < flags.length) :
    a.objectOffset (b + i) = .ok i := by
  obtain ⟨node, hn, hobj, hoff, _⟩ := h.get hi
  simp [Arena.objectOffset, object_eq_ok.mpr ⟨hn, hobj⟩, Except.map, hoff]

theorem objectSize (h : a.Block v b flags) {i : Nat} (hi : i < flags.length) :
    a.objectSize (b + i) = .ok flags.length := by
  obtain ⟨node, hn, hobj, rfl, _⟩ := h.get hi
  simp [Arena.objectSize, object_eq_ok.mpr ⟨hn, hobj⟩, h.lastField hi]

theorem objectBound (h : a.Block v b flags) {i : Nat} (hi : i < flags.length) :
    a.objectBound (b + i) = .ok (b + flags.length) := by
  simp [Arena.objectBound, h.objectOffset hi, h.objectSize hi, bind, Except.bind, pure,
    Except.pure]

theorem originOf (h : a.Block v b flags) {i : Nat} (hi : i < flags.length) :
    a.originOf (b + i) = .ok (some v) := by
  obtain ⟨node, hn, _, rfl, horigin, _⟩ := h.get hi
  by_cases hz : node.offset = 0
  · exact originOf_own hn (by rw [horigin, if_pos hz])
  · obtain ⟨first, hfirst, _, _, hv, _⟩ := h.base
    rw [originOf_field hn (by rw [horigin, if_neg hz]) hfirst, hv]

theorem lt_of_offset (h : a.Block v b flags) (ht : a.Tidy) {j : Nat} {node : MemoryNode}
    (hn : a.get? (b + j) = some node) (hobj : node.isObject = true) (hoff : node.offset = j) :
    j < flags.length := by
  by_contra hge
  obtain ⟨m, before, hm, hget, _, hback⟩ := ht.back hn hobj (k := j - flags.length) (by omega)
  obtain rfl : m = b + flags.length := by omega
  have hend := h.ends before hget
  have hpos := h.pos
  omega

theorem mem_of_fieldNode (h : a.Block v b flags) (ht : a.Tidy) {i delta m : Nat}
    (hi : i < flags.length) (hm : a.fieldNode (b + i) delta = .ok m) :
    b ≤ m ∧ m < b + flags.length := by
  obtain ⟨node, hn, hobj, hoff, _⟩ := h.get hi
  simp only [fieldNode, object_eq_ok.mpr ⟨hn, hobj⟩] at hm
  split at hm
  · obtain rfl := Except.ok.inj hm
    omega
  · split at hm
    · cases hm
    · rename_i other hother
      split at hm
      · rename_i hgood
        obtain rfl := Except.ok.inj hm
        simp only [Bool.and_eq_true, beq_iff_eq, hoff] at hgood
        rw [Nat.add_assoc] at hother
        have hlt := h.lt_of_offset ht hother hgood.1 hgood.2
        omega
      · cases hm

/-- From its first node, an allocation reaches all its fields, unless that node
is a union. -/
theorem fieldNode (h : a.Block v b flags) {i : Nat} (hi : i < flags.length) :
    a.fieldNode b i = .ok (if flags.head? = some true then b else b + i) := by
  obtain ⟨node, hn, hobj, hoff, _, hunion⟩ := h.base
  obtain ⟨other, hother, hobj', hoff', _⟩ := h.get hi
  rw [← hunion, Arena.fieldNode, object_eq_ok.mpr ⟨hn, hobj⟩]
  by_cases hu : node.isUnion = true
  · simp [hu]
  · by_cases hz : i = 0
    · simp [hz]
    · simp [hu, hz, hother, hobj', hoff', hoff]

theorem mem_of_originOf (h : a.Block v b flags) (ht : a.Tidy)
    (hmapped : a.objectNodes[v]? = some b) (hv : a.variadicNodes[v]? = none) {n : Nat}
    (hobj : a.isObject n = true) (ho : a.originOf n = .ok (some v)) :
    b ≤ n ∧ n < b + flags.length := by
  obtain ⟨node, hn, hnode⟩ := (Option.any_eq_true _ _).mp hobj
  -- an object with this origin is the first of the block
  have hfirst : ∀ m first, a.get? m = some first → first.isObject = true →
      first.origin = some v → m = b := by
    intro m first hm hfirst horigin
    rcases ht.owner m first v hm hfirst horigin with hh | hh
    · exact Option.some.inj (hh.symm.trans hmapped)
    · simp [hv] at hh
  have hpos := h.pos
  cases horigin : node.origin with
  | some w =>
    rw [originOf_own hn horigin] at ho
    obtain rfl := hfirst n node hn hnode (horigin.trans (Except.ok.inj ho))
    omega
  | none =>
    obtain ⟨m, first, rfl, hm, hnode', _⟩ := ht.back hn hnode (Nat.le_refl node.offset)
    rw [originOf_field hn horigin hm] at ho
    obtain rfl := hfirst m first hm hnode' (Except.ok.inj ho)
    have hlt := h.lt_of_offset ht hn hnode rfl
    omega

end Block

end Arena

end AbstractMemory
