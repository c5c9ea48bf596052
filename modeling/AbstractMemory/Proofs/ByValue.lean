import AbstractMemory.Proofs.Extents
import Mathlib

/-! What a type holds by value: the element of an array, the members of a
struct, and what those hold. A type with a size is not inside itself. -/

namespace AbstractMemory

/-- One step into what a type holds by value. -/
inductive TypeTable.Part (types : TypeTable) : Nat → Nat → Prop
  | element {t element length : Nat} (h : types.get? t = some (.array element length)) :
      Part types t element
  | member {t m : Nat} {s : StructType} (h : types.struct? t = some s) (hm : m ∈ s.members) :
      Part types t m

abbrev TypeTable.ByValue (types : TypeTable) : Nat → Nat → Prop :=
  Relation.ReflTransGen types.Part

theorem TypeTable.Part.lt_size {types : TypeTable} {t u : Nat} (h : types.Part t u) :
    t < types.size := by
  cases h with
  | element ht => exact lt_size_of_get? ht
  | member hs => exact lt_size_of_get? (get?_of_struct? hs)

theorem TypeTable.byValue_stripArraysFrom (types : TypeTable) (path : List Nat) (t : Nat) :
    types.ByValue t (types.stripArraysFrom path t) := by
  fun_induction stripArraysFrom types path t with
  | case1 => exact .refl
  | case2 path t element length h _ ih => exact .head (.element h) ih
  | case3 => exact .refl

theorem TypeTable.byValue_stripArrays (types : TypeTable) (t : Nat) :
    types.ByValue t (types.stripArrays t) :=
  types.byValue_stripArraysFrom [] t

theorem TypeTable.strip_eq_ok {types : TypeTable} {t u : Nat} :
    types.strip t = .ok u ↔
      types.isArray (types.stripArrays t) = false ∧ types.stripArrays t = u := by
  unfold strip
  dsimp only
  split <;> simp_all

theorem TypeTable.struct_of_isStruct {types : TypeTable} {t : Nat}
    (h : types.isStruct t = true) : ∃ s, types.struct? t = some s :=
  Option.isSome_iff_exists.mp h

namespace DataLayout

theorem extentFrom_part {layout : DataLayout} {types : TypeTable} {path : List Nat} {t u : Nat}
    {e : Extent} (h : layout.extentFrom types path t = .ok (some e)) (hu : types.Part t u) :
    t ∉ path ∧ ∃ e', layout.extentFrom types (t :: path) u = .ok (some e') := by
  cases hu with
  | element ht =>
    obtain ⟨hp, e', he', _⟩ := (extentFrom_array ht).mp h
    exact ⟨hp, e', he'⟩
  | member hs hm =>
    obtain ⟨hp, members, extents, _, hb, hall, _⟩ :=
      (extentFrom_struct (TypeTable.get?_of_struct? hs)).mp h
    obtain ⟨i, hi, rfl⟩ := List.getElem_of_mem hm
    simp only [StructType.members, hb, Option.getD_some] at hi ⊢
    exact ⟨hp, _, hall.get hi (hall.length_eq ▸ hi)⟩

theorem extentFrom_inside {layout : DataLayout} {types : TypeTable} {t u : Nat} {e : Extent}
    (h : layout.extent types t = .ok (some e)) (hu : Relation.TransGen types.Part t u) :
    ∃ path e', t ∈ path ∧ layout.extentFrom types path u = .ok (some e') := by
  induction hu with
  | single hp =>
    obtain ⟨_, e', he'⟩ := extentFrom_part h hp
    exact ⟨[t], e', by simp, he'⟩
  | tail _ hp ih =>
    obtain ⟨path, e', ht, he'⟩ := ih
    obtain ⟨_, e'', he''⟩ := extentFrom_part he' hp
    exact ⟨_, e'', List.mem_cons_of_mem _ ht, he''⟩

/-- A type with a size does not hold itself. -/
theorem not_inside_self {layout : DataLayout} {types : TypeTable} {t : Nat} {e : Extent}
    (h : layout.extent types t = .ok (some e)) : ¬ Relation.TransGen types.Part t t := by
  intro ht
  obtain ⟨path, e', hm, he'⟩ := extentFrom_inside h ht
  obtain ⟨u, hp, _⟩ := Relation.TransGen.head'_iff.mp ht
  exact (extentFrom_part he' hp).1 hm

theorem extent_byValue {layout : DataLayout} {types : TypeTable} {t u : Nat} {e : Extent}
    (h : layout.extent types t = .ok (some e)) (hu : types.ByValue t u) :
    ∃ e', layout.extent types u = .ok (some e') := by
  rcases Relation.reflTransGen_iff_eq_or_transGen.mp hu with rfl | hu
  · exact ⟨e, h⟩
  · obtain ⟨path, e', _, he'⟩ := extentFrom_inside h hu
    exact ⟨e', extentFrom_of_subset (List.nil_subset path) he'⟩

end DataLayout

end AbstractMemory
