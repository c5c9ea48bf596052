import AbstractMemory.Proofs.AddressRange
import AbstractMemory.Proofs.Drafting
import Mathlib

/-! The object behind an address. Element addresses and casts that keep an
address pass the question on to what they are written with, so it ends at a
value that is neither. -/

namespace AbstractMemory

open Steps

namespace Value

variable {value : Value}

theorem mem_operands_of_cast? {kind : CastKind} {source : Nat}
    (h : value.cast? = some (kind, source)) : source ∈ value.operands := by
  unfold cast? at h
  split at h
  · rename_i hk
    cases h
    simp [operands, hk, Instruction.operands]
  · rename_i hk
    cases h
    simp [operands, hk, ConstantExpr.operands]
  · cases h

theorem mem_operands_of_elementAddress? {a : ElementAddress} (h : value.elementAddress? = some a) :
    a.base ∈ value.operands := by
  unfold elementAddress? at h
  split at h
  · rename_i hk
    cases h
    simp [operands, hk, Instruction.operands, ElementAddress.operands]
  · rename_i hk
    cases h
    simp [operands, hk, ConstantExpr.operands, ElementAddress.operands]
  · cases h

theorem cast?_of_constantExpr? {kind : CastKind} {source : Nat}
    (h : value.constantExpr? = some (.cast kind source)) : value.cast? = some (kind, source) := by
  simp [cast?, value.kind_of_constantExpr? h]

theorem elementAddress?_of_constantExpr? {a : ElementAddress}
    (h : value.constantExpr? = some (.elementAddress a)) : value.elementAddress? = some a := by
  simp [elementAddress?, value.kind_of_constantExpr? h]

theorem cast?_of_elementAddress? {a : ElementAddress} (h : value.elementAddress? = some a) :
    value.cast? = none := by
  unfold elementAddress? at h
  split at h
  · rename_i hk
    simp [cast?, hk]
  · rename_i hk
    simp [cast?, hk]
  · cases h

/-- The value is neither an element address nor a cast that keeps an address. -/
structure IsLeaf (value : Value) : Prop where
  address : value.elementAddress? = none
  cast : ∀ kind source, value.cast? = some (kind, source) → kind.keepsPointer = false

end Value

namespace ValueTable

variable {values : ValueTable} {value : Value}

theorem mem_operands_of_passedOn? {source : Nat} (h : values.passedOn? value = some source) :
    source ∈ value.operands := by
  unfold passedOn? at h
  split at h
  · rename_i hc
    split at h
    · obtain rfl := Option.some.inj h
      exact Value.mem_operands_of_cast? hc
    · cases h
  · rename_i ha
    split at h
    · obtain rfl := Option.some.inj h
      exact Value.mem_operands_of_elementAddress? ha
    · cases h
  · cases h

theorem isLeaf_of_passedOn? (h : values.passedOn? value = none)
    (ha : value.elementAddress? = none) : value.IsLeaf := by
  refine ⟨ha, fun kind source hc => ?_⟩
  simpa [passedOn?, hc] using h

theorem passedOn?_of_isLeaf (h : value.IsLeaf) : values.passedOn? value = none := by
  unfold passedOn?
  cases hc : value.cast? with
  | none => simp [h.address]
  | some found =>
    obtain ⟨kind, source⟩ := found
    simp [h.cast kind source hc]

end ValueTable

namespace Program

variable {p : Program} {v u : Nat} {value : Value}

theorem WellFormed.stripCasts_of_passedOn? (hwf : p.WellFormed) (hv : p.values.get? v = some value)
    {source : Nat} (hs : p.values.passedOn? value = some source) :
    p.values.stripCasts v = p.values.stripCasts source := by
  have hlt := hwf.operands v value hv source (ValueTable.mem_operands_of_passedOn? hs)
  rw [ValueTable.stripCasts]
  simp [hv, hs, hlt]

theorem stripCasts_self (hv : p.values.get? v = some value)
    (hs : p.values.passedOn? value = none) : p.values.stripCasts v = .ok v := by
  rw [ValueTable.stripCasts]
  simp [hv, hs]

theorem WellFormed.exists_get? (hwf : p.WellFormed) (hv : p.values.get? v = some value) {o : Nat}
    (ho : o ∈ value.operands) : o < v ∧ ∃ other, p.values.get? o = some other := by
  have hlt := hwf.operands v value hv o ho
  exact ⟨hlt, _, Array.getElem?_eq_getElem (hlt.trans (ValueTable.lt_size_of_get? hv))⟩

theorem WellFormed.exists_stripCasts (hwf : p.WellFormed) (hv : p.values.get? v = some value) :
    ∃ s found, p.values.stripCasts v = .ok s ∧ p.values.get? s = some found ∧
      p.values.passedOn? found = none := by
  induction v using Nat.strong_induction_on generalizing value with
  | _ v ih =>
    cases hs : p.values.passedOn? value with
    | none => exact ⟨v, value, stripCasts_self hv hs, hv, hs⟩
    | some source =>
      obtain ⟨hlt, other, hother⟩ :=
        hwf.exists_get? hv (ValueTable.mem_operands_of_passedOn? hs)
      rw [hwf.stripCasts_of_passedOn? hv hs]
      exact ih source hlt hother

theorem underlying_of_stripCasts {s : Nat} {found : Value} (hs : p.values.stripCasts v = .ok s)
    (hfound : p.values.get? s = some found) : p.underlying v =
      match found.elementAddress? with
      | none => .ok s
      | some a => if a.base < v then p.underlying a.base else .ok s := by
  rw [underlying]
  cases haddress : found.elementAddress? <;>
    simp only [hs, ValueTable.get, hfound, haddress, bind, Except.bind, pure, Except.pure]

theorem underlying_self (hv : p.values.get? v = some value) (hleaf : value.IsLeaf) :
    p.underlying v = .ok v := by
  have hs := stripCasts_self hv (ValueTable.passedOn?_of_isLeaf hleaf)
  simp [underlying_of_stripCasts hs hv, hleaf.address]

/-- What a value passes on has the same object behind it. -/
theorem WellFormed.underlying_of_passedOn? (hwf : p.WellFormed)
    (hv : p.values.get? v = some value) {source : Nat}
    (hs : p.values.passedOn? value = some source) : p.underlying v = p.underlying source := by
  obtain ⟨hlt, other, hother⟩ := hwf.exists_get? hv (ValueTable.mem_operands_of_passedOn? hs)
  obtain ⟨s, found, hstrip, hfound, _⟩ := hwf.exists_stripCasts hother
  have hle := ValueTable.stripCasts_le hstrip
  rw [underlying_of_stripCasts hstrip hfound,
    underlying_of_stripCasts ((hwf.stripCasts_of_passedOn? hv hs).trans hstrip) hfound]
  cases ha : found.elementAddress? with
  | none => rfl
  | some a =>
    have hbase := hwf.operands s found hfound a.base (Value.mem_operands_of_elementAddress? ha)
    simp [show a.base < v by omega, show a.base < source by omega]

theorem WellFormed.underlying_cast (hwf : p.WellFormed) (hv : p.values.get? v = some value)
    {kind : CastKind} {source : Nat} (hc : value.cast? = some (kind, source))
    (hk : kind.keepsPointer = true) : p.underlying v = p.underlying source :=
  hwf.underlying_of_passedOn? hv (by simp [ValueTable.passedOn?, hc, hk])

theorem WellFormed.underlying_address (hwf : p.WellFormed) (hv : p.values.get? v = some value)
    {a : ElementAddress} (ha : value.elementAddress? = some a) :
    p.underlying v = p.underlying a.base := by
  by_cases hzero : p.values.allZero a.indices = true
  · refine hwf.underlying_of_passedOn? hv ?_
    simp [ValueTable.passedOn?, Value.cast?_of_elementAddress? ha, ha, hzero]
  · have hs : p.values.passedOn? value = none := by
      simp [ValueTable.passedOn?, Value.cast?_of_elementAddress? ha, ha, hzero]
    have hlt := hwf.operands v value hv a.base (Value.mem_operands_of_elementAddress? ha)
    simp [underlying_of_stripCasts (stripCasts_self hv hs) hv, ha, hlt]

theorem WellFormed.exists_underlying (hwf : p.WellFormed) (hv : p.values.get? v = some value) :
    ∃ u found, p.underlying v = .ok u ∧ p.values.get? u = some found ∧ found.IsLeaf := by
  induction v using Nat.strong_induction_on generalizing value with
  | _ v ih =>
    obtain ⟨s, found, hs, hfound, hpassed⟩ := hwf.exists_stripCasts hv
    cases ha : found.elementAddress? with
    | none =>
      refine ⟨s, found, ?_, hfound, ValueTable.isLeaf_of_passedOn? hpassed ha⟩
      rw [underlying_of_stripCasts hs hfound, ha]
    | some a =>
      have hle := ValueTable.stripCasts_le hs
      obtain ⟨hlt, other, hother⟩ :=
        hwf.exists_get? hfound (Value.mem_operands_of_elementAddress? ha)
      have hbase : a.base < v := by omega
      rw [underlying_of_stripCasts hs hfound, ha]
      simpa [hbase] using ih a.base hbase hother

end Program

end AbstractMemory
