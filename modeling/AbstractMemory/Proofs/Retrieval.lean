import AbstractMemory.Proofs.Planning
import Mathlib

/-! Two ways to a record: having it made and looking it up. A look-up takes the
struct's own record first, so a struct that was recorded while its scope name
had no body is found with none ever after. -/

namespace AbstractMemory

open Steps

namespace Catalog

variable {p : Program} {c : Catalog} {t : Nat} {s : StructType} {r : FieldRecord}

/-- A struct that was recorded without a body and whose scope name has one by now. -/
def Outdated (c : Catalog) (p : Program) (t : Nat) : Prop :=
  ∃ s name, p.types.struct? t = some s ∧ s.body = none ∧ s.name = some name ∧
    t ∈ c.records ∧ scopeName name ∈ c.scopes

theorem Grounded.record?_of_own (hc : c.Grounded p) (hr : c.records[t]? = some r) :
    c.record? p t = some r := by
  simp [record?, hr, (hc.record t r hr).isFinal]

theorem Grounded.isOpaque_of_body (hc : c.Grounded p) (hs : p.types.struct? t = some s)
    (hb : s.body = none) (hr : c.records[t]? = some r) : r.isOpaque = true := by
  obtain ⟨s', hs', hbodiless, _⟩ := (hc.record t r hr).shape
  obtain rfl := Option.some.inj (hs.symm.trans hs')
  rw [hbodiless, hb]
  rfl

theorem Grounded.outdated (hc : c.Grounded p) (hs : p.types.struct? t = some s)
    (hown : c.records[t]? = some r) (hne : c.standIn s t ≠ t) : c.Outdated p t := by
  obtain ⟨s', hs', hbodiless, _, htab⟩ := (hc.record t r hown).shape
  obtain rfl := Option.some.inj (hs.symm.trans hs')
  cases hb : s.body with
  | some members => exact absurd (htab members hb).standIn hne
  | none =>
    cases hn : s.name with
    | none => simp [standIn, hn] at hne
    | some name =>
      refine ⟨s, name, hs, hb, hn, mem_records_iff.mpr ⟨r, hown⟩, ?_⟩
      by_contra hfree
      simp [standIn, hn, Std.TreeMap.getElem?_eq_none hfree] at hne

theorem Grounded.record?_of_standIn (hc : c.Grounded p) (hs : p.types.struct? t = some s)
    (hr : c.records[c.standIn s t]? = some r) (hcurrent : ¬ c.Outdated p t) :
    c.record? p t = some r := by
  cases hown : c.records[t]? with
  | some own =>
    have hkey : c.standIn s t = t := by
      by_contra hne
      exact hcurrent (hc.outdated hs hown hne)
    exact hc.record?_of_own (hkey ▸ hr)
  | none =>
    have hcan : c.canonical? p t = some (c.standIn s t) := canonical?_eq_some.mpr ⟨s, hs, rfl⟩
    simp [record?, hown, hcan, hr, (hc.record _ r hr).isFinal]

theorem Grounded.isOpaque_of_scope (hc : c.Grounded p) {name : String} (hn : s.name = some name)
    (hscope : scopeName name ∈ c.scopes) (hr : c.records[c.standIn s t]? = some r) :
    r.isOpaque = false := by
  rw [← Std.TreeMap.isSome_getElem?_iff_mem, Option.isSome_iff_exists] at hscope
  obtain ⟨u, hu⟩ := hscope
  have hkey : c.standIn s t = u := by simp [standIn, hn, hu]
  rw [hkey] at hr
  -- what is registered for a scope name has a body
  obtain ⟨shape, _, hshape, _, _, hbody⟩ := hc.scope _ u hu
  obtain ⟨shape', hshape', hbodiless, _⟩ := (hc.record u r hr).shape
  obtain rfl := Option.some.inj (hshape.symm.trans hshape')
  rw [hbodiless, Option.isNone_eq_false_iff]
  exact hbody

/-- What a struct is laid out with is what is found for it afterwards, unless the
struct is outdated: then a record without a body is found in place of the one with
a body. -/
theorem layoutOf_retrieved {unionName : String} {requests : List Request} {c : Catalog}
    (h : layoutOf p t (after { unionName := unionName } p requests) = .ok r c) :
    (c.record? p t = some r ↔ ¬ c.Outdated p t) ∧
      (c.Outdated p t → r.isOpaque = false ∧
        ∃ own, c.record? p t = some own ∧ own.isOpaque = true ∧ own.fields = []) := by
  have hin := (after_advances (flattenable_false p)
    (inProgress_empty p _ unionName) requests).toInProgress
  obtain ⟨hadv, s, hs, hr⟩ := (layoutOf_meets (flattenable_false p) t hin).of_ok h
  have hc := hadv.coherent.grounded
  have hstale : c.Outdated p t → r.isOpaque = false ∧
      ∃ own, c.record? p t = some own ∧ own.isOpaque = true ∧ own.fields = [] := by
    rintro ⟨s', name, hs', hb, hn, hmem, hscope⟩
    obtain rfl := Option.some.inj (hs.symm.trans hs')
    obtain ⟨own, hown⟩ := mem_records_iff.mp hmem
    have ho := hc.isOpaque_of_body hs hb hown
    exact ⟨hc.isOpaque_of_scope hn hscope hr,
      own, hc.record?_of_own hown, ho, hc.fields_of_isOpaque hown ho⟩
  refine ⟨⟨fun hfound hout => ?_, hc.record?_of_standIn hs hr⟩, hstale⟩
  obtain ⟨hbody, own, hown, ho, _⟩ := hstale hout
  obtain rfl := Option.some.inj (hfound.symm.trans hown)
  simp [ho] at hbody

/-- A struct without a body, then one of the same scope name that has one. -/
def declared : Program where
  types := {
    entries := #[
      .integer 32,
      .struct ⟨some "struct.foo", none, false, false⟩,
      .struct ⟨some "struct.foo.0", some [0, 0], false, false⟩] }

theorem layoutOf_retrieved_declared : ∃ r c,
    layoutOf declared 1 (after { unionName := "union." } declared [.layout 2]) = .ok r c ∧
      c.record? declared 1 = some r ∧ r.fieldCount = 2 := by
  have hfacts : (match layoutOf declared 1
      (after { unionName := "union." } declared [.layout 2]) with
      | .ok r c => r.fieldCount == 2 && !c.records.contains 1
      | .error _ _ => false) = true := by
    decide +kernel
  cases h : layoutOf declared 1 (after { unionName := "union." } declared [.layout 2]) with
  | ok r c =>
    simp only [h, Bool.and_eq_true, beq_iff_eq, Bool.not_eq_true'] at hfacts
    refine ⟨r, c, rfl, (layoutOf_retrieved h).1.mpr ?_, hfacts.1⟩
    rintro ⟨s, name, _, _, _, hmem, _⟩
    rw [← Std.TreeMap.contains_iff_mem, hfacts.2] at hmem
    cases hmem
  | error e c => simp [h] at hfacts

theorem layoutOf_outdated_declared : ∃ r c own,
    layoutOf declared 1 (after { unionName := "union." } declared [.layout 1, .layout 2]) =
      .ok r c ∧ c.record? declared 1 = some own ∧ own ≠ r ∧ r.fieldCount = 2 ∧
      own.fieldCount = 0 := by
  have hfacts : (match layoutOf declared 1
      (after { unionName := "union." } declared [.layout 1, .layout 2]) with
      | .ok r c => r.fieldCount == 2 && (c.record? declared 1).any fun own => own.fieldCount == 0
      | .error _ _ => false) = true := by
    decide +kernel
  cases h : layoutOf declared 1
      (after { unionName := "union." } declared [.layout 1, .layout 2]) with
  | ok r c =>
    simp only [h, Bool.and_eq_true, beq_iff_eq, Option.any_eq_true] at hfacts
    obtain ⟨hr, own, hown, hzero⟩ := hfacts
    refine ⟨r, c, own, rfl, hown, ?_, hr, hzero⟩
    rintro rfl
    omega
  | error e c => simp [h] at hfacts

end Catalog

end AbstractMemory
