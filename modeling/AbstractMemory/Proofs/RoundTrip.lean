import AbstractMemory.Proofs.Resolution
import Mathlib

/-! Every field is found at its offset. For each field there are indices that
lead to it, and offsets of indices are followed back to their field. -/

namespace AbstractMemory

namespace Catalog

variable {c : Catalog} {p : Program}

theorem Grounded.partOf_eq (hc : c.Grounded p) (hd : p.DistinctScopes) {t u : Nat}
    {s : StructType} {r : FieldRecord} (hst : p.types.stripArrays t = u)
    (hs : p.types.struct? u = some s) (hr : c.records[u]? = some r) : c.partOf p t = r.fields := by
  subst hst
  simp [partOf, canonical?, hs, hc.standIn_self hd hs, hr]

theorem eq_zero_of_leaf {t i : Nat} {f : Field}
    (hns : p.types.struct? (p.types.stripArrays t) = none)
    (hf : (c.partOf p t)[i]? = some f) : i = 0 ∧ f.offset = 0 := by
  rw [partOf_of_not_struct (by simp [TypeTable.isStruct, hns])] at hf
  cases i with
  | zero =>
    obtain rfl : p.leafField t = f := by simpa using hf
    exact ⟨rfl, rfl⟩
  | succ i => simp at hf

theorem Tabulates.eq_zero_of_union {u i : Nat} {s : StructType} {r : FieldRecord} {f : Field}
    (h : c.Tabulates p u s s.members r) (hu : c.treatsAsUnion s = true) (hne : s.members ≠ [])
    (hf : r.fields[i]? = some f) : i = 0 ∧ f.offset = 0 := by
  have hfields := congrArg FieldTable.fields (h.overlaid hu hne)
  rw [show r.fields = _ from hfields] at hf
  cases i with
  | zero =>
    obtain rfl := Option.some.inj hf
    exact ⟨rfl, rfl⟩
  | succ i => simp [FieldTable.overlaid] at hf

/-- For every field of a type there are indices that lead to it. -/
theorem exists_path (hd : p.DistinctScopes) (hc : c.Grounded p)
    (hptr : 1 ≤ p.dataLayout.pointerSize) {path : List Nat} {t i : Nat} {e : Extent} {f : Field}
    (hsolid : p.Solid t) (hpart : c.HasPart p t)
    (h : p.dataLayout.extentFrom p.types path t = .ok (some e))
    (hf : (c.partOf p t)[i]? = some f) :
    ∃ indices, p.InBounds t indices ∧ p.pathBytes t indices = f.offset ∧
      c.pathField? p t indices = some i := by
  induction h using DataLayout.extentFrom_ind generalizing i f with
  | scalar path t e harray hstruct h =>
    have hns : p.types.struct? (p.types.stripArrays t) = none := by
      rw [TypeTable.stripArrays, TypeTable.stripArraysFrom_self _ harray]
      cases hs : p.types.struct? t with
      | none => rfl
      | some s => exact (hstruct s (TypeTable.get?_of_struct? hs)).elim
    obtain ⟨rfl, hz⟩ := eq_zero_of_leaf hns hf
    exact ⟨[], trivial, hz.symm, rfl⟩
  | array path t element length e ht hp he ih =>
    have hst := DataLayout.stripArrays_array ht
      ((DataLayout.extentFrom_array ht).mpr ⟨hp, e, he, rfl⟩)
    cases hs : p.types.struct? (p.types.stripArrays t) with
    | none =>
      obtain ⟨rfl, hz⟩ := eq_zero_of_leaf hs hf
      exact ⟨[], trivial, hz.symm, rfl⟩
    | some s =>
      obtain ⟨r, hr, _⟩ := hpart.record hc hd rfl hs
      rw [hc.partOf_eq hd rfl hs hr] at hf
      have hpart' := hpart.of_stripArrays hst
      rw [hst] at hs hr
      obtain ⟨indices, hin, hbytes, hfield⟩ := ih (hsolid.inside (.single (.element ht))) hpart'
        (by rwa [hc.partOf_eq hd rfl hs hr])
      have hlen := (hsolid.array ht).1
      have helem : p.element? t 0 = some element := (p.element?_array ht).mpr ⟨by omega, rfl⟩
      refine ⟨0 :: indices, ⟨element, helem, hin⟩, ?_, (pathField?_array ht hlen).trans hfield⟩
      simpa [Program.pathBytes, helem, Program.elementStart, ht] using hbytes
  | struct path t s members extents placed ht hp hb hall hplace ih =>
    have hs := TypeTable.struct?_of_get? ht
    have hst := TypeTable.stripArrays_self hs
    obtain ⟨r, hr, ho⟩ := hpart.record hc hd hst hs
    have htab := hc.tabulates hs hr ho
    rw [hc.partOf_eq hd hst hs hr] at hf
    cases hu : c.treatsAsUnion s with
    | true =>
      obtain ⟨rfl, hz⟩ := htab.eq_zero_of_union hu (hsolid.struct hs) hf
      exact ⟨[], trivial, hz.symm, rfl⟩
    | false =>
      have h := (DataLayout.extentFrom_struct ht).mpr
        ⟨hp, members, extents, placed, hb, hall, hplace, rfl⟩
      obtain ⟨_, _, _, placed', _, _, hplace', hlayout, _⟩ :=
        DataLayout.structLayout_of_extent hs h
      have hfields := congrArg FieldTable.fields (htab.sequential hu hlayout)
      rw [show r.fields = _ from hfields] at hf
      obtain ⟨j, part, o, i', f', hpart', hoff, hf', rfl, rfl⟩ := FieldTable.getElem?_sequential hf
      rw [List.getElem?_map] at hpart'
      obtain ⟨m, hm, rfl⟩ := Option.map_eq_some_iff.mp hpart'
      have hbefore := fieldsBefore?_eq hc hd hs hm hu hr ho hlayout
      have hmem : members[j]? = some m := by simpa [StructType.members, hb] using hm
      obtain ⟨hj, hmj⟩ := List.getElem?_eq_some_iff.mp hmem
      obtain ⟨_, hmember⟩ := ih.get hj (ih.length_eq ▸ hj)
      simp only [List.get_eq_getElem, hmj] at hmember
      have hmem := List.mem_of_getElem? hm
      obtain ⟨indices, hin, hbytes, hrest⟩ := hmember (hsolid.inside (.single (.member hs hmem)))
        (htab.parts _ hmem) hf'
      have helem := (p.element?_struct hs).trans hm
      have hin' : p.InBounds t (j :: indices) := ⟨_, helem, hin⟩
      have htotal : p.pathBytes t (j :: indices) = o + f'.offset := by
        simp only [Program.pathBytes, helem, Option.getD_some, hbytes, Program.elementStart, ht,
          hlayout, hoff]
      refine ⟨j :: indices, hin', ?_, pathField?_member hs hu hm hbefore hrest⟩
      -- the path stays inside the struct, so the offset of the field fits
      have hlt := hsolid.pathBytes_lt hptr h hin'
      have hle := StructLayout.size_le_of_place hplace
      rw [Program.byteCount_of_extent h, htotal] at hlt
      rw [htotal, Field.offset_shifted (hlt.le.trans hle)]

theorem Grounded.extent_of_record (hc : c.Grounded p) {t : Nat} {s : StructType}
    {r : FieldRecord} (hs : p.types.struct? t = some s) (hu : c.treatsAsUnion s = false)
    (hr : c.records[t]? = some r) (ho : r.isOpaque = false) :
    ∃ e, p.dataLayout.extent p.types t = .ok (some e) := by
  have htable := (hc.tabulates hs hr ho).table
  simp only [tableOver, hu, Bool.false_eq_true, if_false] at htable
  split at htable
  · rename_i placed hlayout
    exact ⟨_, (DataLayout.extents_of_structLayout hs hlayout).1⟩
  · cases htable

theorem Grounded.hasPart_self (hc : c.Grounded p) (hd : p.DistinctScopes) {t : Nat}
    {s : StructType} {r : FieldRecord} (hs : p.types.struct? t = some s)
    (hr : c.records[t]? = some r) (ho : r.isOpaque = false) : c.HasPart p t := by
  intro s' hs'
  rw [TypeTable.stripArrays_self hs] at hs' ⊢
  obtain rfl : s = s' := Option.some.inj (hs.symm.trans hs')
  rw [hc.standIn_self hd hs]
  exact ⟨(hc.tabulates hs hr ho).settled, r, hr, ho⟩

/-- After any requests, every field of a recorded struct is found at its
offset, also in an array of such structs. -/
theorem fieldInType_field {p : Program} {unionName : String} {requests : List Request}
    {t i : Nat} {r : FieldRecord} {f : Field} (hd : p.DistinctScopes)
    (hptr : 1 ≤ p.dataLayout.pointerSize) (hsolid : p.Solid t)
    (hr : (after { unionName := unionName } p requests).record? p t = some r)
    (hf : r.fields[i]? = some f) (k : Nat) :
    (after { unionName := unionName } p requests).fieldInType p t
      (f.offset + k * r.size : Nat) = .ok ⟨i, true⟩ := by
  have hc := (after_coherent p unionName requests).grounded
  generalize after { unionName := unionName } p requests = c at hr hc ⊢
  rw [hc.record?_eq hd] at hr
  obtain ⟨s, hs, hbody, hempty, _⟩ := (hc.record t r hr).shape
  obtain ⟨members, hb⟩ : ∃ members, s.body = some members := by
    cases hb : s.body with
    | none => simp [hempty hb] at hf
    | some members => exact ⟨members, rfl⟩
  have ho : r.isOpaque = false := by simp [hbody, hb]
  cases hu : c.treatsAsUnion s with
  | true =>
    obtain ⟨rfl, _⟩ :=
      (hc.tabulates hs hr ho).eq_zero_of_union hu (hsolid.struct hs) hf
    exact fieldInType_union hs hu _
  | false =>
    have hst := TypeTable.stripArrays_self hs
    have hpart := hc.hasPart_self hd hs hr ho
    obtain ⟨e, he⟩ := hc.extent_of_record hs hu hr ho
    obtain ⟨indices, hin, hbytes, hfield⟩ := exists_path hd hc hptr hsolid hpart he
      (by rwa [hc.partOf_eq hd hst hs hr])
    obtain ⟨i', hfield', hfind⟩ := fieldInType_path hd hc hptr hsolid hpart he hin
    obtain rfl : i = i' := Option.some.inj (hfield.symm.trans hfield')
    have hh := hfind k
    rwa [hbytes, hst, ← hc.size_eq hsolid hs hr ho he] at hh

theorem fieldInType_field_nested : ∃ r f,
    (after { unionName := "union." } nested [.layout 4]).record? nested 4 = some r ∧
      r.fields[3]? = some f ∧ f.offset + 5 * r.size = 172 ∧
      (after { unionName := "union." } nested [.layout 4]).fieldInType nested 4
        (f.offset + 5 * r.size : Nat) = .ok ⟨3, true⟩ := by
  have hrecord : ((after { unionName := "union." } nested [.layout 4]).record? nested 4).any
      (fun r => r.fields[3]?.any fun f => f.offset + 5 * r.size == 172) = true := by
    decide +kernel
  obtain ⟨r, hr, hfield⟩ := (Option.any_eq_true _ _).mp hrecord
  obtain ⟨f, hf, hoffset⟩ := (Option.any_eq_true _ _).mp hfield
  have hd : nested.DistinctScopes := by decide +kernel
  have hsolid : nested.Solid 4 := Program.solid_of_isFilled (by decide +kernel) 4
  exact ⟨r, f, hr, hf, by simpa using hoffset,
    fieldInType_field hd (by decide) hsolid hr hf 5⟩

end Catalog

end AbstractMemory
