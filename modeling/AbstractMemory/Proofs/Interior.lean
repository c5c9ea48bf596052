import AbstractMemory.Proofs.FieldPlacement
import Mathlib

/-! Offsets that lead into the middle of a field. They are answered with the
first field of the innermost struct around it, and the answer says so. -/

namespace AbstractMemory

namespace Catalog

variable {c : Catalog} {p : Program} {path : List Nat} {t field start bytes : Nat}

/-- A field of a struct is declared, as one or more elements of `bytes` bytes, by
the struct itself or by one that it holds. The fields of the declaring struct
begin with the field `start`. -/
inductive Declares (c : Catalog) (p : Program) : Nat → Nat → Nat → Nat → Prop
  | own {t i m before : Nat} {s : StructType} (hs : p.types.struct? t = some s)
      (hu : c.treatsAsUnion s = false) (hm : s.members[i]? = some m)
      (hbefore : c.fieldsBefore? p t i = some before)
      (hleaf : p.types.struct? (p.types.stripArrays m) = none) :
      Declares c p t before 0 (p.byteCount (p.types.stripArrays m))
  | nested {t i m before field start bytes : Nat} {s : StructType}
      (hs : p.types.struct? t = some s) (hu : c.treatsAsUnion s = false)
      (hm : s.members[i]? = some m) (hbefore : c.fieldsBefore? p t i = some before)
      (h : Declares c p (p.types.stripArrays m) field start bytes) :
      Declares c p t (before + field) (before + start) bytes

theorem Declares.exists_struct (h : c.Declares p t field start bytes) :
    ∃ s, p.types.struct? t = some s := by
  cases h with
  | own hs => exact ⟨_, hs⟩
  | nested hs => exact ⟨_, hs⟩

theorem Resolvable.stripArrays (h : c.Resolvable p path t) {s : StructType}
    (hs : p.types.struct? (p.types.stripArrays t) = some s) :
    c.Resolvable p path (p.types.stripArrays t) := by
  obtain ⟨e, he⟩ := h.sized
  exact ⟨h.solid.inside (p.types.byValue_stripArrays t),
    h.recorded.of_stripArrays (TypeTable.stripArrays_self hs).symm,
    DataLayout.extentFrom_stripArrays he⟩

theorem Tabulates.isUnion_of_mem {s : StructType} {r : FieldRecord} {f : Field}
    (h : c.Tabulates p t s s.members r) (hu : c.treatsAsUnion s = true) (hne : s.members ≠ [])
    (hf : f ∈ r.fields) : f.isUnion = true := by
  have htable := congrArg FieldTable.fields (h.overlaid hu hne)
  rw [show r.fields = _ from htable] at hf
  obtain rfl := List.mem_singleton.mp hf
  rfl

theorem descend_middle {index outer d n : Nat}
    (hns : p.types.struct? (p.types.stripArrays t) = none)
    (hsize : p.dataLayout.size? p.types (p.types.stripArrays t) = .ok (some n))
    (hd : d % n ≠ 0) : c.descend p path t index outer d = .ok ⟨outer, false⟩ := by
  have hpos : d ≠ 0 := by
    rintro rfl
    simp at hd
  rw [descend]
  by_cases hn : n = 0
  · simp [hpos, TypeTable.isStruct, hns, hsize, hn]
  · simp [hpos, TypeTable.isStruct, hns, hsize, hn, hd]

section

variable (hd : p.DistinctScopes) (hc : c.Grounded p) (hptr : 1 ≤ p.dataLayout.pointerSize)

include hd hc

theorem Resolvable.descend_slot (h : c.Resolvable p path t) {i m before x : Nat}
    {s : StructType} (hs : p.types.struct? t = some s) (hu : c.treatsAsUnion s = false)
    (hm : s.members[i]? = some m) (hbefore : c.fieldsBefore? p t i = some before)
    (hend : p.elementStart t i + x < p.byteCount t)
    (hnext : ∀ j m', i < j → s.members[j]? = some m' →
      p.elementStart t i + x < p.elementStart t j)
    (hz : p.elementStart t i + x ≠ 0) (index outer : Nat) :
    c.descend p path t index outer (p.elementStart t i + x) =
      c.descend p (t :: path) m (index + before) index x := by
  obtain ⟨r, hr, ho, _⟩ := h.exists_record hd hc hs
  obtain ⟨e, he⟩ := h.sized
  obtain ⟨placed, o, _, hlayout, hsize, hoff, _⟩ :=
    p.exists_member_place hs (h.solid.exactSize_le hs) hm he
  have hstart := p.elementStart_eq hs hlayout hoff
  rw [p.byteCount_of_extent he, hsize, hstart] at hend
  rw [hstart] at hz ⊢
  have hslot := Catalog.descend_slot hd hc hs (h.solid.exactSize_le hs) hu hr ho he hlayout hm hoff
    hbefore hend (q := 0) ?_ (by omega) index outer
  · simpa using hslot
  · intro j o' hij hoff'
    obtain ⟨m', hm', hstart'⟩ := p.exists_member_at hs hlayout hoff'
    have hlt := hnext j m' hij hm'
    rwa [hstart, hstart'] at hlt

/-- An offset into a member of a struct is followed into that member. -/
theorem Resolvable.descend_member (h : c.Resolvable p path t) {i m before x : Nat}
    {s : StructType} (hs : p.types.struct? t = some s) (hu : c.treatsAsUnion s = false)
    (hm : s.members[i]? = some m) (hbefore : c.fieldsBefore? p t i = some before)
    (hx : x < p.byteCount m) (hz : p.elementStart t i + x ≠ 0) (index outer : Nat) :
    c.descend p path t index outer (p.elementStart t i + x) =
      c.descend p (t :: path) m (index + before) index x := by
  obtain ⟨hend, hnext⟩ := h.member_place hs hu hm
  refine h.descend_slot hd hc hs hu hm hbefore (by omega) ?_ hz index outer
  intro j m' hij hm'
  have hle := hnext j m' hij hm'
  omega

include hptr

/-- An offset that is not at an element of a field leads to the first field of
the struct that declares it. -/
theorem Declares.descend (h : c.Declares p t field start bytes) (hres : c.Resolvable p path t) :
    ∃ f, (c.partOf p t)[field]? = some f ∧ (f.isArray = false → f.size = bytes) ∧
      ∀ d < f.size, d % bytes ≠ 0 → ∀ index outer,
        c.descend p path t index outer (f.offset + d) = .ok ⟨index + start, false⟩ := by
  induction h generalizing path with
  | @own t i m before s hs hu hm hbefore hleaf =>
    have hmember := hres.member hd hc hs (List.mem_of_getElem? hm)
    have hpart : c.partOf p m = [p.leafField m] :=
      partOf_of_not_struct (by simp [TypeTable.isStruct, hleaf])
    refine ⟨(p.leafField m).shifted (p.elementStart t i), ?_, ?_, ?_⟩
    · exact (hres.field_iff hd hc hs hu).mpr
        ⟨i, m, before, 0, _, hm, hbefore, by simp [hpart], by simp, rfl⟩
    · intro harray
      have hself : p.types.stripArrays m = m := by
        refine TypeTable.stripArraysFrom_self [] fun element length ht => ?_
        simp [Field.shifted, Program.leafField, TypeTable.isArray, ht, Ty.element?] at harray
      rw [hself]
      rfl
    · intro d hlt hmod index outer
      obtain ⟨e, he⟩ := hmember.sized
      obtain ⟨e', he'⟩ := DataLayout.extentFrom_stripArrays he
      have hsize : p.dataLayout.size? p.types (p.types.stripArrays m) =
          .ok (some (p.byteCount (p.types.stripArrays m))) := by
        rw [p.byteCount_of_extent he']
        exact DataLayout.size?_eq_ok.mpr
          ⟨_, DataLayout.extentFrom_of_subset (List.nil_subset _) he'⟩
      have hne : d ≠ 0 := by
        rintro rfl
        simp at hmod
      have hstart : ((p.leafField m).shifted (p.elementStart t i)).offset = p.elementStart t i :=
        hres.offset_shifted hd hc hptr hs hu hm (by simp [hpart])
      rw [hstart, hres.descend_member hd hc hs hu hm hbefore hlt (by omega),
        descend_middle hleaf hsize hmod, Nat.add_zero]
  | @nested t i m before field start bytes s hs hu hm hbefore h ih =>
    have hmember := hres.member hd hc hs (List.mem_of_getElem? hm)
    obtain ⟨s', hs'⟩ := h.exists_struct
    have hself := TypeTable.stripArrays_self hs'
    obtain ⟨f, hf, harray, hfind⟩ := ih (hmember.stripArrays hs')
    rw [partOf_congr hself hs'] at hf
    refine ⟨f.shifted (p.elementStart t i), ?_, harray, ?_⟩
    · exact (hres.field_iff hd hc hs hu).mpr ⟨i, m, before, field, f, hm, hbefore, hf, rfl, rfl⟩
    · intro d hlt hmod index outer
      have hlt : d < f.size := hlt
      have hmem := List.mem_of_getElem? hf
      have hinside := (hmember.fitsIn hd hc hptr).inside f hmem
      have hne : d ≠ 0 := by
        rintro rfl
        simp at hmod
      have hstart : (f.shifted (p.elementStart t i)).offset + d =
          p.elementStart t i + (f.offset + d) := by
        rw [hres.offset_shifted hd hc hptr hs hu hm hmem, Nat.add_assoc]
      rw [hstart, hres.descend_member hd hc hs hu hm hbefore (by omega) (by omega),
        descend_congr hself.symm, hfind d hlt hmod, Nat.add_assoc]

omit hptr in
/-- Every field that is no union is declared by some struct. -/
theorem Resolvable.exists_declares {s : StructType} {f : Field} (h : c.Resolvable p path t)
    (hs : p.types.struct? (p.types.stripArrays t) = some s)
    (hf : (c.partOf p t)[field]? = some f) (hu : f.isUnion = false) :
    ∃ start bytes, c.Declares p (p.types.stripArrays t) field start bytes := by
  induction h using Resolvable.ind hd hc generalizing s field f with
  | leaf path t h hns => simp [hns] at hs
  | array path t element length s' h ht hs' ih =>
    rw [partOf_congr (h.element ht).2 hs'] at hf
    rw [(h.element ht).2]
    exact ih hs' hf hu
  | union path t s' h hs' hunion =>
    obtain ⟨r, hr, ho, hfields⟩ := h.exists_record hd hc hs'
    rw [hfields] at hf
    have htrue := (hc.tabulates hs' hr ho).isUnion_of_mem hunion (h.solid.struct hs')
      (List.mem_of_getElem? hf)
    simp [hu] at htrue
  | struct path t s' h hs' hstruct ih =>
    rw [TypeTable.stripArrays_self hs']
    obtain ⟨i, m, before, k, f', hm, hbefore, hf', rfl, rfl⟩ :=
      (h.field_iff hd hc hs' hstruct).mp hf
    cases hmember : p.types.struct? (p.types.stripArrays m) with
    | none =>
      obtain ⟨rfl, _⟩ := eq_zero_of_leaf hmember hf'
      exact ⟨_, _, .own hs' hstruct hm hbefore hmember⟩
    | some s'' =>
      obtain ⟨start, bytes, hdec⟩ := ih m (List.mem_of_getElem? hm) hmember hf' hu
      exact ⟨_, _, .nested hs' hstruct hm hbefore hdec⟩

omit hptr in
theorem Grounded.resolvable_of_field {i : Nat} {r : FieldRecord} {f : Field}
    (hsolid : p.Solid t) (hr : c.records[t]? = some r) (hf : r.fields[i]? = some f)
    (hu : f.isUnion = false) :
    ∃ s, p.types.struct? t = some s ∧ c.treatsAsUnion s = false ∧
      c.Resolvable p [] t ∧ c.partOf p t = r.fields ∧ r.size = p.byteCount t := by
  obtain ⟨s, hs, hbody, hempty, _⟩ := (hc.record t r hr).shape
  have ho : r.isOpaque = false := by
    rw [hbody]
    cases hb : s.body with
    | none => simp [hempty hb] at hf
    | some members => rfl
  have hstruct : c.treatsAsUnion s = false := by
    rw [Bool.eq_false_iff]
    intro hunion
    have htrue := (hc.tabulates hs hr ho).isUnion_of_mem hunion (hsolid.struct hs)
      (List.mem_of_getElem? hf)
    simp [hu] at htrue
  obtain ⟨e, he⟩ := hc.extent_of_record hs hstruct hr ho
  exact ⟨s, hs, hstruct, hc.resolvable hd hsolid hr (DataLayout.size?_eq_ok.mpr ⟨_, he⟩)⟩

end

/-- After any requests, an offset into a field of a recorded struct that is not
at one of its elements leads to the first field of the innermost struct that
declares the field. -/
theorem interior_inexact {p : Program} {unionName : String} {requests : List Request} {t i : Nat}
    {r : FieldRecord} {f : Field} (hd : p.DistinctScopes) (hptr : 1 ≤ p.dataLayout.pointerSize)
    (hsolid : p.Solid t)
    (hr : (after { unionName := unionName } p requests).record? p t = some r)
    (hf : r.fields[i]? = some f) (hu : f.isUnion = false) :
    (∃ start bytes, (after { unionName := unionName } p requests).Declares p t i start bytes) ∧
      ∀ start bytes d, (after { unionName := unionName } p requests).Declares p t i start bytes →
        d < f.size → d % bytes ≠ 0 →
        (after { unionName := unionName } p requests).fieldInType p t (f.offset + d : Nat) =
          .ok ⟨start, false⟩ := by
  have hc := (after_coherent p unionName requests).grounded
  generalize after { unionName := unionName } p requests = c at hr hc ⊢
  rw [hc.record?_eq hd] at hr
  obtain ⟨s, hs, hstruct, hres, hfields, _⟩ := hc.resolvable_of_field hd hsolid hr hf hu
  rw [← hfields] at hf
  constructor
  · have hself := TypeTable.stripArrays_self hs
    have hdec := hres.exists_declares hd hc (hself.symm ▸ hs) hf hu
    rwa [hself] at hdec
  · intro start bytes d hdec hlt hmod
    obtain ⟨f', hf', _, hfind⟩ := hdec.descend hd hc hptr hres
    obtain rfl := Option.some.inj (hf.symm.trans hf')
    obtain ⟨e, he⟩ := hres.sized
    rw [fieldInType_struct he hs hstruct, hfind d hlt hmod, Nat.zero_add]

/-- The second field of the array's structs is declared next to the first one,
which is field 2 of the whole. -/
theorem interior_inexact_mixed : ∃ r f,
    (after { unionName := "union." } mixed [.layout 7]).record? mixed 7 = some r ∧
      r.fields[3]? = some f ∧ f.offset = 20 ∧ f.size = 4 ∧
      (after { unionName := "union." } mixed [.layout 7]).Declares mixed 7 3 2 4 ∧
      (after { unionName := "union." } mixed [.layout 7]).fieldInType mixed 7
        (f.offset + 1 : Nat) = .ok ⟨2, false⟩ := by
  have hrecord : ((after { unionName := "union." } mixed [.layout 7]).record? mixed 7).any
      (fun r => r.fields[3]? == some ⟨20, 4, false, false, false⟩) = true := by
    decide +kernel
  obtain ⟨r, hr, hfield⟩ := (Option.any_eq_true _ _).mp hrecord
  have hf : r.fields[3]? = some ⟨20, 4, false, false, false⟩ := by simpa using hfield
  have hd : mixed.DistinctScopes := by decide +kernel
  have hsolid : mixed.Solid 7 := Program.solid_of_isFilled (by decide +kernel) 7
  have hstrip : mixed.types.stripArrays 4 = 3 := by decide +kernel
  have hinner : (after { unionName := "union." } mixed [.layout 7]).Declares mixed 3 1 0 4 := by
    have hown : (after { unionName := "union." } mixed [.layout 7]).Declares mixed 3 1 0
        (mixed.byteCount (mixed.types.stripArrays 1)) :=
      .own (i := 1) (s := ⟨some "inner", some [0, 1], false, false⟩)
        (by decide +kernel) (by decide +kernel) rfl (by decide +kernel) (by decide +kernel)
    have hbytes : mixed.byteCount (mixed.types.stripArrays 1) = 4 := by decide +kernel
    rwa [hbytes] at hown
  have hdec :
      (after { unionName := "union." } mixed [.layout 7]).Declares mixed 7 (2 + 1) (2 + 0) 4 :=
    .nested (i := 2) (m := 4) (s := ⟨some "outer", some [0, 5, 4, 6], false, false⟩)
      (by decide +kernel) (by decide +kernel) rfl (by decide +kernel) (hstrip ▸ hinner)
  exact ⟨r, _, hr, hf, rfl, rfl, hdec,
    (interior_inexact hd (by decide) hsolid hr hf rfl).2 2 4 1 hdec (by decide) (by decide)⟩

end Catalog

end AbstractMemory
