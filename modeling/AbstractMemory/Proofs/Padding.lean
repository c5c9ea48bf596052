import AbstractMemory.Proofs.Interior
import Mathlib

/-! Bytes of a struct that belong to no field. Where a field ends and no other one
starts, the answer is as exact as where a field starts, so exact answers are
places of fields only in structs without padding. -/

namespace AbstractMemory

/-- A byte of a record belongs to one of its fields. -/
def FieldRecord.Occupies (r : FieldRecord) (o : Nat) : Prop :=
  ∃ f ∈ r.fields, f.offset ≤ o ∧ o < f.offset + f.size

namespace Catalog

variable {c : Catalog} {p : Program} {path : List Nat} {t : Nat}

/-- All that a type holds by value are scalars and structs with members. -/
def Plain (c : Catalog) (p : Program) (t : Nat) : Prop :=
  ∀ u, p.types.ByValue t u →
    p.isFilled u = true ∧ p.types.isArray u = false ∧ c.isUnion p u = false

theorem Plain.solid (h : c.Plain p t) : p.Solid t :=
  fun u hu => (h u hu).1

theorem Plain.inside {u : Nat} (h : c.Plain p t) (hu : p.types.ByValue t u) : c.Plain p u :=
  fun v hv => h v (hu.trans hv)

theorem Plain.treatsAsUnion {s : StructType} (h : c.Plain p t) (hs : p.types.struct? t = some s) :
    c.treatsAsUnion s = false := by
  simpa [isUnion, hs] using (h t .refl).2.2

theorem plain_of_forall (h : ∀ u < p.types.size,
    p.isFilled u = true ∧ p.types.isArray u = false ∧ c.isUnion p u = false) (t : Nat) :
    c.Plain p t := by
  intro u _
  by_cases hu : u < p.types.size
  · exact h u hu
  · have hnone : p.types.get? u = none := Array.getElem?_eq_none (Nat.le_of_not_lt hu)
    simp [Program.isFilled, TypeTable.isArray, isUnion, TypeTable.struct?, hnone]

section

variable (hd : p.DistinctScopes) (hc : c.Grounded p) (hptr : 1 ≤ p.dataLayout.pointerSize)

include hd hc

theorem Resolvable.mem_iff (h : c.Resolvable p path t) {s : StructType}
    (hs : p.types.struct? t = some s) (hu : c.treatsAsUnion s = false) {f : Field} :
    f ∈ c.partOf p t ↔ ∃ i m f', s.members[i]? = some m ∧ f' ∈ c.partOf p m ∧
      f = f'.shifted (p.elementStart t i) := by
  constructor
  · intro hf
    obtain ⟨k, hk⟩ := List.mem_iff_getElem?.mp hf
    obtain ⟨i, m, _, k', f', hm, _, hf', _, rfl⟩ := (h.field_iff hd hc hs hu).mp hk
    exact ⟨i, m, f', hm, List.mem_of_getElem? hf', rfl⟩
  · rintro ⟨i, m, f', hm, hf', rfl⟩
    obtain ⟨k, hk⟩ := List.mem_iff_getElem?.mp hf'
    obtain ⟨e, he⟩ := h.sized
    obtain ⟨before, hbefore, _⟩ :=
      exists_fieldsBefore hc hd h.recorded (TypeTable.stripArrays_self hs) he hs hu hm
    exact List.mem_of_getElem? ((h.field_iff hd hc hs hu).mpr
      ⟨i, m, before, k, f', hm, hbefore, hk, rfl, rfl⟩)

theorem Resolvable.plain_field (h : c.Resolvable p path t) (hplain : c.Plain p t) {f : Field}
    (hf : f ∈ c.partOf p t) : f.isArray = false ∧ f.isUnion = false := by
  induction h using Resolvable.ind hd hc generalizing f with
  | leaf path t h hns =>
    rw [partOf_of_not_struct (by simp [TypeTable.isStruct, hns])] at hf
    obtain rfl := List.mem_singleton.mp hf
    exact ⟨(hplain t .refl).2.1, rfl⟩
  | array path t element length s h ht =>
    have harray := (hplain t .refl).2.1
    simp [TypeTable.isArray, ht, Ty.element?] at harray
  | union path t s h hs hu =>
    rw [hplain.treatsAsUnion hs] at hu
    cases hu
  | struct path t s h hs hu ih =>
    obtain ⟨i, m, f', hm, hf', rfl⟩ := (h.mem_iff hd hc hs hu).mp hf
    have hmem := List.mem_of_getElem? hm
    have hmember := ih m hmem (hplain.inside (.single (.member hs hmem))) hf'
    exact hmember

include hptr

/-- Whole numbers of a type lead to its first field. -/
theorem Resolvable.descend_whole (h : c.Resolvable p path t) (index outer : Nat) :
    c.descend p path t index outer (p.byteCount t) = .ok ⟨index, true⟩ := by
  obtain ⟨e, he⟩ := h.sized
  obtain ⟨count, hcount⟩ := h.solid.exists_byteCount_eq_mul he
  rw [hcount]
  exact descend_start hd hc hptr h.solid h.recorded he index outer count

theorem Resolvable.descend_field (h : c.Resolvable p path t) {k : Nat} {f : Field}
    (hf : (c.partOf p t)[k]? = some f) (index outer : Nat) :
    c.descend p path t index outer f.offset = .ok ⟨index + k, true⟩ := by
  obtain ⟨e, he⟩ := h.sized
  obtain ⟨indices, hin, hbytes, hpath⟩ := exists_path hd hc hptr h.solid h.recorded he hf
  obtain ⟨k', hpath', hfind⟩ := descend_path hd hc hptr h.solid h.recorded he hin
  obtain rfl : k = k' := Option.some.inj (hpath.symm.trans hpath')
  have hzero := hfind index outer 0
  rwa [hbytes, Nat.zero_mul, Nat.add_zero] at hzero

theorem Resolvable.descend_behind_member (h : c.Resolvable p path t) {s : StructType}
    (hs : p.types.struct? t = some s) (hu : c.treatsAsUnion s = false) {i m : Nat}
    (hm : s.members[i]? = some m) :
    p.elementStart t i + p.byteCount m = p.byteCount t ∨
      (∃ g ∈ c.partOf p t, g.offset = p.elementStart t i + p.byteCount m) ∨
      ∀ index outer, ∃ k, c.descend p path t index outer (p.elementStart t i + p.byteCount m) =
        .ok ⟨k, true⟩ := by
  have hmember := h.member hd hc hs (List.mem_of_getElem? hm)
  have hpos := hmember.byteCount_pos hptr
  obtain ⟨hend, hnext⟩ := h.member_place hs hu hm
  by_cases hlast : p.elementStart t i + p.byteCount m = p.byteCount t
  · exact .inl hlast
  · by_cases htouch : ∃ j m', i < j ∧ s.members[j]? = some m' ∧
        p.elementStart t j = p.elementStart t i + p.byteCount m
    · obtain ⟨j, m', _, hm', hstart⟩ := htouch
      -- the next member starts right there, and with it its first field
      have hfit := (h.member hd hc hs (List.mem_of_getElem? hm')).fitsIn hd hc hptr
      obtain ⟨g, rest, hcons, hzero⟩ := hfit.exists_first
      have hg : g ∈ c.partOf p m' := by simp [hcons]
      refine .inr (.inl ⟨g.shifted (p.elementStart t j), ?_, ?_⟩)
      · exact (h.mem_iff hd hc hs hu).mpr ⟨j, m', g, hm', hg, rfl⟩
      · rw [h.offset_shifted hd hc hptr hs hu hm' hg, hzero, hstart, Nat.add_zero]
    · refine .inr (.inr fun index outer => ?_)
      obtain ⟨e, he⟩ := h.sized
      obtain ⟨before, hbefore, _⟩ :=
        exists_fieldsBefore hc hd h.recorded (TypeTable.stripArrays_self hs) he hs hu hm
      refine ⟨index + before, ?_⟩
      rw [h.descend_slot hd hc hs hu hm hbefore (by omega) ?_ (by omega),
        hmember.descend_whole hd hc hptr]
      intro j m' hij hm'
      have hle := hnext j m' hij hm'
      have hne : p.elementStart t j ≠ p.elementStart t i + p.byteCount m :=
        fun heq => htouch ⟨j, m', hij, hm', heq⟩
      omega

/-- Behind a field comes the end of the type, or another field, or a byte that is
answered as if a field started there. -/
theorem Resolvable.descend_behind (h : c.Resolvable p path t) {f : Field}
    (hf : f ∈ c.partOf p t) :
    f.offset + f.size = p.byteCount t ∨
      (∃ g ∈ c.partOf p t, g.offset = f.offset + f.size) ∨
      ∀ index outer, ∃ i, c.descend p path t index outer (f.offset + f.size) = .ok ⟨i, true⟩ := by
  induction h using Resolvable.ind hd hc generalizing f with
  | leaf path t h hns =>
    rw [partOf_of_not_struct (by simp [TypeTable.isStruct, hns])] at hf
    obtain rfl := List.mem_singleton.mp hf
    exact .inl (Nat.zero_add _)
  | array path t element length s h ht hs ih =>
    obtain ⟨hres, hst⟩ := h.element ht
    rw [partOf_congr hst hs] at hf ⊢
    rcases ih hf with hend | hnext | hexact
    · -- the next element, if there is one
      refine .inr (.inr fun index outer => ⟨index, ?_⟩)
      rw [hend, descend_congr hst]
      exact hres.descend_whole hd hc hptr index outer
    · exact .inr (.inl hnext)
    · refine .inr (.inr fun index outer => ?_)
      rw [descend_congr hst]
      exact hexact index outer
  | union path t s h hs hu =>
    obtain ⟨r, hr, ho, hfields⟩ := h.exists_record hd hc hs
    have htable := congrArg FieldTable.fields
      ((hc.tabulates hs hr ho).overlaid hu (h.solid.struct hs))
    rw [hfields, show r.fields = _ from htable] at hf
    obtain rfl := List.mem_singleton.mp hf
    exact .inl (Nat.zero_add _)
  | struct path t s h hs hu ih =>
    obtain ⟨i, m, f', hm, hf', rfl⟩ := (h.mem_iff hd hc hs hu).mp hf
    have hmem := List.mem_of_getElem? hm
    have hmember := h.member hd hc hs hmem
    have hfit := hmember.fitsIn hd hc hptr
    have hinside := hfit.inside f' hf'
    have hpos := hfit.size_pos f' hf'
    rw [h.offset_shifted hd hc hptr hs hu hm hf', Field.size_shifted, Nat.add_assoc]
    by_cases hlast : f'.offset + f'.size = p.byteCount m
    · rw [hlast]
      exact h.descend_behind_member hd hc hptr hs hu hm
    · rcases ih m hmem hf' with hend | ⟨g, hg, hstart⟩ | hexact
      · exact (hlast hend).elim
      · refine .inr (.inl ⟨g.shifted (p.elementStart t i), ?_, ?_⟩)
        · exact (h.mem_iff hd hc hs hu).mpr ⟨i, m, g, hm, hg, rfl⟩
        · rw [h.offset_shifted hd hc hptr hs hu hm hg, hstart]
      · refine .inr (.inr fun index outer => ?_)
        obtain ⟨e, he⟩ := h.sized
        obtain ⟨before, hbefore, _⟩ :=
          exists_fieldsBefore hc hd h.recorded (TypeTable.stripArrays_self hs) he hs hu hm
        rw [h.descend_member hd hc hs hu hm hbefore (by omega) (by omega)]
        exact hexact (index + before) index

/-- Inside a field, only its first byte is answered exactly. -/
theorem Resolvable.exact_in_field (h : c.Resolvable p path t) (hplain : c.Plain p t)
    {s : StructType} (hs : p.types.struct? t = some s) {k o i : Nat} {f : Field}
    (hf : (c.partOf p t)[k]? = some f) (hle : f.offset ≤ o) (hlt : o < f.offset + f.size)
    (hexact : c.descend p path t 0 0 o = .ok ⟨i, true⟩) : i = k ∧ f.offset = o := by
  obtain ⟨d, rfl⟩ := Nat.exists_eq_add_of_le hle
  obtain ⟨harray, hunion⟩ := h.plain_field hd hc hplain (List.mem_of_getElem? hf)
  have hself := TypeTable.stripArrays_self hs
  obtain ⟨start, bytes, hdec⟩ := h.exists_declares hd hc (hself.symm ▸ hs) hf hunion
  rw [hself] at hdec
  obtain ⟨f', hf', hbytes, hmiddle⟩ := hdec.descend hd hc hptr h
  obtain rfl := Option.some.inj (hf.symm.trans hf')
  by_cases hzero : d = 0
  · subst hzero
    rw [Nat.add_zero, h.descend_field hd hc hptr hf] at hexact
    have hindex : 0 + k = i := by simpa using hexact
    exact ⟨by omega, rfl⟩
  · have hmod : d % bytes ≠ 0 := by
      rw [← hbytes harray, Nat.mod_eq_of_lt (by omega)]
      exact hzero
    rw [hmiddle d (by omega) hmod] at hexact
    simp at hexact

/-- If exact answers are places of fields only, one field touches the next, so
all bytes belong to fields. -/
theorem Resolvable.occupied (h : c.Resolvable p path t)
    (hexact : ∀ o i, o < p.byteCount t → c.descend p path t 0 0 o = .ok ⟨i, true⟩ →
      ∃ f ∈ c.partOf p t, f.offset = o) {o : Nat} (ho : o < p.byteCount t) :
    ∃ f ∈ c.partOf p t, f.offset ≤ o ∧ o < f.offset + f.size := by
  have hfit := h.fitsIn hd hc hptr
  have hstarts : ∀ f ∈ c.partOf p t, f.offset = o →
      ∃ f ∈ c.partOf p t, f.offset ≤ o ∧ o < f.offset + f.size := by
    rintro f hf rfl
    have hpos := hfit.size_pos f hf
    exact ⟨f, hf, Nat.le_refl _, by omega⟩
  induction o with
  | zero =>
    obtain ⟨f, rest, hcons, hzero⟩ := hfit.exists_first
    exact hstarts f (by simp [hcons]) hzero
  | succ o ih =>
    obtain ⟨f, hf, hle, hlt⟩ := ih (by omega) fun f hf hfo => by
      have hpos := hfit.size_pos f hf
      exact ⟨f, hf, by omega, by omega⟩
    by_cases hin : o + 1 < f.offset + f.size
    · exact ⟨f, hf, by omega, hin⟩
    · have hend : f.offset + f.size = o + 1 := by omega
      rcases h.descend_behind hd hc hptr hf with hlast | ⟨g, hg, hstart⟩ | hbehind
      · omega
      · exact hstarts g hg (hstart.trans hend)
      · obtain ⟨i, hi⟩ := hbehind 0 0
        obtain ⟨g, hg, hstart⟩ := hexact (o + 1) i ho (hend ▸ hi)
        exact hstarts g hg hstart

end

/-- After any requests, take a recorded struct of scalars and structs. At a byte of
a field, an exact answer is that field, and the byte is its first one. A byte of
padding behind a field is answered exactly too. So exact answers are where fields
start if and only if the struct has no padding. -/
theorem exact_iff_unpadded {p : Program} {unionName : String} {requests : List Request} {t : Nat}
    {r : FieldRecord} (hd : p.DistinctScopes) (hptr : 1 ≤ p.dataLayout.pointerSize)
    (hplain : (after { unionName := unionName } p requests).Plain p t)
    (hr : (after { unionName := unionName } p requests).record? p t = some r) :
    let c := after { unionName := unionName } p requests
    (∀ (k o i : Nat) (f : Field), r.fields[k]? = some f → f.offset ≤ o → o < f.offset + f.size →
      c.fieldInType p t o = .ok ⟨i, true⟩ → i = k ∧ f.offset = o) ∧
    (∀ f ∈ r.fields, f.offset + f.size < r.size → ¬ r.Occupies (f.offset + f.size) →
      ∃ i, c.fieldInType p t (f.offset + f.size : Nat) = .ok ⟨i, true⟩) ∧
    ((∀ o i : Nat, o < r.size → c.fieldInType p t o = .ok ⟨i, true⟩ →
      ∃ f, r.fields[i]? = some f ∧ f.offset = o) ↔ ∀ o < r.size, r.Occupies o) := by
  intro c
  have hc : c.Grounded p := (after_coherent p unionName requests).grounded
  change c.Plain p t at hplain
  change c.record? p t = some r at hr
  rw [hc.record?_eq hd] at hr
  obtain ⟨s, hs, _⟩ := (hc.record t r hr).shape
  have hu := hplain.treatsAsUnion hs
  have ho := hc.isOpaque_of_members hs hr (hplain.solid.struct hs)
  obtain ⟨e, he⟩ := hc.extent_of_record hs hu hr ho
  obtain ⟨hres, hfields, hsize⟩ :=
    hc.resolvable hd hplain.solid hr (DataLayout.size?_eq_ok.mpr ⟨_, he⟩)
  have hin : ∀ (k o i : Nat) (f : Field), r.fields[k]? = some f → f.offset ≤ o →
      o < f.offset + f.size → c.fieldInType p t o = .ok ⟨i, true⟩ → i = k ∧ f.offset = o := by
    intro k o i f hf hle hlt hexact
    rw [fieldInType_struct he hs hu] at hexact
    exact hres.exact_in_field hd hc hptr hplain hs (hfields ▸ hf) hle hlt hexact
  refine ⟨hin, ?_, ?_, ?_⟩
  · intro f hf hlt hfree
    rw [fieldInType_struct he hs hu]
    rcases hres.descend_behind hd hc hptr (hfields ▸ hf) with hlast | ⟨g, hg, hstart⟩ | hbehind
    · omega
    · have hpos := (hres.fitsIn hd hc hptr).size_pos g hg
      exact (hfree ⟨g, hfields ▸ hg, by omega, by omega⟩).elim
    · exact hbehind 0 0
  · intro hstarts o hlt
    unfold FieldRecord.Occupies
    rw [← hfields]
    refine hres.occupied hd hc hptr ?_ (hsize ▸ hlt)
    intro o i hlt hexact
    rw [← fieldInType_struct he hs hu] at hexact
    obtain ⟨f, hf, hstart⟩ := hstarts o i (hsize ▸ hlt) hexact
    exact ⟨f, hfields ▸ List.mem_of_getElem? hf, hstart⟩
  · intro hfull o i hlt hexact
    obtain ⟨f, hf, hle, hend⟩ := hfull o hlt
    obtain ⟨k, hk⟩ := List.mem_iff_getElem?.mp hf
    obtain ⟨rfl, hstart⟩ := hin k o i f hk hle hend hexact
    exact ⟨f, hk, hstart⟩

/-- A struct with three bytes of padding after its first field. -/
def padded : Program where
  types := {
    entries := #[
      .integer 8,
      .integer 32,
      .struct ⟨some "struct.s", some [0, 1], false, false⟩] }

theorem exact_iff_unpadded_padded : ∃ r,
    (after { unionName := "union." } padded [.layout 2]).record? padded 2 = some r ∧
      (∃ i, (after { unionName := "union." } padded [.layout 2]).fieldInType padded 2 1 =
        .ok ⟨i, true⟩) ∧
      ¬ ∀ o i : Nat, o < r.size →
        (after { unionName := "union." } padded [.layout 2]).fieldInType padded 2 o =
          .ok ⟨i, true⟩ → ∃ f, r.fields[i]? = some f ∧ f.offset = o := by
  have hrecord : ((after { unionName := "union." } padded [.layout 2]).record? padded 2).any
      (fun r => r.fields == [⟨0, 1, false, false, false⟩, ⟨4, 4, false, false, false⟩] &&
        r.size == 8) = true := by
    decide +kernel
  obtain ⟨r, hr, hfields⟩ := (Option.any_eq_true _ _).mp hrecord
  obtain ⟨hfields, hsize⟩ : r.fields = [⟨0, 1, false, false, false⟩, ⟨4, 4, false, false, false⟩] ∧
      r.size = 8 := by simpa using hfields
  have hd : padded.DistinctScopes := by decide +kernel
  have hplain : (after { unionName := "union." } padded [.layout 2]).Plain padded 2 :=
    plain_of_forall (by decide +kernel) 2
  obtain ⟨_, hbehind, hiff⟩ := exact_iff_unpadded hd (by decide) hplain hr
  have hfree : ¬ r.Occupies 1 := by
    rintro ⟨f, hf, hle, hlt⟩
    simp only [hfields, List.mem_cons, List.not_mem_nil, or_false] at hf
    rcases hf with rfl | rfl <;> simp at hle hlt
  refine ⟨r, hr, ?_, ?_⟩
  · exact hbehind ⟨0, 1, false, false, false⟩ (by simp [hfields]) (by simp [hsize]) hfree
  · intro hstarts
    exact hfree (hiff.mp hstarts 1 (by omega))

/-- The second byte is padding, and no field starts there. It is answered as if
the first field did. -/
theorem exact_in_padding_padded : padded.DistinctScopes ∧
    (after { unionName := "union." } padded [.layout 2]).Plain padded 2 ∧ ∃ r,
      (after { unionName := "union." } padded [.layout 2]).record? padded 2 = some r ∧
        r.fields.map Field.offset = [0, 4] ∧ r.size = 8 ∧
        (after { unionName := "union." } padded [.layout 2]).fieldInType padded 2 1 =
          .ok ⟨0, true⟩ := by
  have hrecord : ((after { unionName := "union." } padded [.layout 2]).record? padded 2).any
      (fun r => r.fields.map Field.offset == [0, 4] && r.size == 8) = true := by
    decide +kernel
  obtain ⟨r, hr, hfields⟩ := (Option.any_eq_true _ _).mp hrecord
  obtain ⟨hfields, hsize⟩ : r.fields.map Field.offset = [0, 4] ∧ r.size = 8 := by
    simpa using hfields
  exact ⟨by decide +kernel, plain_of_forall (by decide +kernel) 2, r, hr, hfields, hsize,
    by decide +kernel⟩

end Catalog

end AbstractMemory
