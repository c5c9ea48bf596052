import AbstractMemory.Proofs.RoundTrip
import Mathlib

/-! Where the fields of a type lie. They start at its first byte, follow each
other without overlap, and end inside it, however deep they are nested. -/

namespace AbstractMemory

/-- Fields that lie one after another within `size` bytes, from the first byte
on. None of them is empty. -/
structure FitsIn (fields : List Field) (size : Nat) : Prop where
  first : fields.head?.map Field.offset = some 0
  apart : fields.Pairwise fun f g => f.offset + f.size ≤ g.offset
  size_pos : ∀ f ∈ fields, 0 < f.size
  inside : ∀ f ∈ fields, f.offset + f.size ≤ size

namespace FitsIn

theorem mono {fields : List Field} {size size' : Nat} (h : FitsIn fields size)
    (hle : size ≤ size') : FitsIn fields size' :=
  ⟨h.first, h.apart, h.size_pos, fun f hf => (h.inside f hf).trans hle⟩

theorem single {f : Field} (hf : f.offset = 0) (hpos : 0 < f.size) : FitsIn [f] f.size :=
  ⟨by simp [hf], by simp, by simpa using hpos, by simp [hf]⟩

theorem exists_first {fields : List Field} {size : Nat} (h : FitsIn fields size) :
    ∃ f rest, fields = f :: rest ∧ f.offset = 0 := by
  cases fields with
  | nil => cases h.first
  | cons f rest => exact ⟨f, rest, rfl, by simpa using h.first⟩

theorem offset_shifted {fields : List Field} {size bytes : Nat} {f : Field}
    (h : FitsIn fields size) (hle : bytes + size ≤ maxByteCount) (hf : f ∈ fields) :
    (f.shifted bytes).offset = bytes + f.offset := by
  have hin := h.inside f hf
  exact Field.offset_shifted (by omega)

/-- Parts that fit into places one after another fit into the whole. -/
theorem sequential {parts : List (List Field)} {placed : StructLayout}
    (hfits : placed.size ≤ maxByteCount)
    (hfirst : parts ≠ [] ∧ placed.offsets[0]? = some 0)
    (hparts : ∀ (i : Nat) (part : List Field) (o : Nat), parts[i]? = some part →
      placed.offsets[i]? = some o → ∃ n, FitsIn part n ∧ o + n ≤ placed.size ∧
        ∀ (j o' : Nat), i < j → placed.offsets[j]? = some o' → o + n ≤ o') :
    FitsIn (FieldTable.sequential parts placed).fields placed.size := by
  have hmem : ∀ f ∈ (FieldTable.sequential parts placed).fields,
      0 < f.size ∧ f.offset + f.size ≤ placed.size := by
    intro f hf
    obtain ⟨i, hi⟩ := List.mem_iff_getElem?.mp hf
    obtain ⟨j, part, o, i', f', hpart, ho, hf', rfl, _⟩ := FieldTable.getElem?_sequential hi
    obtain ⟨n, hfit, hend, _⟩ := hparts j part o hpart ho
    have hmem := List.mem_of_getElem? hf'
    have hin := hfit.inside f' hmem
    rw [hfit.offset_shifted (hend.trans hfits) hmem, Field.size_shifted]
    exact ⟨hfit.size_pos f' hmem, by omega⟩
  refine ⟨?_, ?_, fun f hf => (hmem f hf).1, fun f hf => (hmem f hf).2⟩
  · obtain ⟨part, parts, rfl⟩ := List.exists_cons_of_ne_nil hfirst.1
    obtain ⟨n, hfit, _⟩ := hparts 0 part 0 rfl hfirst.2
    obtain ⟨f, rest, rfl, hzero⟩ := hfit.exists_first
    cases hoffsets : placed.offsets with
    | nil => simp [hoffsets] at hfirst
    | cons o offsets =>
      obtain rfl : o = 0 := by simpa [hoffsets] using hfirst.2
      simp [FieldTable.sequential, hoffsets, Field.shifted, hzero]
  · refine List.pairwise_flatten.mpr ⟨?_, List.pairwise_iff_getElem.mpr ?_⟩
    · intro l hl
      obtain ⟨i, hi⟩ := List.mem_iff_getElem?.mp hl
      obtain ⟨part, o, hpart, ho, rfl⟩ := List.getElem?_zipWith_eq_some.mp hi
      obtain ⟨n, hfit, hend, _⟩ := hparts i part o hpart ho
      refine List.pairwise_map.mpr (hfit.apart.imp_of_mem ?_)
      intro f g hf hg hfg
      rw [hfit.offset_shifted (hend.trans hfits) hf, hfit.offset_shifted (hend.trans hfits) hg,
        Field.size_shifted]
      omega
    · intro i j hi hj hij f hf g hg
      -- everything in an earlier part ends before the next part starts
      simp only [List.length_zipWith] at hi hj
      rw [List.getElem_zipWith, List.mem_map] at hf hg
      obtain ⟨f', hf', rfl⟩ := hf
      obtain ⟨g', hg', rfl⟩ := hg
      obtain ⟨n, hfit, hend, hnext⟩ := hparts i _ _ (List.getElem?_eq_getElem (by omega))
        (List.getElem?_eq_getElem (by omega))
      obtain ⟨n', hfit', hend', _⟩ := hparts j _ _ (List.getElem?_eq_getElem (by omega))
        (List.getElem?_eq_getElem (by omega))
      have hle := hnext j _ hij (List.getElem?_eq_getElem (by omega))
      have hin := hfit.inside f' hf'
      rw [hfit.offset_shifted (hend.trans hfits) hf', hfit'.offset_shifted (hend'.trans hfits) hg',
        Field.size_shifted]
      omega

end FitsIn

theorem FieldTable.getElem?_sequential_add {parts : List (List Field)} {placed : StructLayout}
    {j o i : Nat} {part : List Field} {f : Field} (hpart : parts[j]? = some part)
    (ho : placed.offsets[j]? = some o) (hf : part[i]? = some f) :
    (sequential parts placed).fields[(parts.take j).flatten.length + i]? = some (f.shifted o) := by
  simp only [sequential]
  generalize placed.offsets = offsets at ho ⊢
  induction parts generalizing offsets j with
  | nil => simp at hpart
  | cons head rest ih =>
    cases offsets with
    | nil => simp at ho
    | cons o' offsets =>
      cases j with
      | zero =>
        obtain rfl : head = part := by simpa using hpart
        obtain rfl : o' = o := by simpa using ho
        obtain ⟨hi, rfl⟩ := List.getElem?_eq_some_iff.mp hf
        simp [List.getElem?_append, hi]
      | succ j =>
        have hrest := ih hpart offsets ho
        simp only [List.zipWith_cons_cons, List.flatten_cons, List.take_succ_cons,
          List.length_append]
        rw [List.getElem?_append_right (by simp; omega), ← hrest]
        congr 1
        simp
        omega

namespace Catalog

variable {c : Catalog} {p : Program} {path : List Nat} {t : Nat} {s : StructType}

/-- Offsets can be followed down a type met inside the types of `path`. It has a
size and no empty parts, and its structs have records. -/
structure Resolvable (c : Catalog) (p : Program) (path : List Nat) (t : Nat) : Prop where
  solid : p.Solid t
  recorded : c.HasPart p t
  sized : ∃ e, p.dataLayout.extentFrom p.types path t = .ok (some e)

theorem Resolvable.byteCount_pos (h : c.Resolvable p path t)
    (hptr : 1 ≤ p.dataLayout.pointerSize) : 0 < p.byteCount t := by
  obtain ⟨e, he⟩ := h.sized
  rw [p.byteCount_of_extent he]
  exact h.solid.size_pos hptr he

theorem Resolvable.byteCount_le (h : c.Resolvable p path t) (hs : p.types.struct? t = some s) :
    p.byteCount t ≤ maxByteCount := by
  obtain ⟨e, he⟩ := h.sized
  obtain ⟨_, _, _, _, _, _, hplace, _, rfl⟩ := DataLayout.structLayout_of_extent hs he
  rw [p.byteCount_of_extent he]
  exact StructLayout.size_le_of_place hplace

theorem Resolvable.element {element length : Nat} (h : c.Resolvable p path t)
    (ht : p.types.get? t = some (.array element length)) :
    c.Resolvable p path element ∧ p.types.stripArrays t = p.types.stripArrays element := by
  obtain ⟨e, he⟩ := h.sized
  have hst := DataLayout.stripArrays_array ht he
  obtain ⟨_, e', he'⟩ := DataLayout.extentFrom_part he (.element ht)
  exact ⟨⟨h.solid.inside (.single (.element ht)), h.recorded.of_stripArrays hst,
    e', DataLayout.extentFrom_of_subset (List.subset_cons_self t path) he'⟩, hst⟩

theorem partOf_congr {t' : Nat} (h : p.types.stripArrays t = p.types.stripArrays t')
    (hs : p.types.struct? (p.types.stripArrays t') = some s) : c.partOf p t = c.partOf p t' := by
  simp [partOf, canonical?, h, hs]

section

variable (hd : p.DistinctScopes) (hc : c.Grounded p)

include hd hc

theorem Resolvable.exists_record (h : c.Resolvable p path t) (hs : p.types.struct? t = some s) :
    ∃ r, c.records[t]? = some r ∧ r.isOpaque = false ∧ c.partOf p t = r.fields := by
  have hst := TypeTable.stripArrays_self hs
  obtain ⟨r, hr, ho⟩ := h.recorded.record hc hd hst hs
  exact ⟨r, hr, ho, hc.partOf_eq hd hst hs hr⟩

theorem Resolvable.member (h : c.Resolvable p path t) (hs : p.types.struct? t = some s) {m : Nat}
    (hm : m ∈ s.members) : c.Resolvable p (t :: path) m := by
  obtain ⟨r, hr, _⟩ := h.exists_record hd hc hs
  obtain ⟨e, he⟩ := h.sized
  exact ⟨h.solid.inside (.single (.member hs hm)),
    hc.hasPart (mem_records_iff.mpr ⟨r, hr⟩) hs hm,
    (DataLayout.extentFrom_part he (.member hs hm)).2⟩

/-- Induction over what a type is made of, down to what is one field for the
records: scalars, arrays of scalars and unions. -/
theorem Resolvable.ind {motive : ∀ path t, c.Resolvable p path t → Prop}
    (leaf : ∀ path t (h : c.Resolvable p path t),
      p.types.struct? (p.types.stripArrays t) = none → motive path t h)
    (array : ∀ path t element length s (h : c.Resolvable p path t)
      (ht : p.types.get? t = some (.array element length))
      (_ : p.types.struct? (p.types.stripArrays element) = some s),
      motive path element (h.element ht).1 → motive path t h)
    (union : ∀ path t s (h : c.Resolvable p path t), p.types.struct? t = some s →
      c.treatsAsUnion s = true → motive path t h)
    (struct : ∀ path t s (h : c.Resolvable p path t) (hs : p.types.struct? t = some s),
      c.treatsAsUnion s = false →
      (∀ m (hm : m ∈ s.members), motive (t :: path) m (h.member hd hc hs hm)) → motive path t h)
    {path : List Nat} {t : Nat} (h : c.Resolvable p path t) : motive path t h := by
  obtain ⟨e, he⟩ := h.sized
  -- an array does not count as a step of the path, so fewer types around it must do
  suffices hall : ∀ path' ⊆ path, ∀ h : c.Resolvable p path' t, motive path' t h from
    hall path (List.Subset.refl path) h
  clear h
  induction he using DataLayout.extentFrom_ind with
  | scalar path t e harray hstruct _ =>
    intro path' _ h
    refine leaf path' t h ?_
    rw [TypeTable.stripArrays, TypeTable.stripArraysFrom_self _ harray]
    cases hs : p.types.struct? t with
    | none => rfl
    | some s => exact (hstruct s (TypeTable.get?_of_struct? hs)).elim
  | array path t element length e ht _ _ ih =>
    intro path' hsub h
    cases hs : p.types.struct? (p.types.stripArrays element) with
    | none => exact leaf path' t h ((h.element ht).2 ▸ hs)
    | some s =>
      exact array path' t element length s h ht hs
        (ih path' (List.subset_cons_of_subset t hsub) (h.element ht).1)
  | struct path t s members extents placed ht _ hb hall _ ih =>
    intro path' hsub h
    have hs := TypeTable.struct?_of_get? ht
    cases hu : c.treatsAsUnion s with
    | true => exact union path' t s h hs hu
    | false =>
      refine struct path' t s h hs hu fun m hm => ?_
      obtain ⟨i, hi, rfl⟩ := List.getElem_of_mem (show m ∈ members by
        simpa [StructType.members, hb] using hm)
      obtain ⟨_, hmember⟩ := ih.get hi (ih.length_eq ▸ hi)
      exact hmember (t :: path') (List.cons_subset_cons t hsub) (h.member hd hc hs hm)

omit hd hc in
/-- A member of a struct lies inside it, before all members that follow. -/
theorem Resolvable.member_place (h : c.Resolvable p path t) (hs : p.types.struct? t = some s)
    (hu : c.treatsAsUnion s = false) {i m : Nat} (hm : s.members[i]? = some m) :
    p.elementStart t i + p.byteCount m ≤ p.byteCount t ∧
      ∀ j m', i < j → s.members[j]? = some m' →
        p.elementStart t i + p.byteCount m ≤ p.elementStart t j := by
  have hunion : s.isUnion = false := (Bool.or_eq_false_iff.mp hu).1
  have hfits := h.solid.exactSize_le hs
  obtain ⟨e, he⟩ := h.sized
  obtain ⟨placed, o, em, hlayout, hsize, ho, hem, hend, hplace⟩ :=
    p.exists_member_place hs hfits hm he
  rw [p.elementStart_eq hs hlayout ho, p.byteCount_of_extent hem, p.byteCount_of_extent he, hsize]
  refine ⟨hend, fun j m' hij hm' => ?_⟩
  obtain ⟨placed', o', _, hlayout', _, ho', _⟩ := p.exists_member_place hs hfits hm' he
  obtain rfl : placed = placed' := by simpa [hlayout] using hlayout'
  rw [p.elementStart_eq hs hlayout ho']
  exact (hplace hunion).2 j o' hij ho'

/-- The fields of a struct are those of its members, each moved to where the
member starts. -/
theorem Resolvable.field_iff (h : c.Resolvable p path t) (hs : p.types.struct? t = some s)
    (hu : c.treatsAsUnion s = false) {k : Nat} {f : Field} :
    (c.partOf p t)[k]? = some f ↔ ∃ i m before k' f', s.members[i]? = some m ∧
      c.fieldsBefore? p t i = some before ∧ (c.partOf p m)[k']? = some f' ∧
      k = before + k' ∧ f = f'.shifted (p.elementStart t i) := by
  obtain ⟨r, hr, ho, hfields⟩ := h.exists_record hd hc hs
  obtain ⟨e, he⟩ := h.sized
  obtain ⟨_, _, _, _, _, _, _, hlayout, _⟩ := DataLayout.structLayout_of_extent hs he
  have htable := congrArg FieldTable.fields ((hc.tabulates hs hr ho).sequential hu hlayout)
  rw [hfields, show r.fields = _ from htable]
  constructor
  · intro hf
    obtain ⟨i, part, o, k', f', hpart, hoff, hf', rfl, rfl⟩ := FieldTable.getElem?_sequential hf
    rw [List.getElem?_map] at hpart
    obtain ⟨m, hm, rfl⟩ := Option.map_eq_some_iff.mp hpart
    exact ⟨i, m, _, k', f', hm, fieldsBefore?_eq hc hd hs hm hu hr ho hlayout, hf', rfl,
      by rw [p.elementStart_eq hs hlayout hoff]⟩
  · rintro ⟨i, m, before, k', f', hm, hbefore, hf', rfl, rfl⟩
    obtain rfl := Option.some.inj
      (hbefore.symm.trans (fieldsBefore?_eq hc hd hs hm hu hr ho hlayout))
    obtain ⟨placed, o, _, hlayout', _, hoff, _⟩ :=
      p.exists_member_place hs (h.solid.exactSize_le hs) hm he
    rw [hlayout] at hlayout'
    obtain rfl := Option.some.inj (Except.ok.inj hlayout')
    rw [p.elementStart_eq hs hlayout hoff]
    exact FieldTable.getElem?_sequential_add (by simp [hm]) hoff hf'

/-- The fields of a type without empty parts fit into its size. -/
theorem Resolvable.fitsIn (hptr : 1 ≤ p.dataLayout.pointerSize) (h : c.Resolvable p path t) :
    FitsIn (c.partOf p t) (p.byteCount t) := by
  induction h using Resolvable.ind hd hc with
  | leaf path t h hns =>
    rw [partOf_of_not_struct (by simp [TypeTable.isStruct, hns])]
    exact FitsIn.single rfl (h.byteCount_pos hptr)
  | array path t element length s h ht hs ih =>
    obtain ⟨e, he⟩ := h.sized
    rw [partOf_congr (h.element ht).2 hs, h.solid.byteCount_array ht he]
    exact ih.mono (Nat.le_mul_of_pos_right _ (h.solid.array ht).1)
  | union path t s h hs hu =>
    obtain ⟨r, hr, ho, hfields⟩ := h.exists_record hd hc hs
    have htable := congrArg FieldTable.fields
      ((hc.tabulates hs hr ho).overlaid hu (h.solid.struct hs))
    rw [hfields, show r.fields = _ from htable]
    exact FitsIn.single rfl (h.byteCount_pos hptr)
  | struct path t s h hs hu ih =>
    obtain ⟨r, hr, ho, hfields⟩ := h.exists_record hd hc hs
    obtain ⟨e, he⟩ := h.sized
    obtain ⟨m, rest, hm⟩ := List.exists_cons_of_ne_nil (h.solid.struct hs)
    have hm0 : s.members[0]? = some m := by simp [hm]
    obtain ⟨placed, o, _, hlayout, hsize, ho0, _⟩ :=
      p.exists_member_place hs (h.solid.exactSize_le hs) hm0 he
    have hfits := h.byteCount_le hs
    have htable := congrArg FieldTable.fields ((hc.tabulates hs hr ho).sequential hu hlayout)
    have hzero := p.elementStart_zero hs hm0 he
    rw [p.elementStart_eq hs hlayout ho0] at hzero
    rw [p.byteCount_of_extent he, hsize] at hfits ⊢
    rw [hfields, show r.fields = _ from htable]
    refine FitsIn.sequential hfits ⟨by simp [hm], hzero ▸ ho0⟩ fun i part o hi hoff => ?_
    rw [List.getElem?_map] at hi
    obtain ⟨m, hm, rfl⟩ := Option.map_eq_some_iff.mp hi
    obtain ⟨hend, hnext⟩ := h.member_place hs hu hm
    rw [p.elementStart_eq hs hlayout hoff, p.byteCount_of_extent he, hsize] at hend
    refine ⟨_, ih m (List.mem_of_getElem? hm), hend, fun j o' hij hoff' => ?_⟩
    obtain ⟨m', hm', hstart⟩ := p.exists_member_at hs hlayout hoff'
    have hle := hnext j m' hij hm'
    rwa [p.elementStart_eq hs hlayout hoff, hstart] at hle

/-- No field of a member wraps around when it moves to where the member starts. -/
theorem Resolvable.offset_shifted (hptr : 1 ≤ p.dataLayout.pointerSize)
    (h : c.Resolvable p path t) (hs : p.types.struct? t = some s)
    (hu : c.treatsAsUnion s = false) {i m : Nat} {f : Field} (hm : s.members[i]? = some m)
    (hf : f ∈ c.partOf p m) :
    (f.shifted (p.elementStart t i)).offset = p.elementStart t i + f.offset := by
  have hmember := h.member hd hc hs (List.mem_of_getElem? hm)
  have hend := (h.member_place hs hu hm).1
  exact (hmember.fitsIn hd hc hptr).offset_shifted (hend.trans (h.byteCount_le hs)) hf

theorem Grounded.resolvable {n : Nat} {r : FieldRecord} (hsolid : p.Solid t)
    (hr : c.records[t]? = some r) (hsized : p.dataLayout.size? p.types t = .ok (some n)) :
    c.Resolvable p [] t ∧ c.partOf p t = r.fields ∧ r.size = p.byteCount t := by
  obtain ⟨s, hs, hbody, _⟩ := (hc.record t r hr).shape
  obtain ⟨align, he⟩ := DataLayout.size?_eq_ok.mp hsized
  have ho : r.isOpaque = false := by
    obtain ⟨_, _, _, _, hb, _⟩ := DataLayout.structLayout_of_extent hs he
    simp [hbody, hb]
  exact ⟨⟨hsolid, hc.hasPart_self hd hs hr ho, _, he⟩,
    hc.partOf_eq hd (TypeTable.stripArrays_self hs) hs hr, hc.size_eq hsolid hs hr ho he⟩

end

/-- After any requests, the fields of a recorded struct follow each other without
overlap. None of them is empty, and all of them are inside the struct. -/
theorem fields_in_order {p : Program} {unionName : String} {requests : List Request} {t n : Nat}
    {r : FieldRecord} (hd : p.DistinctScopes) (hptr : 1 ≤ p.dataLayout.pointerSize)
    (hsolid : p.Solid t) (hsized : p.dataLayout.size? p.types t = .ok (some n))
    (hr : (after { unionName := unionName } p requests).record? p t = some r) :
    r.fields ≠ [] ∧ r.size = n ∧
      (∀ i f g, r.fields[i]? = some f → r.fields[i + 1]? = some g → f.offset + f.size ≤ g.offset) ∧
      (r.fields.map Field.offset).Pairwise (· < ·) ∧
      ∀ f ∈ r.fields, 0 < f.size ∧ f.offset + f.size ≤ r.size := by
  have hc := (after_coherent p unionName requests).grounded
  rw [hc.record?_eq hd] at hr
  obtain ⟨hres, hfields, hsize⟩ := hc.resolvable hd hsolid hr hsized
  have hfit := hres.fitsIn hd hc hptr
  rw [hfields, ← hsize] at hfit
  refine ⟨?_, ?_, ?_, ?_, fun f hf => ⟨hfit.size_pos f hf, hfit.inside f hf⟩⟩
  · obtain ⟨f, rest, hcons, _⟩ := hfit.exists_first
    simp [hcons]
  · simp [hsize, Program.byteCount, hsized]
  · intro i f g hf hg
    obtain ⟨hi, rfl⟩ := List.getElem?_eq_some_iff.mp hf
    obtain ⟨hj, rfl⟩ := List.getElem?_eq_some_iff.mp hg
    exact List.pairwise_iff_getElem.mp hfit.apart i (i + 1) hi hj (Nat.lt_succ_self i)
  · refine List.pairwise_map.mpr (hfit.apart.imp_of_mem ?_)
    intro f g hf _ hfg
    have hpos := hfit.size_pos f hf
    omega

/-- A struct with padding, a union, an array of structs and a packed struct. -/
def mixed : Program where
  types := {
    entries := #[
      .integer 8,
      .integer 32,
      .integer 64,
      .struct ⟨some "inner", some [0, 1], false, false⟩,
      .array 3 2,
      .struct ⟨some "either", some [1, 2], false, true⟩,
      .struct ⟨none, some [0, 1], true, false⟩,
      .struct ⟨some "outer", some [0, 5, 4, 6], false, false⟩] }

theorem fields_in_order_mixed : ∃ r,
    (after { unionName := "union." } mixed [.layout 7]).record? mixed 7 = some r ∧
      r.fields.map (fun f => (f.offset, f.size)) =
        [(0, 1), (8, 8), (16, 1), (20, 4), (32, 1), (33, 4)] ∧ r.size = 40 ∧
      (r.fields.map Field.offset).Pairwise (· < ·) ∧
      ∀ f ∈ r.fields, 0 < f.size ∧ f.offset + f.size ≤ r.size := by
  have hrecord : ((after { unionName := "union." } mixed [.layout 7]).record? mixed 7).any
      (fun r => r.fields.map (fun f => (f.offset, f.size)) ==
        [(0, 1), (8, 8), (16, 1), (20, 4), (32, 1), (33, 4)]) = true := by
    decide +kernel
  obtain ⟨r, hr, hfields⟩ := (Option.any_eq_true _ _).mp hrecord
  have hd : mixed.DistinctScopes := by decide +kernel
  have hsolid : mixed.Solid 7 := Program.solid_of_isFilled (by decide +kernel) 7
  have hsized : mixed.dataLayout.size? mixed.types 7 = .ok (some 40) := by decide +kernel
  obtain ⟨_, hsize, _, hmono, hinside⟩ := fields_in_order hd (by decide) hsolid hsized hr
  exact ⟨r, hr, by simpa using hfields, hsize, hmono, hinside⟩

end Catalog

end AbstractMemory
