import AbstractMemory.Proofs.History
import AbstractMemory.Proofs.IndexPath
import AbstractMemory.Record.Resolve
import Mathlib

/-! From offsets back to fields. Following an offset down a type finds the
field that the indices to that offset lead to. -/

namespace AbstractMemory

def TypeTable.scopeName? (types : TypeTable) (t : Nat) : Option String :=
  (types.structName? t).map scopeName

/-- No two named structs have the same scope name. -/
def Program.DistinctScopes (p : Program) : Prop :=
  ∀ t < p.types.size, ∀ u < p.types.size, p.types.scopeName? t ≠ none →
    p.types.scopeName? t = p.types.scopeName? u → t = u

instance (p : Program) : Decidable p.DistinctScopes :=
  inferInstanceAs (Decidable (∀ t < p.types.size, ∀ u < p.types.size,
    p.types.scopeName? t ≠ none → p.types.scopeName? t = p.types.scopeName? u → t = u))

theorem Program.DistinctScopes.eq_of_scopeOf {p : Program} (hd : p.DistinctScopes) {t u : Nat}
    {s : StructType} {name : String} (hs : p.types.struct? t = some s) (hn : s.name = some name)
    (hu : Catalog.ScopeOf p (scopeName name) u) : u = t := by
  obtain ⟨s', name', hs', hn', hscope, _⟩ := hu
  have ht : p.types.scopeName? t = some (scopeName name) := by
    simp [TypeTable.scopeName?, TypeTable.structName?, hs, hn]
  have hu : p.types.scopeName? u = some (scopeName name) := by
    simp [TypeTable.scopeName?, TypeTable.structName?, hs', hn', hscope]
  refine hd u (TypeTable.lt_size_of_get? (TypeTable.get?_of_struct? hs')) t
    (TypeTable.lt_size_of_get? (TypeTable.get?_of_struct? hs)) ?_ (hu.trans ht.symm)
  simp [hu]

namespace Catalog

variable {c : Catalog} {p : Program}

theorem Grounded.standIn_self (hc : c.Grounded p) (hd : p.DistinctScopes) {t : Nat}
    {s : StructType} (hs : p.types.struct? t = some s) : c.standIn s t = t :=
  hc.standIn_eq fun _ _ hn => hd.eq_of_scopeOf hs hn

theorem Grounded.record?_eq (hc : c.Grounded p) (hd : p.DistinctScopes) (t : Nat) :
    c.record? p t = c.records[t]? := by
  unfold record?
  cases hr : c.records[t]? with
  | some r => simp [(hc.record t r hr).isFinal]
  | none =>
    cases hs : p.types.struct? t with
    | none => simp [canonical?, hs]
    | some s => simp [canonical?, hs, hc.standIn_self hd hs, hr]

theorem HasPart.record (hc : c.Grounded p) (hd : p.DistinctScopes) {t u : Nat} {s : StructType}
    (hpart : c.HasPart p t) (hu : p.types.stripArrays t = u) (hs : p.types.struct? u = some s) :
    ∃ r, c.records[u]? = some r ∧ r.isOpaque = false := by
  subst hu
  obtain ⟨_, r, hr, ho⟩ := hpart s hs
  rw [hc.standIn_self hd hs] at hr
  exact ⟨r, hr, ho⟩

theorem Grounded.isOpaque_of_members (hc : c.Grounded p) {t : Nat} {s : StructType}
    {r : FieldRecord} (hs : p.types.struct? t = some s) (hr : c.records[t]? = some r)
    (hne : s.members ≠ []) : r.isOpaque = false := by
  obtain ⟨s', hs', hbody, _⟩ := (hc.record t r hr).shape
  obtain rfl := Option.some.inj (hs.symm.trans hs')
  cases hb : s.body with
  | none => simp [StructType.members, hb] at hne
  | some members => simp [hbody, hb]

theorem Tabulates.exists_layout {u : Nat} {s : StructType} {members : List Nat} {r : FieldRecord}
    (h : c.Tabulates p u s members r) (hu : c.treatsAsUnion s = false) :
    ∃ placed, p.dataLayout.structLayout p.types u = .ok (some placed) := by
  have ht := h.table
  simp only [tableOver, hu, Bool.false_eq_true, if_false] at ht
  split at ht
  · exact ⟨_, by assumption⟩
  · cases ht

theorem Tabulates.sequential {u : Nat} {s : StructType} {r : FieldRecord}
    {placed : StructLayout} (h : c.Tabulates p u s s.members r) (hu : c.treatsAsUnion s = false)
    (hlayout : p.dataLayout.structLayout p.types u = .ok (some placed)) :
    r.table = .sequential (s.members.map (c.partOf p)) placed := by
  have ht := h.table
  simp only [tableOver, hu, hlayout] at ht
  exact (Option.some.inj ht).symm

theorem Tabulates.overlaid {u : Nat} {s : StructType} {r : FieldRecord}
    (h : c.Tabulates p u s s.members r) (hu : c.treatsAsUnion s = true) (hne : s.members ≠ []) :
    r.table = .overlaid (s.members.any p.types.isArray) (s.members.map (c.partOf p))
      (p.byteCount u) := by
  have ht := h.table
  simp only [tableOver, hu, if_true, List.isEmpty_iff, hne, if_false] at ht
  exact (Option.some.inj ht).symm

theorem descend_zero (c : Catalog) (p : Program) (path : List Nat) (t index outer : Nat) :
    c.descend p path t index outer 0 = .ok ⟨index, true⟩ := by
  rw [descend, if_pos rfl]

theorem descend_congr {path : List Nat} {t t' index outer offset : Nat}
    (h : p.types.stripArrays t = p.types.stripArrays t') :
    c.descend p path t index outer offset = c.descend p path t' index outer offset := by
  unfold descend
  simp only [h]

theorem descend_scalar {path : List Nat} {t index outer n q : Nat}
    (hst : p.types.isStruct (p.types.stripArrays t) = false)
    (hsize : p.dataLayout.size? p.types (p.types.stripArrays t) = .ok (some n)) (hn : 0 < n) :
    c.descend p path t index outer (q * n) = .ok ⟨index, true⟩ := by
  rw [descend]
  split
  · rfl
  · simp [hst, hsize, Nat.ne_of_gt hn]

theorem descend_union {path : List Nat} {t index outer offset : Nat} {r : FieldRecord}
    (hst : p.types.isStruct (p.types.stripArrays t) = true)
    (hr : c.record? p (p.types.stripArrays t) = some r) (ho : r.isOpaque = false)
    (hsize : r.size ≠ 0) (hu : r.isUnion = true) :
    c.descend p path t index outer offset = .ok ⟨index, true⟩ := by
  rw [descend]
  split
  · rfl
  · simp [hst, hr, ho, hsize, hu]

theorem descend_member {path : List Nat} {t u index outer offset : Nat} {s : StructType}
    {r : FieldRecord} {placed : StructLayout} (hst : p.types.stripArrays t = u)
    (hs : p.types.struct? u = some s) (hr : c.record? p u = some r) (ho : r.isOpaque = false)
    (hsize : r.size ≠ 0) (hu : r.isUnion = false) (htype : r.type = u)
    (hlayout : p.dataLayout.structLayout p.types u = .ok (some placed)) (hp : u ∉ path)
    (hoffset : offset ≠ 0) :
    c.descend p path t index outer offset =
      c.descend p (u :: path) (s.members[placed.memberAt (offset % r.size)]?.getD u)
        (index + r.memberFields[placed.memberAt (offset % r.size)]?.getD 0) index
        (offset % r.size - placed.offsets[placed.memberAt (offset % r.size)]?.getD 0) := by
  subst htype
  have hisst : p.types.isStruct r.type = true := by simp [TypeTable.isStruct, hs]
  rw [descend]
  simp only [hoffset, if_false, hst, hisst, if_true, hr, ho, Bool.false_or, beq_iff_eq, hsize, hu,
    Bool.false_eq_true, hlayout, hp, dif_neg, not_false_eq_true]
  split
  · rename_i s' hget
    rw [TypeTable.get?_of_struct? hs] at hget
    cases hget
    rfl
  · rename_i hno
    exact (hno s (TypeTable.get?_of_struct? hs)).elim

theorem Grounded.size_of_layout (hc : c.Grounded p) {u : Nat} {s : StructType} {r : FieldRecord}
    {placed : StructLayout} (hs : p.types.struct? u = some s) (hu : c.treatsAsUnion s = false)
    (hr : c.records[u]? = some r) (ho : r.isOpaque = false)
    (hlayout : p.dataLayout.structLayout p.types u = .ok (some placed)) : r.size = placed.size :=
  congrArg FieldTable.size ((hc.tabulates hs hr ho).sequential hu hlayout)

theorem Grounded.size_eq (hc : c.Grounded p) {path : List Nat} {u : Nat} {s : StructType}
    {r : FieldRecord} {e : Extent} (hsolid : p.Solid u) (hs : p.types.struct? u = some s)
    (hr : c.records[u]? = some r) (ho : r.isOpaque = false)
    (h : p.dataLayout.extentFrom p.types path u = .ok (some e)) : r.size = p.byteCount u := by
  cases hu : c.treatsAsUnion s with
  | true =>
    have htable := (hc.tabulates hs hr ho).overlaid hu (hsolid.struct hs)
    exact congrArg FieldTable.size htable
  | false =>
    obtain ⟨_, _, _, placed, _, _, _, hlayout, rfl⟩ := DataLayout.structLayout_of_extent hs h
    rw [p.byteCount_of_extent h]
    exact hc.size_of_layout hs hu hr ho hlayout

theorem fieldsBefore?_eq (hc : c.Grounded p) (hd : p.DistinctScopes) {u i m : Nat} {s : StructType}
    {r : FieldRecord} {placed : StructLayout} (hs : p.types.struct? u = some s)
    (hm : s.members[i]? = some m) (hu : c.treatsAsUnion s = false)
    (hr : c.records[u]? = some r) (ho : r.isOpaque = false)
    (hlayout : p.dataLayout.structLayout p.types u = .ok (some placed)) :
    c.fieldsBefore? p u i = some ((s.members.map (c.partOf p)).take i).flatten.length := by
  have htab := (hc.tabulates hs hr ho).sequential hu hlayout
  have hfields : r.memberFields = FieldTable.starts (s.members.map (c.partOf p)) :=
    congrArg FieldTable.memberFields htab
  have hi : i < (s.members.map (c.partOf p)).length := by
    simpa using (List.getElem?_eq_some_iff.mp hm).1
  rw [fieldsBefore?, hc.record?_eq hd, hr, Option.bind_some, hfields, FieldTable.getElem?_starts hi]

/-- An offset from where a member of a struct starts to where the next one starts
is followed into the member, also with any number of whole structs before it. -/
theorem descend_slot (hd : p.DistinctScopes) (hc : c.Grounded p) {path : List Nat}
    {t i m o x q before : Nat} {s : StructType} {r : FieldRecord} {e : Extent}
    {placed : StructLayout} (hs : p.types.struct? t = some s)
    (hfits : p.exactSize s ≤ maxByteCount) (hu : c.treatsAsUnion s = false)
    (hr : c.records[t]? = some r) (ho : r.isOpaque = false)
    (he : p.dataLayout.extentFrom p.types path t = .ok (some e))
    (hlayout : p.dataLayout.structLayout p.types t = .ok (some placed))
    (hm : s.members[i]? = some m) (hoff : placed.offsets[i]? = some o)
    (hbefore : c.fieldsBefore? p t i = some before) (hend : o + x < placed.size)
    (hnext : ∀ j o', i < j → placed.offsets[j]? = some o' → o + x < o')
    (hz : o + x + q * placed.size ≠ 0) (index outer : Nat) :
    c.descend p path t index outer (o + x + q * placed.size) =
      c.descend p (t :: path) m (index + before) index x := by
  have hr' := (hc.record?_eq hd t).trans hr
  have hsize := hc.size_of_layout hs hu hr ho hlayout
  have hfield : r.memberFields[i]? = some before := by
    rwa [fieldsBefore?, hr', Option.bind_some] at hbefore
  obtain ⟨placed', o', _, hlayout', _, hoff', _, _, hplace⟩ :=
    p.exists_member_place hs hfits hm he
  obtain rfl : placed = placed' := by simpa [hlayout] using hlayout'
  obtain rfl : o = o' := Option.some.inj (hoff.symm.trans hoff')
  have hmod : (o + x + q * placed.size) % r.size = o + x := by
    rw [hsize, Nat.add_mul_mod_self_right, Nat.mod_eq_of_lt hend]
  have hat : placed.memberAt (o + x) = i :=
    StructLayout.memberAt_eq hoff (hplace (Bool.or_eq_false_iff.mp hu).1).1 hnext
  rw [descend_member (TypeTable.stripArrays_self hs) hs hr' ho (by omega)
    ((hc.tabulates hs hr ho).isUnion.trans hu) (hc.record t r hr).type hlayout
    (DataLayout.structLayout_of_extent hs he).1 hz, hmod, hat, hm, hoff, hfield]
  simp

theorem descend_inside (hd : p.DistinctScopes) (hc : c.Grounded p) {path : List Nat}
    {t u i m x q : Nat} {s : StructType} {e : Extent} (hpart : c.HasPart p t)
    (hst : p.types.stripArrays t = u)
    (h : p.dataLayout.extentFrom p.types path u = .ok (some e))
    (hs : p.types.struct? u = some s) (hfits : p.exactSize s ≤ maxByteCount)
    (hu : c.treatsAsUnion s = false) (hm : s.members[i]? = some m) (hx : x < p.byteCount m)
    {before : Nat} (hbefore : c.fieldsBefore? p u i = some before)
    (hz : p.elementStart u i + x + q * p.byteCount u ≠ 0) (index outer : Nat) :
    c.descend p path t index outer (p.elementStart u i + x + q * p.byteCount u) =
      c.descend p (u :: path) m (index + before) index x := by
  obtain ⟨r, hr, ho⟩ := hpart.record hc hd hst hs
  obtain ⟨placed, o, em, hlayout, hplaced, hoff, hem, hend, hplace⟩ :=
    p.exists_member_place hs hfits hm h
  obtain ⟨_, hafter⟩ := hplace (Bool.or_eq_false_iff.mp hu).1
  rw [p.byteCount_of_extent hem] at hx
  rw [p.elementStart_eq hs hlayout hoff, p.byteCount_of_extent h, hplaced] at hz ⊢
  rw [descend_congr (hst.trans (TypeTable.stripArrays_self hs).symm)]
  refine descend_slot hd hc hs hfits hu hr ho h hlayout hm hoff hbefore (by omega) ?_ hz index outer
  intro j o' hij hoff'
  have hle := hafter j o' hij hoff'
  omega

theorem exists_fieldsBefore (hc : c.Grounded p) (hd : p.DistinctScopes) {path : List Nat}
    {t u i m : Nat} {s : StructType} {e : Extent} (hpart : c.HasPart p t)
    (hst : p.types.stripArrays t = u)
    (h : p.dataLayout.extentFrom p.types path u = .ok (some e))
    (hs : p.types.struct? u = some s) (hu : c.treatsAsUnion s = false)
    (hm : s.members[i]? = some m) :
    ∃ before, c.fieldsBefore? p u i = some before ∧ (i = 0 → before = 0) := by
  obtain ⟨r, hr, ho⟩ := hpart.record hc hd hst hs
  obtain ⟨_, _, _, _, _, _, _, hlayout, _⟩ := DataLayout.structLayout_of_extent hs h
  refine ⟨_, fieldsBefore?_eq hc hd hs hm hu hr ho hlayout, ?_⟩
  rintro rfl
  rfl

theorem descend_overlaid (hd : p.DistinctScopes) (hc : c.Grounded p)
    (hptr : 1 ≤ p.dataLayout.pointerSize) {path : List Nat} {t u : Nat} {s : StructType}
    {e : Extent} (hsolid : p.Solid u) (hpart : c.HasPart p t) (hst : p.types.stripArrays t = u)
    (h : p.dataLayout.extentFrom p.types path u = .ok (some e))
    (hs : p.types.struct? u = some s) (hu : c.treatsAsUnion s = true) (index outer offset : Nat) :
    c.descend p path t index outer offset = .ok ⟨index, true⟩ := by
  have hpos := hsolid.size_pos hptr h
  obtain ⟨r, hr, ho⟩ := hpart.record hc hd hst hs
  have hsize := hc.size_eq hsolid hs hr ho h
  rw [p.byteCount_of_extent h] at hsize
  subst hst
  exact descend_union (by simp [TypeTable.isStruct, hs]) ((hc.record?_eq hd _).trans hr) ho
    (by omega) ((hc.tabulates hs hr ho).isUnion.trans hu)

theorem descend_start (hd : p.DistinctScopes) (hc : c.Grounded p)
    (hptr : 1 ≤ p.dataLayout.pointerSize) {path : List Nat} {t : Nat} {e : Extent}
    (hsolid : p.Solid t) (hpart : c.HasPart p t)
    (h : p.dataLayout.extentFrom p.types path t = .ok (some e)) (index outer q : Nat) :
    c.descend p path t index outer (q * p.byteCount (p.types.stripArrays t)) =
      .ok ⟨index, true⟩ := by
  have hsolid' := hsolid.inside (p.types.byValue_stripArrays t)
  obtain ⟨e', he'⟩ := DataLayout.extentFrom_stripArrays h
  generalize hst : p.types.stripArrays t = u at hsolid' he' ⊢
  cases hs : p.types.struct? u with
  | none =>
    have hpos := hsolid'.size_pos hptr he'
    have hsize : p.dataLayout.size? p.types u = .ok (some e'.size) :=
      DataLayout.size?_eq_ok.mpr ⟨_, DataLayout.extentFrom_of_subset (List.nil_subset _) he'⟩
    rw [p.byteCount_of_extent he']
    subst hst
    exact descend_scalar (by simp [TypeTable.isStruct, hs]) hsize hpos
  | some s =>
    cases hu : c.treatsAsUnion s with
    | true => exact descend_overlaid hd hc hptr hsolid' hpart hst he' hs hu index outer _
    | false =>
      by_cases hz : q * p.byteCount u = 0
      · rw [hz, descend_zero]
      · obtain ⟨m, rest, hm⟩ := List.exists_cons_of_ne_nil (hsolid'.struct hs)
        have hm : s.members[0]? = some m := by simp [hm]
        have hpart' := TypeTable.Part.member hs (List.mem_of_getElem? hm)
        obtain ⟨_, em, hem⟩ := DataLayout.extentFrom_part he' hpart'
        have hpos := (hsolid'.inside (.single hpart')).size_pos hptr hem
        rw [← p.byteCount_of_extent hem] at hpos
        have hstart := p.elementStart_zero hs hm he'
        obtain ⟨before, hbefore, hzero⟩ := exists_fieldsBefore hc hd hpart hst he' hs hu hm
        have hin := descend_inside hd hc hpart hst he' hs (hsolid'.exactSize_le hs) hu hm hpos
          hbefore (q := q) (by simpa [hstart] using hz) index outer
        simp only [hstart, Nat.zero_add] at hin
        rw [hin, descend_zero, hzero rfl, Nat.add_zero]

/-- The offset of indices in bounds, with any number of whole objects before
it, leads to the field of those indices. -/
theorem descend_path (hd : p.DistinctScopes) (hc : c.Grounded p)
    (hptr : 1 ≤ p.dataLayout.pointerSize) {path indices : List Nat} {t : Nat} {e : Extent}
    (hsolid : p.Solid t) (hpart : c.HasPart p t)
    (h : p.dataLayout.extentFrom p.types path t = .ok (some e)) (hin : p.InBounds t indices) :
    ∃ field, c.pathField? p t indices = some field ∧ ∀ index outer q,
      c.descend p path t index outer
          (p.pathBytes t indices + q * p.byteCount (p.types.stripArrays t)) =
        .ok ⟨index + field, true⟩ := by
  induction indices generalizing path t e with
  | nil =>
    refine ⟨0, rfl, fun index outer q => ?_⟩
    rw [Program.pathBytes, Nat.zero_add, Nat.add_zero]
    exact descend_start hd hc hptr hsolid hpart h index outer q
  | cons i rest ih =>
    obtain ⟨u, hu, hin⟩ := hin
    have hp := Program.part_of_element? hu
    have hsolid' := hsolid.inside (.single hp)
    obtain ⟨_, e', he'⟩ := DataLayout.extentFrom_part h hp
    simp only [Program.pathBytes, hu, Option.getD_some]
    rcases Program.element?_cases hu with ⟨length, ht, hi⟩ | ⟨s, hs, hm⟩
    · have hst := DataLayout.stripArrays_array ht h
      obtain ⟨count, hcount⟩ := hsolid'.exists_byteCount_eq_mul he'
      obtain ⟨field, hfield, hnext⟩ := ih hsolid' (hpart.of_stripArrays hst)
        (DataLayout.extentFrom_of_subset (List.subset_cons_self t path) he') hin
      refine ⟨field, (pathField?_array ht hi).trans hfield, fun index outer q => ?_⟩
      have hbytes : p.elementStart t i + p.pathBytes u rest +
          q * p.byteCount (p.types.stripArrays t) =
          p.pathBytes u rest + (i * count + q) * p.byteCount (p.types.stripArrays u) := by
        simp only [Program.elementStart, ht, hst, hcount]
        ring
      rw [hbytes, descend_congr hst]
      exact hnext index outer (i * count + q)
    · have hst := TypeTable.stripArrays_self hs
      rw [hst]
      cases hun : c.treatsAsUnion s with
      | true =>
        refine ⟨0, pathField?_union hs hun, fun index outer q => ?_⟩
        exact descend_overlaid hd hc hptr hsolid hpart hst h hs hun index outer _
      | false =>
        have hlt := hsolid'.pathBytes_lt hptr he' hin
        obtain ⟨r, hr, _⟩ := hpart.record hc hd hst hs
        have hpart' := hc.hasPart (mem_records_iff.mpr ⟨r, hr⟩) hs (List.mem_of_getElem? hm)
        obtain ⟨inside, hinside, hnext⟩ := ih hsolid' hpart' he' hin
        replace hnext : ∀ index outer,
            c.descend p (t :: path) u index outer (p.pathBytes u rest) =
              .ok ⟨index + inside, true⟩ := by
          intro index outer
          have hh := hnext index outer 0
          rwa [Nat.zero_mul, Nat.add_zero] at hh
        obtain ⟨before, hbefore, hzero⟩ := exists_fieldsBefore hc hd hpart hst h hs hun hm
        refine ⟨_, pathField?_member hs hun hm hbefore hinside, fun index outer q => ?_⟩
        by_cases hz : p.elementStart t i + p.pathBytes u rest + q * p.byteCount t = 0
        · -- nothing is skipped, so all indices are zero and no fields are skipped either
          obtain rfl : inside = 0 := by
            have hh := hnext 0 0
            rw [show p.pathBytes u rest = 0 by omega, descend_zero] at hh
            simpa using hh.symm
          obtain rfl : i = 0 := by
            by_contra hi
            have hunion : s.isUnion = false := (Bool.or_eq_false_iff.mp hun).1
            obtain ⟨first, others, hmembers⟩ := List.exists_cons_of_ne_nil (hsolid.struct hs)
            have hfirst := hsolid.inside (.single (.member hs (m := first) (by simp [hmembers])))
            have hpos := hfirst.elementStart_pos hptr hs (hsolid.exactSize_le hs) hunion
              (by simp [hmembers]) hm hi h
            omega
          rw [hz, descend_zero, hzero rfl, Nat.add_zero]
        · rw [descend_inside hd hc hpart hst h hs (hsolid.exactSize_le hs) hun hm hlt hbefore hz,
            hnext, Nat.add_assoc]

theorem fieldInType_union {t : Nat} {s : StructType} (hs : p.types.struct? t = some s)
    (hu : c.treatsAsUnion s = true) (offset : Nat) :
    c.fieldInType p t offset = .ok ⟨0, true⟩ := by
  unfold fieldInType
  rw [if_neg (by omega), hs]
  simp [hu]

theorem fieldInType_eq_descend {t : Nat} {e : Extent}
    (h : p.dataLayout.extent p.types t = .ok (some e))
    (hu : ∀ s, p.types.struct? t = some s → c.treatsAsUnion s = false) (offset : Nat) :
    c.fieldInType p t offset = c.descend p [] t 0 0 offset := by
  unfold fieldInType
  rw [if_neg (by omega), Int.toNat_natCast]
  cases hs : p.types.struct? t with
  | none => rfl
  | some s =>
    obtain ⟨_, members, _, _, hb, _⟩ := DataLayout.structLayout_of_extent hs h
    simp [hu s hs, hb]

theorem fieldInType_struct {t : Nat} {e : Extent} {s : StructType}
    (h : p.dataLayout.extent p.types t = .ok (some e)) (hs : p.types.struct? t = some s)
    (hu : c.treatsAsUnion s = false) (offset : Nat) :
    c.fieldInType p t offset = c.descend p [] t 0 0 offset :=
  fieldInType_eq_descend h (fun _ hs' => Option.some.inj (hs.symm.trans hs') ▸ hu) offset

theorem fieldInType_path (hd : p.DistinctScopes) (hc : c.Grounded p)
    (hptr : 1 ≤ p.dataLayout.pointerSize) {indices : List Nat} {t : Nat} {e : Extent}
    (hsolid : p.Solid t) (hpart : c.HasPart p t)
    (h : p.dataLayout.extent p.types t = .ok (some e)) (hin : p.InBounds t indices) :
    ∃ field, c.pathField? p t indices = some field ∧ ∀ q,
      c.fieldInType p t
          (p.pathBytes t indices + q * p.byteCount (p.types.stripArrays t) : Nat) =
        .ok ⟨field, true⟩ := by
  by_cases hu : ∃ s, p.types.struct? t = some s ∧ c.treatsAsUnion s = true
  · obtain ⟨s, hs, hu⟩ := hu
    refine ⟨0, ?_, fun q => fieldInType_union hs hu _⟩
    cases indices with
    | nil => rfl
    | cons i rest => exact pathField?_union hs hu
  · obtain ⟨field, hfield, hdescend⟩ := descend_path hd hc hptr hsolid hpart h hin
    refine ⟨field, hfield, fun q => ?_⟩
    rw [fieldInType_eq_descend h (by simpa using hu), hdescend, Nat.zero_add]

end Catalog

end AbstractMemory
