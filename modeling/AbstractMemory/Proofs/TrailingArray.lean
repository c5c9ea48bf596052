import AbstractMemory.Proofs.ConstantAddress
import AbstractMemory.Proofs.Covering
import AbstractMemory.Proofs.Interior
import Mathlib

/-! An array at the end of a struct. Its address leads to its field as long as the
array starts inside the struct. Without elements it can start where the struct
ends, and that is taken for the start of a next struct. -/

namespace AbstractMemory

theorem Program.byteCount_array_pos (p : Program) {path : List Nat} {t element length : Nat}
    {e : Extent} (ht : p.types.get? t = some (.array element length))
    (h : p.dataLayout.extentFrom p.types path t = .ok (some e))
    (helement : 0 < p.byteCount element) (hlength : length ≠ 0) : 0 < p.byteCount t := by
  obtain ⟨_, e', he', rfl⟩ := (DataLayout.extentFrom_array ht).mp h
  rw [p.byteCount_of_extent he'] at helement
  rw [p.byteCount_of_extent h]
  exact cappedMul_pos helement (Nat.pos_of_ne_zero hlength)

theorem Program.solid_of_scalar {p : Program} {t : Nat} (harray : p.types.isArray t = false)
    (hstruct : p.types.isStruct t = false) : p.Solid t := by
  intro u hu
  obtain rfl | ⟨w, hpart, _⟩ := hu.cases_head
  · cases ht : p.types.get? t with
    | none => simp [isFilled, ht]
    | some ty =>
      cases ty with
      | array element length => simp [TypeTable.isArray, ht, Ty.element?] at harray
      | struct s => simp [TypeTable.isStruct, TypeTable.struct?_of_get? ht] at hstruct
      | _ => simp [isFilled, ht]
  · cases hpart with
    | element ht => simp [TypeTable.isArray, ht, Ty.element?] at harray
    | member hs _ => simp [TypeTable.isStruct, hs] at hstruct

namespace Catalog

variable {c : Catalog} {p : Program} {t : Nat} {s : StructType} {r : FieldRecord}

theorem KnowsUsed.exists_record (h : c.KnowsUsed p) (hd : p.DistinctScopes) (hc : c.Grounded p)
    {g : Nat} {gl : Global} (hg : p.ListsGlobal g gl)
    (hs : p.types.struct? gl.valueType = some s) (hne : s.members ≠ []) :
    ∃ r, c.records[gl.valueType]? = some r := by
  have hb : s.body.isSome = true := by
    cases hb : s.body with
    | none => simp [StructType.members, hb] at hne
    | some members => rfl
  obtain ⟨index, hindex, hmem⟩ := hg.mem_usedStructs .refl (by simp [TypeTable.isStruct, hs])
  obtain ⟨used, hused, hall⟩ := h index hindex
  have hrecord := (hall _ (hmem used hused) s hs hb).2
  rw [hc.standIn_self hd hs] at hrecord
  exact mem_records_iff.mp hrecord

section

variable (hd : p.DistinctScopes) (hc : c.Grounded p) (hptr : 1 ≤ p.dataLayout.pointerSize)
  (hs : p.types.struct? t = some s) (hfits : p.exactSize s ≤ maxByteCount)
  (hu : c.treatsAsUnion s = false) (hr : c.records[t]? = some r) (ho : r.isOpaque = false)
  {first : Nat} (hfirst : s.members[0]? = some first) (hsolid : p.Solid first)

include hd hc hptr hs hu hr ho hfirst hsolid

/-- The fields of the first member come before those of all others. -/
theorem fieldsBefore?_pos {i m : Nat} (hm : s.members[i]? = some m) (hi : i ≠ 0) :
    ∃ before, c.fieldsBefore? p t i = some before ∧ 0 < before := by
  obtain ⟨e, he⟩ := hc.extent_of_record hs hu hr ho
  obtain ⟨_, _, _, _, _, _, _, hlayout, _⟩ := DataLayout.structLayout_of_extent hs he
  refine ⟨_, fieldsBefore?_eq hc hd hs hm hu hr ho hlayout, ?_⟩
  have hmem := List.mem_of_getElem? hfirst
  have hres : c.Resolvable p [t] first := ⟨hsolid, hc.hasPart (mem_records_iff.mpr ⟨r, hr⟩) hs hmem,
    (DataLayout.extentFrom_part he (.member hs hmem)).2⟩
  obtain ⟨f, rest, hfields, _⟩ := (hres.fitsIn hd hc hptr).exists_first
  obtain ⟨i, rfl⟩ := Nat.exists_eq_succ_of_ne_zero hi
  cases hmembers : s.members with
  | nil => simp [hmembers] at hfirst
  | cons first' others =>
    obtain rfl : first' = first := by simpa [hmembers] using hfirst
    simp [hfields]

include hfits

/-- The end of a struct is taken for the start of a next one. -/
theorem descend_end (index outer : Nat) :
    c.descend p [] t index outer r.size = .ok ⟨index, true⟩ := by
  obtain ⟨e, he⟩ := hc.extent_of_record hs hu hr ho
  obtain ⟨placed, o, e', hlayout, _, hoff, he', hend, hplace⟩ :=
    p.exists_member_place hs hfits hfirst he
  obtain rfl : 0 = o := (p.elementStart_zero hs hfirst he).symm.trans
    (p.elementStart_eq hs hlayout hoff)
  have hpos := hsolid.size_pos hptr he'
  have hwhole : r.size = 0 + 0 + 1 * placed.size := by
    have hsize := hc.size_of_layout hs hu hr ho hlayout
    omega
  rw [hwhole, descend_slot hd hc hs hfits hu hr ho he hlayout hfirst hoff
    (fieldsBefore?_eq hc hd hs hfirst hu hr ho hlayout) (by omega) ?_ (by omega), descend_zero]
  · simp
  · intro j o' hj hoff'
    have hle := (hplace (Bool.or_eq_false_iff.mp hu).1).2 j o' hj hoff'
    omega

/-- The offset of the last member leads to its field, unless it is the end of the
struct. -/
theorem fieldInType_last {i m : Nat} (hm : s.members[i]? = some m) (hi : i ≠ 0)
    (hlast : s.members.length = i + 1) :
    ∃ field, r.memberFields[i]? = some field ∧ 0 < field ∧
      p.elementStart t i + p.byteCount m ≤ r.size ∧
      c.fieldInType p t (p.elementStart t i) =
        .ok ⟨if p.elementStart t i < r.size then field else 0, true⟩ := by
  obtain ⟨field, hfield, hpos⟩ := fieldsBefore?_pos hd hc hptr hs hu hr ho hfirst hsolid hm hi
  obtain ⟨e, he⟩ := hc.extent_of_record hs hu hr ho
  obtain ⟨placed, o, e', hlayout, _, hoff, he', hend, _⟩ :=
    p.exists_member_place hs hfits hm he
  have hsize := hc.size_of_layout hs hu hr ho hlayout
  have hstart := hsolid.elementStart_pos hptr hs hfits
    (Bool.or_eq_false_iff.mp hu).1 hfirst hm hi he
  rw [fieldInType_struct he hs hu, p.byteCount_of_extent he', hsize]
  rw [p.elementStart_eq hs hlayout hoff] at hstart ⊢
  refine ⟨field, ?_, hpos, hend, ?_⟩
  · rwa [fieldsBefore?, hc.record?_eq hd, hr, Option.bind_some] at hfield
  split
  · rename_i hlt
    have hslot := descend_slot (x := 0) (q := 0) hd hc hs hfits hu hr ho he hlayout hm hoff hfield
      hlt ?_ (by omega) 0 0
    · simpa [descend_zero] using hslot
    · intro j o' hj hoff'
      obtain ⟨m', hm', _⟩ := p.exists_member_at hs hlayout hoff'
      have hj' := (List.getElem?_eq_some_iff.mp hm').1
      omega
  · -- the offset is one whole struct, of which nothing is left over
    have hwhole : o = r.size := by omega
    rw [hwhole]
    exact descend_end hd hc hptr hs hfits hu hr ho hfirst hsolid 0 0

end

/-- Let the struct of a listed global begin with a member that is not empty and end
with an array, and let its members fit into the largest size. After a run that
succeeds, the address of the array leads to the field of the array exactly if the
array starts before the end of the struct. An array with elements always does. One
without them leads to the first field if no padding follows it. -/
theorem trailing_array_field {layout : DataLayout} {commands : List Command} {p : Program}
    (hp : ((Draft.start layout).runScript commands).2.program = p) (hd : p.DistinctScopes)
    (hptr : 1 ≤ p.dataLayout.pointerSize) {unionName : String} {before : List Request}
    {c : Catalog} (hrun : coverProgram p (after { unionName := unionName } p before) = .ok () c)
    (later : List Request) {g v first m element n : Nat} {middle : List Nat} {gl : Global}
    {s : StructType} (hg : p.ListsGlobal g gl) (hs : p.types.struct? gl.valueType = some s)
    (hfits : p.exactSize s ≤ maxByteCount) (hu : c.treatsAsUnion s = false)
    (hmembers : s.members = first :: (middle ++ [m]))
    (hsolid : p.Solid first) (hm : p.types.get? m = some (.array element n))
    (helement : 0 < p.byteCount element)
    (ha : p.IsAddress v gl.valueType g [0, middle.length + 1])
    (hlt : p.elementStart gl.valueType (middle.length + 1) < 2 ^ 63) :
    (allSucceed { unionName := unionName } p before = true →
      ∃ r, (c.after p later).record? p gl.valueType = some r) ∧
    ∀ r, (c.after p later).record? p gl.valueType = some r →
      ∃ field, r.memberFields[middle.length + 1]? = some field ∧ 0 < field ∧
        (n ≠ 0 → p.elementStart gl.valueType (middle.length + 1) < r.size) ∧
        (c.after p later).constantField p v =
          .ok ⟨if p.elementStart gl.valueType (middle.length + 1) < r.size then field else 0,
            true⟩ := by
  have hwf : p.WellFormed := hp ▸ Draft.runScript_wellFormed layout commands
  obtain ⟨hcoherent, _⟩ := (coverProgram_visits (after_coherent p unionName before)).of_ok hrun
  have hadv := after_advances (flattenable_false p)
    ⟨hcoherent, by simp, fun _ _ _ h => h.elim⟩ later
  have hc := hadv.coherent.grounded
  rw [hc.record?_eq hd]
  constructor
  · intro hok
    obtain ⟨_, _, hknows⟩ :=
      (coverProgram_intact (after_intact (intact_empty p unionName) hok)).of_ok hrun
    obtain ⟨r, hr⟩ := hknows.exists_record hd hcoherent.grounded hg hs (by simp [hmembers])
    obtain ⟨_, hr', _⟩ := hadv.grows.records _ r hr
    exact ⟨_, hr'⟩
  · intro r hr
    generalize c.after p later = c' at hadv hc hr ⊢
    have hu' : c'.treatsAsUnion s = false := (hadv.grows.treatsAsUnion s).trans hu
    have ho := hc.isOpaque_of_members hs hr (by simp [hmembers])
    have hlast : s.members[middle.length + 1]? = some m := by simp [hmembers]
    obtain ⟨field, hfield, hpos, hend, hfind⟩ := fieldInType_last hd hc hptr hs hfits hu' hr ho
      (by simp [hmembers]) hsolid hlast (by omega) (by simp [hmembers])
    refine ⟨field, hfield, hpos, ?_, ?_⟩
    · intro hn
      obtain ⟨e, he⟩ := hc.extent_of_record hs hu' hr ho
      obtain ⟨_, e', he'⟩ :=
        DataLayout.extentFrom_part he (.member hs (List.mem_of_getElem? hlast))
      have harray := p.byteCount_array_pos hm he' helement hn
      omega
    · obtain ⟨e, he⟩ := hc.extent_of_record hs hu' hr ho
      have hin : p.InBounds gl.valueType [middle.length + 1] :=
        ⟨m, (p.element?_struct hs).trans hlast, trivial⟩
      have hbytes : 0 * e.size + p.pathBytes gl.valueType [middle.length + 1] =
          p.elementStart gl.valueType (middle.length + 1) := by
        simp [Program.pathBytes]
      rw [constantField_eq hwf hg ha (DataLayout.size?_eq_ok.mpr ⟨_, he⟩) hin (hbytes ▸ hlt),
        hbytes, hfind]

/-- Two structs that end with an array without elements. Only the first one has
padding behind it. -/
def tailing : List Command := [
  .addModule "main",
  .int 8,
  .int 32,
  .int 64,
  .arrayOf 0 0,
  .arrayOf 1 0,
  .defineStruct "roomy" [2, 0, 3],
  .defineStruct "tight" [1, 4],
  .global "a" 5 false,
  .global "b" 6 false,
  .constantAddress 5 0 [0, 2],
  .constantAddress 6 1 [0, 1]]

def tailed : Program :=
  ((Draft.start {}).runScript tailing).2.program

theorem exists_covered (p : Program) (unionName : String) (requests : List Request)
    (good : Catalog → Bool)
    (h : (match coverProgram p (after { unionName := unionName } p requests) with
      | .ok _ c => good c
      | .error _ _ => false) = true) :
    ∃ c, coverProgram p (after { unionName := unionName } p requests) = .ok () c ∧
      good c = true := by
  cases hrun : coverProgram p (after { unionName := unionName } p requests) with
  | error e c => simp [hrun] at h
  | ok _ c => exact ⟨c, rfl, by simpa [hrun] using h⟩

theorem trailing_array_field_tailed : ∃ c r,
    coverProgram tailed (after { unionName := "union." } tailed [.layout 6]) = .ok () c ∧
      c.record? tailed 5 = some r ∧ r.memberFields = [0, 1, 2] ∧
      c.constantField tailed 4 = .ok ⟨2, true⟩ := by
  obtain ⟨c, hrun, hc⟩ := exists_covered tailed "union." [.layout 6]
    (fun c => !c.treatsAsUnion ⟨some "roomy", some [2, 0, 3], false, false⟩ &&
      (c.record? tailed 5).all fun r => r.memberFields == [0, 1, 2] && r.size == 16)
    (by decide +kernel)
  obtain ⟨hu, hrecord⟩ := Bool.and_eq_true_iff.mp hc
  have hp : ((Draft.start {}).runScript tailing).2.program = tailed := rfl
  have hd : tailed.DistinctScopes := by decide +kernel
  have hptr : 1 ≤ tailed.dataLayout.pointerSize := by decide +kernel
  have hg : tailed.ListsGlobal 0 ⟨5, false, 0⟩ :=
    ⟨⟨⟨"main", [0, 1], []⟩, by decide +kernel, by decide⟩,
      ⟨7, some "a", .global ⟨5, false, 0⟩, [4]⟩, by decide +kernel, rfl⟩
  have hs : tailed.types.struct? 5 = some ⟨some "roomy", some [2, 0, 3], false, false⟩ := by
    decide +kernel
  have hmembers : StructType.members ⟨some "roomy", some [2, 0, 3], false, false⟩ =
      2 :: ([0] ++ [3]) := rfl
  have hsolid : tailed.Solid 2 := Program.solid_of_scalar (by decide +kernel) (by decide +kernel)
  have hm : tailed.types.get? 3 = some (.array 0 0) := by decide +kernel
  have ha : tailed.IsAddress 4 5 0 [0, 2] :=
    ⟨⟨9, none, .constant (.expr (.elementAddress ⟨5, 0, [2, 3]⟩)), []⟩,
      [2, 3], by decide +kernel, rfl, by decide +kernel⟩
  obtain ⟨hrecorded, hfind⟩ := trailing_array_field hp hd hptr hrun [] hg hs (by decide +kernel)
    (by simpa using hu) hmembers hsolid hm (by decide +kernel) ha (by decide +kernel)
  obtain ⟨r, hr⟩ := hrecorded (by decide +kernel)
  have hr' : c.record? tailed 5 = some r := hr
  obtain ⟨hfields, hsize⟩ : r.memberFields = [0, 1, 2] ∧ r.size = 16 := by
    simpa [hr'] using hrecord
  obtain ⟨field, hfield, _, _, hconst⟩ := hfind r hr
  obtain rfl : 2 = field := by simpa [hfields] using hfield
  rw [if_pos (by rw [hsize]; decide +kernel)] at hconst
  exact ⟨c, r, hrun, hr', hfields, hconst⟩

/-- The array has a field of its own, but its address leads to the first field of
the struct. -/
theorem trailing_array_missed_tailed : tailed.DistinctScopes ∧
    tailed.types.struct? 6 = some ⟨some "tight", some [1, 4], false, false⟩ ∧
    tailed.types.get? 4 = some (.array 1 0) ∧ tailed.IsAddress 7 6 1 [0, 1] ∧ ∃ c r,
      coverProgram tailed (after { unionName := "union." } tailed []) = .ok () c ∧
        c.record? tailed 6 = some r ∧ r.memberFields = [0, 1] ∧
        c.constantField tailed 7 = .ok ⟨0, true⟩ := by
  obtain ⟨c, hrun, hc⟩ := exists_covered tailed "union." []
    (fun c => (c.record? tailed 6).any (fun r => r.memberFields == [0, 1]) &&
      c.constantField tailed 7 == .ok ⟨0, true⟩)
    (by decide +kernel)
  obtain ⟨hrecord, hconst⟩ := Bool.and_eq_true_iff.mp hc
  obtain ⟨r, hr, hfields⟩ := (Option.any_eq_true _ _).mp hrecord
  have ha : tailed.IsAddress 7 6 1 [0, 1] :=
    ⟨⟨10, none, .constant (.expr (.elementAddress ⟨6, 1, [5, 6]⟩)), []⟩,
      [5, 6], by decide +kernel, rfl, by decide +kernel⟩
  exact ⟨by decide +kernel, by decide +kernel, by decide +kernel, ha, c, r, hrun, hr,
    by simpa using hfields, by simpa using hconst⟩

end Catalog

end AbstractMemory
