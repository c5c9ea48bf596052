import AbstractMemory.Proofs.Flattening
import Mathlib

/-! Flattening a union. Its members amount to one field. -/

namespace AbstractMemory

open Steps

namespace Catalog

variable {p : Program} {ok : Nat → Prop} {pending : List Nat} {k : Nat}
  {record : Nat → Cataloguing Nat}

/-- What the members of a union amount to so far. -/
structure Overlays (c : Catalog) (p : Program) (k : Nat) (done : List Nat) (o : Overlay) :
    Prop where
  placed : ∀ m ∈ done, c.Placed p k m 0
  isArray : o.isArray =
    (done.any p.types.isArray || (done.map (c.partOf p)).any (·.any Field.isArray))
  isPointer : o.isPointer = (done.map (c.partOf p)).any (·.any Field.isPointer)

theorem Overlays.mono {c c' : Catalog} {done : List Nat} {o : Overlay}
    (hc : c.Grounded p) (h : c.Grows c') (ho : c.Overlays p k done o) :
    c'.Overlays p k done o := by
  have hpart : done.map (c'.partOf p) = done.map (c.partOf p) :=
    List.map_congr_left fun m hm => h.partOf (ho.placed m hm).1
  refine ⟨fun m hm => (ho.placed m hm).mono hc h, ?_, ?_⟩
  · rw [hpart, ho.isArray]
  · rw [hpart, ho.isPointer]

theorem Overlays.append {c : Catalog} {m : Nat} {done : List Nat}
    {o o' : Overlay} (ho : c.Overlays p k done o) (hm : c.Placed p k m 0)
    (harray : o'.isArray = (o.isArray || p.types.isArray m || (c.partOf p m).any Field.isArray))
    (hpointer : o'.isPointer = (o.isPointer || (c.partOf p m).any Field.isPointer)) :
    c.Overlays p k (done ++ [m]) o' := by
  refine ⟨?_, ?_, ?_⟩
  · intro x hx
    rcases List.mem_append.mp hx with hx | hx
    · exact ho.placed x hx
    · obtain rfl := List.mem_singleton.mp hx
      exact hm
  · rw [harray, ho.isArray, List.map_append, List.any_append, List.any_append]
    simp only [List.map_cons, List.map_nil, List.any_cons, List.any_nil, Bool.or_false]
    ac_rfl
  · rw [hpointer, ho.isPointer, List.map_append, List.any_append]
    simp

theorem overlayMember_meets (hok : Flattenable p ok) (hrec : Records p ok pending k record)
    {c : Catalog} (hin : InProgress p ok (k :: pending) c) {done : List Nat} {m : Nat}
    (name : String) (hat : c.MemberAt p k m 0) {o : Overlay} (ho : c.Overlays p k done o) :
    Meets (overlayMember p record k name o m) c
      (fun o' c' => Advances p ok (k :: pending) c c' ∧ c'.Overlays p k (done ++ [m]) o')
      (fun c' => Advances p ok (k :: pending) c c' ∧ ¬ ok k) := by
  unfold overlayMember
  dsimp only
  by_cases hst : p.types.isStruct (p.types.stripArrays m) = true
  · rw [if_pos hst]
    refine member_embed_meets hok hrec hin hat hst name ?_
    intro sub inner c' hadv hplaced hinner hpart
    simp only [meets_get_bind, hinner, meets_pure]
    have ho' := ho.mono hin.coherent.grounded hadv.grows
    exact ⟨hadv, ho'.append hplaced (by rw [hpart]) (by rw [hpart])⟩
  · rw [if_neg hst]
    have hpart : c.partOf p m = [p.leafField m] := partOf_of_not_struct (by simpa using hst)
    have hplaced : c.Placed p k m 0 := placed_of_not_struct (by simpa using hst)
    refine ⟨hin.advances, ho.append hplaced ?_ ?_⟩
    · simp [hpart, Program.leafField]
    · simp [hpart, Program.leafField]

theorem foldl_addElementType (types : List Nat) (r : FieldRecord) :
    types.foldl (fun r t => r.addElementType 0 t) r =
      { r with elementTypes :=
          types.foldl (fun pairs t => insertPair (0, t) pairs) r.elementTypes } := by
  induction types generalizing r with
  | nil => rfl
  | cons t rest ih => exact ih (r.addElementType 0 t)

/-- All types are met at the one field there is, and every member starts there. -/
theorem union_faultless (name : String) (t : Nat) (members types : List Nat) (field : Field) :
    FieldRecord.fault? {
      name, type := t, isUnion := true, fields := [field], memberFields := members.map fun _ => 0
      elementTypes := types.foldl (fun pairs t => insertPair (0, t) pairs) [] } = none := by
  refine FieldRecord.fault?_eq_none.mpr ⟨?_, fun _ f hmem => ?_⟩
  · intro pair hp
    rcases mem_foldl_insertPair.mp hp with hold | ⟨u, _, rfl⟩
    · simp at hold
    · simp [FieldRecord.fieldCount]
  · obtain ⟨_, _, rfl⟩ := List.mem_map.mp hmem
    simp [FieldRecord.fieldCount]

theorem memberAt_union {c : Catalog} {m offset : Nat} {s : StructType}
    (hs : p.types.struct? k = some s) (hu : c.treatsAsUnion s = true) :
    c.MemberAt p k m offset ↔ m ∈ s.members ∧ offset = 0 := by
  have hoff : ∀ i, c.memberOffset? p k i = some 0 := by
    intro i
    simp [memberOffset?, isUnion, hs, hu]
  simp only [MemberAt, hs, Option.some.injEq, hoff, exists_and_left, exists_eq_left',
    List.mem_iff_getElem?, exists_and_right, eq_comm]

theorem overlayMember_advances (hok : Flattenable p ok) (hrec : Records p ok pending k record)
    {c c₁ : Catalog} (hadv : Advances p ok (k :: pending) c c₁) {s : StructType} (name : String)
    (hs : p.types.struct? k = some s) (hu : c.treatsAsUnion s = true) {done : List Nat} {m : Nat}
    (hm : m ∈ s.members) {o : Overlay} (ho : c₁.Overlays p k done o) :
    Meets (overlayMember p record k name o m) c₁
      (fun o' c' => Advances p ok (k :: pending) c c' ∧ c'.Overlays p k (done ++ [m]) o')
      (fun c' => Advances p ok (k :: pending) c c' ∧ ¬ ok k) := by
  have hat : c₁.MemberAt p k m 0 := by
    rw [hadv.grows.memberAt, memberAt_union hs hu]
    exact ⟨hm, rfl⟩
  exact (overlayMember_meets hok hrec hadv.toInProgress name hat ho).mono
    (fun o' c' h => ⟨hadv.trans h.1, h.2⟩) (fun c' h => ⟨hadv.trans h.1, h.2⟩)

theorem overlayMembers_meet (hok : Flattenable p ok) (hrec : Records p ok pending k record)
    {c : Catalog} (hin : InProgress p ok (k :: pending) c) {s : StructType} (name : String)
    (hs : p.types.struct? k = some s) (hu : c.treatsAsUnion s = true) :
    Meets (s.members.foldlM (overlayMember p record k name) {}) c
      (fun o c' => Advances p ok (k :: pending) c c' ∧ c'.Overlays p k s.members o)
      (fun c' => Advances p ok (k :: pending) c c' ∧ ¬ ok k) := by
  refine Meets.foldlM (fun done o c' => Advances p ok (k :: pending) c c' ∧
    c'.Overlays p k done o) ?_ ⟨hin.advances, by simp, rfl, rfl⟩
  rintro done m rest o c₁ hl ⟨hadv, ho⟩
  exact overlayMember_advances hok hrec hadv name hs hu (by simp [hl]) ho

theorem fieldsFit_of_union {c : Catalog} {s : StructType} {members : List Nat}
    (hu : c.treatsAsUnion s = true) : c.FieldsFit p k s members := by
  intro hno
  simp [hu] at hno

theorem Overlays.ready {c : Catalog} {s : StructType} {name : String} {o : Overlay}
    {r : FieldRecord} (hname : p.types.text k = .ok name) (hs : p.types.struct? k = some s)
    (hu : c.treatsAsUnion s = true) (hne : s.members ≠ []) (ho : c.Overlays p k s.members o)
    (hsize : ∃ size, p.dataLayout.size? p.types k = .ok size)
    (hr : r = {
      name, type := k, isUnion := true, isFinal := true
      size := p.byteCount k, memberFields := s.members.map fun _ => 0
      elementTypes := r.elementTypes
      fields := [⟨0, p.byteCount k, o.isArray, o.isPointer, true⟩] })
    (hf : r.fault? = none) : c.Ready p k s s.members r := by
  refine ⟨by rw [hr], by rw [hr, hname], by rw [hr], hf, by rw [hr], by rw [hr], by rw [hr, hu],
    ?_, ?_, ?_, hsize, fun _ => fieldsFit_of_union hu⟩
  · exact fun m hm => (ho.placed m hm).1
  · intro m offset hat
    obtain ⟨hm, rfl⟩ := (memberAt_union hs hu).mp hat
    exact ho.placed m hm
  · rw [hr]
    simp [tableOver, hu, hne, FieldTable.overlaid, FieldRecord.table, ho.isArray, ho.isPointer,
      Function.comp_def]

theorem size?_of_no_members {s : StructType} (hs : p.types.struct? k = some s)
    (hb : s.body = some []) : ∃ size, p.dataLayout.size? p.types k = .ok size := by
  have hzero : (StructLayout.ofMembers s []).size ≤ maxByteCount := by
    cases hu : s.isUnion with
    | true => rw [StructLayout.ofMembers_union hu]; exact Nat.zero_le _
    | false => rw [StructLayout.ofMembers_struct hu]; exact Nat.zero_le _
  have hlayout : p.dataLayout.structLayout p.types k =
      .ok (some (StructLayout.ofMembers s [])) :=
    (DataLayout.structLayout_eq_some hs).mpr ⟨[], [], hb, .nil, StructLayout.place_of_le hzero⟩
  exact ⟨_, DataLayout.size?_eq_ok.mpr ⟨_, (DataLayout.extents_of_structLayout hs hlayout).1⟩⟩

theorem flattenUnion_meets (hok : Flattenable p ok) (hrec : Records p ok pending k record)
    {c : Catalog} (hin : InProgress p ok (k :: pending) c) {s : StructType} {members : List Nat}
    {name : String} (hname : p.types.text k = .ok name) (hs : p.types.struct? k = some s)
    (hb : s.body = some members) (hu : c.treatsAsUnion s = true) :
    Meets (flattenUnion p record name k members) c
      (fun r c' => Advances p ok (k :: pending) c c' ∧ c'.Ready p k s members r)
      (fun c' => Advances p ok (k :: pending) c c' ∧ ¬ ok k) := by
  obtain rfl : s.members = members := by simp [StructType.members, hb]
  unfold flattenUnion
  dsimp only
  split
  · rename_i hempty
    have hnil : s.members = [] := by simpa using hempty
    refine ⟨hin.advances, rfl, hname, rfl, rfl, rfl, rfl, hu.symm, by simp [hnil], ?_, ?_,
      size?_of_no_members hs (hb.trans (by rw [hnil])), fun _ => fieldsFit_of_union hu⟩
    · intro m offset hat
      simp [memberAt_union hs hu, hnil] at hat
    · simp [tableOver, hu, hnil, FieldRecord.table]
  · rename_i hne
    have hne : s.members ≠ [] := by simpa using hne
    refine (overlayMembers_meet hok hrec hin name hs hu).bind ?_
    rintro o c₁ ⟨hadv, ho⟩
    have hu₁ := (hadv.grows.treatsAsUnion s).trans hu
    have hsize : Meets (sizeOrZero p k) c₁
        (fun n c' => (∃ size, p.dataLayout.size? p.types k = .ok size) ∧ n = p.byteCount k ∧
          c' = c₁)
        (fun c' => Advances p ok (k :: pending) c c' ∧ ¬ ok k) := by
      refine meets_sizeOrZero (fun n hn => ⟨⟨n, hn⟩, rfl, rfl⟩) ?_
      intro e he _
      refine ⟨hadv, fun hk => ?_⟩
      obtain ⟨placed, hlayout⟩ := hok.layout k hk
      have hext := (DataLayout.extents_of_structLayout hs hlayout).1
      simp [DataLayout.size?_eq_ok.mpr ⟨_, hext⟩] at he
    refine hsize.bind ?_
    rintro n c' ⟨hmeasured, rfl, rfl⟩
    rw [foldl_addElementType]
    exact meets_finish (fun hf => ⟨hadv, ho.ready hname hs hu₁ hne hmeasured rfl hf⟩)
      (fun hf => (hf (union_faultless _ _ _ _ _)).elim)

end Catalog

end AbstractMemory
