import AbstractMemory.Proofs.Flattening
import Mathlib

/-! Flattening a struct whose members follow each other. The record grows with
each member by the fields of that member. -/

namespace AbstractMemory

open Steps

theorem FieldTable.starts_append (parts : List (List Field)) (part : List Field) :
    starts (parts ++ [part]) = starts parts ++ [parts.flatten.length] := by
  simp only [starts, List.length_append, List.length_singleton, List.range_succ, List.map_append,
    List.map_cons, List.map_nil, List.take_left']
  congr 1
  apply List.map_congr_left
  intro i hi
  rw [List.take_append_of_le_length (by have := List.mem_range.mp hi; omega)]

theorem FieldTable.lt_of_mem_starts {parts : List (List Field)} (h : ∀ part ∈ parts, part ≠ [])
    {f : Nat} (hf : f ∈ starts parts) : f < parts.flatten.length := by
  obtain ⟨i, hi, rfl⟩ := List.mem_map.mp hf
  have hlt := List.mem_range.mp hi
  have hpart : 0 < parts[i].length := List.length_pos_iff.mpr (h _ (List.getElem_mem hlt))
  have hle := length_take_add_le (List.getElem?_eq_getElem hlt)
  omega

theorem FieldRecord.splice_eq_ok {overflow : Overflow} {r inner r' : FieldRecord} {bytes : Nat} :
    r.splice overflow inner bytes = .ok r' ↔
      r' = { r with
        fields := r.fields ++ inner.fields.map (·.shifted bytes)
        elementTypes := inner.elementTypes.foldl
          (fun pairs pair => insertPair (r.fieldCount + pair.1, pair.2) pairs) r.elementTypes } ∧
        (overflow = .stops → ∀ f ∈ inner.fields, bytes + f.offset ≤ maxByteCount) := by
  unfold splice
  rw [bind_eq_ok]
  simp only [Field.mapM_shift_eq_ok]
  constructor
  · rintro ⟨moved, ⟨rfl, hfits⟩, hr'⟩
    exact ⟨(Except.ok.inj hr').symm, hfits⟩
  · rintro ⟨rfl, hfits⟩
    exact ⟨_, ⟨rfl, hfits⟩, rfl⟩

theorem FieldRecord.splice_eq_error {overflow : Overflow} {r inner : FieldRecord} {bytes : Nat}
    {e : ProgramError} (h : r.splice overflow inner bytes = .error e) :
    overflow = .stops ∧ e = .halted .overflow ∧
      ∃ f ∈ inner.fields, maxByteCount < bytes + f.offset := by
  unfold splice at h
  rcases bind_eq_error.mp h with hmoved | ⟨moved, _, h⟩
  · obtain ⟨f, hf, he⟩ := exists_mem_of_mapM_error hmoved
    rcases bind_eq_error.mp he with hcount | ⟨n, _, he⟩
    · obtain ⟨hstops, hlarge, rfl⟩ := Overflow.count_eq_error.mp hcount
      exact ⟨hstops, rfl, f, hf, hlarge⟩
    · cases he
  · cases h

namespace Catalog

variable {p : Program} {ok : Nat → Prop} {pending : List Nat} {k : Nat} {name : String}
  {record : Nat → Cataloguing Nat}

theorem leafField_shifted {m offset : Nat} (h : offset ≤ maxByteCount) :
    (p.leafField m).shifted offset = { p.leafField m with offset } := by
  have hmod : offset % 0x10000000000000000 = offset := Nat.mod_eq_of_lt (Nat.lt_succ_of_le h)
  simp only [Field.shifted, Program.leafField, Nat.add_zero, hmod]

/-- What a record says while the members of its struct are added one by one. -/
structure Accumulates (c : Catalog) (p : Program) (k : Nat) (done : List (Nat × Nat))
    (r : FieldRecord) : Prop where
  placed : ∀ x ∈ done, c.Placed p k x.1 x.2
  name : p.types.text k = .ok r.name
  blank : r = {
    name := r.name, type := k, fields := r.fields, elementTypes := r.elementTypes
    memberFields := r.memberFields }
  fields : r.fields = (done.map fun x => (c.partOf p x.1).map (·.shifted x.2)).flatten
  memberFields : r.memberFields = FieldTable.starts (done.map fun x => c.partOf p x.1)
  elementTypes : ∀ pair ∈ r.elementTypes, pair.1 < r.fieldCount
  fits : p.dataLayout.overflow = .stops → ∀ x ∈ done, ∀ f ∈ c.partOf p x.1,
    x.2 + f.offset ≤ maxByteCount

theorem Accumulates.mono {c c' : Catalog} {done : List (Nat × Nat)}
    {r : FieldRecord} (hc : c.Grounded p) (h : c.Grows c') (ha : c.Accumulates p k done r) :
    c'.Accumulates p k done r := by
  have hpart : ∀ x ∈ done, c'.partOf p x.1 = c.partOf p x.1 :=
    fun x hx => h.partOf (ha.placed x hx).1
  refine ⟨fun x hx => (ha.placed x hx).mono hc h, ha.name, ha.blank, ?_, ?_, ha.elementTypes,
    fun hstops x hx => hpart x hx ▸ ha.fits hstops x hx⟩
  · rw [ha.fields]
    congr 1
    apply List.map_congr_left
    intro x hx
    rw [hpart x hx]
  · rw [ha.memberFields]
    congr 1
    apply List.map_congr_left
    intro x hx
    rw [hpart x hx]

theorem elementTypes_splice {overflow : Overflow} {r inner r' : FieldRecord} {bytes : Nat}
    (h : r.splice overflow inner bytes = .ok r')
    (hr : ∀ pair ∈ r.elementTypes, pair.1 < r.fieldCount)
    (hi : ∀ pair ∈ inner.elementTypes, pair.1 < inner.fieldCount) :
    ∀ pair ∈ r'.elementTypes, pair.1 < r'.fieldCount := by
  obtain ⟨rfl, _⟩ := FieldRecord.splice_eq_ok.mp h
  intro pair hp
  simp only [FieldRecord.fieldCount, List.length_append, List.length_map] at hr hi ⊢
  rcases mem_foldl_insertPair.mp hp with hold | ⟨a, ha, rfl⟩
  · have := hr pair hold
    omega
  · have := hi a ha
    simp only [FieldRecord.fieldCount]
    omega

theorem elementTypes_add {r : FieldRecord} {field t : Nat}
    (hr : ∀ pair ∈ r.elementTypes, pair.1 < r.fieldCount) (hf : field < r.fieldCount) :
    ∀ pair ∈ (r.addElementType field t).elementTypes,
      pair.1 < (r.addElementType field t).fieldCount := by
  intro pair hp
  rcases mem_insertPair.mp hp with rfl | hold
  · exact hf
  · exact hr pair hold

theorem Accumulates.addElementType {c : Catalog} {done : List (Nat × Nat)} {r : FieldRecord}
    (ha : c.Accumulates p k done r) {field : Nat} (hf : field < r.fieldCount)
    (t : Nat) : c.Accumulates p k done (r.addElementType field t) :=
  ⟨ha.placed, ha.name, by rw [ha.blank]; rfl, ha.fields, ha.memberFields,
    elementTypes_add ha.elementTypes hf, ha.fits⟩

theorem Accumulates.addSelf {c : Catalog} {done : List (Nat × Nat)} {r : FieldRecord}
    (ha : c.Accumulates p k done r) :
    c.Accumulates p k done (if r.fields.isEmpty then r else r.addElementType 0 k) := by
  split
  · exact ha
  · rename_i hne
    exact ha.addElementType (List.length_pos_iff.mpr (by simpa using hne)) k

theorem Accumulates.fieldCount {c : Catalog} {done : List (Nat × Nat)} {r : FieldRecord}
    (ha : c.Accumulates p k done r) :
    r.fieldCount = (done.map fun x => c.partOf p x.1).flatten.length := by
  rw [FieldRecord.fieldCount, ha.fields]
  simp [List.length_flatten, Function.comp_def]

theorem Accumulates.append {c : Catalog} {done : List (Nat × Nat)} {x : Nat × Nat}
    {r r' : FieldRecord} (ha : c.Accumulates p k done r) (hx : c.Placed p k x.1 x.2)
    (hr' : r' = {
      r with
      fields := r.fields ++ (c.partOf p x.1).map (·.shifted x.2), elementTypes := r'.elementTypes
      memberFields := r.memberFields ++ [r.fieldCount] })
    (ht : ∀ pair ∈ r'.elementTypes, pair.1 < r'.fieldCount)
    (hfits : p.dataLayout.overflow = .stops → ∀ f ∈ c.partOf p x.1,
      x.2 + f.offset ≤ maxByteCount) (t : Nat) :
    c.Accumulates p k (done ++ [x])
      (if r.fieldCount < r'.fieldCount then r'.addElementType r.fieldCount t else r') := by
  have hplain : c.Accumulates p k (done ++ [x]) r' := by
    refine ⟨?_, ?_, ?_, ?_, ?_, ht, ?_⟩
    · intro y hy
      rcases List.mem_append.mp hy with hy | hy
      · exact ha.placed y hy
      · obtain rfl := List.mem_singleton.mp hy
        exact hx
    · rw [hr']
      exact ha.name
    · rw [hr', ha.blank]
    · rw [hr', ha.fields]
      simp
    · rw [hr', ha.memberFields, ha.fieldCount, List.map_append, List.map_cons, List.map_nil,
        FieldTable.starts_append]
    · intro hstops y hy
      rcases List.mem_append.mp hy with hy | hy
      · exact ha.fits hstops y hy
      · obtain rfl := List.mem_singleton.mp hy
        exact hfits hstops
  split
  · rename_i hlt
    exact hplain.addElementType hlt t
  · exact hplain

theorem addMember_meets (hok : Flattenable p ok) (hrec : Records p ok pending k record)
    {c : Catalog} (hin : InProgress p ok (k :: pending) c) {done : List (Nat × Nat)}
    {x : Nat × Nat} (hat : c.MemberAt p k x.1 x.2) {r : FieldRecord}
    (ha : c.Accumulates p k done r) :
    Meets (addMember p record r x) c
      (fun r' c' => Advances p ok (k :: pending) c c' ∧ c'.Accumulates p k (done ++ [x]) r')
      (fun c' => Advances p ok (k :: pending) c c' ∧ ¬ ok k) := by
  obtain ⟨m, offset⟩ := x
  obtain ⟨s, i, hs, hi, hoffset⟩ := id hat
  have hm : m ∈ s.members := List.mem_of_getElem? hi
  have hle := le_of_memberOffset? hs hoffset
  have htype : r.type = k := by rw [ha.blank]
  unfold addMember
  dsimp only
  by_cases hst : p.types.isStruct (p.types.stripArrays m) = true
  · rw [if_pos hst, htype]
    refine member_embed_meets hok hrec hin hat hst r.name ?_
    intro sub inner c' hadv hplaced hinner hpart
    simp only [meets_get_bind, hinner]
    have ha' := ha.mono hin.coherent.grounded hadv.grows
    have hsplice : Meets
        (ask ((r.mapMember r.fieldCount).splice p.dataLayout.overflow inner offset))
        c' (fun r' c'' => (r.mapMember r.fieldCount).splice p.dataLayout.overflow inner offset =
          .ok r' ∧ c'' = c') (fun c' => Advances p ok (k :: pending) c c' ∧ ¬ ok k) := by
      refine meets_ask (fun r' hr' => ⟨hr', rfl⟩) fun e he hgo => ?_
      obtain ⟨_, rfl, _⟩ := FieldRecord.splice_eq_error he
      cases hgo
    refine hsplice.bind ?_
    rintro r' _ ⟨hr', rfl⟩
    rw [meets_pure]
    obtain ⟨heq, hfits⟩ := FieldRecord.splice_eq_ok.mp hr'
    refine ⟨hadv, ha'.append hplaced ?_ ?_ ?_ _⟩
    · rw [heq]
      simp only [hpart]
      rfl
    · have hfault := (hadv.coherent.grounded.record _ _ hinner).faultless
      exact elementTypes_splice hr' ha'.elementTypes (FieldRecord.fault?_eq_none.mp hfault).1
    · rw [hpart]
      exact hfits
  · rw [if_neg hst]
    have hplaced : c.Placed p k m offset := placed_of_not_struct (by simpa using hst)
    have hpart : c.partOf p m = [p.leafField m] := partOf_of_not_struct (by simpa using hst)
    have hsize : Meets (sizeOrZero p m) c (fun n c' => n = p.byteCount m ∧ c' = c)
        (fun c' => Advances p ok (k :: pending) c c' ∧ ¬ ok k) := by
      refine meets_sizeOrZero (fun _ _ => ⟨rfl, rfl⟩) ?_
      intro e he _
      refine ⟨hin.advances, fun hk => ?_⟩
      obtain ⟨placed, hlayout⟩ := hok.layout k hk
      obtain ⟨n, hn⟩ := DataLayout.size?_of_structLayout hs hlayout hm
      simp [he] at hn
    refine hsize.bind ?_
    rintro n c' ⟨rfl, rfl⟩
    simp only [pure_bind, meets_pure]
    refine ⟨hin.advances, ha.append hplaced ?_ ?_ ?_ _⟩
    · simp only [hpart, List.map_cons, List.map_nil, leafField_shifted hle]
      rfl
    · intro pair hp
      have := ha.elementTypes pair hp
      simp only [FieldRecord.push, FieldRecord.mapMember, FieldRecord.fieldCount,
        List.length_append, List.length_singleton] at this ⊢
      omega
    · rw [hpart]
      simpa [Program.leafField] using fun _ => hle

theorem askMember_meets (hok : Flattenable p ok) (hrec : Records p ok pending k record)
    {c : Catalog} (hin : InProgress p ok (k :: pending) c) {s : StructType} {m : Nat}
    (hs : p.types.struct? k = some s) (hm : m ∈ s.members) (name : String) :
    Meets (if p.types.isStruct (p.types.stripArrays m) = true then do
          let _ ← member record name (p.types.stripArrays m)
          pure (ForInStep.yield PUnit.unit)
        else pure (ForInStep.yield PUnit.unit)) c
      (fun next c' => next = .yield PUnit.unit ∧ Advances p ok (k :: pending) c c' ∧
        c'.HasPart p m)
      (fun c' => Advances p ok (k :: pending) c c' ∧ ¬ ok k) := by
  split
  · rename_i hst
    refine Meets.bind (member_meets hok hrec hin hs hm hst name) ?_
    rintro key c' ⟨hadv, hcan, r, hr, ho⟩
    refine ⟨rfl, hadv, fun sub hsub => ?_⟩
    obtain ⟨sub', hsub', rfl⟩ := canonical?_eq_some.mp hcan
    obtain rfl := Option.some.inj (hsub.symm.trans hsub')
    exact ⟨hadv.coherent.grounded.settled hsub hr ho, r, hr, ho⟩
  · rename_i hst
    exact ⟨rfl, hin.advances, fun sub hsub => by simp [TypeTable.isStruct, hsub] at hst⟩

theorem members_meet (hok : Flattenable p ok) (hrec : Records p ok pending k record)
    {c : Catalog} (hin : InProgress p ok (k :: pending) c) {s : StructType}
    (hs : p.types.struct? k = some s) (name : String) {members : List Nat}
    (hsub : members ⊆ s.members) :
    Meets (forIn members PUnit.unit fun m _ =>
        if p.types.isStruct (p.types.stripArrays m) = true then do
          let _ ← member record name (p.types.stripArrays m)
          pure (ForInStep.yield PUnit.unit)
        else pure (ForInStep.yield PUnit.unit)) c
      (fun _ c' => Advances p ok (k :: pending) c c' ∧ ∀ m ∈ members, c'.HasPart p m)
      (fun c' => Advances p ok (k :: pending) c c' ∧ ¬ ok k) := by
  induction members generalizing c with
  | nil => exact ⟨hin.advances, by simp⟩
  | cons m rest ih =>
    obtain ⟨hm, hrest⟩ := List.cons_subset.mp hsub
    rw [List.forIn_cons]
    refine (askMember_meets hok hrec hin hs hm name).bind ?_
    rintro next c₁ ⟨rfl, hadv, hpart⟩
    refine (ih hadv.toInProgress hrest).mono ?_ (fun c' h => ⟨hadv.trans h.1, h.2⟩)
    rintro _ c₂ ⟨hadv₂, hparts⟩
    refine ⟨hadv.trans hadv₂, fun x hx => ?_⟩
    rcases List.mem_cons.mp hx with rfl | hx
    · exact hadv₂.grows.hasPart hpart
    · exact hparts x hx

theorem memberAt_iff_mem_zip {c : Catalog} {m offset : Nat} {s : StructType}
    {placed : StructLayout} (hs : p.types.struct? k = some s) (hu : c.treatsAsUnion s = false)
    (hlayout : p.dataLayout.structLayout p.types k = .ok (some placed)) :
    c.MemberAt p k m offset ↔ (m, offset) ∈ s.members.zip placed.offsets := by
  have hoff : ∀ i, c.memberOffset? p k i = placed.offsets[i]? := by
    intro i
    simp [memberOffset?, isUnion, hs, hu, hlayout]
  simp only [MemberAt, hs, Option.some.injEq, hoff, List.mem_iff_getElem?,
    List.getElem?_zip_eq_some, exists_and_left, exists_eq_left']

theorem addMember_advances (hok : Flattenable p ok) (hrec : Records p ok pending k record)
    {c c₁ : Catalog} (hadv : Advances p ok (k :: pending) c c₁) {s : StructType}
    {placed : StructLayout} (hs : p.types.struct? k = some s) (hu : c.treatsAsUnion s = false)
    (hlayout : p.dataLayout.structLayout p.types k = .ok (some placed))
    {done : List (Nat × Nat)} {x : Nat × Nat} (hx : x ∈ s.members.zip placed.offsets)
    {r : FieldRecord} (ha : c₁.Accumulates p k done r) :
    Meets (addMember p record r x) c₁
      (fun r' c' => Advances p ok (k :: pending) c c' ∧ c'.Accumulates p k (done ++ [x]) r')
      (fun c' => Advances p ok (k :: pending) c c' ∧ ¬ ok k) := by
  have hat : c₁.MemberAt p k x.1 x.2 := by
    rw [hadv.grows.memberAt, memberAt_iff_mem_zip hs hu hlayout]
    exact hx
  exact (addMember_meets hok hrec hadv.toInProgress hat ha).mono
    (fun r' c' h => ⟨hadv.trans h.1, h.2⟩) (fun c' h => ⟨hadv.trans h.1, h.2⟩)

theorem accumulates_nil (c : Catalog) (hname : p.types.text k = .ok name) :
    c.Accumulates p k [] { name, type := k } :=
  ⟨by simp, hname, rfl, rfl, rfl, by simp, by simp⟩

theorem addMembers_meet (hok : Flattenable p ok) (hrec : Records p ok pending k record)
    {c : Catalog} (hin : InProgress p ok (k :: pending) c) {s : StructType} {placed : StructLayout}
    (hname : p.types.text k = .ok name) (hs : p.types.struct? k = some s)
    (hu : c.treatsAsUnion s = false)
    (hlayout : p.dataLayout.structLayout p.types k = .ok (some placed)) :
    Meets ((s.members.zip placed.offsets).foldlM (addMember p record) { name, type := k }) c
      (fun r c' => Advances p ok (k :: pending) c c' ∧
        c'.Accumulates p k (s.members.zip placed.offsets) r)
      (fun c' => Advances p ok (k :: pending) c c' ∧ ¬ ok k) := by
  refine Meets.foldlM (fun done r c' => Advances p ok (k :: pending) c c' ∧
    c'.Accumulates p k done r) ?_ ⟨hin.advances, accumulates_nil c hname⟩
  rintro done x rest r c₁ hl ⟨hadv, ha⟩
  exact addMember_advances hok hrec hadv hs hu hlayout (by simp [hl]) ha

theorem Accumulates.hasPart {c : Catalog} {members offsets : List Nat}
    {r : FieldRecord} (hlen : offsets.length = members.length)
    (ha : c.Accumulates p k (members.zip offsets) r) : ∀ m ∈ members, c.HasPart p m := by
  intro m hm
  rw [← List.map_fst_zip hlen.ge] at hm
  obtain ⟨x, hx, rfl⟩ := List.mem_map.mp hm
  exact (ha.placed x hx).1

/-- The record of a flattenable struct has no fault: every member starts at a
field that is there. -/
theorem Accumulates.faultless {c : Catalog} {s : StructType} {offsets : List Nat}
    {r : FieldRecord} (ha : c.Accumulates p k (s.members.zip offsets) r) (hok : Flattenable p ok)
    (hc : c.Grounded p) (hk : ok k) (hs : p.types.struct? k = some s) : r.fault? = none := by
  refine FieldRecord.fault?_eq_none.mpr ⟨ha.elementTypes, fun _ f hf => ?_⟩
  rw [ha.memberFields] at hf
  rw [ha.fieldCount]
  refine FieldTable.lt_of_mem_starts ?_ hf
  intro part hpart
  obtain ⟨x, hx, rfl⟩ := List.mem_map.mp hpart
  exact hok.partOf_ne_nil hc hk hs (List.of_mem_zip hx).1 (ha.placed x hx).1

theorem Accumulates.map_partOf {c : Catalog} {members offsets : List Nat} {r : FieldRecord}
    (hlen : offsets.length = members.length) (ha : c.Accumulates p k (members.zip offsets) r) :
    r.memberFields = FieldTable.starts (members.map (c.partOf p)) ∧
      r.fieldCount = (members.map (c.partOf p)).flatten.length := by
  have hmap : (members.zip offsets).map (fun x => c.partOf p x.1) =
      members.map (c.partOf p) := by
    rw [← List.map_fst_zip hlen.ge, List.map_map, List.map_fst_zip hlen.ge]
    rfl
  rw [← hmap]
  exact ⟨ha.memberFields, ha.fieldCount⟩

theorem Accumulates.tableOver {c : Catalog} {s : StructType} {members : List Nat}
    {placed : StructLayout} {r : FieldRecord} (hlen : placed.offsets.length = members.length)
    (hu : c.treatsAsUnion s = false)
    (hlayout : p.dataLayout.structLayout p.types k = .ok (some placed))
    (ha : c.Accumulates p k (members.zip placed.offsets) r) :
    c.tableOver p k s members (members.map (c.partOf p)) =
      some ⟨r.fields, r.memberFields, placed.size⟩ := by
  have hfields : r.fields = (List.zipWith (fun part offset => part.map (·.shifted offset))
      (members.map (c.partOf p)) placed.offsets).flatten := by
    rw [ha.fields, List.zipWith_map_left, List.map_zip_eq_zipWith]
    rfl
  simp only [Catalog.tableOver, hu, hlayout, FieldTable.sequential, hfields,
    (ha.map_partOf hlen).1]
  rfl

theorem Accumulates.ready {c : Catalog} {s : StructType} {placed : StructLayout}
    {r : FieldRecord} (hs : p.types.struct? k = some s) (hu : c.treatsAsUnion s = false)
    (hlayout : p.dataLayout.structLayout p.types k = .ok (some placed))
    (ha : c.Accumulates p k (s.members.zip placed.offsets) r) (hf : r.fault? = none) :
    c.Ready p k s s.members { r with size := placed.size, isFinal := true } := by
  have hlen := DataLayout.length_of_structLayout hs hlayout
  have hblank := ha.blank
  have htable := ha.tableOver hlen hu hlayout
  refine ⟨rfl, ha.name, ?_, hf, ?_, ?_, ?_, ha.hasPart hlen, ?_, htable, ?_, ?_⟩
  · rw [hblank]
  · rw [hblank]
  · rw [hblank]
  · rw [hblank, hu]
  · exact fun m offset hat =>
      ha.placed (m, offset) ((memberAt_iff_mem_zip hs hu hlayout).mp hat)
  · exact ⟨_, DataLayout.size?_eq_ok.mpr
      ⟨_, (DataLayout.extents_of_structLayout hs hlayout).1⟩⟩
  · intro hstops _ i m o hm ho
    exact ha.fits hstops (m, o)
      ((memberAt_iff_mem_zip hs hu hlayout).mp ⟨s, i, hs, hm, ho⟩)

theorem flattenStruct_meets (hok : Flattenable p ok) (hrec : Records p ok pending k record)
    {c : Catalog} (hin : InProgress p ok (k :: pending) c) {s : StructType} {members : List Nat}
    (hname : p.types.text k = .ok name) (hs : p.types.struct? k = some s)
    (hb : s.body = some members) (hu : c.treatsAsUnion s = false) :
    Meets (flattenStruct p record name k members) c
      (fun r c' => Advances p ok (k :: pending) c c' ∧ c'.Ready p k s members r)
      (fun c' => Advances p ok (k :: pending) c c' ∧ ¬ ok k) := by
  obtain rfl : s.members = members := by simp [StructType.members, hb]
  unfold flattenStruct
  refine (members_meet hok hrec hin hs name (List.Subset.refl _)).bind ?_
  rintro _ c₁ ⟨hadv₁, _⟩
  have hask : Meets (ask (p.dataLayout.structLayout p.types k)) c₁
      (fun answer c' => p.dataLayout.structLayout p.types k = .ok answer ∧ c' = c₁)
      (fun c' => Advances p ok (k :: pending) c c' ∧ ¬ ok k) := by
    refine meets_ask (fun answer ha => ⟨ha, rfl⟩) ?_
    intro e he _
    refine ⟨hadv₁, fun hk => ?_⟩
    obtain ⟨placed, hlayout⟩ := hok.layout k hk
    simp [he] at hlayout
  refine hask.bind ?_
  rintro answer _ ⟨hlayout, rfl⟩
  cases answer with
  | none =>
    refine ⟨hadv₁, fun hk => ?_⟩
    obtain ⟨placed, hlayout'⟩ := hok.layout k hk
    simp [hlayout] at hlayout'
  | some placed =>
    have hu₁ := (hadv₁.grows.treatsAsUnion s).trans hu
    have hadd := addMembers_meet hok hrec hadv₁.toInProgress hname hs hu₁ hlayout
    refine (hadd.mono (fun _ _ h => h) (fun c' h => ⟨hadv₁.trans h.1, h.2⟩)).bind ?_
    rintro r c₂ ⟨hadv₂, ha⟩
    have hadv := hadv₁.trans hadv₂
    have hu₂ := (hadv.grows.treatsAsUnion s).trans hu
    refine meets_finish (fun hf => ⟨hadv, ha.addSelf.ready hs hu₂ hlayout hf⟩)
      (fun hf => ⟨hadv, fun hk => hf ?_⟩)
    exact ha.addSelf.faultless hok hadv.coherent.grounded hk hs

end Catalog

end AbstractMemory
