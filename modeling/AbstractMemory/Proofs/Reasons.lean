import AbstractMemory.Proofs.Hollow

/-! Why a struct has no record. Whatever error comes up is about a struct that the
one asked for holds: it holds itself, a struct without a body or a type without a
size, its last member starts at no field, or its name or an offset in it cannot be
written down. -/

namespace AbstractMemory

open Steps

theorem FieldRecord.fault?_eq_some {r : FieldRecord} {fault : RecordFault}
    (ht : ∀ pair ∈ r.elementTypes, pair.1 < r.fieldCount) (h : r.fault? = some fault) :
    ∃ field, fault = .memberAtMissingField field := by
  unfold FieldRecord.fault? at h
  split at h
  · rename_i field t hf
    have hlt := ht _ (List.mem_of_find?_eq_some hf)
    have hle := List.find?_some hf
    simp only [decide_eq_true_eq] at hle
    omega
  · obtain ⟨field, _, rfl⟩ := Option.map_eq_some_iff.mp h
    exact ⟨field, rfl⟩

/-- All that a struct holds: itself, and what the structs it holds do. -/
abbrev Program.Contains (p : Program) : Nat → Nat → Prop :=
  Relation.ReflTransGen p.HoldsStruct

/-- All that a struct holds, but not itself unless it is inside itself. -/
abbrev Program.Inside (p : Program) : Nat → Nat → Prop :=
  Relation.TransGen p.HoldsStruct

theorem Program.Inside.byValue {p : Program} {a b : Nat} (h : p.Inside a b) :
    Relation.TransGen p.types.Part a b :=
  Relation.TransGen.closed (fun _ _ => HoldsStruct.inside) a b h

namespace Catalog

variable {c c' c₀ : Catalog} {p : Program} {pending : List Nat} {k m t : Nat} {s : StructType}
  {record : Nat → Cataloguing Nat} {name : String}

/-! ### Offsets too large for a byte count -/

/-- No byte count is large enough for where a struct holds something: another struct,
or a field of a member. -/
inductive OutOfReach (c : Catalog) (p : Program) (k : Nat) : Prop
  | struct {inner sum : Nat} (h : Embedded (c.Holds p) k inner sum) (hlarge : maxByteCount < sum) :
      OutOfReach c p k
  | field {m offset sub : Nat} {table : FieldTable} {f : Field} (hu : c.isUnion p k = false)
      (hm : c.MemberAt p k m offset) (hsub : c.canonical? p (p.types.stripArrays m) = some sub)
      (htable : c.table? p sub = some table) (hf : f ∈ table.fields)
      (hlarge : maxByteCount < offset + f.offset) : OutOfReach c p k

/-- With distinct scope names every struct stands for itself. -/
theorem Grounded.canonical?_eq (hc : c.Grounded p) (hd : p.DistinctScopes) (t : Nat) :
    c.canonical? p t = (p.types.struct? t).map fun _ => t := by
  unfold canonical?
  cases hs : p.types.struct? t with
  | none => rfl
  | some s => exact congrArg some (hc.standIn_self hd hs)

section Congr

variable (hname : c'.unionName = c.unionName)
include hname

theorem treatsAsUnion_congr : c'.treatsAsUnion = c.treatsAsUnion := by
  funext s
  unfold treatsAsUnion
  rw [hname]

variable (hcan : ∀ t, c'.canonical? p t = c.canonical? p t)
include hcan

theorem tableFrom_congr (path : List Nat) (t : Nat) :
    c'.tableFrom p path t = c.tableFrom p path t := by
  have hover : ∀ t s members,
      c'.tableOver p t s members = c.tableOver p t s members := by
    intro t s members
    funext parts
    simp only [tableOver, treatsAsUnion_congr hname]
  induction hn : unseen p.types.size path using Nat.strong_induction_on generalizing path t with
  | _ n ih =>
    rw [tableFrom, tableFrom]
    split
    · rename_i s hget
      by_cases hp : t ∈ path
      · rw [dif_pos hp, dif_pos hp]
      · have hlt := unseen_cons_lt (TypeTable.lt_size_of_get? hget) hp
        simp only [hp, dite_false, hcan, hover, fun sub => ih _ (hn ▸ hlt) (t :: path) sub rfl]
    · rfl

theorem OutOfReach.congr (h : c.OutOfReach p k) : c'.OutOfReach p k := by
  have hunion : ∀ t, c'.isUnion p t = c.isUnion p t := by
    intro t
    simp only [isUnion, treatsAsUnion_congr hname]
  have hmember : ∀ t m offset, c'.MemberAt p t m offset ↔ c.MemberAt p t m offset := by
    intro t m offset
    simp only [MemberAt, memberOffset?, hunion]
  cases h with
  | struct h hlarge =>
    refine .struct (h.mono ?_) hlarge
    rintro a b o ⟨m, hm, hsub⟩
    exact ⟨m, (hmember a m o).mpr hm, (hcan _).trans hsub⟩
  | field hu hm hsub htable hf hlarge =>
    exact .field ((hunion k).trans hu) ((hmember _ _ _).mpr hm) ((hcan _).trans hsub)
      ((tableFrom_congr hname hcan [] _).trans htable) hf hlarge

end Congr

/-! ### Reasons -/

/-- What an error says about the struct `t` that was asked for. -/
inductive Reason (c : Catalog) (p : Program) (t : Nat) : RecordError → Prop
  | bodiless {k b : Nat} {s : StructType} {outer inner : String} (hk : p.Contains t k)
      (hb : p.HoldsStruct k b) (hs : p.types.struct? b = some s) (hbody : s.body = none) :
      Reason c p t (.bodilessMember outer inner)
  | recursive {k : Nat} {name : String} (hk : p.Contains t k) (hcycle : p.Inside k k)
      (hname : p.types.text k = .ok name) : Reason c p t (.containsItself name)
  | unsized {k : Nat} (hk : p.Contains t k) (hsize : p.dataLayout.extent p.types k = .ok none) :
      Reason c p t (.program (.unsizedType k))
  | unmeasured {k : Nat} {s : StructType} {c' : Catalog} {e : ProgramError} (hk : p.Contains t k)
      (hs : p.types.struct? k = some s) (hc' : c'.Grounded p)
      (hparts : ∀ m ∈ s.members, c'.HasPart p m)
      (hsize : p.dataLayout.extent p.types k = .error e) : Reason c p t (.program e)
  | hollow {k field : Nat} {name : String} (hk : p.Contains t k) (hends : c.EndsHollow p k)
      (hname : p.types.text k = .ok name) :
      Reason c p t (.inconsistent name (.memberAtMissingField field))
  | unwritten {k : Nat} {e : ProgramError} (hk : p.Contains t k)
      (hname : p.types.text k = .error e) : Reason c p t (.program e)
  | far {k : Nat} (hk : p.Contains t k) (hstops : p.dataLayout.overflow = .stops)
      (hfar : c.OutOfReach p k) : Reason c p t (.program (.halted .overflow))

theorem Reason.outer {e : RecordError} (h : c.Reason p t e) (hk : p.HoldsStruct k t) :
    c.Reason p k e := by
  cases h with
  | bodiless h hb hs hbody => exact .bodiless (.head hk h) hb hs hbody
  | recursive h hcycle hname => exact .recursive (.head hk h) hcycle hname
  | unsized h hsize => exact .unsized (.head hk h) hsize
  | unmeasured h hs hc' hparts hsize => exact .unmeasured (.head hk h) hs hc' hparts hsize
  | hollow h hends hname => exact .hollow (.head hk h) hends hname
  | unwritten h hname => exact .unwritten (.head hk h) hname
  | far h hstops hfar => exact .far (.head hk h) hstops hfar

/-- A step that asks the program first. -/
theorem blames_ask_bind {α β : Type} {answer : Except ProgramError α} {next : α → Cataloguing β}
    {reason : RecordError → Prop} (h : ∀ e, answer = .error e → reason (.program e))
    (hnext : ∀ a, answer = .ok a → Blames (next a) c reason) :
    Blames (ask answer >>= next) c reason := by
  cases answer with
  | ok a => exact hnext a rfl
  | error e => exact blames_throw (h e rfl)

theorem blames_finish {r : FieldRecord} {size : Nat} {reason : RecordError → Prop}
    (h : ∀ fault, r.fault? = some fault → reason (.inconsistent r.name fault)) :
    Blames (finish r size) c reason := by
  unfold finish FieldRecord.finish
  cases hf : r.fault? with
  | none => exact blames_pure _ c
  | some fault => exact blames_throw (h fault hf)

/-- The one fault that the record of a struct can have. -/
theorem Accumulates.endsHollow {offsets : List Nat} {r : FieldRecord} {fault : RecordFault}
    (ha : c.Accumulates p k (s.members.zip offsets) r) (hlen : offsets.length = s.members.length)
    (hc : c.Grounded p) (hd : p.DistinctScopes) (hs : p.types.struct? k = some s)
    (hb : s.body = some s.members) (hu : c.treatsAsUnion s = false) (hf : r.fault? = some fault) :
    c.EndsHollow p k ∧ ∃ field, fault = .memberAtMissingField field := by
  refine ⟨?_, FieldRecord.fault?_eq_some ha.elementTypes hf⟩
  by_contra hends
  have hlt := (hc.starts_lt_iff hd hs hb hu (ha.hasPart hlen)).mpr hends
  rw [← (ha.map_partOf hlen).1, ← (ha.map_partOf hlen).2] at hlt
  simp [FieldRecord.fault?_eq_none.mpr ⟨ha.elementTypes, hlt⟩] at hf

/-- Members are asked for records with reasons for every error. -/
def Accuses (c₀ : Catalog) (p : Program) (pending : List Nat) (k : Nat)
    (record : Nat → Cataloguing Nat) : Prop :=
  ∀ s m c, p.types.struct? k = some s → m ∈ s.members →
    p.types.isStruct (p.types.stripArrays m) = true →
    InProgress p (fun _ => False) (k :: pending) c → c.unionName = c₀.unionName →
    Blames (record (p.types.stripArrays m)) c (c₀.Reason p k)

section Flatten

variable (hd : p.DistinctScopes) (hc₀ : c₀.Grounded p)
  (hrec : Records p (fun _ => False) pending k record) (hacc : Accuses c₀ p pending k record)
  (hs : p.types.struct? k = some s)
include hd hrec hacc hs

omit hc₀ in
theorem member_blames (hin : InProgress p (fun _ => False) (k :: pending) c)
    (hname : c.unionName = c₀.unionName) (hm : m ∈ s.members)
    (hst : p.types.isStruct (p.types.stripArrays m) = true) (outer : String) :
    Blames (member record outer (p.types.stripArrays m)) c (c₀.Reason p k) := by
  unfold member
  refine (hacc s m c hs hm hst hin hname).bind (hrec s m c hs hm hst hin) ?_
  rintro key c' ⟨hadv, hcan, _⟩
  rw [blames_get_bind]
  split
  · rename_i r hr
    split
    · rename_i ho
      obtain ⟨s', hs', rfl⟩ := canonical?_eq_some.mp hcan
      rw [hadv.coherent.grounded.standIn_self hd hs'] at hr
      obtain ⟨s'', hs'', hbodiless, _⟩ := (hadv.coherent.grounded.record _ r hr).shape
      rw [ho] at hbodiless
      exact blames_throw (.bodiless .refl ⟨s, m, hs, hm, rfl, hst⟩ hs''
        (Option.isNone_iff_eq_none.mp hbodiless.symm))
    · exact blames_pure _ c'
  · exact blames_pure _ c'

include hc₀

/-- A struct member is taken in, or something in it is out of reach. -/
theorem member_embed_blames (hin : InProgress p (fun _ => False) (k :: pending) c)
    (hname : c.unionName = c₀.unionName) {offset : Nat} (hat : c.MemberAt p k m offset)
    (hm : m ∈ s.members) (hst : p.types.isStruct (p.types.stripArrays m) = true) (outer : String)
    {α : Type} {next : Nat → Cataloguing α}
    (hnext : ∀ sub inner c', Advances p (fun _ => False) (k :: pending) c c' →
      c'.canonical? p (p.types.stripArrays m) = some sub → c'.records[sub]? = some inner →
      inner.isOpaque = false → Blames (next sub) c' (c₀.Reason p k)) :
    Blames (member record outer (p.types.stripArrays m) >>= fun sub =>
      embedMember p k sub offset >>= fun _ => next sub) c (c₀.Reason p k) := by
  refine (member_blames hd hrec hacc hs hin hname hm hst outer).bind
    (member_meets (flattenable_false p) hrec hin hs hm hst outer) ?_
  rintro sub c₁ ⟨hadv, hcan, r, hr, ho⟩
  have hat₁ : c₁.MemberAt p k m offset := hadv.grows.memberAt.mpr hat
  obtain ⟨rank, hrank⟩ := hadv.coherent.grounded.ranked
  have hpath : ∀ x ∈ ([] : List Nat), rank sub < rank x := by simp
  have hplaces := embed_places hadv.coherent hrank hpath (mem_records_iff.mpr ⟨r, hr⟩)
    (hat₁.embeddedAt hcan hr ho)
  have hembed : Blames (embedMember p k sub offset) c₁ (c₀.Reason p k) := by
    unfold embedMember
    rw [blames_get_bind]
    refine blames_ask_bind (fun e he => ?_) fun _ _ _ _ h => by cases h
    obtain ⟨hstops, rfl, inner, sum, hemb, hlarge⟩ := hplaces.error e he
    refine .far .refl hstops (OutOfReach.congr ?_ ?_
      (.struct (hemb.mono fun _ _ _ hh => hh.1) hlarge : c₁.OutOfReach p k))
    · exact (hadv.grows.unionName.trans hname).symm
    · intro t
      rw [hc₀.canonical?_eq hd, hadv.coherent.grounded.canonical?_eq hd]
  refine hembed.bind (meets_embedMember (fun c₂ h => hplaces.ok c₂ h) fun _ _ _ => trivial
    : Meets _ c₁ (fun _ c₂ => c₂.Coherent p ∧ c₁.Relinks c₂ ∧ c₂.Covered p k sub offset)
      (fun _ => True)) ?_
  rintro _ c₂ ⟨hc₂, hrel, _⟩
  obtain ⟨cs, hr₂, _⟩ := hrel.records _ _ hr
  refine hnext sub _ c₂ (hadv.trans (hrel.advances hc₂ hadv.toInProgress)) ?_ hr₂ ho
  rw [← hcan, hc₂.grounded.canonical?_eq hd, hadv.coherent.grounded.canonical?_eq hd]

theorem addMember_blames (hin : InProgress p (fun _ => False) (k :: pending) c)
    (hname : c.unionName = c₀.unionName) (hu : c.treatsAsUnion s = false) {placed : StructLayout}
    (hlayout : p.dataLayout.structLayout p.types k = .ok (some placed)) {x : Nat × Nat}
    (hx : x ∈ s.members.zip placed.offsets) {r : FieldRecord} (htype : r.type = k) :
    Blames (addMember p record r x) c (c₀.Reason p k) := by
  obtain ⟨m, offset⟩ := x
  have hm := (List.of_mem_zip hx).1
  have hat := (memberAt_iff_mem_zip hs hu hlayout).mpr hx
  unfold addMember
  dsimp only
  by_cases hst : p.types.isStruct (p.types.stripArrays m) = true
  · rw [if_pos hst, htype]
    refine member_embed_blames hd hc₀ hrec hacc hs hin hname hat hm hst r.name ?_
    intro sub inner c' hadv hcan hinner ho
    simp only [blames_get_bind, hinner]
    refine blames_ask_bind (fun e he => ?_) fun _ _ => blames_pure _ c'
    obtain ⟨hstops, rfl, f, hf, hlarge⟩ := FieldRecord.splice_eq_error he
    have hfar : c'.OutOfReach p k := by
      refine .field ?_ (hadv.grows.memberAt.mpr hat) hcan
        (hadv.coherent.grounded.table?_eq hinner ho) hf hlarge
      simp [isUnion, hs, hadv.grows.treatsAsUnion, hu]
    refine .far .refl hstops (hfar.congr (hadv.grows.unionName.trans hname).symm fun t => ?_)
    rw [hc₀.canonical?_eq hd, hadv.coherent.grounded.canonical?_eq hd]
  · rw [if_neg hst]
    unfold sizeOrZero
    simp only [bind_assoc]
    refine blames_ask_bind (fun e he => ?_) fun _ _ => blames_pure _ c
    obtain ⟨n, hn⟩ := DataLayout.size?_of_structLayout hs hlayout hm
    simp [hn] at he

omit hc₀ in
theorem members_blame (hin : InProgress p (fun _ => False) (k :: pending) c)
    (hname : c.unionName = c₀.unionName) (name : String) :
    Blames (forIn s.members PUnit.unit fun m _ =>
        if p.types.isStruct (p.types.stripArrays m) = true then do
          let _ ← member record name (p.types.stripArrays m)
          pure (ForInStep.yield PUnit.unit)
        else pure (ForInStep.yield PUnit.unit)) c (c₀.Reason p k) := by
  have hok := flattenable_false p
  refine Blames.forIn (Advances p (fun _ => False) (k :: pending) c) ?_ hin.advances
  intro m hm c₁ hadv
  refine ⟨(askMember_meets hok hrec hadv.toInProgress hs hm name).mono
    (fun _ _ h => ⟨h.1, hadv.trans h.2.1⟩) (fun _ _ => trivial), ?_⟩
  split
  · rename_i hst
    refine (member_blames hd hrec hacc hs hadv.toInProgress (hadv.grows.unionName.trans hname)
      hm hst name).bind (member_meets hok hrec hadv.toInProgress hs hm hst name) ?_
    exact fun _ c' _ => blames_pure _ c'
  · exact blames_pure _ c₁

theorem addMembers_blame (hin : InProgress p (fun _ => False) (k :: pending) c)
    (hunion : c.unionName = c₀.unionName) (hname : p.types.text k = .ok name)
    (hu : c.treatsAsUnion s = false) {placed : StructLayout}
    (hlayout : p.dataLayout.structLayout p.types k = .ok (some placed)) :
    Blames ((s.members.zip placed.offsets).foldlM (addMember p record) { name, type := k }) c
      (c₀.Reason p k) := by
  refine Blames.foldlM (fun done r c' => Advances p (fun _ => False) (k :: pending) c c' ∧
    c'.Accumulates p k done r) ?_ ⟨hin.advances, accumulates_nil c hname⟩
  rintro done x rest r c₁ hl ⟨hadv, ha⟩
  have hmem : x ∈ s.members.zip placed.offsets := by simp [hl]
  refine ⟨(addMember_advances (flattenable_false p) hrec hadv hs hu hlayout hmem ha).mono
    (fun _ _ h => h) (fun _ _ => trivial), ?_⟩
  exact addMember_blames hd hc₀ hrec hacc hs hadv.toInProgress
    (hadv.grows.unionName.trans hunion) ((hadv.grows.treatsAsUnion s).trans hu) hlayout hmem
    (by rw [ha.blank])

theorem flattenStruct_blames (hin : InProgress p (fun _ => False) (k :: pending) c)
    (hunion : c.unionName = c₀.unionName) (hname : p.types.text k = .ok name)
    {members : List Nat} (hb : s.body = some members) (hu : c.treatsAsUnion s = false) :
    Blames (flattenStruct p record name k members) c (c₀.Reason p k) := by
  obtain rfl : s.members = members := by simp [StructType.members, hb]
  have hok := flattenable_false p
  have hextent := @DataLayout.extent_eq_structLayout p.dataLayout _ _ _ hs
  unfold flattenStruct
  refine Blames.bind (members_blame hd hrec hacc hs hin hunion name)
    (members_meet hok hrec hin hs name (List.Subset.refl _)) ?_
  rintro _ c₁ ⟨hadv₁, hparts⟩
  have hunion₁ := hadv₁.grows.unionName.trans hunion
  refine blames_ask_bind (fun e he => ?_) ?_
  · exact .unmeasured .refl hs hadv₁.coherent.grounded hparts (by rw [hextent, he]; rfl)
  intro answer hlayout
  cases answer with
  | none => exact blames_throw (.unsized .refl (by rw [hextent, hlayout]; rfl))
  | some placed =>
    have hu₁ := (hadv₁.grows.treatsAsUnion s).trans hu
    refine Blames.bind
      (addMembers_blame hd hc₀ hrec hacc hs hadv₁.toInProgress hunion₁ hname hu₁ hlayout)
      (addMembers_meet hok hrec hadv₁.toInProgress hname hs hu₁ hlayout) ?_
    rintro r c₂ ⟨hadv₂, ha⟩
    have hg := hadv₁.grows.trans hadv₂.grows
    refine blames_finish fun fault hf => ?_
    obtain ⟨hends, field, rfl⟩ := ha.addSelf.endsHollow (DataLayout.length_of_structLayout hs hlayout)
      hadv₂.coherent.grounded hd hs hb ((hg.treatsAsUnion s).trans hu) hf
    exact .hollow .refl (hends.congr (hg.unionName.trans hunion).symm) ha.addSelf.name

theorem overlayMember_blames (hin : InProgress p (fun _ => False) (k :: pending) c)
    (hname : c.unionName = c₀.unionName) (hu : c.treatsAsUnion s = true) (hm : m ∈ s.members)
    (name : String) (o : Overlay) :
    Blames (overlayMember p record k name o m) c (c₀.Reason p k) := by
  unfold overlayMember
  dsimp only
  split
  · rename_i hst
    refine member_embed_blames hd hc₀ hrec hacc hs hin hname
      ((memberAt_union hs hu).mpr ⟨hm, rfl⟩) hm hst name ?_
    intro sub inner c' _ _ hinner _
    simp only [blames_get_bind, hinner]
    exact blames_pure _ c'
  · exact blames_pure _ c

theorem flattenUnion_blames (hin : InProgress p (fun _ => False) (k :: pending) c)
    (hunion : c.unionName = c₀.unionName) {members : List Nat} (hb : s.body = some members)
    (hu : c.treatsAsUnion s = true) :
    Blames (flattenUnion p record name k members) c (c₀.Reason p k) := by
  obtain rfl : s.members = members := by simp [StructType.members, hb]
  have hok := flattenable_false p
  unfold flattenUnion
  dsimp only
  split
  · exact blames_pure _ c
  have hfold : Blames (s.members.foldlM (overlayMember p record k name) {}) c
      (c₀.Reason p k) := by
    refine Blames.foldlM (fun done o c' => Advances p (fun _ => False) (k :: pending) c c' ∧
      c'.Overlays p k done o) ?_ ⟨hin.advances, by simp, rfl, rfl⟩
    rintro done m rest o c₁ hl ⟨hadv, ho⟩
    have hm : m ∈ s.members := by simp [hl]
    refine ⟨(overlayMember_advances hok hrec hadv _ hs hu hm ho).mono (fun _ _ h => h)
      (fun _ _ => trivial), ?_⟩
    exact overlayMember_blames hd hc₀ hrec hacc hs hadv.toInProgress
      (hadv.grows.unionName.trans hunion) ((hadv.grows.treatsAsUnion s).trans hu) hm _ o
  refine hfold.bind (overlayMembers_meet hok hrec hin name hs hu) ?_
  rintro o c₁ ⟨hadv, ho⟩
  unfold sizeOrZero
  simp only [bind_assoc]
  refine blames_ask_bind (fun e he => ?_) fun size _ => ?_
  · exact .unmeasured .refl hs hadv.coherent.grounded (fun m hm => (ho.placed m hm).1)
      (DataLayout.size?_eq_error.mp he)
  simp only [pure_bind, foldl_addElementType]
  refine blames_finish fun fault hf => ?_
  simp only [FieldRecord.push, List.nil_append] at hf
  rw [union_faultless] at hf
  cases hf

theorem flatten_blames (hin : InProgress p (fun _ => False) (k :: pending) c)
    (hunion : c.unionName = c₀.unionName) (hname : p.types.text k = .ok name)
    {members : List Nat} (hb : s.body = some members) :
    Blames ((if c.treatsAsUnion s then flattenUnion else flattenStruct) p record name k members) c
      (c₀.Reason p k) := by
  split
  · rename_i hu
    exact flattenUnion_blames hd hc₀ hrec hacc hs hin hunion hb hu
  · rename_i hu
    exact flattenStruct_blames hd hc₀ hrec hacc hs hin hunion hname hb (by simpa using hu)

end Flatten

theorem records_ensure (p : Program) (pending : List Nat) (k : Nat) :
    Records p (fun _ => False) pending k fun m => ensure p (k :: pending) m := by
  intro s m c _ _ _ hin
  refine (ensure_meets (flattenable_false p) hin.coherent hin.unrecorded ?_ ?_).mono
    (fun _ _ h => h) (fun _ h => ⟨h.1, id⟩)
  · exact fun n u hn hu => hu.elim
  · exact fun x _ hx => hx.elim

/-- No struct is refused without a reason. -/
theorem ensure_blames (hd : p.DistinctScopes) (hc₀ : c₀.Grounded p) (hc : c.Coherent p)
    (hun : ∀ x ∈ pending, x ∉ c.records) (hname : c.unionName = c₀.unionName)
    (hinside : ∀ x ∈ pending, p.Inside x t) :
    Blames (ensure p pending t) c
      (fun e => p.types.struct? t = none ∧ e = .notStruct t ∨ c₀.Reason p t e) := by
  -- all structs in progress have `t` inside, so one that is met again is inside itself
  induction hn : unseen p.types.size pending using Nat.strong_induction_on
    generalizing pending t c with
  | _ n ih =>
    subst hn
    rw [ensure]
    cases hs : p.types.struct? t with
    | none => exact blames_throw (.inl ⟨rfl, rfl⟩)
    | some s =>
      have hc₁ := register_coherent hc hs
      have hname₁ := (register_grows c s t).unionName.trans hname
      have hun₁ : ∀ x ∈ pending, x ∉ (c.register s t).records := by
        rwa [register_records]
      simp only [blames_modify_bind, blames_get_bind]
      generalize c.register s t = c₁ at hc₁ hname₁ hun₁ ⊢
      rw [hc₁.grounded.standIn_self hd hs]
      by_cases hrec : t ∈ c₁.records
      · rw [if_pos (Std.TreeMap.contains_iff_mem.mpr hrec)]
        exact blames_pure _ c₁
      · rw [if_neg (by simpa using hrec)]
        by_cases hp : t ∈ pending
        · rw [dif_pos hp]
          refine blames_ask_bind (fun e he => .inr (.unwritten .refl he)) fun name htext => ?_
          exact blames_throw (.inr (.recursive .refl (hinside t hp) htext))
        · rw [dif_neg hp]
          have hin₁ : InProgress p (fun _ => False) (t :: pending) c₁ :=
            ⟨hc₁, List.forall_mem_cons.mpr ⟨hrec, hun₁⟩, fun _ _ _ h => h.elim⟩
          split
          · rename_i shape hget
            obtain rfl : s = shape := by simpa [TypeTable.get?_of_struct? hs] using hget
            refine blames_ask_bind (fun e he => .inr (.unwritten .refl he)) fun name htext => ?_
            split
            · exact blames_pure _ _
            · rename_i members hb
              have hacc : c₀.Accuses p pending t fun m => ensure p (t :: pending) m := by
                intro s' m c₂ hs' hm hst hin₂ hname₂
                have hhold : p.HoldsStruct t (p.types.stripArrays m) := ⟨s', m, hs', hm, rfl, hst⟩
                have hinside₂ : ∀ x ∈ t :: pending,
                    p.Inside x (p.types.stripArrays m) := by
                  intro x hx
                  rcases List.mem_cons.mp hx with rfl | hx
                  · exact .single hhold
                  · exact (hinside x hx).tail hhold
                have hlt := unseen_cons_lt (TypeTable.lt_size_of_get? hget) hp
                refine (ih _ hlt hin₂.coherent hin₂.unrecorded hname₂ hinside₂ rfl).mono ?_
                rintro e (⟨hnone, _⟩ | hreason)
                · simp [TypeTable.isStruct, hnone] at hst
                · exact hreason.outer hhold
              have hrecs := records_ensure p pending t
              refine Blames.bind ((flatten_blames hd hc₀ hrecs hacc hs hin₁ hname₁ htext hb).mono
                (fun _ => .inr)) (flatten_meets (flattenable_false p) hrecs hin₁ htext hs hb) ?_
              exact fun r c₂ _ => blames_pure _ _
          · rename_i hno
            exact (hno s (TypeTable.get?_of_struct? hs)).elim

theorem layoutOf_blames (hd : p.DistinctScopes) (hc₀ : c₀.Grounded p) (hc : c.Coherent p)
    (hname : c.unionName = c₀.unionName) :
    Blames (layoutOf p t) c
      (fun e => p.types.struct? t = none ∧ e = .notStruct t ∨ c₀.Reason p t e) := by
  refine Blames.bind (ensure_blames hd hc₀ hc (by simp) hname (by simp))
    (ensure_top_meets (flattenable_false p) hc fun _ _ _ h => h.elim) ?_
  rintro key c' ⟨_, _, hmem⟩
  obtain ⟨r, hr⟩ := mem_records_iff.mp hmem
  simp only [blames_get_bind, hr]
  exact blames_pure r c'

theorem Grounded.mem_of_contains (hc : c.Grounded p) (hd : p.DistinctScopes) (ht : t ∈ c.records)
    (hk : p.Contains t k) : k ∈ c.records := by
  induction hk with
  | refl => exact ht
  | tail _ hstep ih =>
    obtain ⟨s, m, hs, hm, rfl, hst⟩ := hstep
    obtain ⟨s', hs'⟩ := TypeTable.struct_of_isStruct hst
    obtain ⟨r, hr, _⟩ := (hc.hasPart ih hs hm).record hc hd rfl hs'
    exact mem_records_iff.mpr ⟨r, hr⟩

end Catalog

end AbstractMemory
