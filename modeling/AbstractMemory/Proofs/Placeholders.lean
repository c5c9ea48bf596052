import AbstractMemory.Proofs.Filling
import AbstractMemory.Proofs.Unrolling

/-! Unfinished records as the only sign that a struct is being flattened. A catalog
with such records goes the same way as one that has none and is told which structs
are in progress, and nothing on that way depends on what lies below the depth to
which recursions are unrolled. -/

namespace AbstractMemory

open Steps

namespace Catalog

variable {c c' : Catalog} {p : Program} {pending : List Nat} {k m t : Nat} {s : StructType}

theorem founded_of_not_struct (ha : p.types.ArraysEnd)
    (hst : ¬ p.types.isStruct (p.types.stripArrays m) = true) :
    p.types.Founded (p.types.stripArrays m) := by
  refine .intro _ fun u hu => ?_
  cases hu with
  | element ht => exact (ha.not_array m _ _ ht).elim
  | member hs => simp [TypeTable.isStruct, hs] at hst

theorem founded_of_stripArrays (ha : p.types.ArraysEnd)
    (h : p.types.isStruct (p.types.stripArrays m) = true →
      p.types.Founded (p.types.stripArrays m)) : p.types.Founded m := by
  refine ha.founded ?_
  by_cases hst : p.types.isStruct (p.types.stripArrays m) = true
  · exact h hst
  · exact founded_of_not_struct ha hst

/-- A recorded struct is not inside itself, at any depth. -/
theorem Grounded.founded (hc : c.Grounded p) (hd : p.DistinctScopes) (ha : p.types.ArraysEnd)
    (hk : k ∈ c.records) : p.types.Founded k := by
  obtain ⟨rank, hrank⟩ := hc.ranked
  induction hn : rank k using Nat.strong_induction_on generalizing k with
  | _ n ih =>
    subst hn
    refine .intro k fun m hm => ?_
    cases hm with
    | element ht =>
      obtain ⟨r, hr⟩ := mem_records_iff.mp hk
      obtain ⟨s, hs, _⟩ := (hc.record k r hr).shape
      simp [TypeTable.get?_of_struct? hs] at ht
    | member hs hm =>
      refine founded_of_stripArrays ha fun hst => ?_
      obtain ⟨s', hs'⟩ := TypeTable.struct_of_isStruct hst
      obtain ⟨r, hr, _⟩ := (hc.hasPart hk hs hm).record hc hd rfl hs'
      refine ih _ (hrank k _ hk ?_) (mem_records_iff.mpr ⟨r, hr⟩) rfl
      exact ⟨_, m, hs, hm, canonical?_eq_some.mpr ⟨s', hs', hc.standIn_self hd hs'⟩⟩

theorem HasPart.founded (hm : c.HasPart p m) (hc : c.Grounded p) (hd : p.DistinctScopes)
    (ha : p.types.ArraysEnd) : p.types.Founded m := by
  refine founded_of_stripArrays ha fun hst => ?_
  obtain ⟨s, hs⟩ := TypeTable.struct_of_isStruct hst
  obtain ⟨r, hr, _⟩ := hm.record hc hd rfl hs
  exact hc.founded hd ha (mem_records_iff.mpr ⟨r, hr⟩)

theorem founded_of_hasPart (hs : p.types.struct? k = some s)
    (hparts : ∀ m ∈ s.members, c.HasPart p m) (hc : c.Grounded p) (hd : p.DistinctScopes)
    (ha : p.types.ArraysEnd) : p.types.Founded k := by
  refine .intro k fun m hm => ?_
  cases hm with
  | element ht => simp [TypeTable.get?_of_struct? hs] at ht
  | member hs' hm =>
    obtain rfl := Option.some.inj (hs.symm.trans hs')
    exact (hparts m hm).founded hc hd ha

/-- The catalog `c'` is `c` with unfinished records for the structs in progress. -/
structure Shadows (p : Program) (pending : List Nat) (c c' : Catalog) : Prop where
  unionName : c'.unionName = c.unionName
  scopes : c'.scopes = c.scopes
  largest : c'.largest = c.largest
  maxFields : c'.maxFields = c.maxFields
  unfinished : ∀ k ∈ pending, ∃ r, c'.records[k]? = some r ∧ r.isFinal = false ∧
    p.types.text k = .ok r.name ∧ r.containers = []
  others : ∀ k, k ∉ pending → c'.records[k]? = c.records[k]?

theorem Shadows.refl (p : Program) (c : Catalog) : Shadows p [] c c :=
  ⟨rfl, rfl, rfl, rfl, by simp, fun _ _ => rfl⟩

theorem Shadows.treatsAsUnion (h : Shadows p pending c c') (s : StructType) :
    c'.treatsAsUnion s = c.treatsAsUnion s := by
  rw [Catalog.treatsAsUnion, h.unionName]
  rfl

theorem Shadows.standIn (h : Shadows p pending c c') (s : StructType) (t : Nat) :
    c'.standIn s t = c.standIn s t := by
  rw [Catalog.standIn, h.scopes]
  rfl

theorem Shadows.register (h : Shadows p pending c c') (s : StructType) (t : Nat) :
    Shadows p pending (c.register s t) (c'.register s t) := by
  unfold Catalog.register
  split
  · exact ⟨h.unionName, by rw [h.scopes], h.largest, h.maxFields, h.unfinished, h.others⟩
  · exact h

/-- The same record goes into both catalogs, in place of an unfinished one if there is one. -/
theorem Shadows.insert {keys : List Nat} (h : Shadows p keys c c') (hk : k ∉ pending)
    (hkeys : ∀ x, x ≠ k → (x ∈ pending ↔ x ∈ keys)) (r : FieldRecord) :
    Shadows p pending { c with records := c.records.insert k r }
      { c' with records := c'.records.insert k r } := by
  refine ⟨h.unionName, h.scopes, h.largest, h.maxFields, fun a ha => ?_, fun a ha => ?_⟩
  · have hne : a ≠ k := fun he => hk (he ▸ ha)
    simp only [getElem?_insert_record, if_neg hne.symm]
    exact h.unfinished a ((hkeys a hne).mp ha)
  · simp only [getElem?_insert_record]
    split
    · rfl
    · rename_i hne
      have hne : a ≠ k := fun he => hne he.symm
      exact h.others a fun hm => ha ((hkeys a hne).mpr hm)

theorem Shadows.insert_entered (h : Shadows p (k :: pending) c c') (hk : k ∉ pending)
    (r : FieldRecord) : Shadows p pending { c with records := c.records.insert k r }
      { c' with records := c'.records.insert k r } :=
  h.insert hk (fun x hx => by simp [hx]) r

theorem Shadows.enter (h : Shadows p pending c c') {name : String}
    (hname : p.types.text k = .ok name) : Shadows p (k :: pending) c
      { c' with records := c'.records.insert k (Unrolled.unfinished p c' name k) } := by
  refine ⟨h.unionName, h.scopes, h.largest, h.maxFields, fun a ha => ?_, fun a ha => ?_⟩
  · simp only [getElem?_insert_record]
    split
    · rename_i he
      subst he
      exact ⟨_, rfl, rfl, hname, rfl⟩
    · rename_i hne
      exact h.unfinished a ((List.mem_cons.mp ha).resolve_left fun he => hne he.symm)
  · obtain ⟨hne, ha⟩ := not_or.mp (mt List.mem_cons.mpr ha)
    simp only [getElem?_insert_record, if_neg fun he : k = a => hne he.symm]
    exact h.others a ha

theorem Shadows.keep (h : Shadows p (k :: pending) c c') (hk : k ∉ pending) (r : FieldRecord) :
    Shadows p pending (c.keep k r) (c'.keep k r) := by
  have hins := h.insert_entered hk r
  unfold Catalog.keep
  dsimp only
  split
  · rename_i hlt
    rw [if_pos (h.maxFields ▸ hlt)]
    exact ⟨hins.unionName, hins.scopes, rfl, rfl, hins.unfinished, hins.others⟩
  · rename_i hlt
    rw [if_neg (h.maxFields ▸ hlt)]
    exact hins

theorem Shadows.leave (h : Shadows p (k :: pending) c c') (hk : k ∉ pending)
    (hun : k ∉ c.records) :
    Shadows p pending c { c' with records := c'.records.erase k } := by
  refine ⟨h.unionName, h.scopes, h.largest, h.maxFields, fun a ha => ?_, fun a ha => ?_⟩
  · have hne : k ≠ a := fun he => hk (he ▸ ha)
    simp only [Std.TreeMap.getElem?_erase, Std.LawfulEqCmp.compare_eq_iff_eq, if_neg hne]
    exact h.unfinished a (List.mem_cons_of_mem _ ha)
  · simp only [Std.TreeMap.getElem?_erase, Std.LawfulEqCmp.compare_eq_iff_eq]
    split
    · rename_i he
      subst he
      simpa using hun
    · rename_i hne
      exact h.others a fun hm => ha ((List.mem_cons.mp hm).resolve_left fun he => hne he.symm)

theorem Shadows.memberPlaces (h : Shadows p pending c c') (hun : ∀ x ∈ pending, x ∉ c.records)
    (s : StructType) (t : Nat) : c'.memberPlaces p s t = c.memberPlaces p s t := by
  have hstructs : c'.memberStructs p s = c.memberStructs p s := by
    simp only [memberStructs, canonical?, h.standIn]
  unfold Catalog.memberPlaces
  rw [hstructs]
  congr 1
  funext sub
  by_cases hsub : sub ∈ pending
  · obtain ⟨r, hr, _, _, hcontainers⟩ := h.unfinished sub hsub
    have hnone : c.records[sub]? = none := by simpa using hun sub hsub
    simp [hr, hnone, hcontainers]
  · rw [h.others sub hsub]

theorem Relinks.has_iff (h : c.Relinks c') {a b : Nat} : c'.Has p a b ↔ c.Has p a b := by
  simp only [Has, canonical?, Catalog.standIn, h.scopes_eq]

/-- Two ways to record a place end alike: in catalogs that differ by what is in
progress, or at a number that is too large. -/
def EndAlike (p : Program) (pending : List Nat) (result result' : Except ProgramError Catalog) :
    Prop :=
  (∃ c c', result = .ok c ∧ result' = .ok c' ∧ Shadows p pending c c') ∨
    result = .error (.halted .overflow) ∧ result' = .error (.halted .overflow)

theorem embedStep_shadows {rank : Nat → Nat} {outer inner offset depth : Nat} {path : List Nat}
    (below : Nat → Nat → Catalog → Except ProgramError Catalog) (h : Shadows p pending c c')
    (hun : ∀ x ∈ pending, x ∉ c.records) (hshape : ∀ k ∈ c.records, p.types.isStruct k = true)
    (hrank : ∀ a b, a ∈ c.records → c.Has p a b → rank b < rank a)
    (hpath : ∀ x ∈ path, rank inner < rank x) (hin : inner ∈ c.records)
    (hdepth : unseen p.types.size path < depth) :
    EndAlike p pending (embed p outer path inner offset c)
      ((Unrolled.embedStep p outer)^[depth] below inner offset c') := by
  -- by the depth, and inside by the places; ranks get smaller, so `inner` is not on the path
  induction depth generalizing path inner offset c c' with
  | zero => omega
  | succ depth ih =>
    obtain ⟨r, hr⟩ := mem_records_iff.mp hin
    obtain ⟨s, hs⟩ := TypeTable.struct_of_isStruct (hshape inner hin)
    have hget := TypeTable.get?_of_struct? hs
    have hnp : inner ∉ path := fun hm => Nat.lt_irrefl _ (hpath inner hm)
    have hfree : inner ∉ pending := fun hm => hun inner hm hin
    have hless := unseen_cons_lt (TypeTable.lt_size_of_get? hget) hnp
    have hrel : c.Relinks (c.link outer inner offset r) := link_relinks hr
    have hlink : Shadows p pending (c.link outer inner offset r) (c'.link outer inner offset r) :=
      h.insert hfree (fun _ _ => Iff.rfl) _
    have hunlink : ∀ x ∈ pending, x ∉ (c.link outer inner offset r).records :=
      fun x hx hm => hun x hx (hrel.mem_of_mem x hm)
    rw [embed_eq hr hs hnp, Function.iterate_succ_apply', Unrolled.embedStep,
      h.others inner hfree, hr]
    simp only [hget]
    change EndAlike p pending _ (((c'.link outer inner offset r).memberPlaces p s inner).foldlM _
      (c'.link outer inner offset r))
    rw [hlink.memberPlaces hunlink]
    have hplace : ∀ place ∈ (c.link outer inner offset r).memberPlaces p s inner,
        rank place.1 < rank inner ∧ place.1 ∈ c.records := by
      intro place hm
      obtain ⟨hhas, r', hr', _⟩ := (mem_memberPlaces hs).mp hm
      exact ⟨hrank inner place.1 hin (hrel.has_iff.mp hhas),
        hrel.mem_of_mem _ (mem_records_iff.mpr ⟨r', hr'⟩)⟩
    generalize (c.link outer inner offset r).memberPlaces p s inner = places at hplace ⊢
    generalize c.link outer inner offset r = c₁, c'.link outer inner offset r = c₁' at hrel hlink ⊢
    induction places generalizing c₁ c₁' with
    | nil => exact .inl ⟨c₁, c₁', rfl, rfl, hlink⟩
    | cons place rest ihrun =>
      obtain ⟨hlt, hmem⟩ := hplace place (by simp)
      rw [List.foldlM_cons, List.foldlM_cons]
      rcases p.dataLayout.overflow.settles_count (place.2 + offset) with
        ⟨inside, hinside⟩ | ⟨_, hstopped⟩
      · have hstep : EndAlike p pending (embed p outer (inner :: path) place.1 inside c₁)
            ((Unrolled.embedStep p outer)^[depth] below place.1 inside c₁') := by
          refine ih hlink (fun x hx hm => hun x hx (hrel.mem_of_mem x hm))
            (fun k hk => hshape k (hrel.mem_of_mem k hk))
            (fun a b ha hab => hrank a b (hrel.mem_of_mem a ha) (hrel.has_iff.mp hab)) ?_
            (hrel.toGrows.mem hmem) (by omega)
          intro x hx
          rcases List.mem_cons.mp hx with rfl | hx
          · exact hlt
          · exact hlt.trans (hpath x hx)
        simp only [hinside, bind, Except.bind] at ihrun ⊢
        rcases hstep with ⟨c₂, c₂', hc₂, hc₂', hsh⟩ | ⟨hstop, hstop'⟩
        · simp only [hc₂, hc₂']
          exact ihrun (fun q hq => hplace q (by simp [hq])) c₂ c₂'
            (hrel.trans (embed_relinks hc₂).1) hsh
        · simp only [hstop, hstop']
          exact .inr ⟨rfl, rfl⟩
      · simp only [hstopped, bind, Except.bind]
        exact .inr ⟨rfl, rfl⟩

theorem embed_shadows {f : Floor} (hf : p.types.size < f.depth) (h : Shadows p pending c c')
    (hun : ∀ x ∈ pending, x ∉ c.records) (hc : c.Grounded p) {sub : Nat} (hsub : sub ∈ c.records)
    (outer offset : Nat) : EndAlike p pending (embed p outer [] sub offset c)
      (Unrolled.embed f p outer sub offset c') := by
  obtain ⟨rank, hrank⟩ := hc.ranked
  refine embedStep_shadows (f.embed outer) h hun ?_ hrank (by simp) hsub
    ((unseen_le _ _).trans_lt hf)
  intro k hk
  obtain ⟨r, hr⟩ := mem_records_iff.mp hk
  obtain ⟨s, hs, _⟩ := (hc.record k r hr).shape
  simp [TypeTable.isStruct, hs]

theorem embedMember_agrees {f : Floor} (hf : p.types.size < f.depth) (h : Shadows p pending c c')
    (hun : ∀ x ∈ pending, x ∉ c.records) (hc : c.Grounded p) {sub : Nat} (hsub : sub ∈ c.records)
    (outer offset : Nat) : Agree (Shadows p pending) f.reword (embedMember p outer sub offset)
      (Unrolled.embedMember f p outer sub offset) c c' := by
  unfold embedMember Unrolled.embedMember
  rw [agree_get_bind]
  rcases embed_shadows hf h hun hc hsub outer offset with
    ⟨c₁, c₁', hc₁, hc₁', hsh⟩ | ⟨hstop, hstop'⟩
  · rw [hc₁, hc₁']
    exact agree_of_ok rfl rfl hsh
  · rw [hstop, hstop']
    exact agree_of_error rfl rfl fun _ => h

theorem agree_ask {f : Floor} {α : Type} {answer answer' : Except ProgramError α}
    (he : answer' = answer) (hends : answer ≠ .error (.halted .endless))
    (h : Shadows p pending c c') :
    Agree (Shadows p pending) f.reword (ask answer) (ask answer') c c' := by
  subst he
  cases answer' with
  | ok a => exact agree_pure a h
  | error e => exact agree_throw (f.reword_eq fun he => hends (by cases he; rfl)) h

theorem agree_text {f : Floor} (hf : p.types.size < f.depth) (h : Shadows p pending c c') :
    Agree (Shadows p pending) f.reword (ask (p.types.text t)) (ask (Unrolled.text f p t)) c c' := by
  rw [Unrolled.text_eq hf]
  cases ht : p.types.text t with
  | ok name => exact agree_pure name h
  | error e =>
    obtain ⟨rfl, _⟩ := TypeTable.text_eq_error ht
    exact agree_of_error rfl rfl fun _ => h

theorem agree_finish {f : Floor} (r : FieldRecord) (size : Nat) (h : Shadows p pending c c') :
    Agree (Shadows p pending) f.reword (finish r size) (finish r size) c c' := by
  unfold finish FieldRecord.finish
  cases r.fault? with
  | none => exact agree_pure _ h
  | some fault => exact agree_throw rfl h

theorem agree_sizeOrZero {f : Floor} (hf : p.types.size < f.depth) (ht : p.types.Founded t)
    (h : Shadows p pending c c') :
    Agree (Shadows p pending) f.reword (sizeOrZero p t) (Unrolled.sizeOrZero f p t) c c' := by
  refine (agree_ask (Unrolled.size?_eq ht hf) (Unrolled.size?_ne_endless ht) h).bind
    (meets_ask (fun _ _ => trivial) (fun _ _ _ => trivial)
      : Meets _ c (fun _ _ => True) (fun _ => True)) ?_
  exact fun n _ _ _ hrel => agree_pure _ hrel

/-- Members are asked for records with the same answers. -/
def Repeats (f : Floor) (p : Program) (pending : List Nat) (k : Nat)
    (record record' : Nat → Cataloguing Nat) : Prop :=
  ∀ s m c c', p.types.struct? k = some s → m ∈ s.members →
    p.types.isStruct (p.types.stripArrays m) = true →
    InProgress p (fun _ => False) (k :: pending) c → Shadows p (k :: pending) c c' →
    Agree (Shadows p (k :: pending)) f.reword (record (p.types.stripArrays m))
      (record' (p.types.stripArrays m)) c c'

section Flatten

variable {f : Floor} {record record' : Nat → Cataloguing Nat} (hd : p.DistinctScopes)
  (ha : p.types.ArraysEnd) (hf : p.types.size < f.depth)
  (hrec : Records p (fun _ => False) pending k record)
  (hrep : Repeats f p pending k record record') (hs : p.types.struct? k = some s)

include hrec hrep hs in
theorem member_agrees (hin : InProgress p (fun _ => False) (k :: pending) c)
    (hsh : Shadows p (k :: pending) c c') (hm : m ∈ s.members)
    (hst : p.types.isStruct (p.types.stripArrays m) = true) (outer : String) :
    Agree (Shadows p (k :: pending)) f.reword (member record outer (p.types.stripArrays m))
      (member record' outer (p.types.stripArrays m)) c c' := by
  unfold member
  refine (hrep s m c c' hs hm hst hin hsh).bind (hrec s m c hs hm hst hin) ?_
  rintro key c₁ c₁' ⟨hadv, _, hmem⟩ hsh₁
  rw [agree_get_bind, hsh₁.others key fun hp => hadv.unrecorded key hp hmem]
  split
  · split
    · exact agree_throw rfl hsh₁
    · exact agree_pure _ hsh₁
  · exact agree_pure _ hsh₁

include hf hrec hrep hs in
/-- A struct member is taken in by both. -/
theorem member_embed_agrees {α : Type} (hin : InProgress p (fun _ => False) (k :: pending) c)
    (hsh : Shadows p (k :: pending) c c') (hm : m ∈ s.members)
    (hst : p.types.isStruct (p.types.stripArrays m) = true) (outer : String) (offset : Nat)
    {next next' : Nat → Cataloguing α}
    (hnext : ∀ sub c₁ c₁', Shadows p (k :: pending) c₁ c₁' →
      c₁'.records[sub]? = c₁.records[sub]? →
      Agree (Shadows p (k :: pending)) f.reword (next sub) (next' sub) c₁ c₁') :
    Agree (Shadows p (k :: pending)) f.reword
      (member record outer (p.types.stripArrays m) >>= fun sub =>
        embedMember p k sub offset >>= fun _ => next sub)
      (member record' outer (p.types.stripArrays m) >>= fun sub =>
        Unrolled.embedMember f p k sub offset >>= fun _ => next' sub) c c' := by
  refine (member_agrees hrec hrep hs hin hsh hm hst outer).bind
    (member_meets (flattenable_false p) hrec hin hs hm hst outer) ?_
  rintro sub c₁ c₁' ⟨hadv, _, r, hr, _⟩ hsh₁
  have hsub : sub ∈ c₁.records := mem_records_iff.mpr ⟨r, hr⟩
  refine (embedMember_agrees hf hsh₁ hadv.unrecorded hadv.coherent.grounded hsub k offset).bind
    (meets_embedMember (fun _ _ => trivial) (fun _ _ _ => trivial)
      : Meets _ c₁ (fun _ _ => True) (fun _ => True)) ?_
  intro _ c₂ c₂' _ hsh₂
  exact hnext sub c₂ c₂' hsh₂ (hsh₂.others sub fun hp => hadv.unrecorded sub hp hsub)

include ha hf hrec hrep hs in
theorem addMember_agrees (hin : InProgress p (fun _ => False) (k :: pending) c)
    (hsh : Shadows p (k :: pending) c c') {x : Nat × Nat} (hm : x.1 ∈ s.members) {r : FieldRecord}
    (hr : r.type = k) :
    Agree (Shadows p (k :: pending)) f.reword (addMember p record r x)
      (Unrolled.addMember f p record' r x) c c' := by
  obtain ⟨m, offset⟩ := x
  unfold addMember Unrolled.addMember
  dsimp only
  by_cases hst : p.types.isStruct (p.types.stripArrays m) = true
  · rw [if_pos hst, if_pos hst, hr]
    refine member_embed_agrees hf hrec hrep hs hin hsh hm hst r.name offset ?_
    intro sub c₁ c₁' hsh₁ heq
    rw [agree_get_bind, heq]
    cases c₁.records[sub]? with
    | none => exact agree_pure _ hsh₁
    | some inner =>
      refine (agree_ask rfl (fun he => ?_) hsh₁).bind (meets_ask (fun _ _ => trivial)
        (fun _ _ _ => trivial) : Meets _ c₁ (fun _ _ => True) (fun _ => True)) ?_
      · cases (FieldRecord.splice_eq_error he).2.1
      · exact fun _ _ _ _ hsh₂ => agree_pure _ hsh₂
  · rw [if_neg hst, if_neg hst]
    have hfounded : p.types.Founded m := founded_of_stripArrays ha fun h => (hst h).elim
    refine (agree_sizeOrZero hf hfounded hsh).bind (meets_sizeOrZero (fun _ _ => trivial)
      (fun _ _ _ => trivial) : Meets _ c (fun _ _ => True) (fun _ => True)) ?_
    exact fun _ _ _ _ hsh₁ => agree_pure _ hsh₁

include hrec hrep hs in
theorem members_agree (hin : InProgress p (fun _ => False) (k :: pending) c)
    (hsh : Shadows p (k :: pending) c c') (name : String) :
    Agree (Shadows p (k :: pending)) f.reword
      (forIn s.members PUnit.unit fun m _ =>
        if p.types.isStruct (p.types.stripArrays m) = true then do
          let _ ← member record name (p.types.stripArrays m)
          pure (ForInStep.yield PUnit.unit)
        else pure (ForInStep.yield PUnit.unit))
      (forIn s.members PUnit.unit fun m _ =>
        if p.types.isStruct (p.types.stripArrays m) = true then do
          let _ ← member record' name (p.types.stripArrays m)
          pure (ForInStep.yield PUnit.unit)
        else pure (ForInStep.yield PUnit.unit)) c c' := by
  have hok := flattenable_false p
  refine Agree.forIn (Advances p (fun _ => False) (k :: pending) c) ?_ hin.advances hsh
  intro m hm c₁ c₁' hadv hsh₁
  refine ⟨(askMember_meets hok hrec hadv.toInProgress hs hm name).mono
    (fun _ _ h => ⟨h.1, hadv.trans h.2.1⟩) (fun _ _ => trivial), ?_⟩
  split
  · rename_i hst
    refine (member_agrees hrec hrep hs hadv.toInProgress hsh₁ hm hst name).bind
      (member_meets hok hrec hadv.toInProgress hs hm hst name) ?_
    exact fun _ _ _ _ hsh₂ => agree_pure _ hsh₂
  · exact agree_pure _ hsh₁

include hd ha hf hrec hrep hs in
theorem flattenStruct_agrees (hin : InProgress p (fun _ => False) (k :: pending) c)
    (hsh : Shadows p (k :: pending) c c') {name : String} (hname : p.types.text k = .ok name)
    {members : List Nat} (hb : s.body = some members)
    (hu : c.treatsAsUnion s = false) :
    Agree (Shadows p (k :: pending)) f.reword (flattenStruct p record name k members)
      (Unrolled.flattenStruct f p record' name k members) c c' := by
  obtain rfl : s.members = members := by simp [StructType.members, hb]
  have hok := flattenable_false p
  unfold flattenStruct Unrolled.flattenStruct
  refine (members_agree hrec hrep hs hin hsh name).bind
    (members_meet hok hrec hin hs name (List.Subset.refl _)) ?_
  rintro _ c₁ c₁' ⟨hadv₁, hparts⟩ hsh₁
  -- all members are recorded now, so the layout is asked of a type that is not inside itself
  have hfounded := founded_of_hasPart hs hparts hadv₁.coherent.grounded hd ha
  have hlayout : Unrolled.structLayout f p k = p.dataLayout.structLayout p.types k :=
    Unrolled.structLayout_eq hfounded hf
  refine (agree_ask hlayout (Unrolled.structLayout_ne_endless hfounded) hsh₁).bind
    (meets_ask (fun answer h => ⟨h, rfl⟩) (fun _ _ _ => trivial) : Meets _ c₁
      (fun answer c' => p.dataLayout.structLayout p.types k = .ok answer ∧ c' = c₁)
      (fun _ => True)) ?_
  rintro answer _ c₂' ⟨hplaced, rfl⟩ hsh₂
  cases answer with
  | none => exact agree_throw rfl hsh₂
  | some placed =>
    have hu₁ := (hadv₁.grows.treatsAsUnion s).trans hu
    have hadd := addMembers_meet hok hrec hadv₁.toInProgress hname hs hu₁ hplaced
    refine Agree.bind ?_ hadd fun r _ _ _ hsh₃ => agree_finish _ _ hsh₃
    refine Agree.foldlM (fun done r c₂ => Advances p (fun _ => False) (k :: pending) _ c₂ ∧
      c₂.Accumulates p k done r) ?_ ⟨hadv₁.toInProgress.advances, accumulates_nil _ hname⟩ hsh₂
    rintro done x rest r c₂ c₂' hl ⟨hadv₂, hacc⟩ hsh₃
    have hmem : x ∈ s.members.zip placed.offsets := by simp [hl]
    refine ⟨(addMember_advances hok hrec hadv₂ hs hu₁ hplaced hmem hacc).mono (fun _ _ h => h)
      (fun _ _ => trivial), ?_⟩
    exact addMember_agrees ha hf hrec hrep hs hadv₂.toInProgress hsh₃ (List.of_mem_zip hmem).1
      (by rw [hacc.blank])

include hf hrec hrep hs in
theorem overlayMember_agrees (hin : InProgress p (fun _ => False) (k :: pending) c)
    (hsh : Shadows p (k :: pending) c c') (hm : m ∈ s.members) (name : String) (o : Overlay) :
    Agree (Shadows p (k :: pending)) f.reword (overlayMember p record k name o m)
      (Unrolled.overlayMember f p record' k name o m) c c' := by
  unfold overlayMember Unrolled.overlayMember
  dsimp only
  by_cases hst : p.types.isStruct (p.types.stripArrays m) = true
  · rw [if_pos hst, if_pos hst]
    refine member_embed_agrees hf hrec hrep hs hin hsh hm hst name 0 ?_
    intro sub c₁ c₁' hsh₁ heq
    rw [agree_get_bind, heq]
    cases c₁.records[sub]? <;> exact agree_pure _ hsh₁
  · rw [if_neg hst, if_neg hst]
    exact agree_pure _ hsh

include hd ha hf hrec hrep hs in
theorem flattenUnion_agrees (hin : InProgress p (fun _ => False) (k :: pending) c)
    (hsh : Shadows p (k :: pending) c c') (name : String) {members : List Nat}
    (hb : s.body = some members) (hu : c.treatsAsUnion s = true) :
    Agree (Shadows p (k :: pending)) f.reword (flattenUnion p record name k members)
      (Unrolled.flattenUnion f p record' name k members) c c' := by
  obtain rfl : s.members = members := by simp [StructType.members, hb]
  have hok := flattenable_false p
  unfold flattenUnion Unrolled.flattenUnion
  dsimp only
  split
  · exact agree_finish _ _ hsh
  have hfold : Agree (Shadows p (k :: pending)) f.reword
      (s.members.foldlM (overlayMember p record k name) {})
      (s.members.foldlM (Unrolled.overlayMember f p record' k name) {}) c c' := by
    refine Agree.foldlM (fun done o c₁ => Advances p (fun _ => False) (k :: pending) c c₁ ∧
      c₁.Overlays p k done o) ?_ ⟨hin.advances, by simp, rfl, rfl⟩ hsh
    rintro done m rest o c₁ c₁' hl ⟨hadv, ho⟩ hsh₁
    have hm : m ∈ s.members := by simp [hl]
    refine ⟨(overlayMember_advances hok hrec hadv _ hs hu hm ho).mono (fun _ _ h => h)
      (fun _ _ => trivial), ?_⟩
    exact overlayMember_agrees hf hrec hrep hs hadv.toInProgress hsh₁ hm _ o
  refine hfold.bind (overlayMembers_meet hok hrec hin name hs hu) ?_
  rintro o c₁ c₁' ⟨hadv, ho⟩ hsh₁
  have hfounded := founded_of_hasPart hs (fun m hm => (ho.placed m hm).1)
    hadv.coherent.grounded hd ha
  refine (agree_sizeOrZero hf hfounded hsh₁).bind (meets_sizeOrZero (fun _ _ => trivial)
    (fun _ _ _ => trivial) : Meets _ c₁ (fun _ _ => True) (fun _ => True)) ?_
  exact fun _ _ _ _ hsh₂ => agree_finish _ _ hsh₂

include hd ha hf hrec hrep hs in
theorem flatten_agrees (hin : InProgress p (fun _ => False) (k :: pending) c)
    (hsh : Shadows p (k :: pending) c c') {name : String} (hname : p.types.text k = .ok name)
    {members : List Nat} (hb : s.body = some members) :
    Agree (Shadows p (k :: pending)) f.reword
      ((if c.treatsAsUnion s then flattenUnion else flattenStruct) p record name k members)
      ((if c.treatsAsUnion s then Unrolled.flattenUnion else Unrolled.flattenStruct) f p record'
        name k members) c c' := by
  split
  · rename_i hu
    exact flattenUnion_agrees hd ha hf hrec hrep hs hin hsh name hb hu
  · rename_i hu
    exact flattenStruct_agrees hd ha hf hrec hrep hs hin hsh hname hb (by simpa using hu)

end Flatten

/-- The unfinished record is gone after flattening, also if that fails. -/
theorem flatten_keep_agrees {f : Floor} {flatten flatten' : Cataloguing FieldRecord}
    {c₀' : Catalog} {name : String} (hp : k ∉ pending)
    (h : Agree (Shadows p (k :: pending)) f.reword flatten flatten' c
      { c₀' with records := c₀'.records.insert k (Unrolled.unfinished p c₀' name k) })
    (hun : Meets flatten c (fun _ c₁ => k ∉ c₁.records) (fun c₁ => k ∉ c₁.records)) :
    Agree (Shadows p pending) f.reword (do
        let r ← flatten
        modify fun c => c.keep k r
        pure k)
      (do
        modify fun c => { c with records := c.records.insert k (Unrolled.unfinished p c name k) }
        try
          let r ← flatten'
          modify fun c => c.keep k r
          pure k
        catch e =>
          modify fun c => { c with records := c.records.erase k }
          throw e) c c₀' := by
  rcases h with ⟨r, c₁, c₁', hs, hs', hsh⟩ | ⟨e, c₁, c₁', hs, hs', hsh⟩
  · refine agree_of_ok (a := k) ?_ ?_ (hsh.keep hp r)
    · simp only [bind, EStateM.bind, hs]
      rfl
    · simp only [bind, EStateM.bind, modify, modifyGet, MonadStateOf.modifyGet, EStateM.modifyGet,
        tryCatch, tryCatchThe, MonadExceptOf.tryCatch, EStateM.tryCatch, hs']
      rfl
  · refine agree_of_error (e := e) ?_ ?_ fun he => (hsh he).leave hp (hun.of_error hs he)
    · simp only [bind, EStateM.bind, hs]
    · simp only [bind, EStateM.bind, modify, modifyGet, MonadStateOf.modifyGet, EStateM.modifyGet,
        tryCatch, tryCatchThe, MonadExceptOf.tryCatch, EStateM.tryCatch, hs']
      rfl

theorem ensureStep_agrees {f : Floor} (hd : p.DistinctScopes) (ha : p.types.ArraysEnd)
    (hf : p.types.size < f.depth) {depth : Nat} (hc : c.Coherent p)
    (hun : ∀ x ∈ pending, x ∉ c.records) (hsh : Shadows p pending c c')
    (hdepth : unseen p.types.size pending < depth) :
    Agree (Shadows p pending) f.reword (ensure p pending t)
      ((Unrolled.ensureStep f p)^[depth] f.record t) c c' := by
  -- the depth is enough for all types that are not in progress, and one more is below
  induction depth generalizing pending t c c' with
  | zero => omega
  | succ depth ih =>
    rw [Function.iterate_succ_apply', ensure, Unrolled.ensureStep]
    cases hs : p.types.struct? t with
    | none => exact agree_throw rfl hsh
    | some s =>
      have hc₁ := register_coherent hc hs
      have hun₁ : ∀ x ∈ pending, x ∉ (c.register s t).records := by
        rwa [register_records]
      have hsh₁ := hsh.register s t
      simp only [agree_modify_bind, agree_get_bind]
      generalize c.register s t = c₁, c'.register s t = c₁' at hc₁ hun₁ hsh₁ ⊢
      rw [hsh₁.standIn, hc₁.grounded.standIn_self hd hs]
      by_cases hrec : t ∈ c₁.records
      · obtain ⟨r, hr⟩ := mem_records_iff.mp hrec
        rw [if_pos (Std.TreeMap.contains_iff_mem.mpr hrec),
          hsh₁.others t fun hp => hun₁ t hp hrec, hr]
        simp only [(hc₁.grounded.record t r hr).isFinal, if_true]
        exact agree_pure t hsh₁
      · rw [if_neg (by simpa using hrec)]
        by_cases hp : t ∈ pending
        · obtain ⟨r, hr, hopen, hname, _⟩ := hsh₁.unfinished t hp
          rw [dif_pos hp, hr, hname]
          simp only [hopen, Bool.false_eq_true, if_false]
          exact agree_throw rfl hsh₁
        · have hnone : c₁'.records[t]? = none := by
            rw [hsh₁.others t hp]
            simpa using hrec
          rw [dif_neg hp, hnone]
          simp only [hs]
          split
          · rename_i shape hget
            obtain rfl : s = shape := by simpa [TypeTable.get?_of_struct? hs] using hget
            refine (agree_text hf hsh₁).bind (meets_text (fun name hname => ⟨hname, rfl⟩)
              : Meets _ c₁ (fun name c₂ => p.types.text t = .ok name ∧ c₂ = c₁)
                (fun _ => True)) ?_
            rintro name c₁ c₂' ⟨hname, rfl⟩ hsh₂
            cases hb : s.body with
            | none => exact agree_pure t (hsh₂.insert hp (fun _ _ => Iff.rfl) _)
            | some members =>
              have hin₁ : InProgress p (fun _ => False) (t :: pending) c₁ :=
                ⟨hc₁, List.forall_mem_cons.mpr ⟨hrec, hun₁⟩, fun _ _ _ h => h.elim⟩
              have hless := unseen_cons_lt (TypeTable.lt_size_of_get? hget) hp
              have hrep : Repeats f p pending t (fun m => ensure p (t :: pending) m)
                  ((Unrolled.ensureStep f p)^[depth] f.record) :=
                fun _ m c₂ c₂' _ _ _ hin₂ hsh₂ =>
                  ih hin₂.coherent hin₂.unrecorded hsh₂ (by omega)
              have hrecs := records_ensure p pending t
              simp only [hsh₁.treatsAsUnion]
              exact flatten_keep_agrees hp
                (flatten_agrees hd ha hf hrecs hrep hs hin₁ (hsh₂.enter hname) hname hb)
                ((flatten_meets (flattenable_false p) hrecs hin₁ hname hs hb).mono
                  (fun _ _ h => h.1.unrecorded t (by simp))
                  (fun _ h => h.1.unrecorded t (by simp)))
          · rename_i hno
            exact (hno s (TypeTable.get?_of_struct? hs)).elim

end Catalog

end AbstractMemory
