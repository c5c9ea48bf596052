import AbstractMemory.Proofs.History
import Mathlib

/-! What a catalog has as long as nothing failed. Every struct registered for a
scope name has a record then, and the most fields that a record has are
counted. -/

namespace AbstractMemory

open Steps

namespace Catalog

variable {c c' : Catalog} {p : Program} {pending : List Nat} {k t : Nat}

/-- No record has more fields than counted, and some record has as many. -/
structure Counted (c : Catalog) : Prop where
  bound : ∀ (k : Nat) (r : FieldRecord), c.records[k]? = some r → r.fieldCount ≤ c.maxFields
  reached : c.maxFields = 0 ∨
    ∃ (k : Nat) (r : FieldRecord), c.records[k]? = some r ∧ r.fieldCount = c.maxFields

/-- What is registered has a record, or is one of `keys`. -/
def Filled (c : Catalog) (keys : List Nat) : Prop :=
  ∀ (n : String) (t : Nat), c.scopes[n]? = some t → t ∈ c.records ∨ t ∈ keys

/-- The catalog while the structs of `pending` are flattened, when nothing has
failed before. -/
structure Complete (c : Catalog) (pending : List Nat) : Prop where
  unrecorded : ∀ k ∈ pending, k ∉ c.records
  filled : c.Filled pending
  counted : c.Counted

/-! ### Containers -/

/-- What holds of adding one place, and of one addition after another, holds of
everything that embedding a struct adds. -/
theorem embed_ind {p : Program} {R : Catalog → Catalog → Prop} (hrefl : ∀ c, R c c)
    (htrans : ∀ c c₁ c₂, R c c₁ → R c₁ c₂ → R c c₂) {outer : Nat}
    (hlink : ∀ c inner offset r, c.records[inner]? = some r → R c (c.link outer inner offset r))
    {inner offset : Nat} {path : List Nat} {c c' : Catalog}
    (h : embed p outer path inner offset c = .ok c') : R c c' := by
  induction hn : unseen p.types.size path using Nat.strong_induction_on
    generalizing path inner offset c c' with
  | _ n ih =>
    subst hn
    cases hr : c.records[inner]? with
    | none =>
      rw [embed] at h
      simp only [hr, Except.ok.injEq] at h
      exact h ▸ hrefl c
    | some r =>
      cases hs : p.types.struct? inner with
      | none =>
        rw [embed] at h
        simp only [hr] at h
        split at h
        · rename_i s hget
          simp [TypeTable.struct?_of_get? hget] at hs
        · exact Except.ok.inj h ▸ hlink c inner offset r hr
      | some s =>
        by_cases hp : inner ∈ path
        · rw [embed_eq_error hr hs hp] at h
          cases h
        · rw [embed_eq hr hs hp] at h
          have hlt := unseen_cons_lt
            (TypeTable.lt_size_of_get? (TypeTable.get?_of_struct? hs)) hp
          -- each place is added by the induction hypothesis
          have hrun : ∀ (places : List (Nat × Nat)) (c₁ : Catalog),
              places.foldlM (fun c place => do
                let inside ← p.dataLayout.overflow.count (place.2 + offset)
                embed p outer (inner :: path) place.1 inside c) c₁ = .ok c' → R c₁ c' := by
            intro places
            induction places with
            | nil => exact fun c₁ hc' => Except.ok.inj hc' ▸ hrefl c₁
            | cons place rest ihrun =>
              intro c₁ hc'
              rw [List.foldlM_cons] at hc'
              obtain ⟨c₂, hplace, hrest⟩ := bind_eq_ok.mp hc'
              obtain ⟨inside, _, hembed⟩ := bind_eq_ok.mp hplace
              exact htrans c₁ c₂ c' (ih _ hlt hembed rfl) (ihrun c₂ hrest)
          exact htrans c _ c' (hlink c inner offset r hr) (hrun _ _ h)

theorem embed_relinks {p : Program} {outer inner offset : Nat} {path : List Nat} {c c' : Catalog}
    (h : embed p outer path inner offset c = .ok c') :
    c.Relinks c' ∧ c'.maxFields = c.maxFields ∧ c'.largest = c.largest := by
  refine embed_ind (R := fun c c' => c.Relinks c' ∧ c'.maxFields = c.maxFields ∧
    c'.largest = c.largest) (fun c => ⟨Relinks.refl c, rfl, rfl⟩) ?_ ?_ h
  · rintro c c₁ c₂ ⟨hrel, hmax, hlargest⟩ ⟨hrel', hmax', hlargest'⟩
    exact ⟨hrel.trans hrel', hmax'.trans hmax, hlargest'.trans hlargest⟩
  · exact fun c inner offset r hr => ⟨link_relinks hr, rfl, rfl⟩

theorem Relinks.counted (h : c.Relinks c') (hmax : c'.maxFields = c.maxFields)
    (hc : c.Counted) : c'.Counted where
  bound := by
    intro k r' hr'
    obtain ⟨r, hr⟩ := mem_records_iff.mp (h.mem_of_mem k (mem_records_iff.mpr ⟨r', hr'⟩))
    obtain ⟨cs, hr'', _⟩ := h.records k r hr
    obtain rfl := Option.some.inj (hr'.symm.trans hr'')
    exact hmax ▸ hc.bound k r hr
  reached := by
    rw [hmax]
    refine hc.reached.imp id ?_
    rintro ⟨k, r, hr, hcount⟩
    obtain ⟨cs, hr', _⟩ := h.records k r hr
    exact ⟨k, _, hr', hcount⟩

theorem Relinks.complete (h : c.Relinks c') (hmax : c'.maxFields = c.maxFields)
    (hc : c.Complete pending) : c'.Complete pending where
  unrecorded := fun x hx hm => hc.unrecorded x hx (h.mem_of_mem x hm)
  filled := by
    intro n u hn
    rw [h.scopes_eq] at hn
    exact (hc.filled n u hn).imp h.toGrows.mem id
  counted := h.counted hmax hc.counted

theorem embed_complete {outer inner offset : Nat}
    (h : embed p outer [] inner offset c = .ok c') (hc : c.Complete pending) :
    c'.Complete pending := by
  obtain ⟨hrel, hmax, _⟩ := embed_relinks h
  exact hrel.complete hmax hc

/-! ### Flattening -/

/-- A record that is being made for a struct. Nothing is known to hold it yet. -/
def Drafts (k : Nat) (r : FieldRecord) : Prop :=
  r.type = k ∧ r.containers = []

theorem Drafts.addElementType {r : FieldRecord} (h : Drafts k r) (field t : Nat) {b : Prop}
    [Decidable b] : Drafts k (if b then r.addElementType field t else r) := by
  split <;> exact h

section Flatten

variable {record : Nat → Cataloguing Nat} {members : List Nat} {inv bad : Catalog → Prop}
  (hrec : ∀ m ∈ members, ∀ c, inv c →
    Meets (record (p.types.stripArrays m)) c (fun _ => inv) bad)
  (hembed : ∀ inner offset c c', embed p k [] inner offset c = .ok c' → inv c → inv c')
  (hbad : ∀ c, inv c → bad c)

include hrec hbad

theorem member_keeps (outer : String) {m : Nat} (hm : m ∈ members) (h : inv c) :
    Meets (member record outer (p.types.stripArrays m)) c (fun _ => inv) bad := by
  unfold member
  refine (hrec m hm c h).bind ?_
  intro sub c₁ h₁
  rw [meets_get_bind]
  split
  · split
    · exact hbad c₁ h₁
    · exact h₁
  · exact h₁

include hembed

omit hrec in
theorem embedMember_keeps (inner offset : Nat) (h : inv c) :
    Meets (embedMember p k inner offset) c (fun _ => inv) bad :=
  meets_embedMember (fun c' hc' => hembed inner offset c c' hc' h) (fun _ _ _ => hbad c h)

theorem addMember_drafts {r : FieldRecord} (hr : Drafts k r) (placed : Nat × Nat)
    (hm : placed.1 ∈ members) (h : inv c) :
    Meets (addMember p record r placed) c (fun r' c' => Drafts k r' ∧ inv c') bad := by
  obtain ⟨m, offset⟩ := placed
  unfold addMember
  dsimp only
  split
  · refine (member_keeps hrec hbad _ hm h).bind ?_
    intro sub c₁ h₁
    rw [hr.1]
    refine (embedMember_keeps hembed hbad sub offset h₁).bind ?_
    intro _ c₂ h₂
    rw [meets_get_bind]
    split
    · rename_i inner _
      have hsplice : Meets (ask ((r.mapMember r.fieldCount).splice p.dataLayout.overflow inner
          offset)) c₂ (fun r' c' => Drafts k r' ∧ inv c') bad := by
        refine meets_ask (fun r' hr' => ⟨?_, h₂⟩) (fun _ _ _ => hbad c₂ h₂)
        rw [(FieldRecord.splice_eq_ok.mp hr').1]
        exact hr
      refine hsplice.bind ?_
      rintro r' c₃ ⟨hr', h₃⟩
      exact ⟨hr'.addElementType _ _, h₃⟩
    · exact ⟨Drafts.addElementType (r := r.mapMember r.fieldCount) hr _ _, h₂⟩
  · refine Meets.bind (meets_sizeOrZero (fun _ _ => h) (fun _ _ _ => hbad c h)
      : Meets _ c (fun _ => inv) _) ?_
    intro size c₁ h₁
    exact ⟨Drafts.addElementType (r := (r.mapMember r.fieldCount).push _) hr _ _, h₁⟩

theorem flattenStruct_drafts (name : String) (h : inv c) :
    Meets (flattenStruct p record name k members) c (fun r c' => Drafts k r ∧ inv c') bad := by
  unfold flattenStruct
  dsimp only
  refine Meets.bind (Meets.forIn ?_ h) ?_
  · intro m hm c₁ h₁
    split
    · exact (member_keeps hrec hbad _ hm h₁).bind fun _ _ h₂ => ⟨rfl, h₂⟩
    · exact ⟨rfl, h₁⟩
  · intro _ c₁ h₁
    refine Meets.bind (meets_ask (fun _ _ => h₁) (fun _ _ _ => hbad c₁ h₁)
      : Meets _ c₁ (fun _ => inv) bad) ?_
    intro found c₂ h₂
    split
    · exact hbad c₂ h₂
    · rename_i layout
      refine Meets.bind (Meets.foldlM (fun _ r c => Drafts k r ∧ inv c) ?_ ⟨⟨rfl, rfl⟩, h₂⟩) ?_
      · rintro done placed rest r c₃ hl ⟨hr, h₃⟩
        have hmem : placed ∈ members.zip layout.offsets := by simp [hl]
        exact addMember_drafts hrec hembed hbad hr placed (List.of_mem_zip hmem).1 h₃
      · rintro r c₃ ⟨hr, h₃⟩
        refine meets_finish (fun _ => ⟨?_, h₃⟩) (fun _ => hbad c₃ h₃)
        split <;> exact hr

theorem overlayMember_keeps (name : String) (o : Overlay) {m : Nat} (hm : m ∈ members)
    (h : inv c) : Meets (overlayMember p record k name o m) c (fun _ => inv) bad := by
  unfold overlayMember
  dsimp only
  split
  · refine (member_keeps hrec hbad _ hm h).bind ?_
    intro sub c₁ h₁
    refine (embedMember_keeps hembed hbad sub 0 h₁).bind ?_
    intro _ c₂ h₂
    rw [meets_get_bind]
    split <;> exact h₂
  · exact h

theorem flattenUnion_drafts (name : String) (h : inv c) :
    Meets (flattenUnion p record name k members) c (fun r c' => Drafts k r ∧ inv c') bad := by
  unfold flattenUnion
  dsimp only
  split
  · exact meets_finish (fun _ => ⟨⟨rfl, rfl⟩, h⟩) (fun _ => hbad c h)
  · refine Meets.bind (Meets.foldlM (fun _ _ => inv) ?_ h) ?_
    · exact fun _ m _ o c₁ hl h₁ =>
        overlayMember_keeps hrec hembed hbad _ o (hl ▸ by simp) h₁
    · intro o c₁ h₁
      refine Meets.bind (meets_sizeOrZero (fun _ _ => h₁) (fun _ _ _ => hbad c₁ h₁)
        : Meets _ c₁ (fun _ => inv) _) ?_
      intro size c₂ h₂
      rw [foldl_addElementType]
      exact meets_finish (fun _ => ⟨⟨rfl, rfl⟩, h₂⟩) (fun _ => hbad c₂ h₂)

theorem flatten_drafts (isUnion : Bool) (name : String) (h : inv c) :
    Meets ((if isUnion then flattenUnion else flattenStruct) p record name k members) c
      (fun r c' => Drafts k r ∧ inv c') bad := by
  cases isUnion with
  | true => exact flattenUnion_drafts hrec hembed hbad name h
  | false => exact flattenStruct_drafts hrec hembed hbad name h

end Flatten

theorem flatten_keeps {record : Nat → Cataloguing Nat} {members : List Nat}
    {inv bad : Catalog → Prop}
    (hrec : ∀ m ∈ members, ∀ c, inv c →
      Meets (record (p.types.stripArrays m)) c (fun _ => inv) bad)
    (hembed : ∀ outer inner offset c c', embed p outer [] inner offset c = .ok c' → inv c → inv c')
    (hbad : ∀ c, inv c → bad c) (isUnion : Bool) (name : String) (h : inv c) :
    Meets ((if isUnion then flattenUnion else flattenStruct) p record name k members) c
      (fun _ => inv) bad :=
  (flatten_drafts hrec (hembed k) hbad isUnion name h).mono (fun _ _ h => h.2) (fun _ h => h)

/-! ### Records -/

theorem standIn_register_eq (c : Catalog) (s : StructType) (t : Nat) :
    (c.register s t).standIn s t = c.standIn s t := by
  unfold register
  split
  · rename_i name body hn hb
    simp only [standIn, hn, Option.bind_some, getElem?_insert_scope, true_and]
    split
    · rename_i hnew
      simp [Std.TreeMap.getElem?_eq_none hnew]
    · rfl
  · rfl

theorem register_maxFields (c : Catalog) (s : StructType) (t : Nat) :
    (c.register s t).maxFields = c.maxFields := by
  unfold register
  split <;> rfl

theorem register_counted (hc : c.Counted) (s : StructType) (t : Nat) :
    (c.register s t).Counted := by
  obtain ⟨hbound, hreached⟩ := hc
  constructor
  · rwa [register_records, register_maxFields]
  · rwa [register_records, register_maxFields]

theorem Filled.register {s : StructType} (h : c.Filled (c.standIn s t :: pending)) :
    (c.register s t).Filled ((c.register s t).standIn s t :: pending) := by
  intro n u hn
  rw [register_records, standIn_register_eq]
  rcases eq_standIn_of_register hn with hold | rfl
  · exact h n u hold
  · exact .inr (by simp [standIn_register_eq])

theorem Filled.drop (h : c.Filled (k :: pending)) (hk : k ∈ c.records) : c.Filled pending := by
  intro n u hn
  rcases h n u hn with hrec | hmem
  · exact .inl hrec
  · rcases List.mem_cons.mp hmem with rfl | hmem
    · exact .inl hk
    · exact .inr hmem

theorem Gains.complete {r : FieldRecord} (h : c.Gains c' k r) (hc : c.Complete (k :: pending))
    (hk : k ∉ pending) (hmax : c'.maxFields = max c.maxFields r.fieldCount) :
    c'.Complete pending where
  unrecorded := by
    intro x hx hm
    by_cases hold : x ∈ c.records
    · exact hc.unrecorded x (List.mem_cons_of_mem _ hx) hold
    · exact hk (h.eq_of_not_mem hm hold ▸ hx)
  filled := by
    have hall : c'.Filled (k :: pending) := by
      intro n u hn
      rw [h.scopes] at hn
      exact (hc.filled n u hn).imp h.grows.mem id
    exact hall.drop h.mem
  counted := by
    constructor
    · intro a r' hr'
      rw [h.getElem?] at hr'
      split at hr'
      · obtain rfl := Option.some.inj hr'
        omega
      · have := hc.counted.bound a r' hr'
        omega
    · rcases Nat.le_total c.maxFields r.fieldCount with hle | hle
      · exact .inr ⟨k, r, by simp [h.getElem?], by omega⟩
      · rw [hmax, Nat.max_eq_left hle]
        refine hc.counted.reached.imp id ?_
        rintro ⟨a, r', hr', hcount⟩
        have hne : k ≠ a := fun he => h.new (he ▸ mem_records_iff.mpr ⟨r', hr'⟩)
        exact ⟨a, r', by rw [h.getElem?, if_neg hne, hr'], hcount⟩

theorem keep_maxFields (c : Catalog) (k : Nat) (r : FieldRecord) :
    (c.keep k r).maxFields = max c.maxFields r.fieldCount := by
  unfold keep
  dsimp only
  split
  · dsimp only
    omega
  · dsimp only
    omega

/-- Making sure of a record, when it does not fail, leaves nothing that is
registered without one. -/
theorem ensure_complete (hun : ∀ x ∈ pending, x ∉ c.records) (hcount : c.Counted)
    (hfill : ∀ s, p.types.struct? t = some s → c.Filled (c.standIn s t :: pending)) :
    Meets (ensure p pending t) c (fun _ c' => c'.Complete pending) (fun _ => True) := by
  induction hn : unseen p.types.size pending using Nat.strong_induction_on
    generalizing pending t c with
  | _ n ih =>
    subst hn
    cases hs : p.types.struct? t with
    | none =>
      rw [ensure, hs]
      trivial
    | some s =>
      have hfill₁ := (hfill s hs).register
      have hun₁ : ∀ x ∈ pending, x ∉ (c.register s t).records := by rwa [register_records]
      have hcount₁ := register_counted hcount s t
      refine meets_ensure hs rfl rfl ?_ (fun _ _ => trivial) (fun _ => trivial) ?_ ?_ <;>
        generalize c.register s t = c₁ at hfill₁ hun₁ hcount₁ ⊢ <;>
        generalize c₁.standIn s t = key at hfill₁ ⊢
      · exact fun hrec => ⟨hun₁, hfill₁.drop hrec, hcount₁⟩
      · intro _ name hrec hp _ _ _
        have hgain : c₁.Gains
            { c₁ with records := c₁.records.insert key (.bodiless name key) }
            key (.bodiless name key) := ⟨rfl, rfl, rfl, hrec⟩
        refine hgain.complete ⟨?_, hfill₁, hcount₁⟩ hp
          (by simp [FieldRecord.bodiless, FieldRecord.fieldCount])
        exact List.forall_mem_cons.mpr ⟨hrec, hun₁⟩
      · intro shape name members hrec hp _ _ _ hlt
        have hc₁ : c₁.Complete (key :: pending) :=
          ⟨List.forall_mem_cons.mpr ⟨hrec, hun₁⟩, hfill₁, hcount₁⟩
        have hmembers : ∀ m ∈ members, ∀ c, c.Complete (key :: pending) →
            Meets (ensure p (key :: pending) (p.types.stripArrays m)) c
              (fun _ c' => c'.Complete (key :: pending)) (fun _ => True) := by
          intro m _ c₂ hc₂
          refine ih _ hlt hc₂.unrecorded hc₂.counted ?_ rfl
          exact fun _ _ n u hn => (hc₂.filled n u hn).imp id (List.mem_cons_of_mem _)
        refine (flatten_keeps hmembers (fun _ _ _ _ _ => embed_complete) (fun _ _ => trivial) _
          name hc₁).mono ?_ (fun _ h => h)
        intro r c₂ hc₂
        exact (keep_gains (hc₂.unrecorded key (by simp))).complete hc₂ hp
          (keep_maxFields c₂ key r)

/-- A struct with a body is recorded, under its stand-in. -/
def Knows (c : Catalog) (p : Program) (t : Nat) : Prop :=
  ∀ s, p.types.struct? t = some s → s.body.isSome = true →
    c.Settled s ∧ c.standIn s t ∈ c.records

theorem Knows.mono (h : c.Knows p t) (hg : c.Grows c') : c'.Knows p t := by
  intro s hs hb
  obtain ⟨hset, hmem⟩ := h s hs hb
  rw [hg.standIn hset]
  exact ⟨hg.settled hset, hg.mem hmem⟩

/-- A coherent catalog in which nothing has failed. -/
structure Intact (c : Catalog) (p : Program) : Prop where
  coherent : c.Coherent p
  complete : c.Complete []

theorem ensure_intact (hc : c.Coherent p) (hcount : c.Counted)
    (hfill : ∀ s, p.types.struct? t = some s → c.Filled [c.standIn s t]) :
    Meets (ensure p [] t) c
      (fun key c' => c'.Intact p ∧ c.Grows c' ∧ c'.canonical? p t = some key ∧ key ∈ c'.records)
      (fun _ => True) := by
  have hcoherent := ensure_top_meets (flattenable_false p) (t := t) hc (fun _ _ _ h => h.elim)
  have hcomplete : Meets (ensure p [] t) c (fun _ c' => c'.Complete []) (fun _ => True) :=
    ensure_complete (by simp) hcount hfill
  refine (hcoherent.and hcomplete).mono ?_ (fun _ _ => trivial)
  rintro key c' ⟨⟨hadv, hkey⟩, hdone⟩
  exact ⟨⟨hadv.coherent, hdone⟩, hadv.grows, hkey⟩

theorem knows_of_canonical? (hc : c.Grounded p) (hcan : c.canonical? p t = some k)
    (hk : k ∈ c.records) : c.Knows p t := by
  obtain ⟨s, hs, rfl⟩ := canonical?_eq_some.mp hcan
  intro s' hs' hb
  obtain rfl := Option.some.inj (hs.symm.trans hs')
  obtain ⟨r, hr⟩ := mem_records_iff.mp hk
  obtain ⟨members, hb⟩ := Option.isSome_iff_exists.mp hb
  exact ⟨hc.settled hs hr (hc.isOpaque_standIn hs hb hr), hk⟩

theorem coverStruct_intact (h : c.Intact p) (t : Nat) :
    Meets (coverStruct p t) c (fun _ c' => c'.Intact p ∧ c.Grows c' ∧ c'.Knows p t)
      (fun _ => True) := by
  refine meets_coverStruct (fun _ => trivial) ?_ ?_ ?_
  · intro s hs _
    have hfill : c.Filled [c.standIn s t] :=
      fun n u hn => (h.complete.filled n u hn).imp id (List.mem_cons_of_mem _)
    refine (ensure_intact (register_coherent h.coherent hs)
      (register_counted h.complete.counted s t) ?_).mono ?_ (fun _ h => h)
    · intro s' hs'
      obtain rfl := Option.some.inj (hs.symm.trans hs')
      exact hfill.register
    · rintro key c' ⟨hc', hg', hcan, hmem⟩
      exact ⟨hc', (register_grows c s t).trans hg',
        knows_of_canonical? hc'.coherent.grounded hcan hmem⟩
  · intro s name u hs hn hu
    refine ⟨h, Grows.refl c, ?_⟩
    -- whatever is registered for the scope name has a record
    have hkey : c.standIn s t = u := by simp [standIn, hn, hu]
    refine knows_of_canonical? h.coherent.grounded (canonical?_eq_some.mpr ⟨s, hs, hkey⟩) ?_
    exact (h.complete.filled _ u hu).resolve_right (by simp)
  · intro s hs hb
    refine ⟨h, Grows.refl c, ?_⟩
    intro s' hs' hbody
    obtain rfl := Option.some.inj (hs.symm.trans hs')
    simp [hb] at hbody

/-- The structs that the modules use are known. -/
def KnowsUsed (c : Catalog) (p : Program) : Prop :=
  ∀ index < p.modules.size, ∃ used, p.usedStructs index = .ok used ∧ ∀ t ∈ used, c.Knows p t

theorem coverProgram_intact (h : c.Intact p) :
    Meets (coverProgram p) c (fun _ c' => c'.Intact p ∧ c.Grows c' ∧ c'.KnowsUsed p)
      (fun _ => True) := by
  have hlast : ∀ (t : Nat) (c c' : Catalog), c.Grows c' → c.Knows p t → c'.Knows p t :=
    fun _ _ _ hg hk => hk.mono hg
  have hmodule : ∀ index c, c.Intact p → Meets (coverModule p index) c
      (fun _ c' => c'.Intact p ∧ c.Grows c' ∧ ∃ used, p.usedStructs index = .ok used ∧
        ∀ t ∈ used, c'.Knows p t) (fun _ => True) := by
    intro index c h
    unfold coverModule
    cases hused : p.usedStructs index with
    | error e => exact meets_of_error rfl fun _ => trivial
    | ok used =>
      refine Meets.mono (Meets.forM_lasting Grows.refl (fun _ _ _ => Grows.trans)
        (fun t c => c.Knows p t) hlast (fun t _ c h => coverStruct_intact h t) h) ?_ (fun _ h => h)
      rintro _ c' ⟨h', hg, hall⟩
      exact ⟨h', hg, used, rfl, hall⟩
  refine Meets.mono (Meets.forM_lasting Grows.refl (fun _ _ _ => Grows.trans)
    (fun index c => ∃ used, p.usedStructs index = .ok used ∧ ∀ t ∈ used, c.Knows p t) ?_
    (fun index _ c h => hmodule index c h) h) ?_ (fun _ h => h)
  · rintro index c c' hg ⟨used, hused, hall⟩
    exact ⟨used, hused, fun t ht => (hall t ht).mono hg⟩
  · rintro _ c' ⟨h', hg, hall⟩
    exact ⟨h', hg, fun index hi => hall index (List.mem_range.mpr hi)⟩

theorem intact_empty (p : Program) (unionName : String) :
    Intact { unionName := unionName } p := by
  refine ⟨(inProgress_empty p (fun _ => False) unionName).coherent, by simp, ?_, ?_, .inl rfl⟩
  · intro n t hn
    simp at hn
  · intro k r hk
    simp at hk

theorem layoutOf_complete (h : c.Intact p) (t : Nat) :
    Meets (layoutOf p t) c (fun _ c' => c'.Complete []) (fun _ => True) := by
  have hfill : ∀ s, p.types.struct? t = some s → c.Filled [c.standIn s t] :=
    fun _ _ n u hn => (h.complete.filled n u hn).imp id (List.mem_cons_of_mem _)
  exact layoutOf_keeps_of_ensure (ensure_complete (by simp) h.complete.counted hfill)

/-- A struct that is known, or that has no body, is answered without a record
that would have to be counted. -/
theorem layoutOf_maxFields (h : c.Intact p) (ht : c.Knows p t) :
    Meets (layoutOf p t) c (fun _ c' => c'.maxFields = c.maxFields) (fun _ => True) := by
  cases hs : p.types.struct? t with
  | none =>
    unfold layoutOf
    rw [ensure, hs]
    trivial
  | some s =>
    cases hb : s.body with
    | some members =>
      obtain ⟨hset, hmem⟩ := ht s hs (by simp [hb])
      obtain ⟨r, hr⟩ := mem_records_iff.mp hmem
      unfold Meets
      rw [layoutOf_of_recorded hs hset hr]
      exact register_maxFields c s t
    | none =>
      have hreg : c.register s t = c := by
        unfold register
        split
        · rename_i hbody
          simp [hb] at hbody
        · rfl
      refine layoutOf_keeps_of_ensure (meets_ensure hs hreg rfl (fun _ => rfl)
        (fun _ _ => trivial) (fun _ => trivial) (fun _ _ _ _ _ _ _ => rfl) ?_)
      intro shape name members hrec _ _ hshape hbody _
      -- only the struct itself can be without a record
      have hself : c.standIn s t = t := by
        refine (c.standIn_cases s t).resolve_right ?_
        rintro ⟨n, hscope⟩
        exact hrec ((h.complete.filled n _ hscope).resolve_right (by simp))
      rw [hself, hs] at hshape
      obtain rfl := Option.some.inj hshape
      simp [hb] at hbody

end Catalog

end AbstractMemory
