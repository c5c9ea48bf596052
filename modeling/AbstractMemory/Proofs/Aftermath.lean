import AbstractMemory.Proofs.Filling
import Mathlib

/-! What a layout that fails leaves behind. Records that were there keep their
fields. Structs inside the one asked for may have got records on the way, and those
are entered as containers wherever they hold something. -/

namespace AbstractMemory

open Steps

namespace Catalog

variable {c c' c₀ : Catalog} {p : Program} {pending : List Nat} {k t root : Nat}
  {s : StructType} {r : FieldRecord}

/-- A record of `t` may be kept under `k`, which is `t` or has its scope name. -/
def Represents (c : Catalog) (p : Program) (k t : Nat) : Prop :=
  k = t ∨ ∃ s name, p.types.struct? t = some s ∧ s.name = some name ∧
    c.scopes[scopeName name]? = some k

/-- A record of some member of `outer` may be kept under `inner`. -/
def Nests (c : Catalog) (p : Program) (outer inner : Nat) : Prop :=
  ∃ s m, p.types.struct? outer = some s ∧ m ∈ s.members ∧
    c.Represents p inner (p.types.stripArrays m)

theorem represents_standIn (c : Catalog) (hs : p.types.struct? t = some s) :
    c.Represents p (c.standIn s t) t := by
  unfold standIn
  cases hu : s.name.bind fun name => c.scopes[scopeName name]? with
  | none => exact .inl rfl
  | some u =>
    obtain ⟨name, hn, hu⟩ := Option.bind_eq_some_iff.mp hu
    exact .inr ⟨s, name, hs, hn, hu⟩

theorem Represents.mono (h : c.Represents p k t) (hg : c.Grows c') : c'.Represents p k t := by
  rcases h with rfl | ⟨s, name, hs, hn, hk⟩
  · exact .inl rfl
  · exact .inr ⟨s, name, hs, hn, hg.scopes _ k hk⟩

theorem Grows.nests (hg : c.Grows c') : c.Nests p ≤ c'.Nests p := by
  rintro outer inner ⟨s, m, hs, hm, hrep⟩
  exact ⟨s, m, hs, hm, hrep.mono hg⟩

theorem Grows.inside (hg : c.Grows c') (h : Relation.TransGen (c.Nests p) root k) :
    Relation.TransGen (c'.Nests p) root k :=
  Relation.TransGen.mono hg.nests root k h

/-- The largest struct is the same as in `c₀`, or one recorded since. -/
def Tally (c₀ c : Catalog) : Prop :=
  (c.largest = c₀.largest ∧ c.maxFields = c₀.maxFields) ∨
    ∃ k r, k ∉ c₀.records ∧ c.records[k]? = some r ∧ c.largest = some k ∧
      c.maxFields = r.fieldCount ∧ c₀.maxFields < c.maxFields

theorem Tally.frame (h : c₀.Tally c) (hg : c.Grows c') (hmax : c'.maxFields = c.maxFields)
    (hlargest : c'.largest = c.largest) : c₀.Tally c' := by
  unfold Tally
  rw [hmax, hlargest]
  refine h.imp id ?_
  rintro ⟨k, r, hk, hr, hrest⟩
  obtain ⟨containers, hr', _⟩ := hg.records k r hr
  exact ⟨k, _, hk, hr', hrest⟩

theorem Tally.keep (h : c₀.Tally c) (hg : c₀.Grows c) (hk : k ∉ c.records) (r : FieldRecord) :
    c₀.Tally (c.keep k r) := by
  by_cases hmore : c.maxFields < r.fieldCount
  · have hle : c₀.maxFields ≤ c.maxFields := by
      rcases h with ⟨_, hmax⟩ | ⟨_, _, _, _, _, _, hlt⟩
      · exact hmax.ge
      · exact hlt.le
    have hkeep : c.keep k r = { c with
        records := c.records.insert k r, largest := some k, maxFields := r.fieldCount } := by
      simp [Catalog.keep, hmore]
    rw [hkeep]
    exact .inr ⟨k, r, fun hold => hk (hg.mem hold), by simp, rfl, rfl, hle.trans_lt hmore⟩
  · have hkeep : c.keep k r = { c with records := c.records.insert k r } := by
      simp [Catalog.keep, hmore]
    rw [hkeep]
    exact h.frame (hkeep ▸ (keep_gains hk).grows) rfl rfl

/-- Since `c₀`, records were made for structs inside `root` only, and not for
those being flattened. -/
structure Since (c₀ c : Catalog) (p : Program) (root : Nat) (pending : List Nat) : Prop where
  grows : c₀.Grows c
  unrecorded : ∀ x ∈ pending, x ∉ c.records
  inside : ∀ k ∈ c.records, k ∉ c₀.records → Relation.TransGen (c.Nests p) root k
  tally : c₀.Tally c

theorem Since.refl (c : Catalog) (p : Program) (root : Nat)
    (hun : ∀ x ∈ pending, x ∉ c.records) : c.Since c p root pending :=
  ⟨Grows.refl c, hun, fun _ hk hno => (hno hk).elim, .inl ⟨rfl, rfl⟩⟩

theorem Since.frame (h : c₀.Since c p root pending) (hg : c.Grows c')
    (hmem : ∀ k ∈ c'.records, k ∈ c.records) (hmax : c'.maxFields = c.maxFields)
    (hlargest : c'.largest = c.largest) : c₀.Since c' p root pending where
  grows := h.grows.trans hg
  unrecorded := fun x hx hx' => h.unrecorded x hx (hmem x hx')
  inside := fun k hk hno => hg.inside (h.inside k (hmem k hk) hno)
  tally := h.tally.frame hg hmax hlargest

theorem Since.register (h : c₀.Since c p root pending) (s : StructType) (t : Nat) :
    c₀.Since (c.register s t) p root pending := by
  refine h.frame (register_grows c s t) ?_ (register_maxFields c s t) ?_
  · rw [register_records]
    exact fun _ hk => hk
  · unfold Catalog.register
    split <;> rfl

theorem Since.embed {outer inner offset : Nat} (h : c₀.Since c p root pending)
    (hc' : embed p outer [] inner offset c = .ok c') : c₀.Since c' p root pending := by
  obtain ⟨hrel, hmax, hlargest⟩ := embed_relinks hc'
  exact h.frame hrel.toGrows hrel.mem_of_mem hmax hlargest

theorem Since.drop (h : c₀.Since c p root (k :: pending)) : c₀.Since c p root pending :=
  ⟨h.grows, fun x hx => h.unrecorded x (List.mem_cons_of_mem _ hx), h.inside, h.tally⟩

theorem Since.gain (h : c₀.Since c p root (k :: pending)) (hgain : c.Gains c' k r)
    (hk : k ∉ pending) (hroot : Relation.TransGen (c.Nests p) root k) (htally : c₀.Tally c') :
    c₀.Since c' p root pending where
  grows := h.grows.trans hgain.grows
  unrecorded := by
    intro x hx hm
    by_cases hold : x ∈ c.records
    · exact h.unrecorded x (List.mem_cons_of_mem _ hx) hold
    · exact hk (hgain.eq_of_not_mem hm hold ▸ hx)
  inside := by
    intro x hm hno
    refine hgain.grows.inside ?_
    by_cases hold : x ∈ c.records
    · exact h.inside x hold hno
    · rwa [hgain.eq_of_not_mem hm hold]
  tally := htally

/-- Whatever may represent `t` is inside `root`, now and later. -/
def Within (c : Catalog) (p : Program) (root t : Nat) : Prop :=
  ∀ c' k, c.Grows c' → c'.Represents p k t → Relation.TransGen (c'.Nests p) root k

theorem flatten_since {shape : StructType} {members : List Nat} (isUnion : Bool) (name : String)
    (hs : p.types.struct? k = some shape) (hb : shape.body = some members)
    (hk : Relation.ReflTransGen (c.Nests p) root k)
    (hrec : ∀ t c, c₀.Since c p root (k :: pending) → c.Within p root t →
      Meets (ensure p (k :: pending) t) c
        (fun _ c' => c.Grows c' ∧ c₀.Since c' p root (k :: pending))
        (fun c' => c.Grows c' ∧ c₀.Since c' p root (k :: pending)))
    (h : c₀.Since c p root (k :: pending)) :
    Meets ((if isUnion then flattenUnion else flattenStruct) p
      (fun m => ensure p (k :: pending) m) name k members) c
      (fun _ c' => c.Grows c' ∧ c₀.Since c' p root (k :: pending))
      (fun c' => c.Grows c' ∧ c₀.Since c' p root (k :: pending)) := by
  refine flatten_keeps ?_ ?_ (fun _ h => h) isUnion name ⟨Grows.refl c, h⟩
  · rintro m hm c₁ ⟨hg, h₁⟩
    have hwithin : c₁.Within p root (p.types.stripArrays m) := by
      intro c₂ x hg' hx
      have hk₂ : Relation.ReflTransGen (c₂.Nests p) root k :=
        Relation.ReflTransGen.mono (hg.trans hg').nests root k hk
      exact .tail' hk₂ ⟨shape, m, hs, by simpa [StructType.members, hb] using hm, hx⟩
    exact (hrec _ c₁ h₁ hwithin).mono (fun _ _ h => ⟨hg.trans h.1, h.2⟩)
      (fun _ h => ⟨hg.trans h.1, h.2⟩)
  · rintro outer inner offset c₁ c₂ hc₂ ⟨hg, h₁⟩
    exact ⟨hg.trans (embed_relinks hc₂).1.toGrows, h₁.embed hc₂⟩

theorem ensure_since (h : c₀.Since c p root pending) (hwithin : c.Within p root t) :
    Meets (ensure p pending t) c (fun _ c' => c.Grows c' ∧ c₀.Since c' p root pending)
      (fun c' => c.Grows c' ∧ c₀.Since c' p root pending) := by
  induction hn : unseen p.types.size pending using Nat.strong_induction_on
    generalizing pending t c with
  | _ n ih =>
    subst hn
    cases hs : p.types.struct? t with
    | none =>
      rw [ensure, hs]
      exact ⟨Grows.refl c, h⟩
    | some s =>
      have hg₁ := register_grows c s t
      have h₁ := h.register s t
      have hkey := hwithin _ _ hg₁ (represents_standIn (c.register s t) hs)
      refine meets_ensure hs rfl rfl (fun _ => ⟨hg₁, h₁⟩) (fun _ _ => ⟨hg₁, h₁⟩)
        (fun _ => ⟨hg₁, h₁⟩) ?_ ?_ <;>
        generalize c.register s t = c₁ at hg₁ h₁ hkey ⊢ <;>
        generalize c₁.standIn s t = key at hkey ⊢
      · intro _ name hrec hp _ _ _
        have hgain : c₁.Gains
            { c₁ with records := c₁.records.insert key (.bodiless name key) }
            key (.bodiless name key) := ⟨rfl, rfl, rfl, hrec⟩
        have h₂ : c₀.Since c₁ p root (key :: pending) :=
          ⟨h₁.grows, List.forall_mem_cons.mpr ⟨hrec, h₁.unrecorded⟩, h₁.inside, h₁.tally⟩
        exact ⟨hg₁.trans hgain.grows,
          h₂.gain hgain hp hkey (h₁.tally.frame hgain.grows rfl rfl)⟩
      · intro shape name members hrec hp _ hshape hb hlt
        have h₂ : c₀.Since c₁ p root (key :: pending) :=
          ⟨h₁.grows, List.forall_mem_cons.mpr ⟨hrec, h₁.unrecorded⟩, h₁.inside, h₁.tally⟩
        refine (flatten_since _ name hshape hb hkey.to_reflTransGen
          (fun t c h hw => ih _ hlt h hw rfl) h₂).mono ?_ ?_
        · rintro r c₂ ⟨hg₂, h₃⟩
          have hun : key ∉ c₂.records := h₃.unrecorded key (by simp)
          have hgain : c₂.Gains (c₂.keep key r) key r := keep_gains hun
          exact ⟨hg₁.trans (hg₂.trans hgain.grows),
            h₃.gain hgain hp (hg₂.inside hkey) (h₃.tally.keep h₃.grows hun r)⟩
        · rintro c₂ ⟨hg₂, h₃⟩
          exact ⟨hg₁.trans hg₂, h₃.drop⟩

theorem layoutOf_since (hc : c.Coherent p) (t : Nat) :
    Meets (layoutOf p t) c (fun _ _ => True)
      (fun c' => ∃ root, c'.Represents p root t ∧ c.Since c' p root []) := by
  have hens : Meets (ensure p [] t) c (fun _ _ => True)
      (fun c' => ∃ root, c'.Represents p root t ∧ c.Since c' p root []) := by
    cases hs : p.types.struct? t with
    | none =>
      rw [ensure, hs]
      exact ⟨t, .inl rfl, Since.refl c p t (by simp)⟩
    | some s =>
      have hrep := represents_standIn (c.register s t) hs
      have h₁ : c.Since (c.register s t) p ((c.register s t).standIn s t) [] :=
        (Since.refl c p _ (by simp)).register s t
      refine meets_ensure hs rfl rfl (fun _ => trivial) (fun _ _ => ⟨_, hrep, h₁⟩)
        (fun _ => ⟨_, hrep, h₁⟩) (fun _ _ _ _ _ _ _ => trivial) ?_
      intro shape name members hrec _ _ hshape hb _
      have h₂ : c.Since (c.register s t) p _ [(c.register s t).standIn s t] :=
        ⟨h₁.grows, by simpa using hrec, h₁.inside, h₁.tally⟩
      refine (flatten_since _ name hshape hb .refl
        (fun t c h hw => ensure_since h hw) h₂).mono (fun _ _ _ => trivial) ?_
      rintro c₂ ⟨hg₂, h₃⟩
      exact ⟨_, hrep.mono hg₂, h₃.drop⟩
  have hmem := ensure_top_meets (flattenable_false p) (t := t) hc (fun _ _ _ h => h.elim)
  refine meets_layoutOf ((hmem.and hens).mono ?_ fun _ h => h.2)
  rintro key c' ⟨⟨_, _, hkey⟩, _⟩
  obtain ⟨r, hr⟩ := mem_records_iff.mp hkey
  exact ⟨fun _ _ => trivial, fun hnone => by simp [hr] at hnone⟩

/-- A layout that fails, and does not end the program, makes records only for structs
inside the one asked for. All records that were there keep their fields. Of the structs
recorded in the end, they lose no container, and gain exactly the places where the new
ones hold them, each as the byte count for a sum of offsets. The largest struct is still
the same or a new one. -/
theorem layoutOf_failed {unionName : String} {requests : List Request} {e : RecordError}
    {c' : Catalog} (h : layoutOf p t (after { unionName := unionName } p requests) = .error e c')
    (hgoes : e.halts = false) :
    let c := after { unionName := unionName } p requests
    (∀ b r, c.records[b]? = some r → ∃ containers,
      c'.records[b]? = some { r with containers := containers } ∧ r.containers ⊆ containers ∧
      ∀ a ∈ c'.records, ∀ o, (a, o) ∈ containers ↔
        (a, o) ∈ r.containers ∨ (a ∉ c.records ∧ ∃ sum, Embedded (c'.Holds p) a b sum ∧
          p.dataLayout.overflow.count sum = .ok o)) ∧
    (∃ root, c'.Represents p root t ∧
      ∀ k ∈ c'.records, k ∉ c.records → Relation.TransGen (c'.Nests p) root k) ∧
    (c'.largest = c.largest ∧ c'.maxFields = c.maxFields ∨
      ∃ k r, k ∉ c.records ∧ c'.records[k]? = some r ∧ c'.largest = some k ∧
        c'.maxFields = r.fieldCount ∧ c.maxFields < c'.maxFields) := by
  intro c
  have hin := (after_advances (flattenable_false p)
    (inProgress_empty p _ unionName) requests).toInProgress
  have hc : c.Coherent p := hin.coherent
  have hc' : c'.Coherent p :=
    ((layoutOf_meets (flattenable_false p) t hin).of_error h hgoes).coherent
  obtain ⟨root, hroot, hsince⟩ := (layoutOf_since hc t).of_error h hgoes
  have hg := hsince.grows
  refine ⟨?_, ⟨root, hroot, hsince.inside⟩, hsince.tally⟩
  intro b r hr
  obtain ⟨containers, hr', hsub⟩ := hg.records b r hr
  refine ⟨containers, hr', hsub, fun a ha o => ⟨fun hm => ?_, ?_⟩⟩
  · obtain ⟨sum, hsum, ho⟩ := hc'.linked.sound a b o ⟨_, hr', hm⟩
    have he : Embedded (c'.Holds p) a b sum := hsum.mono fun _ _ _ hh => hh.1
    by_cases hold : a ∈ c.records
    · have hembedded := (hg.embedded_of_mem hc.grounded hold he).mono fun _ _ _ hh => hh.1
      obtain ⟨o₁, ho₁, r₁, hr₁, hm₁⟩ := hc.linked.complete a b sum hold hembedded
      obtain rfl := Option.some.inj (hr.symm.trans hr₁)
      obtain rfl := Except.ok.inj (ho.symm.trans ho₁)
      exact .inl hm₁
    · exact .inr ⟨hold, sum, he, ho⟩
  · rintro (hm | ⟨_, sum, he, ho⟩)
    · exact hsub hm
    · obtain ⟨o₁, ho₁, r₁, hr₁, hm₁⟩ := hc'.linked.complete a b sum ha he
      obtain rfl := Option.some.inj (hr'.symm.trans hr₁)
      obtain rfl := Except.ok.inj (ho.symm.trans ho₁)
      exact hm₁

/-- A struct that cannot be laid out, with a member that can. -/
def interrupted : Program where
  types := {
    entries := #[
      .integer 32,
      .struct ⟨some "struct.a", some [0], false, false⟩,
      .struct ⟨some "struct.mid", some [1, 0], false, false⟩,
      .struct ⟨some "struct.file", none, false, false⟩,
      .struct ⟨some "struct.outer", some [2, 3], false, false⟩] }

theorem layoutOf_failed_interrupted :
    let c := after { unionName := "union." } interrupted [.layout 1]
    ∃ e c' r containers, layoutOf interrupted 4 c = .error e c' ∧ c.records[1]? = some r ∧
      c'.records[1]? = some { r with containers := containers } ∧
      (∀ a ∈ c'.records, ∀ o, (a, o) ∈ containers ↔
        (a, o) ∈ r.containers ∨ (a ∉ c.records ∧ ∃ sum,
          Embedded (c'.Holds interrupted) a 1 sum ∧
          interrupted.dataLayout.overflow.count sum = .ok o)) ∧
      (c'.largest = some 2 ∧ c'.maxFields = 2) ∧
      ∃ root, c'.Represents interrupted root 4 ∧
        Relation.TransGen (c'.Nests interrupted) root 2 := by
  intro c
  have hfacts : (match layoutOf interrupted 4 c with
      | .ok _ _ => false
      | .error e c' => c.records.contains 1 && c'.records.contains 2 && !c.records.contains 2 &&
        decide (c'.largest = some 2) && decide (c'.maxFields = 2) && !e.halts) = true := by
    decide +kernel
  cases h : layoutOf interrupted 4 c with
  | ok r c' => simp [h] at hfacts
  | error e c' =>
    simp only [h, Bool.and_eq_true, Bool.not_eq_true', decide_eq_true_eq,
      Std.TreeMap.contains_iff_mem] at hfacts
    obtain ⟨⟨⟨⟨⟨hold, hnew⟩, hno⟩, hlargest⟩, hmax⟩, hgoes⟩ := hfacts
    rw [← Bool.not_eq_true, Std.TreeMap.contains_iff_mem] at hno
    obtain ⟨r, hr⟩ := mem_records_iff.mp hold
    obtain ⟨hrecords, ⟨root, hroot, hinside⟩, _⟩ := layoutOf_failed h hgoes
    obtain ⟨containers, hr', _, hexact⟩ := hrecords 1 r hr
    exact ⟨e, c', r, containers, rfl, hr, hr', hexact, ⟨hlargest, hmax⟩, root, hroot,
      hinside 2 hnew hno⟩

theorem containers_gained_interrupted :
    let c := after { unionName := "union." } interrupted [.layout 1]
    ∃ e c' r r', layoutOf interrupted 4 c = .error e c' ∧ c.records[1]? = some r ∧
      r.isFinal = true ∧ c'.records[1]? = some r' ∧ r.containers = [] ∧
      r'.containers = [(2, 0)] := by
  intro c
  have hfacts : (match layoutOf interrupted 4 c with
      | .ok _ _ => false
      | .error _ c' => (c.records[1]?.any fun r => r.isFinal && decide (r.containers = [])) &&
        c'.records[1]?.any fun r => decide (r.containers = [(2, 0)])) = true := by
    decide +kernel
  cases h : layoutOf interrupted 4 c with
  | ok r c' => simp [h] at hfacts
  | error e c' =>
    simp only [h, Bool.and_eq_true, Option.any_eq_true, decide_eq_true_eq] at hfacts
    obtain ⟨⟨r, hr, hfinal, hnone⟩, r', hr', hone⟩ := hfacts
    exact ⟨e, c', r, r', rfl, hr, hfinal, hr', hnone, hone⟩

end Catalog

end AbstractMemory
