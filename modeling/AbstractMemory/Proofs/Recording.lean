import AbstractMemory.Proofs.Descent
import AbstractMemory.Proofs.StructFlattening
import AbstractMemory.Proofs.UnionFlattening
import Mathlib

/-! Making sure that a struct has a record. A finished record keeps the catalog
coherent, and a struct that can be flattened never fails to get one. -/

namespace AbstractMemory

open Steps

namespace Catalog

variable {p : Program} {ok : Nat → Prop} {pending : List Nat} {k : Nat}

theorem keep_gains {c : Catalog} {r : FieldRecord} (hk : k ∉ c.records) :
    c.Gains (c.keep k r) k r := by
  unfold keep
  dsimp only
  split <;> exact ⟨rfl, rfl, rfl, hk⟩

theorem Ready.describes {c c' : Catalog} {s : StructType} {members : List Nat} {r : FieldRecord}
    (h : c.Ready p k s members r) (hg : c.Grows c') (hs : p.types.struct? k = some s)
    (hb : s.body = some members) (hset : c.Settled s) (hself : c.standIn s k = k) :
    c'.Describes p k r := by
  refine ⟨h.isFinal, h.name, h.type, h.faultless, s, hs, by simp [h.isOpaque, hb], by simp [hb],
    ?_⟩
  intro members' hb'
  obtain rfl : members = members' := Option.some.inj (hb.symm.trans hb')
  have htab : c'.Tabulates p k s members { r with containers := r.containers } :=
    hg.tabulates ⟨hset, hself, h.isUnion, h.parts, h.table, h.measured, h.fits⟩
  exact htab

theorem Ready.mem_of_has {c c' : Catalog} {s : StructType} {members : List Nat} {r : FieldRecord}
    (h : c.Ready p k s members r) (hg : c.Grows c') (hs : p.types.struct? k = some s)
    (hb : s.body = some members) {b : Nat} (hh : c'.Has p k b) : b ∈ c.records := by
  obtain ⟨s', m, hs', hm, hcan⟩ := hh
  obtain rfl : s = s' := Option.some.inj (hs.symm.trans hs')
  obtain ⟨sub, hsub, rfl⟩ := canonical?_eq_some.mp hcan
  obtain ⟨hset, r', hr', _⟩ := h.parts m (by simpa [StructType.members, hb] using hm) sub hsub
  rw [hg.standIn hset]
  exact mem_records_iff.mpr ⟨r', hr'⟩

theorem Ready.coherent {c c' : Catalog} {s : StructType} {members : List Nat} {r : FieldRecord}
    (h : c.Ready p k s members r) (hc : c.Coherent p) (hgain : c.Gains c' k r)
    (hs : p.types.struct? k = some s) (hb : s.body = some members) (hset : c.Settled s)
    (hself : c.standIn s k = k) : c'.Coherent p := by
  have hg := hgain.grows
  refine hgain.coherent hc h.containers (h.describes hg hs hb hset hself)
    (fun b hh => h.mem_of_has hg hs hb hh) ?_
  rintro b o ⟨sub, first, rest, ⟨m, hat, hcan⟩, hch, rfl⟩
  have hplaced := h.placed m first (hg.memberAt.mp hat)
  have hsub := h.mem_of_has hg hs hb (Holds.has ⟨m, hat, hcan⟩)
  have hcan₀ : c.canonical? p (p.types.stripArrays m) = some sub := by
    obtain ⟨s', hs', rfl⟩ := canonical?_eq_some.mp hcan
    exact canonical?_eq_some.mpr ⟨s', hs', (hg.standIn (hplaced.1 s' hs').1 _).symm⟩
  have hch₀ := hg.chain_of_mem hc.grounded hsub hch
  obtain ⟨o, ho, hedge⟩ := hplaced.2 sub hcan₀ b rest (hch₀.mono fun _ _ _ hh => hh.1)
  exact ⟨o, ho, hg.edge hedge⟩

theorem bodiless_coherent {c c' : Catalog} {s : StructType} {name : String} (hc : c.Coherent p)
    (hgain : c.Gains c' k (.bodiless name k)) (hname : p.types.text k = .ok name)
    (hs : p.types.struct? k = some s) (hb : s.body = none) : c'.Coherent p := by
  have hno : ∀ b, ¬ c'.Has p k b := by
    rintro b ⟨s', m, hs', hm, _⟩
    obtain rfl : s = s' := Option.some.inj (hs.symm.trans hs')
    simp [StructType.members, hb] at hm
  refine hgain.coherent hc rfl ?_ (fun b hh => (hno b hh).elim) ?_
  · exact ⟨rfl, hname, rfl, rfl, s, hs, by simp [FieldRecord.bodiless, hb], fun _ => rfl,
      by simp [hb]⟩
  · rintro b o ⟨sub, first, rest, hh, _⟩
    exact (hno sub hh.has).elim

theorem standIn_register_struct {c : Catalog} (hc : c.Grounded p) {s : StructType} {t : Nat}
    (hs : p.types.struct? t = some s) :
    ∃ shape, p.types.struct? ((c.register s t).standIn s t) = some shape := by
  unfold standIn
  cases hu : s.name.bind fun name => (c.register s t).scopes[scopeName name]? with
  | none => exact ⟨s, hs⟩
  | some u =>
    obtain ⟨name, _, hu⟩ := Option.bind_eq_some_iff.mp hu
    obtain ⟨shape, _, hshape, _⟩ := (register_scope hs hu).elim (hc.scope _ u) id
    exact ⟨shape, hshape⟩

theorem eq_standIn_of_register {c : Catalog} {s : StructType} {t u : Nat} {n : String}
    (h : (c.register s t).scopes[n]? = some u) :
    c.scopes[n]? = some u ∨ u = (c.register s t).standIn s t := by
  unfold register at h ⊢
  split at h
  · rename_i name body hn hb
    by_cases hnew : scopeName name = n ∧ scopeName name ∉ c.scopes
    · obtain ⟨rfl, hnew⟩ := hnew
      simp only [standIn, hn, Option.bind_some, h, Option.getD_some, or_true]
    · rw [getElem?_insert_scope, if_neg hnew] at h
      exact .inl h
  · exact .inl h

theorem accounts_register (hok : Flattenable p ok) {c : Catalog} (hc : c.Coherent p)
    {s : StructType} {t : Nat} (hs : p.types.struct? t = some s)
    (h : c.Accounts ok (t :: pending)) :
    (c.register s t).Accounts ok ((c.register s t).standIn s t :: pending) := by
  intro n u hn hu
  rw [register_records]
  rcases eq_standIn_of_register hn with hold | rfl
  · rcases h n u hold hu with hrec | hmem
    · exact .inl hrec
    · rcases List.mem_cons.mp hmem with rfl | hmem
      · rw [hok.standIn_eq (register_coherent hc hs).grounded hu hs]
        exact .inr (List.mem_cons_self ..)
      · exact .inr (List.mem_cons_of_mem _ hmem)
  · exact .inr (List.mem_cons_self ..)

theorem Accounts.drop {c : Catalog} {keys : List Nat} (h : c.Accounts ok (k :: keys))
    (hk : k ∈ c.records ∨ k ∈ keys ∨ ¬ ok k) : c.Accounts ok keys := by
  intro n u hn hu
  rcases h n u hn hu with hrec | hmem
  · exact .inl hrec
  · rcases List.mem_cons.mp hmem with rfl | hmem
    · tauto
    · exact .inr hmem

theorem Gains.inProgress {c c' : Catalog} {r : FieldRecord} (h : c.Gains c' k r)
    (hin : InProgress p ok (k :: pending) c) (hc : c'.Coherent p) (hk : k ∉ pending) :
    InProgress p ok pending c' := by
  have hacc : c'.Accounts ok (k :: pending) := by
    intro n u hn hu
    rw [h.scopes] at hn
    exact (hin.registered n u hn hu).imp h.grows.mem id
  refine ⟨hc, ?_, hacc.drop (.inl h.mem)⟩
  intro x hx hm
  by_cases hold : x ∈ c.records
  · exact hin.unrecorded x (List.mem_cons_of_mem _ hx) hold
  · exact hk (h.eq_of_not_mem hm hold ▸ hx)

theorem flatten_meets {record : Nat → Cataloguing Nat} (hok : Flattenable p ok)
    (hrec : Records p ok pending k record) {c : Catalog}
    (hin : InProgress p ok (k :: pending) c) {s : StructType} {members : List Nat} {name : String}
    (hname : p.types.text k = .ok name) (hs : p.types.struct? k = some s)
    (hb : s.body = some members) :
    Meets ((if c.treatsAsUnion s then flattenUnion else flattenStruct) p record name k members) c
      (fun r c' => Advances p ok (k :: pending) c c' ∧ c'.Ready p k s members r)
      (fun c' => Advances p ok (k :: pending) c c' ∧ ¬ ok k) := by
  split
  · rename_i hu
    exact flattenUnion_meets hok hrec hin hname hs hb hu
  · rename_i hu
    exact flattenStruct_meets hok hrec hin hname hs hb (by simpa using hu)

theorem flatten_keep_meets {record : Nat → Cataloguing Nat} (hok : Flattenable p ok)
    (hrec : Records p ok pending k record) {c : Catalog}
    (hin : InProgress p ok (k :: pending) c) {s : StructType} {members : List Nat} {name : String}
    (hname : p.types.text k = .ok name) (hs : p.types.struct? k = some s)
    (hb : s.body = some members) (hset : c.Settled s) (hself : c.standIn s k = k)
    (hk : k ∉ pending) :
    Meets ((if c.treatsAsUnion s then flattenUnion else flattenStruct) p record name k members) c
      (fun r c' => Advances p ok pending c (c'.keep k r) ∧ k ∈ (c'.keep k r).records)
      (fun c' => Advances p ok pending c c' ∧ ¬ ok k) := by
  refine (flatten_meets hok hrec hin hname hs hb).mono ?_ ?_
  · rintro r c' ⟨hadv, hready⟩
    have hgain : c'.Gains (c'.keep k r) k r := keep_gains (hadv.unrecorded k (by simp))
    have hc' := hready.coherent hadv.coherent hgain hs hb (hadv.grows.settled hset)
      ((hadv.grows.standIn hset k).trans hself)
    exact ⟨⟨hgain.inProgress hadv.toInProgress hc' hk, hadv.grows.trans hgain.grows⟩, hgain.mem⟩
  · rintro c' ⟨hadv, hno⟩
    exact ⟨⟨⟨hadv.coherent, fun x hx => hadv.unrecorded x (List.mem_cons_of_mem _ hx),
      hadv.registered.drop (.inr (.inr hno))⟩, hadv.grows⟩, hno⟩

/-- Every flattenable struct being flattened holds `t`, which is then
flattenable too. -/
def Inside (p : Program) (ok : Nat → Prop) (pending : List Nat) (t : Nat) : Prop :=
  ∀ x ∈ pending, ok x → ok t ∧ Relation.TransGen p.types.Part x t

theorem Inside.member (hok : Flattenable p ok) (h : Inside p ok pending k) {s : StructType}
    {m : Nat} (hs : p.types.struct? k = some s) (hm : m ∈ s.members)
    (hst : p.types.isStruct (p.types.stripArrays m) = true) :
    Inside p ok (k :: pending) (p.types.stripArrays m) := by
  have hpart : Relation.TransGen p.types.Part k (p.types.stripArrays m) :=
    .head' (.member hs hm) (p.types.byValue_stripArrays m)
  intro x hx hxok
  rcases List.mem_cons.mp hx with rfl | hx
  · exact ⟨hok.member x s m hxok hs hm hst, hpart⟩
  · obtain ⟨hk, hxk⟩ := h x hx hxok
    exact ⟨hok.member k s m hk hs hm hst, hxk.trans hpart⟩

/-- A text that does not end leaves no state behind, so only texts matter. -/
theorem meets_text {key : Nat} {c : Catalog} {good : String → Catalog → Prop}
    {bad : Catalog → Prop} (h : ∀ name, p.types.text key = .ok name → good name c) :
    Meets (ask (p.types.text key)) c good bad := by
  refine meets_ask h fun e he hgo => ?_
  obtain ⟨rfl, _⟩ := TypeTable.text_eq_error he
  cases hgo

/-- Making sure of a record, case by case: it is there, its struct is being
flattened, it has no body, or its members are flattened. -/
theorem meets_ensure {good : Nat → Catalog → Prop} {bad : Catalog → Prop} {t key : Nat}
    {s : StructType} {c c₁ : Catalog} (hs : p.types.struct? t = some s)
    (hc₁ : c.register s t = c₁) (hkey : c₁.standIn s t = key)
    (hknown : key ∈ c₁.records → good key c₁)
    (hpending : key ∉ c₁.records → key ∈ pending → bad c₁)
    (hmissing : p.types.struct? key = none → bad c₁)
    (hbodiless : ∀ shape name, key ∉ c₁.records → key ∉ pending → p.types.text key = .ok name →
      p.types.struct? key = some shape → shape.body = none → good key
        { c₁ with records := c₁.records.insert key (.bodiless name key) })
    (hflatten : ∀ shape name members, key ∉ c₁.records → key ∉ pending →
      p.types.text key = .ok name → p.types.struct? key = some shape →
      shape.body = some members →
      unseen p.types.size (key :: pending) < unseen p.types.size pending →
      Meets ((if c₁.treatsAsUnion shape then flattenUnion else flattenStruct) p
        (fun m => ensure p (key :: pending) m) name key members) c₁
        (fun r c₂ => good key (c₂.keep key r)) bad) :
    Meets (ensure p pending t) c good bad := by
  subst hc₁ hkey
  rw [ensure, hs]
  simp only [meets_modify_bind, meets_get_bind]
  generalize c.register s t = c₁ at *
  generalize c₁.standIn s t = key at *
  by_cases hrec : key ∈ c₁.records
  · rw [if_pos (Std.TreeMap.contains_iff_mem.mpr hrec)]
    exact hknown hrec
  · rw [if_neg (by simpa using hrec)]
    have htext : Meets (ask (p.types.text key)) c₁
        (fun name c' => p.types.text key = .ok name ∧ c' = c₁) bad :=
      meets_text fun _ hname => ⟨hname, rfl⟩
    by_cases hp : key ∈ pending
    · rw [dif_pos hp]
      refine htext.bind ?_
      rintro name _ ⟨_, rfl⟩
      exact hpending hrec hp
    · rw [dif_neg hp]
      split
      · rename_i shape hget
        have hshape := TypeTable.struct?_of_get? hget
        refine htext.bind ?_
        rintro name _ ⟨hname, rfl⟩
        split
        · rename_i hb
          exact hbodiless shape name hrec hp hname hshape hb
        · rename_i members hb
          have hlt := unseen_cons_lt (TypeTable.lt_size_of_get? hget) hp
          exact (hflatten shape name members hrec hp hname hshape hb hlt).bind fun _ _ h => h
      · rename_i hno
        refine hmissing (Option.eq_none_iff_forall_ne_some.mpr fun shape hshape => ?_)
        exact hno shape (TypeTable.get?_of_struct? hshape)

/-- What is made sure of for any struct is made sure of for the members of one
that all flattenable structs being flattened hold. -/
theorem Inside.records (hok : Flattenable p ok) (h : Inside p ok pending k)
    (hrec : ∀ t c, InProgress p ok (k :: pending) c → Inside p ok (k :: pending) t →
      Meets (ensure p (k :: pending) t) c
        (fun key c' => Advances p ok (k :: pending) c c' ∧ c'.canonical? p t = some key ∧
          key ∈ c'.records)
        (fun c' => Advances p ok (k :: pending) c c' ∧ ¬ ok t)) :
    Records p ok pending k fun m => ensure p (k :: pending) m := by
  intro s m c hs hm hst hin
  exact (hrec _ c hin (h.member hok hs hm hst)).mono (fun _ _ h => h)
    (fun _ h => ⟨h.1, fun hk => h.2 (hok.member k s m hk hs hm hst)⟩)

/-- Making sure of a record: the catalog moves on either way, and a flattenable
struct gets its record. -/
theorem ensure_meets (hok : Flattenable p ok) {t : Nat} {c : Catalog} (hc : c.Coherent p)
    (hun : ∀ x ∈ pending, x ∉ c.records) (hacc : c.Accounts ok (t :: pending))
    (hinside : Inside p ok pending t) :
    Meets (ensure p pending t) c
      (fun key c' => Advances p ok pending c c' ∧ c'.canonical? p t = some key ∧ key ∈ c'.records)
      (fun c' => Advances p ok pending c c' ∧ ¬ ok t) := by
  induction hn : unseen p.types.size pending using Nat.strong_induction_on
    generalizing pending t c with
  | _ n ih =>
    subst hn
    cases hs : p.types.struct? t with
    | none =>
      have hno : ¬ ok t := by
        intro ht
        obtain ⟨s, _, hs', _⟩ := hok.body t ht
        simp [hs] at hs'
      rw [ensure, hs]
      exact ⟨⟨⟨hc, hun, hacc.drop (.inr (.inr hno))⟩, Grows.refl c⟩, hno⟩
    | some s =>
      have hc₁ := register_coherent hc hs
      have hg₁ := register_grows c s t
      have hun₁ : ∀ x ∈ pending, x ∉ (c.register s t).records := by
        rwa [register_records]
      have hacc₁ := accounts_register hok hc hs hacc
      have hself : ok t → (c.register s t).standIn s t = t :=
        fun ht => hok.standIn_eq hc₁.grounded ht hs
      obtain ⟨shape, hshape⟩ := standIn_register_struct hc.grounded hs
      have hstay : ∀ members, shape.body = some members → _ :=
        fun members hb => standIn_register hc.grounded hs hshape hb
      generalize hreg : c.register s t = c₁ at hc₁ hg₁ hun₁ hacc₁ hself hshape hstay
      have hcan : c₁.canonical? p t = some (c₁.standIn s t) :=
        canonical?_eq_some.mpr ⟨s, hs, rfl⟩
      generalize hkey : c₁.standIn s t = key at hacc₁ hself hshape hstay hcan
      have hin₁ : key ∉ c₁.records → InProgress p ok (key :: pending) c₁ :=
        fun hrec => ⟨hc₁, List.forall_mem_cons.mpr ⟨hrec, hun₁⟩, hacc₁⟩
      refine meets_ensure hs hreg hkey ?_ ?_ (fun hnone => by simp [hshape] at hnone) ?_ ?_
      · intro hrec
        exact ⟨⟨⟨hc₁, hun₁, hacc₁.drop (.inl hrec)⟩, hg₁⟩, hcan, hrec⟩
      · intro _ hp
        refine ⟨⟨⟨hc₁, hun₁, hacc₁.drop (.inr (.inl hp))⟩, hg₁⟩, fun ht => ?_⟩
        exact hok.acyclic t ht (hinside t (hself ht ▸ hp) ht).2
      · intro shape' name hrec hp hname hshape' hb
        have hgain : c₁.Gains { c₁ with records := c₁.records.insert key (.bodiless name key) }
            key (.bodiless name key) := ⟨rfl, rfl, rfl, hrec⟩
        have hc₂ := bodiless_coherent hc₁ hgain hname hshape' hb
        exact ⟨⟨hgain.inProgress (hin₁ hrec) hc₂ hp, hg₁.trans hgain.grows⟩, hcan, hgain.mem⟩
      · intro shape' name members hrec hp hname hshape' hb hlt
        obtain rfl := Option.some.inj (hshape.symm.trans hshape')
        obtain ⟨hsets, hset, hstand⟩ := hstay members hb
        have hkeyIn : Inside p ok pending key := by
          intro x hx hxok
          obtain ⟨ht, hxt⟩ := hinside x hx hxok
          rw [hself ht]
          exact ⟨ht, hxt⟩
        have hmembers := hkeyIn.records hok fun u c₂ hin₂ hu => ih _ hlt hin₂.coherent
          hin₂.unrecorded (fun n v hn hv => (hin₂.registered n v hn hv).imp id
            (List.mem_cons_of_mem _)) hu rfl
        refine (flatten_keep_meets hok hmembers (hin₁ hrec) hname hshape hb hset hstand
          hp).mono ?_ ?_
        · rintro r c₂ ⟨hadv, hmem⟩
          refine ⟨⟨hadv.toInProgress, hg₁.trans hadv.grows⟩, ?_, hmem⟩
          exact canonical?_eq_some.mpr ⟨s, hs, (hadv.grows.standIn hsets t).trans hkey⟩
        · rintro c₂ ⟨hadv, hno⟩
          exact ⟨⟨hadv.toInProgress, hg₁.trans hadv.grows⟩,
            fun ht => hno ((hself ht).symm ▸ ht)⟩

end Catalog

end AbstractMemory
