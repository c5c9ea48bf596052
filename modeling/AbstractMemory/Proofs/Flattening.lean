import AbstractMemory.Proofs.ByValue
import AbstractMemory.Proofs.Registration
import AbstractMemory.Proofs.Steps
import AbstractMemory.Proofs.Tables
import AbstractMemory.Record.Flatten
import Mathlib

/-! What flattening a struct may rely on and has to leave behind. The catalog
stays coherent member by member, also when the struct turns out to have no
record. -/

namespace AbstractMemory

open Steps

def ProgramError.halts : ProgramError → Bool
  | .halted _ => true
  | _ => false

def RecordError.halts : RecordError → Bool
  | .program e => e.halts
  | _ => false

instance : Halting RecordError :=
  ⟨RecordError.halts⟩

theorem mem_foldl_insertPair {α : Type} {g : α → Nat × Nat} {x : Nat × Nat} {l : List α}
    {pairs : List (Nat × Nat)} :
    x ∈ l.foldl (fun pairs a => insertPair (g a) pairs) pairs ↔ x ∈ pairs ∨ ∃ a ∈ l, x = g a := by
  induction l generalizing pairs with
  | nil => simp
  | cons a rest ih =>
    simp only [List.foldl_cons, ih, mem_insertPair, List.mem_cons, exists_eq_or_imp]
    tauto

theorem FieldRecord.fault?_eq_none {r : FieldRecord} :
    r.fault? = none ↔ (∀ pair ∈ r.elementTypes, pair.1 < r.fieldCount) ∧
      (0 < r.fieldCount → ∀ f ∈ r.memberFields, f < r.fieldCount) := by
  unfold FieldRecord.fault?
  split
  · rename_i field t hf
    have hm := List.mem_of_find?_eq_some hf
    have hle := List.find?_some hf
    simp only [decide_eq_true_eq] at hle
    simp only [reduceCtorEq, false_iff, not_and]
    intro hlt
    have := hlt _ hm
    omega
  · rename_i hf
    simp only [List.find?_eq_none, decide_eq_true_eq, Nat.not_le] at hf
    simp only [Option.map_eq_none_iff, List.find?_eq_none, decide_eq_true_eq]
    constructor
    · intro h
      exact ⟨hf, fun hpos f hmem => by have := h f hmem; omega⟩
    · rintro ⟨_, h⟩ f hmem ⟨hpos, hle⟩
      have := h hpos f hmem
      omega

namespace Catalog

theorem meets_ask {α : Type} {answer : Except ProgramError α} {c : Catalog}
    {good : α → Catalog → Prop} {bad : Catalog → Prop} (hok : ∀ a, answer = .ok a → good a c)
    (herr : ∀ e, answer = .error e → e.halts = false → bad c) :
    Meets (ask answer) c good bad := by
  cases answer with
  | ok a => exact hok a rfl
  | error e => exact meets_of_error rfl fun he => herr e rfl he

theorem meets_finish {r : FieldRecord} {size : Nat} {c : Catalog}
    {good : FieldRecord → Catalog → Prop} {bad : Catalog → Prop}
    (hok : r.fault? = none → good { r with size := size, isFinal := true } c)
    (herr : r.fault? ≠ none → bad c) : Meets (finish r size) c good bad := by
  unfold finish FieldRecord.finish
  cases hf : r.fault? with
  | none => exact hok hf
  | some fault => exact herr (by simp [hf])

theorem meets_sizeOrZero {p : Program} {t : Nat} {c : Catalog} {good : Nat → Catalog → Prop}
    {bad : Catalog → Prop}
    (hok : ∀ n, p.dataLayout.size? p.types t = .ok n → good (p.byteCount t) c)
    (herr : ∀ e, p.dataLayout.size? p.types t = .error e → e.halts = false → bad c) :
    Meets (sizeOrZero p t) c good bad := by
  have hask : Meets (ask (p.dataLayout.size? p.types t)) c
      (fun n c' => p.dataLayout.size? p.types t = .ok n ∧ c' = c) bad :=
    meets_ask (fun n hn => ⟨hn, rfl⟩) herr
  refine hask.bind ?_
  rintro n c' ⟨hn, rfl⟩
  have hcount : n.getD 0 = p.byteCount t := by
    unfold Program.byteCount
    rw [hn]
    cases n <;> rfl
  rw [hcount]
  exact hok n hn

theorem meets_embedMember {p : Program} {outer inner offset : Nat} {c : Catalog}
    {good : Unit → Catalog → Prop} {bad : Catalog → Prop}
    (hok : ∀ c', embed p outer [] inner offset c = .ok c' → good () c')
    (herr : ∀ e, embed p outer [] inner offset c = .error e → e.halts = false → bad c) :
    Meets (embedMember p outer inner offset) c good bad := by
  unfold embedMember
  rw [meets_get_bind]
  have hask : Meets (ask (embed p outer [] inner offset c)) c
      (fun c' c₁ => embed p outer [] inner offset c = .ok c' ∧ c₁ = c) bad :=
    meets_ask (fun c' h => ⟨h, rfl⟩) herr
  refine hask.bind ?_
  rintro c' _ ⟨h, rfl⟩
  exact hok c' h

/-- Structs that always get a record, and whose members that are structs are
of the same kind. -/
structure Flattenable (p : Program) (ok : Nat → Prop) : Prop where
  body : ∀ t, ok t → ∃ s members, p.types.struct? t = some s ∧ s.body = some members ∧ members ≠ []
  alone : ∀ t s name u, ok t → p.types.struct? t = some s → s.name = some name →
    ScopeOf p (scopeName name) u → u = t
  member : ∀ t s m, ok t → p.types.struct? t = some s → m ∈ s.members →
    p.types.isStruct (p.types.stripArrays m) = true → ok (p.types.stripArrays m)
  layout : ∀ t, ok t → ∃ placed, p.dataLayout.structLayout p.types t = .ok (some placed)
  acyclic : ∀ t, ok t → ¬ Relation.TransGen p.types.Part t t

/-- What is registered and can be flattened has a record, or is one of `keys`. -/
def Accounts (c : Catalog) (ok : Nat → Prop) (keys : List Nat) : Prop :=
  ∀ (n : String) (t : Nat), c.scopes[n]? = some t → ok t → t ∈ c.records ∨ t ∈ keys

/-- The catalog while the structs of `pending` are flattened. -/
structure InProgress (p : Program) (ok : Nat → Prop) (pending : List Nat) (c : Catalog) :
    Prop where
  coherent : c.Coherent p
  unrecorded : ∀ k ∈ pending, k ∉ c.records
  registered : c.Accounts ok pending

structure Advances (p : Program) (ok : Nat → Prop) (pending : List Nat) (c c' : Catalog) : Prop
    extends InProgress p ok pending c' where
  grows : c.Grows c'

variable {p : Program} {ok : Nat → Prop} {pending : List Nat} {k : Nat}
  {record : Nat → Cataloguing Nat}

theorem InProgress.advances {c : Catalog} (h : InProgress p ok pending c) :
    Advances p ok pending c c :=
  ⟨h, Grows.refl c⟩

theorem Advances.trans {c c' c'' : Catalog} (h : Advances p ok pending c c')
    (h' : Advances p ok pending c' c'') : Advances p ok pending c c'' :=
  ⟨h'.toInProgress, h.grows.trans h'.grows⟩

theorem Relinks.advances {c c' : Catalog} (h : c.Relinks c') (hc : c'.Coherent p)
    (hin : InProgress p ok pending c) : Advances p ok pending c c' where
  coherent := hc
  unrecorded := fun x hx hm => hin.unrecorded x hx (h.mem_of_mem x hm)
  registered := by
    intro n t hn ht
    rw [h.scopes_eq] at hn
    exact (hin.registered n t hn ht).imp h.toGrows.mem id
  grows := h.toGrows

theorem Flattenable.standIn_eq (hok : Flattenable p ok) {c : Catalog} (hc : c.Grounded p) {t : Nat}
    {s : StructType} (ht : ok t) (hs : p.types.struct? t = some s) : c.standIn s t = t :=
  hc.standIn_eq fun name u => hok.alone t s name u ht hs

theorem tableOver_ne_nil {c : Catalog} {s : StructType} {members : List Nat} {table : FieldTable}
    (hs : p.types.struct? k = some s) (hb : s.body = some members) (hne : members ≠ [])
    (hparts : ∀ m ∈ members, c.partOf p m ≠ [])
    (h : c.tableOver p k s members (members.map (c.partOf p)) = some table) :
    table.fields ≠ [] := by
  unfold tableOver at h
  split at h
  · obtain rfl := Option.some.inj h
    simp [hne, FieldTable.overlaid]
  · split at h
    · rename_i placed hlayout
      obtain rfl := Option.some.inj h
      have hlen := DataLayout.length_of_structLayout hs hlayout
      obtain ⟨m, rest, rfl⟩ := List.exists_cons_of_ne_nil hne
      obtain ⟨o, offsets, ho⟩ : ∃ o offsets, placed.offsets = o :: offsets :=
        List.exists_cons_of_length_pos (by simp [hlen, StructType.members, hb])
      simp [FieldTable.sequential, ho, hparts m (by simp)]
    · cases h

theorem partOf_ne_nil {c : Catalog} {m : Nat} (hm : c.HasPart p m)
    (h : ∀ (s : StructType) (r : FieldRecord), p.types.struct? (p.types.stripArrays m) = some s →
      c.records[c.standIn s (p.types.stripArrays m)]? = some r → r.fields ≠ []) :
    c.partOf p m ≠ [] := by
  cases hs : p.types.struct? (p.types.stripArrays m) with
  | none => simp [partOf, canonical?, hs]
  | some s =>
    obtain ⟨_, r, hr, _⟩ := hm s hs
    simpa [partOf, canonical?, hs, hr] using h s r hs hr

theorem Flattenable.fields_ne_nil (hok : Flattenable p ok) {c : Catalog} (hc : c.Grounded p)
    {r : FieldRecord} (hk : ok k) (hr : c.records[k]? = some r) : r.fields ≠ [] := by
  obtain ⟨rank, hrank⟩ := hc.ranked
  induction hn : rank k using Nat.strong_induction_on generalizing k r with
  | _ n ih =>
    subst hn
    obtain ⟨s, members, hs, hb, hne⟩ := hok.body k hk
    obtain ⟨s', hs', _, _, htab⟩ := (hc.record k r hr).shape
    obtain rfl : s = s' := Option.some.inj (hs.symm.trans hs')
    refine tableOver_ne_nil hs hb hne ?_ (htab members hb).table
    intro m hm
    refine partOf_ne_nil ((htab members hb).parts m hm) ?_
    intro sub r' hsub hr'
    have hm' : m ∈ s.members := by simpa [StructType.members, hb] using hm
    have hkm := hok.member k s m hk hs hm' (by simp [TypeTable.isStruct, hsub])
    have hself := hok.standIn_eq hc hkm hsub
    rw [hself] at hr'
    refine ih _ (hrank k _ (mem_records_iff.mpr ⟨r, hr⟩) ?_) hkm hr' rfl
    exact ⟨s, m, hs, hm', canonical?_eq_some.mpr ⟨sub, hsub, hself⟩⟩

theorem Flattenable.partOf_ne_nil (hok : Flattenable p ok) {c : Catalog} (hc : c.Grounded p)
    {s : StructType} {m : Nat} (hk : ok k) (hs : p.types.struct? k = some s) (hm : m ∈ s.members)
    (hpart : c.HasPart p m) : c.partOf p m ≠ [] := by
  refine Catalog.partOf_ne_nil hpart ?_
  intro sub r hsub hr
  have hkm := hok.member k s m hk hs hm (by simp [TypeTable.isStruct, hsub])
  rw [hok.standIn_eq hc hkm hsub] at hr
  exact hok.fields_ne_nil hc hkm hr

/-- A step that makes records for the members of `k` while it is flattened. -/
def Records (p : Program) (ok : Nat → Prop) (pending : List Nat) (k : Nat)
    (record : Nat → Cataloguing Nat) : Prop :=
  ∀ s m c, p.types.struct? k = some s → m ∈ s.members →
    p.types.isStruct (p.types.stripArrays m) = true → InProgress p ok (k :: pending) c →
    Meets (record (p.types.stripArrays m)) c
      (fun key c' => Advances p ok (k :: pending) c c' ∧
        c'.canonical? p (p.types.stripArrays m) = some key ∧ key ∈ c'.records)
      (fun c' => Advances p ok (k :: pending) c c' ∧ ¬ ok k)

theorem member_meets (hok : Flattenable p ok) (hrec : Records p ok pending k record) {c : Catalog}
    (hin : InProgress p ok (k :: pending) c) {s : StructType} {m : Nat}
    (hs : p.types.struct? k = some s) (hm : m ∈ s.members)
    (hst : p.types.isStruct (p.types.stripArrays m) = true) (outer : String) :
    Meets (member record outer (p.types.stripArrays m)) c
      (fun key c' => Advances p ok (k :: pending) c c' ∧
        c'.canonical? p (p.types.stripArrays m) = some key ∧
        ∃ r, c'.records[key]? = some r ∧ r.isOpaque = false)
      (fun c' => Advances p ok (k :: pending) c c' ∧ ¬ ok k) := by
  unfold member
  refine (hrec s m c hs hm hst hin).bind ?_
  rintro key c' ⟨hadv, hcan, hmem⟩
  obtain ⟨r, hr⟩ := mem_records_iff.mp hmem
  simp only [meets_get_bind, hr]
  cases ho : r.isOpaque with
  | false => exact ⟨hadv, hcan, r, hr, ho⟩
  | true =>
    refine ⟨hadv, fun hk => ?_⟩
    -- the member of a flattenable struct stands for itself and has a body
    have ht := hok.member k s m hk hs hm hst
    obtain ⟨s₁, members, hs₁, hb, _⟩ := hok.body _ ht
    obtain ⟨s₂, hs₂, hself⟩ := canonical?_eq_some.mp hcan
    obtain rfl : s₁ = s₂ := Option.some.inj (hs₁.symm.trans hs₂)
    rw [hok.standIn_eq hadv.coherent.grounded ht hs₁] at hself
    subst hself
    obtain ⟨s₂, hs₂, hbodiless, _⟩ := (hadv.coherent.grounded.record _ r hr).shape
    obtain rfl : s₁ = s₂ := Option.some.inj (hs₁.symm.trans hs₂)
    simp [ho, hb] at hbodiless

/-- A member has its fields in the catalog, and the struct around it is known
to hold all that the member holds. -/
def Placed (c : Catalog) (p : Program) (k m offset : Nat) : Prop :=
  c.HasPart p m ∧ ∀ sub, c.canonical? p (p.types.stripArrays m) = some sub →
    c.Covered p k sub offset

theorem Placed.mono {c c' : Catalog} (hc : c.Grounded p) (h : c.Grows c') {m offset : Nat}
    (hp : c.Placed p k m offset) : c'.Placed p k m offset := by
  refine ⟨h.hasPart hp.1, ?_⟩
  intro sub hcan
  obtain ⟨s, hs, rfl⟩ := canonical?_eq_some.mp hcan
  obtain ⟨hset, r, hr, _⟩ := hp.1 s hs
  rw [h.standIn hset]
  exact (hp.2 _ (canonical?_eq_some.mpr ⟨s, hs, rfl⟩)).mono hc h (mem_records_iff.mpr ⟨r, hr⟩)

theorem partOf_of_not_struct {c : Catalog} {m : Nat}
    (h : p.types.isStruct (p.types.stripArrays m) = false) : c.partOf p m = [p.leafField m] := by
  have hn : p.types.struct? (p.types.stripArrays m) = none := by
    simpa [TypeTable.isStruct] using h
  simp [partOf, canonical?, hn]

theorem placed_of_not_struct {c : Catalog} {m offset : Nat}
    (h : p.types.isStruct (p.types.stripArrays m) = false) : c.Placed p k m offset := by
  have hn : p.types.struct? (p.types.stripArrays m) = none := by
    simpa [TypeTable.isStruct] using h
  exact ⟨fun s hs => by simp [hn] at hs, fun sub hcan => by simp [canonical?, hn] at hcan⟩

theorem le_of_memberOffset? {c : Catalog} {i o : Nat} {s : StructType}
    (hs : p.types.struct? k = some s) (h : c.memberOffset? p k i = some o) : o ≤ maxByteCount := by
  unfold memberOffset? at h
  split at h
  · obtain rfl := Option.some.inj h
    exact Nat.zero_le _
  · split at h
    · rename_i placed hlayout
      obtain ⟨_, _, _, hplace⟩ := DataLayout.extents_of_structLayout hs hlayout
      exact StructLayout.le_of_mem_place hplace (List.mem_of_getElem? h)
    · cases h

theorem MemberAt.embeddedAt {c : Catalog} {m sub offset : Nat} {r : FieldRecord}
    (hat : c.MemberAt p k m offset) (hcan : c.canonical? p (p.types.stripArrays m) = some sub)
    (hr : c.records[sub]? = some r) (ho : r.isOpaque = false) :
    EmbeddedAt p.dataLayout.overflow (c.HoldsRecorded p) k sub offset := by
  refine ⟨offset, .of_step ⟨⟨m, hat, hcan⟩, r, hr, ho⟩, Overflow.count_of_le ?_⟩
  obtain ⟨s, i, hs, _, hoffset⟩ := hat
  exact le_of_memberOffset? hs hoffset

/-- A struct member is taken in: it gets a record, and the struct around it is
linked to all that it holds. -/
theorem member_embed_meets (hok : Flattenable p ok) (hrec : Records p ok pending k record)
    {c : Catalog} (hin : InProgress p ok (k :: pending) c) {m offset : Nat}
    (hat : c.MemberAt p k m offset) (hst : p.types.isStruct (p.types.stripArrays m) = true)
    (outer : String) {α : Type} {next : Nat → Cataloguing α} {good : α → Catalog → Prop}
    (hnext : ∀ sub r c', Advances p ok (k :: pending) c c' → c'.Placed p k m offset →
      c'.records[sub]? = some r → c'.partOf p m = r.fields →
      Meets (next sub) c' good (fun c' => Advances p ok (k :: pending) c c' ∧ ¬ ok k)) :
    Meets (member record outer (p.types.stripArrays m) >>= fun sub =>
      embedMember p k sub offset >>= fun _ => next sub) c good
        (fun c' => Advances p ok (k :: pending) c c' ∧ ¬ ok k) := by
  obtain ⟨s₀, i, hs₀, hi, _⟩ := id hat
  refine (member_meets hok hrec hin hs₀ (List.mem_of_getElem? hi) hst outer).bind ?_
  rintro sub c₁ ⟨hadv, hcan, r, hr, ho⟩
  have hat₁ : c₁.MemberAt p k m offset := hadv.grows.memberAt.mpr hat
  have hsub : sub ∈ c₁.records := mem_records_iff.mpr ⟨r, hr⟩
  obtain ⟨rank, hrank⟩ := hadv.coherent.grounded.ranked
  have hpath : ∀ x ∈ ([] : List Nat), rank sub < rank x := by simp
  have hplaces := embed_places hadv.coherent hrank hpath hsub (hat₁.embeddedAt hcan hr ho)
  have hembed : Meets (embedMember p k sub offset) c₁
      (fun _ c₂ => c₂.Coherent p ∧ c₁.Relinks c₂ ∧ c₂.Covered p k sub offset)
      (fun c' => Advances p ok (k :: pending) c c' ∧ ¬ ok k) :=
    meets_embedMember (fun c₂ h => hplaces.ok c₂ h) fun e h he => by
      obtain ⟨_, rfl, _⟩ := hplaces.error e h
      cases he
  refine hembed.bind ?_
  rintro _ c₂ ⟨hc₂, hrel, hcov⟩
  obtain ⟨s, hs, rfl⟩ := canonical?_eq_some.mp hcan
  have hset := hadv.coherent.grounded.settled hs hr ho
  obtain ⟨cs, hr₂, _⟩ := hrel.records _ _ hr
  have hcan₂ : c₂.standIn s (p.types.stripArrays m) = c₁.standIn s (p.types.stripArrays m) :=
    hrel.toGrows.standIn hset _
  refine hnext _ _ c₂ (hadv.trans (hrel.advances hc₂ hadv.toInProgress)) ⟨?_, ?_⟩ hr₂ ?_
  · intro s' hs'
    obtain rfl : s = s' := Option.some.inj (hs.symm.trans hs')
    rw [hcan₂]
    exact ⟨hrel.toGrows.settled hset, _, hr₂, ho⟩
  · intro sub' hcan'
    obtain ⟨s', hs', rfl⟩ := canonical?_eq_some.mp hcan'
    obtain rfl : s = s' := Option.some.inj (hs.symm.trans hs')
    rw [hcan₂]
    exact hcov
  · simp [partOf, canonical?, hs, hcan₂, hr₂]

/-- A finished record of a struct that has none in the catalog yet. -/
structure Ready (c : Catalog) (p : Program) (k : Nat) (s : StructType) (members : List Nat)
    (r : FieldRecord) : Prop where
  isFinal : r.isFinal = true
  name : p.types.text k = .ok r.name
  type : r.type = k
  faultless : r.fault? = none
  isOpaque : r.isOpaque = false
  containers : r.containers = []
  isUnion : r.isUnion = c.treatsAsUnion s
  parts : ∀ m ∈ members, c.HasPart p m
  placed : ∀ m offset, c.MemberAt p k m offset → c.Placed p k m offset
  table : c.tableOver p k s members (members.map (c.partOf p)) = some r.table
  measured : ∃ size, p.dataLayout.size? p.types k = .ok size
  fits : p.dataLayout.overflow = .stops → c.FieldsFit p k s members

end Catalog

end AbstractMemory
