import AbstractMemory.Proofs.Containment
import AbstractMemory.Proofs.Extents
import AbstractMemory.Proofs.FieldTable
import Mathlib

/-! When a catalog is coherent. Every record has the table that the records of
its members give, and the containers of a record are exactly the places where
recorded structs hold its struct. Both survive every way a catalog grows. -/

namespace AbstractMemory

namespace Catalog

/-- A struct of this shape keeps its stand-in: it has no name, or its scope
name is taken. -/
def Settled (c : Catalog) (s : StructType) : Prop :=
  ∀ name, s.name = some name → scopeName name ∈ c.scopes

/-- Nothing recorded is lost. Only containers are added to a record. -/
structure Grows (c c' : Catalog) : Prop where
  unionName : c'.unionName = c.unionName
  scopes : ∀ (n : String) (t : Nat), c.scopes[n]? = some t → c'.scopes[n]? = some t
  records : ∀ (k : Nat) (r : FieldRecord), c.records[k]? = some r →
    ∃ cs, c'.records[k]? = some { r with containers := cs } ∧ r.containers ⊆ cs

theorem Grows.refl (c : Catalog) : c.Grows c :=
  ⟨rfl, fun _ _ h => h, fun _ r h => ⟨r.containers, h, List.Subset.refl _⟩⟩

theorem Grows.trans {c c' c'' : Catalog} (h : c.Grows c') (h' : c'.Grows c'') : c.Grows c'' := by
  refine ⟨h'.unionName.trans h.unionName, fun n t hn => h'.scopes n t (h.scopes n t hn), ?_⟩
  intro k r hk
  obtain ⟨cs, hc, hsub⟩ := h.records k r hk
  obtain ⟨cs', hc', hsub'⟩ := h'.records k _ hc
  exact ⟨cs', hc', fun e he => hsub' (hsub he)⟩

theorem mem_records_iff {c : Catalog} {k : Nat} :
    k ∈ c.records ↔ ∃ r, c.records[k]? = some r := by
  rw [← Option.isSome_iff_exists, Std.TreeMap.isSome_getElem?_iff_mem]

theorem Grows.mem {c c' : Catalog} (h : c.Grows c') {k : Nat} (hk : k ∈ c.records) :
    k ∈ c'.records := by
  obtain ⟨r, hr⟩ := mem_records_iff.mp hk
  obtain ⟨cs, hc, _⟩ := h.records k r hr
  exact mem_records_iff.mpr ⟨_, hc⟩

theorem Grows.edge {c c' : Catalog} (h : c.Grows c') {a b o : Nat} (he : c.Edge a b o) :
    c'.Edge a b o := by
  obtain ⟨r, hr, hm⟩ := he
  obtain ⟨cs, hc, hsub⟩ := h.records b r hr
  exact ⟨_, hc, hsub hm⟩

theorem Grows.settled {c c' : Catalog} (h : c.Grows c') {s : StructType} (hs : c.Settled s) :
    c'.Settled s := by
  intro name hn
  have hm := hs name hn
  rw [← Std.TreeMap.isSome_getElem?_iff_mem, Option.isSome_iff_exists] at hm ⊢
  obtain ⟨t, ht⟩ := hm
  exact ⟨t, h.scopes _ _ ht⟩

theorem Grows.standIn {c c' : Catalog} (h : c.Grows c') {s : StructType} (hs : c.Settled s)
    (t : Nat) : c'.standIn s t = c.standIn s t := by
  cases hn : s.name with
  | none => simp [Catalog.standIn, hn]
  | some name =>
    have hm := hs name hn
    rw [← Std.TreeMap.isSome_getElem?_iff_mem, Option.isSome_iff_exists] at hm
    obtain ⟨u, hu⟩ := hm
    simp [Catalog.standIn, hn, hu, h.scopes _ _ hu]

theorem Grows.treatsAsUnion {c c' : Catalog} (h : c.Grows c') (s : StructType) :
    c'.treatsAsUnion s = c.treatsAsUnion s := by
  unfold Catalog.treatsAsUnion
  rw [h.unionName]

theorem Grows.isUnion {c c' : Catalog} (h : c.Grows c') (p : Program) (t : Nat) :
    c'.isUnion p t = c.isUnion p t := by
  simp only [Catalog.isUnion, funext h.treatsAsUnion]

theorem Grows.memberOffset? {c c' : Catalog} (h : c.Grows c') (p : Program) (t i : Nat) :
    c'.memberOffset? p t i = c.memberOffset? p t i := by
  simp only [Catalog.memberOffset?, h.isUnion]

theorem Grows.memberAt {c c' : Catalog} (h : c.Grows c') {p : Program} {t m offset : Nat} :
    c'.MemberAt p t m offset ↔ c.MemberAt p t m offset := by
  simp only [Catalog.MemberAt, h.memberOffset?]

theorem Grows.tableOver {c c' : Catalog} (h : c.Grows c') (p : Program) (t : Nat)
    (s : StructType) (members : List Nat) (parts : List (List Field)) :
    c'.tableOver p t s members parts = c.tableOver p t s members parts := by
  simp only [Catalog.tableOver, h.treatsAsUnion]

/-- The fields of a member, by the record of its struct if it is one. -/
def partOf (c : Catalog) (p : Program) (m : Nat) : List Field :=
  match c.canonical? p (p.types.stripArrays m) with
  | none => [p.leafField m]
  | some sub => c.records[sub]?.elim [] FieldRecord.fields

/-- A member that is a struct has a record with a body, under a stand-in that
stays. -/
def HasPart (c : Catalog) (p : Program) (m : Nat) : Prop :=
  ∀ s, p.types.struct? (p.types.stripArrays m) = some s → c.Settled s ∧
    ∃ r, c.records[c.standIn s (p.types.stripArrays m)]? = some r ∧ r.isOpaque = false

theorem HasPart.of_stripArrays {c : Catalog} {p : Program} {m m' : Nat} (h : c.HasPart p m)
    (hst : p.types.stripArrays m = p.types.stripArrays m') : c.HasPart p m' := by
  unfold HasPart at h ⊢
  rwa [hst] at h

theorem Grows.hasPart {c c' : Catalog} (h : c.Grows c') {p : Program} {m : Nat}
    (hm : c.HasPart p m) : c'.HasPart p m := by
  intro s hs
  obtain ⟨hset, r, hr, ho⟩ := hm s hs
  obtain ⟨cs, hc, _⟩ := h.records _ _ hr
  rw [h.standIn hset]
  exact ⟨h.settled hset, _, hc, ho⟩

theorem Grows.partOf {c c' : Catalog} (h : c.Grows c') {p : Program} {m : Nat}
    (hm : c.HasPart p m) : c'.partOf p m = c.partOf p m := by
  cases hs : p.types.struct? (p.types.stripArrays m) with
  | none => simp [Catalog.partOf, Catalog.canonical?, hs]
  | some s =>
    obtain ⟨hset, r, hr, _⟩ := hm s hs
    obtain ⟨cs, hc, _⟩ := h.records _ _ hr
    simp [Catalog.partOf, Catalog.canonical?, hs, h.standIn hset, hr, hc]

/-- The fields of the members of a struct have offsets in it that fit. -/
def FieldsFit (c : Catalog) (p : Program) (k : Nat) (s : StructType) (members : List Nat) : Prop :=
  c.treatsAsUnion s = false → ∀ i m o, members[i]? = some m → c.memberOffset? p k i = some o →
    ∀ f ∈ c.partOf p m, o + f.offset ≤ maxByteCount

/-- The record of a struct with a body has the table its members give. -/
structure Tabulates (c : Catalog) (p : Program) (k : Nat) (s : StructType) (members : List Nat)
    (r : FieldRecord) : Prop where
  settled : c.Settled s
  standIn : c.standIn s k = k
  isUnion : r.isUnion = c.treatsAsUnion s
  parts : ∀ m ∈ members, c.HasPart p m
  table : c.tableOver p k s members (members.map (c.partOf p)) = some r.table
  measured : ∃ size, p.dataLayout.size? p.types k = .ok size
  fits : p.dataLayout.overflow = .stops → c.FieldsFit p k s members

/-- A record is about the struct it is kept under. -/
structure Describes (c : Catalog) (p : Program) (k : Nat) (r : FieldRecord) : Prop where
  isFinal : r.isFinal = true
  name : p.types.text k = .ok r.name
  type : r.type = k
  faultless : r.fault? = none
  shape : ∃ s, p.types.struct? k = some s ∧ r.isOpaque = s.body.isNone ∧
    (s.body = none → r.fields = []) ∧
    ∀ members, s.body = some members → c.Tabulates p k s members r

theorem Grows.tabulates {c c' : Catalog} (h : c.Grows c') {p : Program} {k : Nat}
    {s : StructType} {members : List Nat} {r : FieldRecord} {cs : List (Nat × Nat)}
    (ht : c.Tabulates p k s members r) :
    c'.Tabulates p k s members { r with containers := cs } where
  settled := h.settled ht.settled
  standIn := (h.standIn ht.settled k).trans ht.standIn
  isUnion := ht.isUnion.trans (h.treatsAsUnion s).symm
  parts := fun m hm => h.hasPart (ht.parts m hm)
  table := by
    have hparts : members.map (c'.partOf p) = members.map (c.partOf p) :=
      List.map_congr_left fun m hm => h.partOf (ht.parts m hm)
    rw [hparts, h.tableOver]
    exact ht.table
  measured := ht.measured
  fits := by
    intro hstops hu i m o hm ho
    rw [h.treatsAsUnion] at hu
    rw [h.memberOffset?] at ho
    rw [h.partOf (ht.parts m (List.mem_of_getElem? hm))]
    exact ht.fits hstops hu i m o hm ho

theorem Grows.describes {c c' : Catalog} (h : c.Grows c') {p : Program} {k : Nat}
    {r : FieldRecord} {cs : List (Nat × Nat)} (hd : c.Describes p k r) :
    c'.Describes p k { r with containers := cs } where
  isFinal := hd.isFinal
  name := hd.name
  type := hd.type
  faultless := hd.faultless
  shape := by
    obtain ⟨s, hs, ho, hf, ht⟩ := hd.shape
    exact ⟨s, hs, ho, hf, fun members hb => h.tabulates (ht members hb)⟩

/-- A scope name belongs to a struct of that scope name with a body. -/
def ScopeOf (p : Program) (n : String) (t : Nat) : Prop :=
  ∃ s name, p.types.struct? t = some s ∧ s.name = some name ∧ scopeName name = n ∧ s.body.isSome

/-- Every record rests on the records of its members, and no record on itself. -/
structure Grounded (c : Catalog) (p : Program) : Prop where
  scope : ∀ (n : String) (t : Nat), c.scopes[n]? = some t → ScopeOf p n t
  record : ∀ (k : Nat) (r : FieldRecord), c.records[k]? = some r → c.Describes p k r
  ranked : ∃ rank : Nat → Nat, ∀ a b, a ∈ c.records → c.Has p a b → rank b < rank a

theorem Grounded.exists_body {c : Catalog} {p : Program} (hc : c.Grounded p) {k : Nat}
    {s : StructType} {r : FieldRecord} (hs : p.types.struct? k = some s)
    (hr : c.records[k]? = some r) (ho : r.isOpaque = false) : ∃ members, s.body = some members := by
  obtain ⟨s', hs', hbody, _⟩ := (hc.record k r hr).shape
  obtain rfl : s = s' := Option.some.inj (hs.symm.trans hs')
  rw [ho] at hbody
  exact Option.isSome_iff_exists.mp (by simpa using hbody.symm)

theorem Grounded.tabulates {c : Catalog} {p : Program} (hc : c.Grounded p) {k : Nat}
    {s : StructType} {r : FieldRecord} (hs : p.types.struct? k = some s)
    (hr : c.records[k]? = some r) (ho : r.isOpaque = false) :
    c.Tabulates p k s s.members r := by
  obtain ⟨members, hb⟩ := hc.exists_body hs hr ho
  obtain ⟨s', hs', _, _, htab⟩ := (hc.record k r hr).shape
  obtain rfl : s = s' := Option.some.inj (hs.symm.trans hs')
  simpa [StructType.members, hb] using htab members hb

theorem Grounded.settled {c : Catalog} {p : Program} (hc : c.Grounded p) {t : Nat}
    {s : StructType} {r : FieldRecord} (hs : p.types.struct? t = some s)
    (hr : c.records[c.standIn s t]? = some r) (ho : r.isOpaque = false) : c.Settled s := by
  intro name hn
  by_contra hfree
  have hnone : c.scopes[scopeName name]? = none := by
    rwa [← Std.TreeMap.isSome_getElem?_iff_mem, Option.not_isSome_iff_eq_none] at hfree
  -- an unregistered struct stands for itself, but its own record would have registered it
  have hself : c.standIn s t = t := by simp [Catalog.standIn, hn, hnone]
  rw [hself] at hr
  exact hfree ((hc.tabulates hs hr ho).settled name hn)

theorem Grounded.standIn_eq {c : Catalog} {p : Program} (hc : c.Grounded p) {t : Nat}
    {s : StructType} (h : ∀ name u, s.name = some name → ScopeOf p (scopeName name) u → u = t) :
    c.standIn s t = t := by
  cases hn : s.name with
  | none => simp [Catalog.standIn, hn]
  | some name =>
    cases hu : c.scopes[scopeName name]? with
    | none => simp [Catalog.standIn, hn, hu]
    | some u =>
      have he := h name u hn (hc.scope _ _ hu)
      simp [Catalog.standIn, hn, hu, he]

theorem Grounded.hasPart {c : Catalog} {p : Program} (hc : c.Grounded p) {k m : Nat}
    {s : StructType} (hk : k ∈ c.records) (hs : p.types.struct? k = some s)
    (hm : m ∈ s.members) : c.HasPart p m := by
  obtain ⟨r, hr⟩ := mem_records_iff.mp hk
  obtain ⟨s', hs', _, _, htab⟩ := (hc.record k r hr).shape
  obtain rfl : s' = s := Option.some.inj (hs'.symm.trans hs)
  cases hb : s'.body with
  | none => simp [StructType.members, hb] at hm
  | some members => exact (htab members hb).parts m (by simpa [StructType.members, hb] using hm)

/-- What a record with a body is held in. -/
def HoldsRecorded (c : Catalog) (p : Program) (outer inner offset : Nat) : Prop :=
  c.Holds p outer inner offset ∧ ∃ r, c.records[inner]? = some r ∧ r.isOpaque = false

theorem Grows.holdsRecorded {c c' : Catalog} {p : Program} (h : c.Grows c') (hc : c.Grounded p)
    {a b o : Nat} (hh : c.HoldsRecorded p a b o) : c'.HoldsRecorded p a b o := by
  obtain ⟨⟨m, hm, hcan⟩, r, hr, ho⟩ := hh
  obtain ⟨s', hs', rfl⟩ := canonical?_eq_some.mp hcan
  have hset := hc.settled hs' hr ho
  obtain ⟨cs, hr', _⟩ := h.records _ _ hr
  exact ⟨⟨m, h.memberAt.mpr hm, canonical?_eq_some.mpr ⟨s', hs', h.standIn hset _⟩⟩, _, hr', ho⟩

theorem Grows.has_of_mem {c c' : Catalog} {p : Program} (h : c.Grows c') (hc : c.Grounded p)
    {a b : Nat} (ha : a ∈ c.records) (hh : c'.Has p a b) : c.Has p a b ∧ b ∈ c.records := by
  obtain ⟨s, m, hs, hm, hcan⟩ := hh
  obtain ⟨s', hs', rfl⟩ := canonical?_eq_some.mp hcan
  obtain ⟨hset, r, hr, _⟩ := hc.hasPart ha hs hm s' hs'
  rw [h.standIn hset]
  exact ⟨⟨s, m, hs, hm, canonical?_eq_some.mpr ⟨s', hs', rfl⟩⟩, mem_records_iff.mpr ⟨r, hr⟩⟩

theorem Grows.holds_of_mem {c c' : Catalog} {p : Program} (h : c.Grows c') (hc : c.Grounded p)
    {a b o : Nat} (ha : a ∈ c.records) (hh : c'.Holds p a b o) : c.HoldsRecorded p a b o := by
  obtain ⟨m, hm, hcan⟩ := hh
  obtain ⟨s', hs', rfl⟩ := canonical?_eq_some.mp hcan
  have hm' := h.memberAt.mp hm
  obtain ⟨s, i, hs, hi, _⟩ := hm
  obtain ⟨hset, r, hr, ho⟩ := hc.hasPart ha hs (List.mem_of_getElem? hi) s' hs'
  rw [h.standIn hset]
  exact ⟨⟨m, hm', canonical?_eq_some.mpr ⟨s', hs', rfl⟩⟩, r, hr, ho⟩

theorem Grows.chain_of_mem {c c' : Catalog} {p : Program} (h : c.Grows c') (hc : c.Grounded p)
    {a b o : Nat} (ha : a ∈ c.records) (hh : Chain (c'.Holds p) a b o) :
    Chain (c.HoldsRecorded p) a b o := by
  induction hh with
  | nil a => exact .nil a
  | cons hs _ ih =>
    have hs' := h.holds_of_mem hc ha hs
    obtain ⟨r, hr, _⟩ := hs'.2
    exact .cons hs' (ih (mem_records_iff.mpr ⟨r, hr⟩))

theorem Grows.embedded_of_mem {c c' : Catalog} {p : Program} (h : c.Grows c') (hc : c.Grounded p)
    {a b o : Nat} (ha : a ∈ c.records) (he : Embedded (c'.Holds p) a b o) :
    Embedded (c.HoldsRecorded p) a b o := by
  obtain ⟨m, first, rest, hm, hr, rfl⟩ := he
  have hm' := h.holds_of_mem hc ha hm
  obtain ⟨r, hrec, _⟩ := hm'.2
  exact ⟨m, first, rest, hm', h.chain_of_mem hc (mem_records_iff.mpr ⟨r, hrec⟩) hr, rfl⟩

/-- Ranks can be chosen so that structs without a record are above all others. -/
theorem Grounded.exists_rank {c : Catalog} {p : Program} (hc : c.Grounded p) :
    ∃ rank : Nat → Nat, (∀ a b, a ∈ c.records → c.Has p a b → rank b < rank a) ∧
      ∀ a b, a ∈ c.records → b ∉ c.records → rank a < rank b := by
  classical
  obtain ⟨rank, hrank⟩ := hc.ranked
  refine ⟨fun k => if k ∈ c.records then rank k else (c.records.keys.map rank).sum + 1, ?_, ?_⟩
  · intro a b ha hab
    have hb := ((Grows.refl c).has_of_mem hc ha hab).2
    simpa [ha, hb] using hrank a b ha hab
  · intro a b ha hb
    have hm : rank a ∈ c.records.keys.map rank :=
      List.mem_map_of_mem (Std.TreeMap.mem_keys.mpr ha)
    have hle := List.le_sum_of_mem hm
    simp only [ha, hb, if_true, if_false]
    omega

/-- A grounded catalog stays grounded when each new scope name and each new
record is in order, and new records rest on old ones. -/
theorem Grounded.of_grows {c c' : Catalog} {p : Program} (hc : c.Grounded p) (h : c.Grows c')
    (hscope : ∀ (n : String) (t : Nat), c'.scopes[n]? = some t →
      c.scopes[n]? = some t ∨ ScopeOf p n t)
    (hrecord : ∀ (k : Nat) (r : FieldRecord), c'.records[k]? = some r →
      k ∈ c.records ∨ c'.Describes p k r)
    (hrest : ∀ k ∈ c'.records, k ∉ c.records → ∀ b, c'.Has p k b → b ∈ c.records) :
    c'.Grounded p where
  scope := fun n t hn => (hscope n t hn).elim (hc.scope n t) id
  record := by
    intro k r hk
    refine (hrecord k r hk).elim ?_ id
    intro hm
    obtain ⟨r₀, hr₀⟩ := mem_records_iff.mp hm
    obtain ⟨cs, hr', _⟩ := h.records k r₀ hr₀
    obtain rfl := Option.some.inj (hk.symm.trans hr')
    exact h.describes (hc.record k r₀ hr₀)
  ranked := by
    obtain ⟨rank, hrank, habove⟩ := hc.exists_rank
    refine ⟨rank, ?_⟩
    intro a b ha hab
    by_cases hold : a ∈ c.records
    · exact hrank a b hold (h.has_of_mem hc hold hab).1
    · exact habove b a (hrest a ha hold b hab) hold

/-- The containers of the records are exactly where recorded structs hold them. -/
structure Linked (c : Catalog) (p : Program) : Prop where
  sound : ∀ a b o, c.Edge a b o → EmbeddedAt p.dataLayout.overflow (c.HoldsRecorded p) a b o
  complete : ∀ a b sum, a ∈ c.records → Embedded (c.Holds p) a b sum →
    ∃ o, p.dataLayout.overflow.count sum = .ok o ∧ c.Edge a b o

theorem Linked.of_grows {c c' : Catalog} {p : Program} (hl : c.Linked p) (hc : c.Grounded p)
    (h : c.Grows c')
    (hnew : ∀ a b o, c'.Edge a b o →
      c.Edge a b o ∨ EmbeddedAt p.dataLayout.overflow (c'.HoldsRecorded p) a b o)
    (hkey : ∀ a ∈ c'.records, a ∉ c.records → ∀ b sum, Embedded (c'.Holds p) a b sum →
      ∃ o, p.dataLayout.overflow.count sum = .ok o ∧ c'.Edge a b o) :
    c'.Linked p where
  sound := by
    intro a b o he
    refine (hnew a b o he).elim ?_ id
    intro hold
    exact (hl.sound a b o hold).mono fun _ _ _ hh => h.holdsRecorded hc hh
  complete := by
    intro a b sum ha he
    by_cases hold : a ∈ c.records
    · obtain ⟨o, ho, hedge⟩ := hl.complete a b sum hold
        ((h.embedded_of_mem hc hold he).mono fun _ _ _ hh => hh.1)
      exact ⟨o, ho, h.edge hedge⟩
    · exact hkey a ha hold b sum he

structure Coherent (c : Catalog) (p : Program) : Prop where
  grounded : c.Grounded p
  linked : c.Linked p

end Catalog

end AbstractMemory
