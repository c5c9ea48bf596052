import AbstractMemory.Proofs.Counting
import AbstractMemory.Record.Catalog

/-! By-value containment. A struct holds another if one of its members, or the
element of a member that is an array, is a struct for which the other stands
in. What is held is itself a struct that may hold others. -/

namespace AbstractMemory

/-- Steps one after another, with the sum of their offsets. -/
inductive Chain (step : Nat → Nat → Nat → Prop) : Nat → Nat → Nat → Prop
  | nil (a : Nat) : Chain step a a 0
  | cons {a b d o o' : Nat} (h : step a b o) (rest : Chain step b d o') : Chain step a d (o + o')

/-- At least one step, with the sum of the offsets of all of them. -/
def Embedded (step : Nat → Nat → Nat → Prop) (a d o : Nat) : Prop :=
  ∃ b first rest, step a b first ∧ Chain step b d rest ∧ o = first + rest

/-- At least one step, and the byte count for the sum of the offsets. -/
def EmbeddedAt (overflow : Overflow) (step : Nat → Nat → Nat → Prop) (a d o : Nat) : Prop :=
  ∃ sum, Embedded step a d sum ∧ overflow.count sum = .ok o

theorem Chain.trans {step : Nat → Nat → Nat → Prop} {a b d o o' : Nat}
    (h : Chain step a b o) (h' : Chain step b d o') : Chain step a d (o + o') := by
  induction h with
  | nil => simpa using h'
  | cons hs _ ih => simpa only [Nat.add_assoc] using Chain.cons hs (ih h')

theorem Embedded.append {step : Nat → Nat → Nat → Prop} {a b d o o' : Nat}
    (h : Embedded step a b o) (h' : Chain step b d o') : Embedded step a d (o + o') := by
  obtain ⟨m, first, rest, hm, hr, rfl⟩ := h
  exact ⟨m, first, rest + o', hm, hr.trans h', Nat.add_assoc _ _ _⟩

theorem Embedded.of_step {step : Nat → Nat → Nat → Prop} {a b o : Nat} (h : step a b o) :
    Embedded step a b o :=
  ⟨b, o, 0, h, .nil b, rfl⟩

theorem Embedded.chain {step : Nat → Nat → Nat → Prop} {a b o : Nat}
    (h : Embedded step a b o) : Chain step a b o := by
  obtain ⟨m, first, rest, hm, hr, rfl⟩ := h
  exact .cons hm hr

theorem Chain.mono {step step' : Nat → Nat → Nat → Prop} {a b o : Nat}
    (hstep : ∀ a b o, step a b o → step' a b o) (h : Chain step a b o) : Chain step' a b o := by
  induction h with
  | nil a => exact .nil a
  | cons hs _ ih => exact .cons (hstep _ _ _ hs) ih

theorem Embedded.mono {step step' : Nat → Nat → Nat → Prop} {a b o : Nat}
    (hstep : ∀ a b o, step a b o → step' a b o) (h : Embedded step a b o) :
    Embedded step' a b o := by
  obtain ⟨m, first, rest, hm, hr, rfl⟩ := h
  exact ⟨m, first, rest, hstep _ _ _ hm, hr.mono hstep, rfl⟩

theorem EmbeddedAt.mono {overflow : Overflow} {step step' : Nat → Nat → Nat → Prop} {a b o : Nat}
    (hstep : ∀ a b o, step a b o → step' a b o) (h : EmbeddedAt overflow step a b o) :
    EmbeddedAt overflow step' a b o := by
  obtain ⟨sum, he, ho⟩ := h
  exact ⟨sum, he.mono hstep, ho⟩

/-- Places add up, also where they were counted before. -/
theorem EmbeddedAt.append {overflow : Overflow} {step : Nat → Nat → Nat → Prop} {a b d o o' : Nat}
    (h : EmbeddedAt overflow step a b o) (h' : EmbeddedAt overflow step b d o') :
    ∃ sum, Embedded step a d sum ∧ overflow.count (o' + o) = overflow.count sum := by
  obtain ⟨base, hbase, hcount⟩ := h
  obtain ⟨inside, hinside, hcount'⟩ := h'
  refine ⟨base + inside, hbase.append hinside.chain, ?_⟩
  rw [Overflow.count_add_left hcount', Overflow.count_add_right hcount, Nat.add_comm]

namespace Catalog

/-- Where a member of a struct starts. All members of a union start at zero. -/
def memberOffset? (c : Catalog) (p : Program) (t i : Nat) : Option Nat :=
  if c.isUnion p t then some 0
  else
    match p.dataLayout.structLayout p.types t with
    | .ok (some placed) => placed.offsets[i]?
    | _ => none

/-- A struct has a declared member at an offset. -/
def MemberAt (c : Catalog) (p : Program) (t m offset : Nat) : Prop :=
  ∃ s i, p.types.struct? t = some s ∧ s.members[i]? = some m ∧
    c.memberOffset? p t i = some offset

/-- Some member of `outer` is a struct, or an array of structs, for which
`inner` stands in. -/
def Has (c : Catalog) (p : Program) (outer inner : Nat) : Prop :=
  ∃ s m, p.types.struct? outer = some s ∧ m ∈ s.members ∧
    c.canonical? p (p.types.stripArrays m) = some inner

/-- Such a member starts at an offset. -/
def Holds (c : Catalog) (p : Program) (outer inner offset : Nat) : Prop :=
  ∃ m, c.MemberAt p outer m offset ∧ c.canonical? p (p.types.stripArrays m) = some inner

/-- It is recorded that `outer` holds `inner`, at any depth. -/
def Edge (c : Catalog) (outer inner offset : Nat) : Prop :=
  ∃ r, c.records[inner]? = some r ∧ (outer, offset) ∈ r.containers

theorem Holds.has {c : Catalog} {p : Program} {outer inner offset : Nat}
    (h : c.Holds p outer inner offset) : c.Has p outer inner := by
  obtain ⟨m, ⟨s, i, hs, hm, _⟩, hc⟩ := h
  exact ⟨s, m, hs, List.mem_of_getElem? hm, hc⟩

theorem canonical?_eq_some {c : Catalog} {p : Program} {t k : Nat} :
    c.canonical? p t = some k ↔ ∃ s, p.types.struct? t = some s ∧ c.standIn s t = k := by
  simp [canonical?]

end Catalog

theorem mem_insertPair {a x : Nat × Nat} {l : List (Nat × Nat)} :
    x ∈ insertPair a l ↔ x = a ∨ x ∈ l := by
  induction l with
  | nil => simp [insertPair]
  | cons b rest ih =>
    simp only [insertPair]
    split
    · simp
    · split
      · rename_i hab
        simp [hab]
      · simp only [List.mem_cons, ih]
        tauto

end AbstractMemory
