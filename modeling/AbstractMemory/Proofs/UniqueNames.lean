import AbstractMemory.Proofs.Drafting
import AbstractMemory.Proofs.ScopeNames
import Mathlib

/-! The names of structs. A table gives every struct a name of its own, if need
be with a number appended, and such a number does not show in the scope name. -/

namespace AbstractMemory

namespace TypeTable

variable {types types' : TypeTable} {name unique : String} {t u : Nat}

/-- What a table of types may be asked to do. -/
inductive Operation where
  | void
  | int (bits : Nat)
  | float (bits : Nat)
  | pointerTo (pointee : Nat)
  | arrayOf (element length : Nat)
  | function (result : Nat) (params : List Nat) (variadic : Bool)
  | literalStruct (members : List Nat) (packed : Bool)
  | namedStruct (name : String)
  | setBody (t : Nat) (members : List Nat) (packed : Bool)
  | defineStruct (name : String) (members : List Nat)
  | defineUnion (name : String) (members : List Nat)
deriving DecidableEq, Repr

/-- The type an operation answers with, and the table after it. -/
def perform (types : TypeTable) : Operation → Except ProgramError Nat × TypeTable
  | .void => types.void.map .ok id
  | .int bits => (types.int bits).map .ok id
  | .float bits => (types.float bits).map .ok id
  | .pointerTo pointee => (types.pointerTo pointee).map .ok id
  | .arrayOf element length => (types.arrayOf element length).map .ok id
  | .function result params variadic => (types.function result params variadic).map .ok id
  | .literalStruct members packed => (types.literalStruct members packed).map .ok id
  | .namedStruct name => (types.namedStruct name).map .ok id
  | .setBody t members packed =>
    match types.setBody t members packed with
    | .ok types' => (.ok t, types')
    | .error e => (.error e, types)
  | .defineStruct name members => (types.defineStruct name members).map .ok id
  | .defineUnion name members => (types.defineUnion name members).map .ok id

/-- The table after some operations. -/
def after (types : TypeTable) (operations : List Operation) : TypeTable :=
  operations.foldl (fun types operation => (types.perform operation).2) types

theorem perform_edits (types : TypeTable) (operation : Operation) :
    Relation.ReflTransGen Edit types (types.perform operation).2 := by
  cases operation with
  | namedStruct name => exact .single (.declare name)
  | defineStruct name members => exact .single (.define name members false)
  | defineUnion name members => exact .single (.define name members true)
  | setBody t members packed =>
    simp only [perform]
    cases h : types.setBody t members packed with
    | ok types' => exact .single (.setBody h)
    | error e => exact .refl
  | _ => exact .single (.intern _ rfl)

theorem after_edits (types : TypeTable) (operations : List Operation) :
    Relation.ReflTransGen Edit types (types.after operations) := by
  induction operations generalizing types with
  | nil => exact .refl
  | cons operation rest ih => exact (types.perform_edits operation).trans (ih _)

/-! ### Finding a struct by its name -/

theorem structName?_eq_some : types.structName? t = some name ↔
    ∃ ty, types.get? t = some ty ∧ (ty.struct?.bind StructType.name) = some name := by
  simp [structName?, struct?, Option.bind_assoc, Option.bind_eq_some_iff]

theorem byName?_eq_none : types.byName? name = none ↔ ∀ t, types.structName? t ≠ some name := by
  simp only [byName?, Array.findIdx?_eq_none_iff, ne_eq, structName?_eq_some, not_exists, not_and]
  constructor
  · intro h t ty ht
    simpa using h ty (Array.mem_of_getElem? ht)
  · intro h ty hty
    obtain ⟨t, ht⟩ := Array.mem_iff_getElem?.mp hty
    simpa using h t ty ht

theorem structName?_of_byName? (h : types.byName? name = some t) :
    types.structName? t = some name := by
  obtain ⟨ht, hname, _⟩ := Array.findIdx?_eq_some_iff_getElem.mp h
  exact structName?_eq_some.mpr ⟨_, Array.getElem?_eq_getElem ht, by simpa using hname⟩

theorem lt_size_of_structName? (h : types.structName? t = some name) : t < types.size := by
  obtain ⟨ty, ht, _⟩ := structName?_eq_some.mp h
  exact lt_size_of_get? ht

/-! ### Looking for an unused name -/

/-- One more try: a name in use gives way to the next number. -/
inductive Retries (types : TypeTable) (name : String) : String × Nat → String × Nat → Prop
  | taken {unique : String} {k : Nat} (h : (types.byName? unique).isSome = true) :
      Retries types name (unique, k) (suffixed name k, k + 1)

theorem exists_free_suffix (types : TypeTable) (name : String) :
    ∃ k ∈ List.range' types.nextSuffix (types.size + 1),
      (types.byName? (suffixed name k)).isNone = true := by
  by_contra hnone
  have hall : ∀ k ∈ Finset.Ico types.nextSuffix (types.nextSuffix + (types.size + 1)),
      ∃ t, types.structName? t = some (suffixed name k) := by
    intro k hk
    rw [Finset.mem_Ico] at hk
    have hin : k ∈ List.range' types.nextSuffix (types.size + 1) := List.mem_range'_1.mpr hk
    cases hby : types.byName? (suffixed name k) with
    | none => exact (hnone ⟨k, hin, by simp [hby]⟩).elim
    | some t => exact ⟨t, structName?_of_byName? hby⟩
  -- more numbers are tried than there are types, so two of them would name the same one
  choose! owner howner using hall
  obtain ⟨j, hj, k, hk, hne, heq⟩ := Finset.exists_ne_map_eq_of_card_lt_of_maps_to
    (t := Finset.range types.size) (by simp)
    (fun k hk => Finset.mem_coe.mpr (Finset.mem_range.mpr (lt_size_of_structName? (howner k hk))))
  have hsame := (howner j hj).symm.trans (heq ▸ howner k hk)
  exact hne (suffixed_injective name (Option.some.inj hsame))

theorem freeSuffix_first (types : TypeTable) (name : String) :
    types.nextSuffix ≤ types.freeSuffix name ∧
      types.byName? (suffixed name (types.freeSuffix name)) = none ∧
      ∀ k, types.nextSuffix ≤ k → k < types.freeSuffix name →
        (types.byName? (suffixed name k)).isSome = true := by
  unfold freeSuffix
  cases hfind : (List.range' types.nextSuffix (types.size + 1)).find?
      (fun k => (types.byName? (suffixed name k)).isNone) with
  | none =>
    obtain ⟨k, hk, hfree⟩ := types.exists_free_suffix name
    exact (List.find?_eq_none.mp hfind k hk hfree).elim
  | some k =>
    obtain ⟨hfree, hin, hbefore⟩ := List.find?_range'_eq_some.mp hfind
    refine ⟨(List.mem_range'_1.mp hin).1, by simpa using hfree, fun j hj hlt => ?_⟩
    simpa [Option.isSome_iff_ne_none] using hbefore j hj hlt

theorem retries_until {k : Nat} (hname : (types.byName? name).isSome = true)
    (hle : types.nextSuffix ≤ k) (htaken : ∀ j, types.nextSuffix ≤ j → j < k →
      (types.byName? (suffixed name j)).isSome = true) :
    Relation.ReflTransGen (types.Retries name) (name, types.nextSuffix)
      (suffixed name k, k + 1) := by
  induction k, hle using Nat.le_induction with
  | base => exact .single (.taken hname)
  | succ k hle ih =>
    exact (ih fun j hj hlt => htaken j hj (by omega)).tail (.taken (htaken k hle (by omega)))

/-- The tries come to an end: the struct is declared with a name that is unused. -/
theorem namedStruct_eq (types : TypeTable) (name : String) :
    ∃ unique k, Relation.ReflTransGen (types.Retries name) (name, types.nextSuffix) (unique, k) ∧
      types.byName? unique = none ∧
      types.namedStruct name =
        { types with nextSuffix := k }.push (.struct ⟨some unique, none, false, false⟩) ∧
      (isAnonymous name = false → scopeName unique = scopeName name) ∧
      isAnonymous unique = isAnonymous name := by
  unfold namedStruct
  cases hname : types.byName? name with
  | none => exact ⟨name, types.nextSuffix, .refl, hname, rfl, fun _ => rfl, rfl⟩
  | some t =>
    obtain ⟨hle, hfree, htaken⟩ := types.freeSuffix_first name
    exact ⟨_, _, retries_until (by simp [hname]) hle htaken, hfree, rfl,
      fun ha => scopeName_suffixed ha _, isAnonymous_suffixed name _⟩

/-! ### What an edit does to names -/

theorem structName?_push (types : TypeTable) (ty : Ty) (u : Nat) :
    (types.push ty).2.structName? u =
      if u = types.size then ty.struct?.bind StructType.name else types.structName? u := by
  by_cases hu : u = types.size
  · rw [if_pos hu, hu]
    simp [structName?, struct?, get?, push, size]
  · have hne : u ≠ types.entries.size := hu
    simp [structName?, struct?, get?, push, hu, Array.getElem?_push, hne]

theorem structName?_size (types : TypeTable) : types.structName? types.size = none := by
  simp [structName?, struct?, get?, size]

theorem structName?_setStruct {s : StructType} (hs : types.struct? t = some s)
    (s' : StructType) (hname : s'.name = s.name) (u : Nat) :
    (types.setStruct t s').structName? u = types.structName? u := by
  by_cases htu : t = u
  · subst htu
    have hlt : t < types.entries.size := lt_size_of_get? (get?_of_struct? hs)
    have hnew : (types.setStruct t s').struct? t = some s' := by
      simp [setStruct, struct?, get?, hlt, Ty.struct?]
    simp [structName?, hnew, hs, hname]
  · simp [structName?, struct?, get?_setStruct s' (Ne.symm htu)]

theorem structName?_namedStruct (types : TypeTable) (name : String) :
    ∃ unique, types.byName? unique = none ∧ (types.namedStruct name).1 = types.size ∧
      ∀ u, (types.namedStruct name).2.structName? u =
        if u = types.size then some unique else types.structName? u := by
  obtain ⟨unique, k, _, hfree, heq, _⟩ := types.namedStruct_eq name
  rw [heq]
  exact ⟨unique, hfree, rfl, fun u => structName?_push { types with nextSuffix := k } _ u⟩

theorem structName?_defineWith (types : TypeTable) (name : String) (members : List Nat)
    (isUnion : Bool) (u : Nat) :
    (types.defineWith name members isUnion).2.structName? u =
      (types.namedStruct name).2.structName? u := by
  unfold defineWith
  dsimp only
  split
  · rename_i s hs
    exact structName?_setStruct hs { s with body := some members, isUnion := isUnion } rfl u
  · rfl

theorem structName?_setBody {members : List Nat} {packed : Bool}
    (h : types.setBody t members packed = .ok types') (u : Nat) :
    types'.structName? u = types.structName? u := by
  unfold setBody at h
  split at h
  · cases h
  · rename_i s hget
    split at h
    · cases h
    · cases h
    · obtain rfl := Except.ok.inj h
      exact structName?_setStruct (struct?_of_get? hget)
        { s with body := some members, packed := packed } rfl u
  · cases h

theorem structName?_intern {ty : Ty} (hty : ty.struct?.bind StructType.name = none) (u : Nat) :
    (types.intern ty).2.structName? u = types.structName? u := by
  unfold intern
  split
  · rfl
  · rw [structName?_push]
    split
    · rename_i hu
      rw [hu, structName?_size, hty]
    · rfl

/-- An edit keeps all names, or adds one that was unused. -/
theorem Edit.structName? (h : types.Edit types') :
    (∀ u, types'.structName? u = types.structName? u) ∨
      ∃ unique, types.byName? unique = none ∧ ∀ u, types'.structName? u =
        if u = types.size then some unique else types.structName? u := by
  cases h with
  | intern ty hty => exact .inl (structName?_intern hty)
  | declare name =>
    obtain ⟨unique, hfree, _, hnames⟩ := types.structName?_namedStruct name
    exact .inr ⟨unique, hfree, hnames⟩
  | define name members isUnion =>
    obtain ⟨unique, hfree, _, hnames⟩ := types.structName?_namedStruct name
    refine .inr ⟨unique, hfree, fun u => ?_⟩
    rw [structName?_defineWith, hnames]
  | setBody h => exact .inl (structName?_setBody h)

/-- No two structs have the same name. -/
def NamedApart (types : TypeTable) : Prop :=
  ∀ t u name, types.structName? t = some name → types.structName? u = some name → t = u

theorem Edit.namedApart (h : types.Edit types') (hapart : types.NamedApart) :
    types'.NamedApart := by
  intro t u name ht hu
  obtain hsame | ⟨unique, hfree, hnames⟩ := h.structName?
  · exact hapart t u name (hsame t ▸ ht) (hsame u ▸ hu)
  · rw [byName?_eq_none] at hfree
    rw [hnames] at ht hu
    by_cases hts : t = types.size <;> by_cases hus : u = types.size
    · exact hts.trans hus.symm
    · simp only [hts, hus, if_true, if_false] at ht hu
      exact (hfree u (hu.trans ht.symm)).elim
    · simp only [hts, hus, if_true, if_false] at ht hu
      exact (hfree t (ht.trans hu.symm)).elim
    · simp only [hts, hus, if_false] at ht hu
      exact hapart t u name ht hu

theorem after_namedApart (operations : List Operation) : (after {} operations).NamedApart := by
  have hempty : NamedApart {} := by
    intro t u name ht
    simp [TypeTable.structName?, struct?, TypeTable.get?] at ht
  exact Relation.ReflTransGen.head_induction_on (motive := fun types _ =>
    types.NamedApart → (after {} operations).NamedApart) (after_edits {} operations) id
    (fun h _ ih hapart => ih (h.namedApart hapart)) hempty

theorem NamedApart.byName? (h : types.NamedApart) (ht : types.structName? t = some name) :
    types.byName? name = some t := by
  cases hby : types.byName? name with
  | none => exact (byName?_eq_none.mp hby t ht).elim
  | some u => rw [h u t name (structName?_of_byName? hby) ht]

end TypeTable

open TypeTable

/-- A table together with the names that were given, each with its struct. -/
structure Directory where
  types : TypeTable := {}
  named : List (String × Nat) := []

namespace Directory

variable {d : Directory}

/-- Declares a struct by the name asked for or the first numbered one that is not among
the names given before. The table is not searched. -/
def declare (d : Directory) (name : String) : Nat × Directory :=
  let (unique, next) :=
    match d.named.lookup name with
    | none => (name, d.types.nextSuffix)
    | some _ =>
      let k := ((List.range' d.types.nextSuffix (d.types.size + 1)).find?
        (fun k => (d.named.lookup (suffixed name k)).isNone)).getD d.types.nextSuffix
      (suffixed name k, k + 1)
  let (t, types) := { d.types with nextSuffix := next }.push
    (.struct ⟨some unique, none, false, false⟩)
  (t, { types, named := (unique, t) :: d.named })

def defineWith (d : Directory) (name : String) (members : List Nat) (isUnion : Bool) :
    Nat × Directory :=
  let (t, declared) := d.declare name
  match declared.types.struct? t with
  | some s =>
    (t, { declared with
      types := declared.types.setStruct t { s with body := some members, isUnion := isUnion } })
  | none => (t, declared)

def perform (d : Directory) (operation : Operation) : Except ProgramError Nat × Directory :=
  match operation with
  | .namedStruct name => (d.declare name).map .ok id
  | .defineStruct name members => (d.defineWith name members false).map .ok id
  | .defineUnion name members => (d.defineWith name members true).map .ok id
  | operation => ((d.types.perform operation).1, { d with types := (d.types.perform operation).2 })

def after (d : Directory) (operations : List Operation) : Directory :=
  operations.foldl (fun d operation => (d.perform operation).2) d

/-- The names given are those of the structs in the table. -/
def Mirrors (d : Directory) : Prop :=
  ∀ name t, d.named.lookup name = some t ↔ d.types.structName? t = some name

theorem Mirrors.lookup_eq (h : d.Mirrors) (name : String) :
    d.named.lookup name = d.types.byName? name := by
  cases hby : d.types.byName? name with
  | some t => exact (h name t).mpr (structName?_of_byName? hby)
  | none =>
    cases hlookup : d.named.lookup name with
    | none => rfl
    | some t => exact (byName?_eq_none.mp hby t ((h name t).mp hlookup)).elim

theorem Mirrors.of_structName? {types : TypeTable} (h : d.Mirrors)
    (hnames : ∀ t, types.structName? t = d.types.structName? t) : Mirrors { d with types } := by
  intro name t
  rw [hnames]
  exact h name t

theorem Mirrors.push {unique : String} {next : Nat} (h : d.Mirrors)
    (hfree : d.types.byName? unique = none) :
    Mirrors
      { types := ({ d.types with nextSuffix := next }.push
          (.struct ⟨some unique, none, false, false⟩)).2
        named := (unique, d.types.size) :: d.named } := by
  intro name t
  have hnames : TypeTable.structName? _ t =
      if t = d.types.size then some unique else d.types.structName? t :=
    structName?_push { d.types with nextSuffix := next }
      (.struct ⟨some unique, none, false, false⟩) t
  dsimp only
  rw [hnames, List.lookup_cons]
  by_cases hname : name = unique
  · subst hname
    have hnone := byName?_eq_none.mp hfree t
    by_cases ht : t = d.types.size
    · simp [ht]
    · simp [ht, hnone, Ne.symm ht]
  · have hbeq : (name == unique) = false := by simpa using hname
    rw [hbeq, h name]
    by_cases ht : t = d.types.size
    · simp [ht, structName?_size, Ne.symm hname]
    · simp [ht]

/-- The same is answered, and the table is the same with names that mirror it. -/
structure Matches {α : Type} (result : α × Directory) (expected : α × TypeTable) : Prop where
  answer : result.1 = expected.1
  types : result.2.types = expected.2
  mirrors : result.2.Mirrors

theorem Matches.map {α β : Type} {result : α × Directory} {expected : α × TypeTable}
    (h : Matches result expected) (f : α → β) : Matches (result.map f id) (expected.map f id) :=
  ⟨congrArg f h.answer, h.types, h.mirrors⟩

/-- Looking names up and searching the table for them declares the same struct. -/
theorem Mirrors.declare (h : d.Mirrors) (name : String) :
    Matches (d.declare name) (d.types.namedStruct name) := by
  unfold Directory.declare TypeTable.namedStruct
  simp only [h.lookup_eq]
  cases hname : d.types.byName? name with
  | none => exact ⟨rfl, rfl, h.push hname⟩
  | some t =>
    obtain ⟨_, hfree, _⟩ := d.types.freeSuffix_first name
    exact ⟨rfl, rfl, h.push hfree⟩

theorem Mirrors.defineWith (h : d.Mirrors) (name : String) (members : List Nat)
    (isUnion : Bool) :
    Matches (d.defineWith name members isUnion) (d.types.defineWith name members isUnion) := by
  have hdeclare := h.declare name
  unfold Directory.defineWith TypeTable.defineWith
  dsimp only
  rw [← hdeclare.answer, ← hdeclare.types]
  cases hs : (d.declare name).2.types.struct? (d.declare name).1 with
  | none => exact ⟨rfl, rfl, hdeclare.mirrors⟩
  | some s =>
    exact ⟨rfl, rfl, hdeclare.mirrors.of_structName?
      (structName?_setStruct hs { s with body := some members, isUnion := isUnion } rfl)⟩

theorem Mirrors.perform (h : d.Mirrors) (operation : Operation) :
    Matches (d.perform operation) (d.types.perform operation) := by
  cases operation with
  | namedStruct name => exact (h.declare name).map Except.ok
  | defineStruct name members => exact (h.defineWith name members false).map Except.ok
  | defineUnion name members => exact (h.defineWith name members true).map Except.ok
  | setBody t members packed =>
    refine ⟨rfl, rfl, h.of_structName? fun u => ?_⟩
    cases hset : d.types.setBody t members packed with
    | error e => simp only [TypeTable.perform, hset]
    | ok types' => simpa only [TypeTable.perform, hset] using structName?_setBody hset u
  | _ => exact ⟨rfl, rfl, h.of_structName? (structName?_intern rfl)⟩

theorem Mirrors.after (h : d.Mirrors) (operations : List Operation) :
    (d.after operations).types = d.types.after operations ∧ (d.after operations).Mirrors := by
  induction operations generalizing d with
  | nil => exact ⟨rfl, h⟩
  | cons operation rest ih =>
    have hstep := h.perform operation
    obtain ⟨hrest, hmirrors⟩ := ih hstep.mirrors
    refine ⟨hrest.trans ?_, hmirrors⟩
    rw [hstep.types]
    rfl

theorem mirrors_empty : Mirrors {} := by
  intro name t
  simp [TypeTable.structName?, struct?, TypeTable.get?]

end Directory

namespace TypeTable

/-- After any operations, each named struct is the one that is found by its name, which a
map of the names given would find too, as it would answer all operations alike. A new
struct gets a name after finitely many tries, of the scope asked for, or anonymous as
asked for. Scope names have no numbers left to drop, and only structs that are not
anonymous share one. -/
theorem names_and_scopes (operations : List Operation) :
    let types := after {} operations
    (∀ t u name, types.structName? t = some name → types.structName? u = some name → t = u) ∧
    (∀ t name, types.structName? t = some name → types.byName? name = some t) ∧
    ((∀ name, (Directory.after {} operations).named.lookup name = types.byName? name) ∧
      ∀ operation, ((Directory.after {} operations).perform operation).1 =
        (types.perform operation).1) ∧
    (∀ name, ∃ unique k,
      Relation.ReflTransGen (types.Retries name) (name, types.nextSuffix) (unique, k) ∧
      types.byName? unique = none ∧
      types.namedStruct name =
        { types with nextSuffix := k }.push (.struct ⟨some unique, none, false, false⟩) ∧
      (isAnonymous name = false → scopeName unique = scopeName name) ∧
      (isAnonymous name = true → isAnonymous unique = true)) ∧
    (∀ t u name name', t ≠ u → types.structName? t = some name →
      types.structName? u = some name' → scopeName name = scopeName name' →
      isAnonymous name = false ∧ isAnonymous name' = false) ∧
    (∀ name, scopeName (scopeName name) = scopeName name) ∧
    ∀ name digits, isAnonymous name = false → digits ≠ "" →
      (∀ c ∈ digits.toList, isDecimalDigit c = true) →
      scopeName (name ++ "." ++ digits) = scopeName name := by
  intro types
  have hapart : types.NamedApart := after_namedApart operations
  refine ⟨hapart, fun t name => hapart.byName?, ?_, ?_, ?_, scopeName_scopeName, ?_⟩
  · obtain ⟨htypes, hmirrors⟩ := Directory.mirrors_empty.after operations
    have htypes : (Directory.after {} operations).types = types := htypes
    rw [← htypes]
    exact ⟨hmirrors.lookup_eq, fun operation => (hmirrors.perform operation).answer⟩
  · intro name
    obtain ⟨unique, k, htries, hfree, heq, hscope, hanon⟩ := types.namedStruct_eq name
    exact ⟨unique, k, htries, hfree, heq, hscope, fun ha => hanon.trans ha⟩
  · intro t u name name' htu ht hu hscope
    have hne : name ≠ name' := fun heq => htu (hapart t u name ht (heq ▸ hu))
    exact ⟨not_isAnonymous_of_scopeName_eq hne hscope,
      not_isAnonymous_of_scopeName_eq hne.symm hscope.symm⟩
  · intro name digits ha hne hdigits
    exact scopeName_numbered ha ⟨hne, hdigits⟩

/-- The name with the first number is in use already, by a struct declared with it. -/
theorem names_and_scopes_taken :
    let types := after {} [.namedStruct "struct.foo.0", .namedStruct "struct.foo", .int 32,
      .defineStruct "struct.foo" [2], .namedStruct "struct.anon", .namedStruct "struct.anon"]
    types.structName? 3 = some "struct.foo.1" ∧ types.byName? "struct.foo.1" = some 3 ∧
      types.structName? 5 = some "struct.anon.2" ∧ types.byName? "struct.anon.2" = some 5 ∧
      scopeName "struct.foo.0" = scopeName "struct.foo.1" ∧
      isAnonymous "struct.foo.0" = false ∧ isAnonymous "struct.foo.1" = false ∧
      scopeName ("struct.foo" ++ "." ++ "12") = scopeName "struct.foo" := by
  intro types
  obtain ⟨_, hbyName, _, _, hshared, _, hnumbered⟩ := names_and_scopes
    [.namedStruct "struct.foo.0", .namedStruct "struct.foo", .int 32,
      .defineStruct "struct.foo" [2], .namedStruct "struct.anon", .namedStruct "struct.anon"]
  have hzero : types.structName? 0 = some "struct.foo.0" := by decide +kernel
  have hone : types.structName? 3 = some "struct.foo.1" := by decide +kernel
  have hanon : types.structName? 5 = some "struct.anon.2" := by decide +kernel
  have hfoo : isAnonymous "struct.foo" = false := by decide +kernel
  have hscope : scopeName "struct.foo.0" = scopeName "struct.foo.1" := by
    refine (hnumbered "struct.foo" "0" hfoo (by decide) ?_).trans
      (hnumbered "struct.foo" "1" hfoo (by decide) ?_).symm
    · exact List.all_eq_true.mp (by decide +kernel)
    · exact List.all_eq_true.mp (by decide +kernel)
  obtain ⟨hnamed, hnamed'⟩ := hshared 0 3 _ _ (by decide) hzero hone hscope
  exact ⟨hone, hbyName 3 _ hone, hanon, hbyName 5 _ hanon, hscope, hnamed, hnamed',
    hnumbered _ _ hfoo (by decide) (List.all_eq_true.mp (by decide +kernel))⟩

end TypeTable

end AbstractMemory
