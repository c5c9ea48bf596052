import AbstractMemory.Proofs.UniqueNames
import Mathlib

/-! Unnamed types have one id each. Whatever is declared, and whichever bodies are set in
between, an unnamed type keeps its id and an id its unnamed type. -/

namespace AbstractMemory

/-- The name, if the type is a struct that has one. -/
def Ty.structName? (ty : Ty) : Option String :=
  ty.struct?.bind StructType.name

theorem Ty.awaitsBody_of_unnamed {ty : Ty} (h : ty.structName? = none) :
    ty.awaitsBody = false := by
  cases ty with
  | struct s =>
    have hname : s.name = none := h
    simp [awaitsBody, hname]
  | _ => rfl

namespace TypeTable

variable {types types' : TypeTable} {i j t u : Nat} {ty new : Ty}

theorem structName?_of_get? (h : types.get? t = some ty) :
    types.structName? t = ty.structName? := by
  simp [structName?, struct?, h, Ty.structName?]

/-! ### What an operation does to unnamed types -/

theorem get?_push_iff : (types.push new).2.get? t = some ty ↔
    types.get? t = some ty ∨ (t = types.size ∧ new = ty) := by
  by_cases ht : t = types.size
  · subst ht
    simp [push, get?, size]
  · have hne : t ≠ types.entries.size := ht
    simp [push, get?, Array.getElem?_push, ht, hne]

theorem mem_iff_get? : ty ∈ types.entries ↔ ∃ u, types.get? u = some ty :=
  Array.mem_iff_getElem?

theorem get?_intern_iff : (types.intern new).2.get? t = some ty ↔
    types.get? t = some ty ∨ (t = types.size ∧ new = ty ∧ ty ∉ types.entries) := by
  unfold intern
  cases hfind : types.entries.idxOf? new with
  | none =>
    have hnew : new ∉ types.entries := by simpa using hfind
    rw [get?_push_iff]
    constructor
    · rintro (h | ⟨ht, rfl⟩)
      · exact .inl h
      · exact .inr ⟨ht, rfl, hnew⟩
    · rintro (h | ⟨ht, heq, _⟩)
      · exact .inl h
      · exact .inr ⟨ht, heq⟩
  | some u =>
    have hself := types.get?_intern_self new
    simp only [intern, hfind] at hself
    constructor
    · exact .inl
    · rintro (h | ⟨_, rfl, hnew⟩)
      · exact h
      · exact absurd (mem_iff_get?.mpr ⟨u, hself⟩) hnew

theorem get?_namedStruct_iff {name : String} (hty : ty.structName? = none) :
    (types.namedStruct name).2.get? t = some ty ↔ types.get? t = some ty := by
  obtain ⟨unique, k, _, _, heq, _⟩ := types.namedStruct_eq name
  rw [heq, get?_push_iff]
  constructor
  · rintro (h | ⟨_, rfl⟩)
    · exact h
    · cases hty
  · exact .inl

theorem get?_defineWith {name : String} {members : List Nat} {isUnion : Bool}
    (h : t ≠ types.size) :
    (types.defineWith name members isUnion).2.get? t = (types.namedStruct name).2.get? t := by
  obtain ⟨_, _, hid, _⟩ := types.structName?_namedStruct name
  unfold defineWith
  dsimp only
  cases (types.namedStruct name).2.struct? (types.namedStruct name).1 with
  | none => rfl
  | some s => exact get?_setStruct _ (hid ▸ h)

theorem get?_defineWith_iff {name : String} {members : List Nat} {isUnion : Bool}
    (hty : ty.structName? = none) :
    (types.defineWith name members isUnion).2.get? t = some ty ↔ types.get? t = some ty := by
  obtain ⟨unique, _, _, hnames⟩ := types.structName?_namedStruct name
  by_cases ht : t = types.size
  · subst ht
    have hnew : (types.defineWith name members isUnion).2.structName? types.size = some unique := by
      rw [structName?_defineWith, hnames, if_pos rfl]
    constructor
    · intro h
      rw [structName?_of_get? h, hty] at hnew
      cases hnew
    · exact fun h => absurd (lt_size_of_get? h) (Nat.lt_irrefl _)
  · rw [get?_defineWith ht, get?_namedStruct_iff hty]

theorem setBody_eq_ok {members : List Nat} {packed : Bool} :
    types.setBody t members packed = .ok types' ↔
      ∃ s, types.get? t = some (.struct s) ∧ s.name.isSome = true ∧ s.body = none ∧
        types.setStruct t { s with body := some members, packed := packed } = types' := by
  unfold setBody
  cases hget : types.get? t with
  | none => simp
  | some ty =>
    cases ty with
    | struct s =>
      cases hname : s.name <;> cases hbody : s.body <;> simp [hname, hbody]
    | _ => simp

theorem setBody_of_body {s : StructType} {body members : List Nat} {packed : Bool}
    (h : types.get? t = some (.struct s)) (hname : s.name.isSome = true)
    (hbody : s.body = some body) :
    types.setBody t members packed = .error (.bodyAlreadySet t) := by
  obtain ⟨name, hname⟩ := Option.isSome_iff_exists.mp hname
  simp [setBody, h, hname, hbody]

theorem get?_setStruct_self {s s' : StructType} (h : types.get? t = some (.struct s)) :
    (types.setStruct t s').get? t = some (.struct s') := by
  have hlt : t < types.entries.size := lt_size_of_get? h
  simp [setStruct, get?, hlt]

theorem setBody_frame {members : List Nat} {packed : Bool}
    (h : types.setBody t members packed = .ok types') :
    types'.size = types.size ∧ types'.nextSuffix = types.nextSuffix ∧
      (∀ u, u ≠ t → types'.get? u = types.get? u) ∧
      ∃ s, types.get? t = some (.struct s) ∧ s.name.isSome = true ∧ s.body = none ∧
        types'.get? t = some (.struct { s with body := some members, packed := packed }) := by
  obtain ⟨s, hs, hname, hbody, rfl⟩ := setBody_eq_ok.mp h
  refine ⟨by simp [setStruct, size], rfl, fun u hu => get?_setStruct _ hu, s, hs, hname, hbody, ?_⟩
  exact get?_setStruct_self hs

theorem isOk_setBody (types : TypeTable) (t : Nat) (members : List Nat) (packed : Bool) :
    (types.setBody t members packed).isOk = true ↔
      ∃ s, types.get? t = some (.struct s) ∧ s.name.isSome = true ∧ s.body = none := by
  constructor
  · intro h
    cases hset : types.setBody t members packed with
    | error e =>
      rw [hset] at h
      cases h
    | ok types' =>
      obtain ⟨s, hs, hname, hbody, _⟩ := setBody_eq_ok.mp hset
      exact ⟨s, hs, hname, hbody⟩
  · rintro ⟨s, hs, hname, hbody⟩
    rw [setBody_eq_ok.mpr ⟨s, hs, hname, hbody, rfl⟩]
    rfl

theorem get?_setBody_iff {members : List Nat} {packed : Bool}
    (h : types.setBody t members packed = .ok types') (hty : ty.structName? = none) :
    types'.get? u = some ty ↔ types.get? u = some ty := by
  obtain ⟨s, hs, hname, _, rfl⟩ := setBody_eq_ok.mp h
  by_cases hu : u = t
  · subst hu
    have hnamed : s.name ≠ none := Option.isSome_iff_ne_none.mp hname
    rw [get?_setStruct_self hs, hs]
    constructor
    · rintro ⟨⟩
      exact absurd hty hnamed
    · rintro ⟨⟩
      exact absurd hty hnamed
  · rw [get?_setStruct _ hu]

namespace Operation

/-- The unnamed type an operation asks for. -/
def asks? : Operation → Option Ty
  | .void => some .void
  | .int bits => some (.integer bits)
  | .float bits => some (.float bits)
  | .pointerTo pointee => some (.pointer pointee)
  | .arrayOf element length => some (.array element length)
  | .function result params variadic => some (.function ⟨result, params, variadic⟩)
  | .literalStruct members packed => some (.struct ⟨none, some members, packed, false⟩)
  | .namedStruct _ | .setBody _ _ _ | .defineStruct _ _ | .defineUnion _ _ => none

theorem unnamed_of_asks? {operation : Operation} (h : operation.asks? = some ty) :
    ty.structName? = none := by
  cases operation <;> cases h <;> rfl

end Operation

variable {operation : Operation} {operations : List Operation}

theorem perform_of_asks? (types : TypeTable) (h : operation.asks? = some ty) :
    types.perform operation = (.ok (types.intern ty).1, (types.intern ty).2) := by
  cases operation <;> cases h <;> rfl

theorem get?_perform_iff (h : operation.asks? = none) (hty : ty.structName? = none) :
    (types.perform operation).2.get? t = some ty ↔ types.get? t = some ty := by
  cases operation with
  | namedStruct name => exact get?_namedStruct_iff hty
  | defineStruct name members => exact get?_defineWith_iff hty
  | defineUnion name members => exact get?_defineWith_iff hty
  | setBody t members packed =>
    simp only [perform]
    cases hset : types.setBody t members packed with
    | ok types' => exact get?_setBody_iff hset hty
    | error e => rfl
  | _ => cases h

/-! ### Runs -/

/-- No unnamed type has two ids. -/
def InternedOnce (types : TypeTable) : Prop :=
  ∀ t u ty, ty.structName? = none → types.get? t = some ty → types.get? u = some ty → t = u

theorem InternedOnce.perform (h : types.InternedOnce) (operation : Operation) :
    (types.perform operation).2.InternedOnce := by
  intro t u ty hty ht hu
  cases hask : operation.asks? with
  | none =>
    rw [get?_perform_iff hask hty] at ht hu
    exact h t u ty hty ht hu
  | some new =>
    rw [types.perform_of_asks? hask, get?_intern_iff] at ht hu
    rcases ht with ht | ⟨ht, _, hnew⟩
    · rcases hu with hu | ⟨_, _, hnew⟩
      · exact h t u ty hty ht hu
      · exact absurd (mem_iff_get?.mpr ⟨t, ht⟩) hnew
    · rcases hu with hu | ⟨hu, _, _⟩
      · exact absurd (mem_iff_get?.mpr ⟨u, hu⟩) hnew
      · exact ht.trans hu.symm

theorem after_internedOnce (operations : List Operation) : (after {} operations).InternedOnce := by
  have hrun : ∀ types : TypeTable, types.InternedOnce → (types.after operations).InternedOnce := by
    induction operations with
    | nil => exact fun types h => h
    | cons operation rest ih => exact fun types h => ih _ (h.perform operation)
  apply hrun
  intro t u ty _ ht
  simp [get?] at ht

/-- An unnamed type that is there is not added once more. -/
theorem InternedOnce.intern_eq (h : types.InternedOnce) (hty : ty.structName? = none)
    (ht : types.get? t = some ty) : types.intern ty = (t, types) := by
  have hself := types.get?_intern_self ty
  unfold intern at hself ⊢
  cases hfind : types.entries.idxOf? ty with
  | none =>
    have hnew : ty ∉ types.entries := by simpa using hfind
    exact absurd (mem_iff_get?.mpr ⟨t, ht⟩) hnew
  | some u =>
    rw [hfind] at hself
    rw [h t u ty hty ht hself]

/-- The answer to operation number `i` of a run. -/
def reply? (operations : List Operation) (i : Nat) : Option (Except ProgramError Nat) :=
  operations[i]?.map fun operation => ((after {} (operations.take i)).perform operation).1

theorem after_append (types : TypeTable) (operations operations' : List Operation) :
    types.after (operations ++ operations') = (types.after operations).after operations' :=
  List.foldl_append

theorem after_take_succ (h : operations[i]? = some operation) :
    after {} (operations.take (i + 1)) =
      ((after {} (operations.take i)).perform operation).2 := by
  rw [List.take_add_one, h, after_append]
  rfl

theorem after_take_edits (hij : i ≤ j) :
    Relation.ReflTransGen Edit (after {} (operations.take i)) (after {} (operations.take j)) := by
  obtain ⟨k, rfl⟩ := Nat.exists_eq_add_of_le hij
  rw [List.take_add, after_append]
  exact after_edits _ _

/-- A type that waits for no body stays what it is. -/
theorem get?_of_edits (h : Relation.ReflTransGen Edit types types') (hty : ty.awaitsBody = false)
    (ht : types.get? t = some ty) : types'.get? t = some ty := by
  induction h with
  | refl => exact ht
  | tail _ hedit ih => exact hedit.get?_of_settled ih hty

theorem structName?_of_edits {name : String} (h : Relation.ReflTransGen Edit types types')
    (ht : types.structName? t = some name) : types'.structName? t = some name := by
  induction h with
  | refl => exact ht
  | tail _ hedit ih =>
    obtain hsame | ⟨unique, _, hnames⟩ := hedit.structName?
    · rw [hsame, ih]
    · have hlt := lt_size_of_structName? ih
      rw [hnames, if_neg (by omega), ih]

theorem reply?_of_asks? (hi : operations[i]? = some operation) (hask : operation.asks? = some ty) :
    ∃ t, reply? operations i = some (.ok t) ∧
      ∀ j, i < j → (after {} (operations.take j)).get? t = some ty := by
  have hreply := (after {} (operations.take i)).perform_of_asks? hask
  refine ⟨((after {} (operations.take i)).intern ty).1, by simp [reply?, hi, hreply], ?_⟩
  intro j hij
  have hedits : Relation.ReflTransGen Edit (after {} (operations.take (i + 1)))
    (after {} (operations.take j)) := after_take_edits hij
  apply get?_of_edits hedits (Ty.awaitsBody_of_unnamed (Operation.unnamed_of_asks? hask))
  rw [after_take_succ hi, hreply]
  exact get?_intern_self _ ty

section SetBody

variable {members members' : List Nat} {packed packed' : Bool}

theorem reply?_setBody_of_ok (hi : operations[i]? = some (.setBody t members packed))
    (hset : (after {} (operations.take i)).setBody t members packed = .ok types') :
    reply? operations i = some (.ok t) ∧ after {} (operations.take (i + 1)) = types' := by
  rw [after_take_succ hi, reply?, hi]
  simp [perform, hset]

theorem reply?_setBody_of_error {e : ProgramError}
    (hi : operations[i]? = some (.setBody t members packed))
    (hset : (after {} (operations.take i)).setBody t members packed = .error e) :
    reply? operations i = some (.error e) ∧
      after {} (operations.take (i + 1)) = after {} (operations.take i) := by
  rw [after_take_succ hi, reply?, hi]
  simp [perform, hset]

/-- Once a struct got a body, it gets no other one. -/
theorem reply?_setBody_again (hij : i < j)
    (hi : operations[i]? = some (.setBody t members packed))
    (hj : operations[j]? = some (.setBody t members' packed'))
    (hreply : reply? operations i = some (.ok u)) :
    reply? operations j = some (.error (.bodyAlreadySet t)) := by
  cases hset : (after {} (operations.take i)).setBody t members packed with
  | error e =>
    rw [(reply?_setBody_of_error hi hset).1] at hreply
    cases hreply
  | ok types' =>
    obtain ⟨_, hstep⟩ := reply?_setBody_of_ok hi hset
    obtain ⟨s, hs, hname, _, rfl⟩ := setBody_eq_ok.mp hset
    have hbody : (after {} (operations.take (i + 1))).get? t =
        some (.struct { s with body := some members, packed := packed }) := by
      rw [hstep]
      exact get?_setStruct_self hs
    have hkept := get?_of_edits (after_take_edits hij) (by simp [Ty.awaitsBody]) hbody
    exact (reply?_setBody_of_error hj (setBody_of_body hkept hname rfl)).1

end SetBody

end TypeTable

open TypeTable

/-- A table together with the unnamed types that were asked for, each with its id. -/
structure Interner where
  types : TypeTable := {}
  interned : List (Ty × Nat) := []

namespace Interner

variable {s : Interner} {operation : Operation}

/-- An unnamed type is looked for among those asked for before, not in the table. -/
def perform (s : Interner) (operation : Operation) : Except ProgramError Nat × Interner :=
  match operation.asks? with
  | none => ((s.types.perform operation).1, { s with types := (s.types.perform operation).2 })
  | some ty =>
    match s.interned.lookup ty with
    | some t => (.ok t, s)
    | none =>
      (.ok (s.types.push ty).1,
        { types := (s.types.push ty).2, interned := (ty, (s.types.push ty).1) :: s.interned })

def after (s : Interner) (operations : List Operation) : Interner :=
  operations.foldl (fun s operation => (s.perform operation).2) s

/-- The answer to operation number `i` of a run. -/
def reply? (operations : List Operation) (i : Nat) : Option (Except ProgramError Nat) :=
  operations[i]?.map fun operation => ((after {} (operations.take i)).perform operation).1

/-- The types asked for before are the unnamed types of the table. -/
structure Mirrors (s : Interner) : Prop where
  once : s.types.InternedOnce
  lookup_iff : ∀ ty t, s.interned.lookup ty = some t ↔
    ty.structName? = none ∧ s.types.get? t = some ty

theorem Mirrors.perform (h : s.Mirrors) (operation : Operation) :
    (s.perform operation).1 = (s.types.perform operation).1 ∧
      (s.perform operation).2.types = (s.types.perform operation).2 ∧
      (s.perform operation).2.Mirrors := by
  unfold Interner.perform
  cases hask : operation.asks? with
  | none =>
    refine ⟨rfl, rfl, h.once.perform operation, fun ty t => ?_⟩
    rw [h.lookup_iff]
    exact and_congr_right fun hty => (get?_perform_iff hask hty).symm
  | some ty =>
    have hty := Operation.unnamed_of_asks? hask
    have hperform := s.types.perform_of_asks? hask
    dsimp only
    cases hlookup : s.interned.lookup ty with
    | some t =>
      rw [hperform, h.once.intern_eq hty ((h.lookup_iff ty t).mp hlookup).2]
      exact ⟨rfl, rfl, h⟩
    | none =>
      have hnew : ty ∉ s.types.entries := by
        intro hold
        obtain ⟨u, hu⟩ := mem_iff_get?.mp hold
        rw [(h.lookup_iff ty u).mpr ⟨hty, hu⟩] at hlookup
        cases hlookup
      have hintern : s.types.intern ty = s.types.push ty := by
        unfold intern
        rw [Array.idxOf?_eq_none_iff.mpr hnew]
      rw [hperform, hintern]
      refine ⟨rfl, rfl, ?_, fun ty' t => ?_⟩
      · have honce := h.once.perform operation
        rwa [hperform, hintern] at honce
      · dsimp only
        rw [List.lookup_cons, get?_push_iff]
        by_cases heq : ty' = ty
        · subst heq
          have hnowhere : s.types.get? t ≠ some ty' := fun h => hnew (mem_iff_get?.mpr ⟨t, h⟩)
          simp [push, hty, hnowhere, eq_comm]
        · have hbeq : (ty' == ty) = false := by simpa using heq
          simp [hbeq, Ne.symm heq, h.lookup_iff]

theorem Mirrors.after (h : s.Mirrors) (operations : List Operation) :
    (s.after operations).types = s.types.after operations ∧ (s.after operations).Mirrors := by
  induction operations generalizing s with
  | nil => exact ⟨rfl, h⟩
  | cons operation rest ih =>
    obtain ⟨_, htypes, hnext⟩ := h.perform operation
    obtain ⟨hrest, hmirrors⟩ := ih hnext
    refine ⟨?_, hmirrors⟩
    calc (s.after (operation :: rest)).types
        = (s.perform operation).2.types.after rest := hrest
      _ = s.types.after (operation :: rest) := by
          rw [htypes]
          rfl

theorem mirrors_empty : Mirrors {} := by
  constructor
  · exact after_internedOnce []
  · intro ty t
    simp [TypeTable.get?]

theorem types_after (operations : List Operation) :
    (after {} operations).types = TypeTable.after {} operations :=
  (mirrors_empty.after operations).1

theorem reply?_eq (operations : List Operation) (i : Nat) :
    reply? operations i = TypeTable.reply? operations i := by
  obtain ⟨htypes, hmirrors⟩ := mirrors_empty.after (operations.take i)
  unfold reply? TypeTable.reply?
  cases operations[i]? with
  | none => rfl
  | some operation => rw [Option.map_some, Option.map_some, (hmirrors.perform operation).1, htypes]

end Interner

namespace TypeTable

/-- Along any run of the table's operations, two of them that ask for an unnamed type get one id
exactly when they ask for the same type, that id reads as that type ever after, and it is no
named struct's. A body is set if and only if the struct is named and has none yet, so once at
most. It touches this one struct, and nothing when it fails. A table that keeps the unnamed
types in a map beside its entries gives the same answers. -/
theorem interning_exact (operations : List Operation) :
    (∀ i operation ty, operations[i]? = some operation → operation.asks? = some ty →
      ∃ t, reply? operations i = some (.ok t) ∧
        ∀ j, (i < j → (after {} (operations.take j)).get t = .ok ty) ∧
          (after {} (operations.take j)).structName? t = none) ∧
    (∀ i j operation operation' ty ty',
      operations[i]? = some operation → operation.asks? = some ty →
      operations[j]? = some operation' → operation'.asks? = some ty' →
      (reply? operations i = reply? operations j ↔ ty = ty')) ∧
    (∀ i j t ty, i ≤ j → ty.structName? = none →
      (after {} (operations.take i)).get t = .ok ty →
      (after {} (operations.take j)).get t = .ok ty) ∧
    (∀ i t members packed, operations[i]? = some (.setBody t members packed) →
      let before := after {} (operations.take i)
      let next := after {} (operations.take (i + 1))
      (reply? operations i = some (.ok t) ↔
        ∃ s, before.get? t = some (.struct s) ∧ s.name.isSome = true ∧ s.body = none) ∧
      (∀ e, reply? operations i = some (.error e) → next = before) ∧
      (∀ u, reply? operations i = some (.ok u) → u = t ∧
        next.size = before.size ∧ next.nextSuffix = before.nextSuffix ∧
        (∀ v, v ≠ t → next.get? v = before.get? v) ∧
        (∃ s, before.get? t = some (.struct s) ∧ s.name.isSome = true ∧ s.body = none ∧
          next.get? t = some (.struct { s with body := some members, packed := packed })) ∧
        ∀ j members' packed', i < j → operations[j]? = some (.setBody t members' packed') →
          reply? operations j = some (.error (.bodyAlreadySet t)))) ∧
    (Interner.after {} operations).types = after {} operations ∧
    ∀ i, Interner.reply? operations i = reply? operations i := by
  refine ⟨?_, ?_, ?_, ?_, Interner.types_after operations, Interner.reply?_eq operations⟩
  · intro i operation ty hi hask
    obtain ⟨t, hreply, hkept⟩ := reply?_of_asks? hi hask
    refine ⟨t, hreply, fun j => ⟨fun hij => get_eq_ok.mpr (hkept j hij), ?_⟩⟩
    cases hnamed : (after {} (operations.take j)).structName? t with
    | none => rfl
    | some name =>
      -- a name would still be there once the run is past both `i` and `j`
      have hlate := structName?_of_edits (after_take_edits (Nat.le_max_right (i + 1) j)) hnamed
      rw [structName?_of_get? (hkept _ (Nat.le_max_left (i + 1) j)),
        Operation.unnamed_of_asks? hask] at hlate
      cases hlate
  · intro i j operation operation' ty ty' hi hask hj hask'
    obtain ⟨t, hreply, hkept⟩ := reply?_of_asks? hi hask
    obtain ⟨t', hreply', hkept'⟩ := reply?_of_asks? hj hask'
    -- both types are in the table once the run is past both operations
    have ht := hkept _ (Nat.le_max_left (i + 1) (j + 1))
    have ht' := hkept' _ (Nat.le_max_right (i + 1) (j + 1))
    rw [hreply, hreply']
    constructor
    · rintro ⟨⟩
      exact Option.some.inj (ht.symm.trans ht')
    · rintro rfl
      rw [after_internedOnce _ t t' ty (Operation.unnamed_of_asks? hask) ht ht']
  · intro i j t ty hij hty ht
    exact get_eq_ok.mpr
      (get?_of_edits (after_take_edits hij) (Ty.awaitsBody_of_unnamed hty) (get_eq_ok.mp ht))
  · intro i t members packed hi before next
    have hopen := isOk_setBody before t members packed
    cases hset : before.setBody t members packed with
    | error e =>
      obtain ⟨hreply, hstep⟩ := reply?_setBody_of_error hi hset
      rw [hset] at hopen
      rw [hreply]
      refine ⟨⟨fun h => (by cases h), fun h => ?_⟩, fun _ _ => hstep, fun _ h => by cases h⟩
      cases hopen.mpr h
    | ok types' =>
      obtain ⟨hreply, hstep⟩ := reply?_setBody_of_ok hi hset
      obtain ⟨hsize, hsuffix, hframe, hself⟩ := setBody_frame hset
      rw [hset] at hopen
      refine ⟨iff_of_true hreply (hopen.mp rfl), fun e he => ?_, fun u hu => ?_⟩
      · rw [hreply] at he
        cases he
      · rw [hreply] at hu
        cases hu
        have hnext : next = types' := hstep
        rw [hnext]
        exact ⟨rfl, hsize, hsuffix, hframe, hself,
          fun j members' packed' hij hj => reply?_setBody_again hij hi hj hreply⟩

/-- A list node, which a literal struct is like in all but its name. -/
def linking : List Operation :=
  [.namedStruct "struct.node", .pointerTo 0, .setBody 0 [1] false, .literalStruct [1] false,
    .pointerTo 0, .setBody 0 [] false, .setBody 1 [] false]

theorem interning_exact_linked :
    reply? linking 1 = reply? linking 4 ∧ reply? linking 1 ≠ reply? linking 3 ∧
      reply? linking 2 = some (.ok 0) ∧ reply? linking 3 = some (.ok 2) ∧
      (after {} linking).get 2 = .ok (.struct ⟨none, some [1], false, false⟩) ∧
      reply? linking 5 = some (.error (.bodyAlreadySet 0)) ∧
      after {} (linking.take 7) = after {} (linking.take 6) := by
  obtain ⟨_, hshared, hkept, hbody, _⟩ := interning_exact linking
  have hset : reply? linking 2 = some (.ok 0) := by decide +kernel
  have hliteral : reply? linking 3 = some (.ok 2) := by decide +kernel
  have hread : (after {} (linking.take 4)).get 2 =
      .ok (.struct ⟨none, some [1], false, false⟩) := by decide +kernel
  have hpointer : reply? linking 6 = some (.error (.notNamedStruct 1)) := by decide +kernel
  refine ⟨?_, ?_, hset, hliteral, hkept 4 7 2 _ (by decide) rfl hread, ?_, ?_⟩
  · exact (hshared 1 4 _ _ _ _ rfl rfl rfl rfl).mpr rfl
  · intro heq
    cases (hshared 1 3 _ _ _ _ rfl rfl rfl rfl).mp heq
  · obtain ⟨_, _, _, _, _, honce⟩ := (hbody 2 0 [1] false rfl).2.2 0 hset
    exact honce 5 [] false (by decide) rfl
  · exact (hbody 6 1 [] false rfl).2.1 _ hpointer

end TypeTable

end AbstractMemory
