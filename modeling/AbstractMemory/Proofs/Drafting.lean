import AbstractMemory.Program.Script
import AbstractMemory.Proofs.Extents
import AbstractMemory.Proofs.Steps
import Mathlib

/-! How programs are written. Each command of a script comes down to a few
kinds of edits, and what every edit keeps holds of all programs. -/

namespace AbstractMemory

open Steps

/-- All of a function but its arguments and its body. -/
def Function.outline (f : Function) : Function :=
  { f with args := [], body := [] }

/-- All of a value that stays as it was written. -/
def Value.outline (value : Value) : Value :=
  match value.kind with
  | .function f => { value with users := [], kind := .function f.outline }
  | _ => { value with users := [] }

/-- An address that is written down has the type of a pointer. -/
def Value.Typed (value : Value) (types : TypeTable) : Prop :=
  match value.kind with
  | .constant (.expr (.elementAddress _)) | .instruction _ (.alloca _) =>
    types.isPointer value.type = true
  | _ => True

/-- A struct that is declared and has no body yet. -/
def Ty.awaitsBody : Ty → Bool
  | .struct s => s.name.isSome && s.body.isNone
  | _ => false

def Value.onFunction (f : Function → Function) (value : Value) : Value :=
  match value.kind with
  | .function g => { value with kind := .function (f g) }
  | _ => value

namespace Value

theorem outline_type (value : Value) : value.outline.type = value.type := by
  unfold outline
  split <;> rfl

theorem outline_operands (value : Value) : value.outline.operands = value.operands := by
  obtain ⟨_, _, kind, _⟩ := value
  cases kind <;> rfl

theorem outline_global? (value : Value) : value.outline.global? = value.global? := by
  obtain ⟨_, _, kind, _⟩ := value
  cases kind <;> rfl

theorem outline_function? (value : Value) :
    value.outline.function? = value.function?.map Function.outline := by
  obtain ⟨_, _, kind, _⟩ := value
  cases kind <;> rfl

theorem outline_name (value : Value) : value.outline.name = value.name := by
  unfold outline
  split <;> rfl

theorem outline_isDeclaration (value : Value) :
    value.outline.isDeclaration = value.isDeclaration := by
  obtain ⟨_, _, kind, _⟩ := value
  cases kind <;> rfl

theorem outline_typed (value : Value) (types : TypeTable) :
    value.outline.Typed types ↔ value.Typed types := by
  obtain ⟨_, _, kind, _⟩ := value
  cases kind <;> rfl

theorem Typed.mono {value : Value} {types types' : TypeTable} (h : value.Typed types)
    (hpointer : ∀ t, types.isPointer t = true → types'.isPointer t = true) :
    value.Typed types' := by
  unfold Typed at h ⊢
  split at h
  · exact hpointer _ h
  · exact hpointer _ h
  · trivial

theorem outline_addUser (value : Value) (user : Nat) :
    (value.addUser user).outline = value.outline := by
  unfold addUser
  split
  · rfl
  · simp [outline]

theorem outline_onFunction {f : Function → Function} (hf : ∀ g, (f g).outline = g.outline)
    (value : Value) : (value.onFunction f).outline = value.outline := by
  unfold onFunction
  split
  · rename_i g hk
    simp [outline, hk, hf]
  · rfl

end Value

namespace ValueTable

def outline? (values : ValueTable) (v : Nat) : Option Value :=
  (values.get? v).map Value.outline

theorem outline?_modify {f : Value → Value} (hf : ∀ value, (f value).outline = value.outline)
    (values : ValueTable) (v w : Nat) : (values.modify v f).outline? w = values.outline? w := by
  simp only [outline?, get?, modify, Array.getElem?_modify]
  split
  · simp [Option.map_map, Function.comp_def, hf]
  · rfl

theorem outline?_addUsers (values : ValueTable) (user : Nat) (operands : List Nat) (w : Nat) :
    (values.addUsers user operands).outline? w = values.outline? w := by
  induction operands generalizing values with
  | nil => rfl
  | cons v rest ih =>
    refine (ih _).trans ?_
    exact outline?_modify (fun value => value.outline_addUser user) values v w

theorem size_addUsers (values : ValueTable) (user : Nat) (operands : List Nat) :
    (values.addUsers user operands).size = values.size := by
  induction operands generalizing values with
  | nil => rfl
  | cons v rest ih => exact (ih _).trans (Array.size_modify ..)

theorem push_eq_ok {values values' : ValueTable} {value : Value} {v : Nat}
    (h : values.push value = .ok (v, values')) :
    v = values.size ∧ (∀ o ∈ value.operands, o < v) ∧ values'.get? v = some value ∧
      ∀ w, w ≠ v → values'.outline? w = values.outline? w := by
  unfold push at h
  split at h
  · cases h
  · rename_i hnone
    obtain ⟨rfl, rfl⟩ : values.size = v ∧ _ = values' := by simpa using h
    have hsize : (values.addUsers values.size value.operands).entries.size = values.size :=
      values.size_addUsers values.size value.operands
    refine ⟨rfl, ?_, ?_, ?_⟩
    · simpa [List.find?_eq_none] using hnone
    · rw [get?, Array.getElem?_push, if_pos hsize.symm]
    · intro w hw
      rw [← values.outline?_addUsers values.size value.operands w]
      simp [outline?, get?, Array.getElem?_push, hsize, hw]

end ValueTable

namespace TypeTable

theorem get?_push {types : TypeTable} {t : Nat} {ty : Ty} (new : Ty)
    (h : types.get? t = some ty) : (types.push new).2.get? t = some ty := by
  have hne : t ≠ types.entries.size := Nat.ne_of_lt (lt_size_of_get? h)
  simpa [push, get?, Array.getElem?_push, hne] using h

theorem get?_push_self (types : TypeTable) (ty : Ty) :
    (types.push ty).2.get? (types.push ty).1 = some ty := by
  simp [push, get?, size]

theorem get?_intern_self (types : TypeTable) (ty : Ty) :
    (types.intern ty).2.get? (types.intern ty).1 = some ty := by
  unfold intern
  split
  · rename_i t ht
    rw [Array.idxOf?_eq_map_finIdxOf?_val] at ht
    obtain ⟨i, hi, rfl⟩ := Option.map_eq_some_iff.mp ht
    exact Array.getElem?_eq_some_iff.mpr ⟨i.isLt, (Array.finIdxOf?_eq_some_iff.mp hi).1⟩
  · exact types.get?_push_self ty

theorem get?_setStruct {types : TypeTable} {t u : Nat} (s : StructType) (h : u ≠ t) :
    (types.setStruct t s).get? u = types.get? u := by
  simp [setStruct, get?, h.symm]

theorem get?_namedStruct {types : TypeTable} {t : Nat} {ty : Ty} (name : String)
    (h : types.get? t = some ty) :
    (types.namedStruct name).2.get? t = some ty ∧ t ≠ (types.namedStruct name).1 := by
  have hne : t ≠ types.size := Nat.ne_of_lt (lt_size_of_get? h)
  unfold namedStruct
  split
  · exact ⟨get?_push _ h, hne⟩
  · exact ⟨@get?_push { types with nextSuffix := _ } t ty _ h, hne⟩

/-- One change to a table of types. -/
inductive Edit (types : TypeTable) : TypeTable → Prop
  | intern (ty : Ty) (h : ty.struct?.bind StructType.name = none) : Edit types (types.intern ty).2
  | declare (name : String) : Edit types (types.namedStruct name).2
  | define (name : String) (members : List Nat) (isUnion : Bool) :
      Edit types (types.defineWith name members isUnion).2
  | setBody {t : Nat} {members : List Nat} {packed : Bool} {types' : TypeTable}
      (h : types.setBody t members packed = .ok types') : Edit types types'

/-- Only a struct that waits for its body ever changes. -/
theorem Edit.get?_of_settled {types types' : TypeTable} (h : types.Edit types') {t : Nat} {ty : Ty}
    (ht : types.get? t = some ty) (hty : ty.awaitsBody = false) : types'.get? t = some ty := by
  cases h with
  | intern new _ =>
    unfold TypeTable.intern
    split
    · exact ht
    · exact get?_push new ht
  | declare name => exact (get?_namedStruct name ht).1
  | define name members isUnion =>
    obtain ⟨hget, hne⟩ := get?_namedStruct name ht
    unfold defineWith
    dsimp only
    split
    · exact (get?_setStruct _ hne).trans hget
    · exact hget
  | setBody hbody =>
    unfold TypeTable.setBody at hbody
    split at hbody
    · cases hbody
    · rename_i t' s hs
      split at hbody
      · cases hbody
      · cases hbody
      · rename_i name hname hnone
        obtain rfl := Except.ok.inj hbody
        refine (get?_setStruct _ ?_).trans ht
        rintro rfl
        rw [hs] at ht
        cases ht
        simp [Ty.awaitsBody, hname, hnone] at hty
    · cases hbody

theorem Edit.get? {types types' : TypeTable} (h : types.Edit types') {t : Nat} {ty : Ty}
    (ht : types.get? t = some ty) (hty : ty.struct? = none) : types'.get? t = some ty := by
  apply h.get?_of_settled ht
  cases ty with
  | struct s => cases hty
  | _ => rfl

end TypeTable

namespace Program

/-- A global whose own type points to the type of its value. -/
def IsGlobal (p : Program) (g : Nat) : Prop :=
  ∃ value gl, p.values.get? g = some value ∧ value.global? = some gl ∧
    p.types.get? value.type = some (.pointer gl.valueType)

/-- A function whose own type points to its signature. -/
def IsFunction (p : Program) (v : Nat) : Prop :=
  ∃ value f, p.values.get? v = some value ∧ value.function? = some f ∧
    p.types.get? value.type = some (.pointer f.signature)

/-- The definition that goes by a name. -/
def Names (p : Program) (name : String) (v : Nat) : Prop :=
  ∃ value, p.values.get? v = some value ∧ value.name = some name ∧ value.isDeclaration = false

/-- The symbols once a value is listed, which goes by its name if it is a
definition. -/
def Enters (p : Program) (v : Nat) (symbols : Std.TreeMap String Nat) : Prop :=
  symbols = p.symbols ∨ ∃ name, p.Names name v ∧ symbols = p.symbols.insert name v

/-- One change to a program. Only a raw one adds a value of any type. -/
inductive Edit (raw : Bool) (p : Program) : Program → Prop
  | types {types : TypeTable} (h : p.types.Edit types) : Edit raw p { p with types := types }
  | push {value : Value} {v : Nat} {values : ValueTable}
      (ht : raw = true ∨ value.Typed p.types) (h : p.values.push value = .ok (v, values)) :
      Edit raw p { p with values := values }
  | onFunction (v : Nat) {f : Function → Function} (h : ∀ g, (f g).outline = g.outline) :
      Edit raw p { p with values := p.values.modify v (Value.onFunction f) }
  | addModule (name : String) : Edit raw p { p with modules := p.modules.push { name } }
  | listGlobal {index g : Nat} {symbols : Std.TreeMap String Nat} (hi : index < p.modules.size)
      (h : p.IsGlobal g) (hs : p.Enters g symbols) :
      Edit raw p { p with
        symbols := symbols
        modules := p.modules.modify index fun m => { m with globals := m.globals ++ [g] } }
  | listFunction {index v : Nat} {symbols : Std.TreeMap String Nat} (hi : index < p.modules.size)
      (h : p.IsFunction v) (hs : p.Enters v symbols) :
      Edit raw p { p with
        symbols := symbols
        modules := p.modules.modify index fun m => { m with functions := m.functions ++ [v] } }

abbrev Edits (raw : Bool) : Program → Program → Prop :=
  Relation.ReflTransGen (Edit raw)

variable {raw : Bool}

theorem Edit.outline? {p p' : Program} (h : p.Edit raw p') {v : Nat} {value : Value}
    (hv : p.values.get? v = some value) : p'.values.outline? v = some value.outline := by
  have hout : p.values.outline? v = some value.outline := by simp [ValueTable.outline?, hv]
  cases h with
  | push _ h =>
    obtain ⟨rfl, _, _, hrest⟩ := ValueTable.push_eq_ok h
    exact (hrest v (Nat.ne_of_lt (ValueTable.lt_size_of_get? hv))).trans hout
  | onFunction w hf =>
    exact (ValueTable.outline?_modify (Value.outline_onFunction hf) ..).trans hout
  | _ => exact hout

theorem Edit.pointer {p p' : Program} (h : p.Edit raw p') {t u : Nat}
    (ht : p.types.get? t = some (.pointer u)) : p'.types.get? t = some (.pointer u) := by
  cases h with
  | types h => exact h.get? ht rfl
  | _ => exact ht

theorem Edit.isGlobal {p p' : Program} (h : p.Edit raw p') {g : Nat} (hg : p.IsGlobal g) :
    p'.IsGlobal g := by
  obtain ⟨value, gl, hv, hgl, ht⟩ := hg
  obtain ⟨value', hv', hout⟩ := Option.map_eq_some_iff.mp (h.outline? hv)
  refine ⟨value', gl, hv', ?_, h.pointer ?_⟩
  · rwa [← value'.outline_global?, hout, value.outline_global?]
  · rwa [← value'.outline_type, hout, value.outline_type]

theorem Edit.isFunction {p p' : Program} (h : p.Edit raw p') {v : Nat} (hv : p.IsFunction v) :
    p'.IsFunction v := by
  obtain ⟨value, f, hvalue, hf, ht⟩ := hv
  obtain ⟨value', hvalue', hout⟩ := Option.map_eq_some_iff.mp (h.outline? hvalue)
  have hfunction : value'.function?.map Function.outline = some f.outline := by
    rw [← value'.outline_function?, hout, value.outline_function?, hf, Option.map_some]
  obtain ⟨f', hf', houtline⟩ := Option.map_eq_some_iff.mp hfunction
  have hsignature : f'.signature = f.signature := (congrArg Function.signature houtline :)
  refine ⟨value', f', hvalue', hf', ?_⟩
  rw [hsignature, ← value'.outline_type, hout, value.outline_type]
  exact h.pointer ht

theorem Edit.names {p p' : Program} (h : p.Edit raw p') {name : String} {v : Nat}
    (hv : p.Names name v) : p'.Names name v := by
  obtain ⟨value, hvalue, hname, hdef⟩ := hv
  obtain ⟨value', hvalue', hout⟩ := Option.map_eq_some_iff.mp (h.outline? hvalue)
  refine ⟨value', hvalue', ?_, ?_⟩
  · rwa [← value'.outline_name, hout, value.outline_name]
  · rwa [← value'.outline_isDeclaration, hout, value.outline_isDeclaration]

theorem Edit.size_modules {p p' : Program} (h : p.Edit raw p') :
    p.modules.size ≤ p'.modules.size := by
  cases h with
  | addModule name => simp
  | listGlobal | listFunction => simp
  | _ => exact Nat.le_refl _

/-- What each edit keeps is kept by many. -/
theorem Edits.keeps {p p' : Program} (h : p.Edits raw p') {holds : Program → Prop}
    (hstep : ∀ p p', p.Edit raw p' → holds p → holds p') (hp : holds p) : holds p' := by
  induction h with
  | refl => exact hp
  | tail _ h ih => exact hstep _ _ h ih

theorem Edits.lt_size_modules {p p' : Program} (h : p.Edits raw p') {index : Nat}
    (hi : index < p.modules.size) : index < p'.modules.size :=
  h.keeps (fun _ _ h hlt => Nat.lt_of_lt_of_le hlt h.size_modules) hi

/-- Values are written with older values, and only globals are listed as such. -/
structure WellFormed (p : Program) : Prop where
  operands : ∀ v value, p.values.get? v = some value → ∀ o ∈ value.operands, o < v
  globals : ∀ m ∈ p.modules, ∀ g ∈ m.globals, p.IsGlobal g

/-- After an edit a value is an old one, all but its users and its function, or
the one that was added. -/
theorem Edit.value_cases {p p' : Program} (h : p.Edit raw p') {v : Nat} {value : Value}
    (hv : p'.values.get? v = some value) :
    (∃ before, p.values.get? v = some before ∧ before.outline = value.outline) ∨
      ((raw = true ∨ value.Typed p.types) ∧ ∀ o ∈ value.operands, o < v) := by
  have hold : ∀ values : ValueTable, values.get? v = some value →
      values.outline? v = p.values.outline? v →
      ∃ before, p.values.get? v = some before ∧ before.outline = value.outline := by
    intro values hv hout
    rw [ValueTable.outline?, hv, ValueTable.outline?, Option.map_some] at hout
    exact Option.map_eq_some_iff.mp hout.symm
  cases h with
  | @push new n values ht h =>
    obtain ⟨_, hops, hnew, hrest⟩ := ValueTable.push_eq_ok h
    by_cases hvn : v = n
    · subst hvn
      obtain rfl : new = value := Option.some.inj (hnew.symm.trans hv)
      exact .inr ⟨ht, hops⟩
    · exact .inl (hold _ hv (hrest v hvn))
  | onFunction w hf =>
    exact .inl (hold _ hv (ValueTable.outline?_modify (Value.outline_onFunction hf) ..))
  | _ => exact .inl ⟨value, hv, rfl⟩

theorem Edit.operands {p p' : Program} (h : p.Edit raw p')
    (hp : ∀ v value, p.values.get? v = some value → ∀ o ∈ value.operands, o < v)
    {v : Nat} {value : Value} (hv : p'.values.get? v = some value) :
    ∀ o ∈ value.operands, o < v := by
  obtain ⟨before, hbefore, heq⟩ | ⟨_, hops⟩ := h.value_cases hv
  · have hops := hp v before hbefore
    rwa [← before.outline_operands, heq, value.outline_operands] at hops
  · exact hops

theorem mem_modify {modules : Array Module} {index : Nat} {f : Module → Module} {m : Module}
    (h : m ∈ modules.modify index f) : m ∈ modules ∨ ∃ m' ∈ modules, m = f m' := by
  obtain ⟨j, hj, rfl⟩ := Array.getElem_of_mem h
  rw [Array.getElem_modify]
  split
  · exact .inr ⟨_, Array.getElem_mem _, rfl⟩
  · exact .inl (Array.getElem_mem _)

theorem Edit.wellFormed {p p' : Program} (h : p.Edit raw p') (hp : p.WellFormed) :
    p'.WellFormed := by
  refine ⟨fun v value hv => h.operands hp.operands hv, ?_⟩
  intro m hm g hg
  have hkept : ∀ m' ∈ p.modules, g ∈ m'.globals → p'.IsGlobal g :=
    fun m' hm' hg' => h.isGlobal (hp.globals m' hm' g hg')
  cases h with
  | addModule name =>
    rcases Array.mem_push.mp hm with hm | rfl
    · exact hkept m hm hg
    · simp at hg
  | listGlobal index hglobal =>
    dsimp only at hm
    rcases mem_modify hm with hm | ⟨m', hm', rfl⟩
    · exact hkept m hm hg
    · rcases List.mem_append.mp hg with hg | hg
      · exact hkept m' hm' hg
      · obtain rfl := List.mem_singleton.mp hg
        exact hglobal
  | listFunction index v =>
    dsimp only at hm
    rcases mem_modify hm with hm | ⟨m', hm', rfl⟩
    · exact hkept m hm hg
    · exact hkept m' hm' hg
  | _ => exact hkept m hm hg

theorem Edits.wellFormed {p p' : Program} (h : p.Edits raw p') (hp : p.WellFormed) :
    p'.WellFormed :=
  h.keeps (fun _ _ h => h.wellFormed) hp

def Typed (p : Program) : Prop :=
  ∀ v value, p.values.get? v = some value → value.Typed p.types

theorem Edit.typed {p p' : Program} (h : p.Edit false p') (hp : p.Typed) : p'.Typed := by
  intro v value hv
  have hpointer : ∀ t, p.types.isPointer t = true → p'.types.isPointer t = true := by
    intro t ht
    obtain ⟨u, hu⟩ := Option.isSome_iff_exists.mp ht
    simp [TypeTable.isPointer, TypeTable.pointee?, h.pointer (TypeTable.get?_of_pointee? hu),
      Ty.pointee?]
  refine Value.Typed.mono ?_ hpointer
  obtain ⟨before, hbefore, heq⟩ | ⟨ht, _⟩ := h.value_cases hv
  · rw [← value.outline_typed, ← heq, before.outline_typed]
    exact hp v before hbefore
  · exact ht.resolve_left (by simp)

theorem Edits.typed {p p' : Program} (h : p.Edits false p') (hp : p.Typed) : p'.Typed :=
  h.keeps (fun _ _ h => h.typed) hp

end Program

namespace Build

variable {raw : Bool}

/-- Whether it fails or not, a step from `d` leaves a program behind that is edited. -/
def EditsAt (raw : Bool) (d : Draft) {α : Type} (step : Build α) : Prop :=
  Meets step d (fun _ d' => d.program.Edits raw d'.program)
    (fun d' => d.program.Edits raw d'.program)

def Edits (raw : Bool) {α : Type} (step : Build α) : Prop :=
  ∀ d, EditsAt raw d step

theorem EditsAt.bind {α β : Type} {d : Draft} {step : Build α} {next : α → Build β}
    (h : EditsAt raw d step) (hnext : ∀ a, Edits raw (next a)) : EditsAt raw d (step >>= next) := by
  refine Meets.bind h ?_
  intro a d' hd'
  exact (hnext a d').mono (fun _ _ h' => hd'.trans h') (fun _ h' => hd'.trans h')

theorem Edits.bind {α β : Type} {step : Build α} {next : α → Build β} (h : Edits raw step)
    (hnext : ∀ a, Edits raw (next a)) : Edits raw (step >>= next) :=
  fun d => (h d).bind hnext

theorem Edits.map {α β : Type} {step : Build α} (f : α → β) (h : Edits raw step) :
    Edits raw (f <$> step) := by
  rw [map_eq_pure_bind]
  exact h.bind fun _ _ => .refl

theorem edits_pure {α : Type} (a : α) : Edits raw (pure a) :=
  fun _ => .refl

theorem edits_throw {α : Type} (e : ProgramError) : Edits raw (throw e : Build α) :=
  fun _ => .refl

theorem edits_ask {α : Type} (f : Draft → Except ProgramError α) : Edits raw (ask f) := by
  intro d
  unfold EditsAt Meets ask
  cases f d <;> exact .refl

theorem edits_onTypes {α : Type} {f : TypeTable → α × TypeTable}
    (hf : ∀ types : TypeTable, types.Edit (f types).2) : Edits raw (onTypes f) :=
  fun d => .single (.types (hf d.program.types))

theorem edits_intern {f : TypeTable → Nat × TypeTable} {ty : Ty}
    (hf : ∀ types : TypeTable, f types = types.intern ty)
    (hty : ty.struct?.bind StructType.name = none) : Edits raw (onTypes f) :=
  edits_onTypes fun types => hf types ▸ .intern ty hty

theorem editsAt_pushValue {d : Draft} {value : Value}
    (ht : raw = true ∨ value.Typed d.program.types) : EditsAt raw d (pushValue value) := by
  unfold EditsAt Meets pushValue
  cases h : d.program.values.push value with
  | error e => exact .refl
  | ok pushed => exact .single (.push ht h)

theorem edits_pushValue {value : Value} (ht : ∀ types, value.Typed types) :
    Edits raw (pushValue value) :=
  fun _ => editsAt_pushValue (.inr (ht _))

theorem edits_modifyFunction (v : Nat) {f : Function → Function}
    (hf : ∀ g, (f g).outline = g.outline) : Edits raw (modifyFunction v f) :=
  fun _ => .single (.onFunction v hf)

theorem edits_setBody (t : Nat) (members : List Nat) (packed : Bool) :
    Edits raw (setBody t members packed) := by
  intro d
  unfold EditsAt Meets setBody
  cases h : d.program.types.setBody t members packed with
  | error e => exact .refl
  | ok types => exact .single (.types (.setBody h))

/-- A definition is listed right after it got its name. -/
theorem editsAt_define {d : Draft} {name : String} {v home : Nat} {update : Module → Module}
    (hn : d.program.Names name v)
    (hedit : ∀ symbols, d.program.Enters v symbols → d.program.Edit raw
      { d.program with symbols := symbols, modules := d.program.modules.modify home update }) :
    EditsAt raw d (do
      defineSymbol name v
      modifyModule home update
      return v) := by
  have hdefine : Meets (defineSymbol name v) d
      (fun _ d' => d' = { d with program :=
        { d.program with symbols := d.program.symbols.insert name v } })
      (fun d' => d.program.Edits raw d'.program) := by
    unfold Meets defineSymbol
    by_cases hc : d.program.symbols.contains name = true
    · simp only [hc, if_true]
      exact .refl
    · simp only [hc, Bool.false_eq_true, if_false]
  refine Meets.bind hdefine ?_
  rintro _ _ rfl
  exact .single (hedit _ (.inr ⟨name, hn, rfl⟩))

theorem currentModule_meets (d : Draft) :
    Meets currentModule d (fun home d' => d = d' ∧ home < d.program.modules.size)
      (fun d' => d.program.Edits raw d'.program) := by
  unfold currentModule
  rw [meets_get_bind]
  have hask : Meets (ask fun d => d.program.getModule d.home) d
      (fun _ d' => d = d' ∧ d.home < d.program.modules.size)
      (fun d' => d.program.Edits raw d'.program) := by
    unfold Meets ask Program.getModule
    by_cases hlt : d.home < d.program.modules.size
    · simp [hlt]
    · simp only [Array.getElem?_eq_none (Nat.le_of_not_lt hlt)]
      exact .refl
  refine hask.bind ?_
  rintro _ _ ⟨rfl, hlt⟩
  exact ⟨rfl, hlt⟩

theorem edits_pushArguments (parent index : Nat) (types : List Nat) :
    Edits raw (pushArguments parent index types) := by
  induction types generalizing index with
  | nil => exact edits_pure []
  | cons type rest ih =>
    refine (edits_pushValue fun _ => by trivial).bind fun _ => ?_
    exact (ih (index + 1)).bind fun _ => edits_pure _

theorem pointerTo_meets (d : Draft) (t : Nat) :
    Meets (onTypes (·.pointerTo t)) d
      (fun type d' => d.program.Edits raw d'.program ∧
        d'.program.types.get? type = some (.pointer t))
      (fun d' => d.program.Edits raw d'.program) :=
  ⟨edits_intern (fun _ => rfl) rfl d, TypeTable.get?_intern_self _ _⟩

theorem pushValue_meets {d : Draft} {value : Value}
    (ht : raw = true ∨ value.Typed d.program.types) :
    Meets (pushValue value) d
      (fun v d' => d.program.Edits raw d'.program ∧ d'.program.values.get? v = some value ∧
        d'.program.types = d.program.types)
      (fun d' => d.program.Edits raw d'.program) := by
  unfold Meets pushValue
  cases h : d.program.values.push value with
  | error e => exact .refl
  | ok pushed =>
    obtain ⟨_, _, hv, _⟩ := ValueTable.push_eq_ok h
    exact ⟨.single (.push ht h), hv, rfl⟩

theorem edits_addGlobal (name : String) (valueType : Nat) (isDeclaration : Bool) :
    Edits raw (addGlobal name valueType isDeclaration) := by
  intro d
  refine Meets.bind (currentModule_meets d) ?_
  rintro home _ ⟨rfl, hhome⟩
  refine Meets.bind (pointerTo_meets d valueType) ?_
  rintro type d₁ ⟨hd₁, ht⟩
  refine ((pushValue_meets (.inr (by trivial))).mono (fun _ _ h => h) (fun _ h => hd₁.trans h)).bind
    ?_
  rintro v d₂ ⟨hd₂, hv, htypes⟩
  have hd : d.program.Edits raw d₂.program := hd₁.trans hd₂
  have hglobal : d₂.program.IsGlobal v := ⟨_, _, hv, rfl, htypes ▸ ht⟩
  have hhome₂ := hd.lt_size_modules hhome
  cases isDeclaration with
  | true => exact hd.tail (.listGlobal hhome₂ hglobal (.inl rfl))
  | false =>
    exact (editsAt_define ⟨_, hv, rfl, rfl⟩ fun _ hs => .listGlobal hhome₂ hglobal hs).mono
      (fun _ _ h => hd.trans h) (fun _ h => hd.trans h)

theorem edits_addFunction (name : String) (signature : Nat) (isDeclaration : Bool) :
    Edits raw (addFunction name signature isDeclaration) := by
  intro d
  refine Meets.bind (currentModule_meets d) ?_
  rintro home _ ⟨rfl, hhome⟩
  refine Meets.bind (edits_ask _ d) ?_
  intro shape d₁ hd₁
  refine ((pointerTo_meets d₁ signature).mono (fun _ _ h => h) (fun _ h => hd₁.trans h)).bind ?_
  rintro type d₂ ⟨hd₂, ht⟩
  refine ((pushValue_meets (.inr (by trivial))).mono (fun _ _ h => h)
    (fun _ h => (hd₁.trans hd₂).trans h)).bind ?_
  rintro v d₃ ⟨hd₃, hv, htypes⟩
  have hd : d.program.Edits raw d₃.program := (hd₁.trans hd₂).trans hd₃
  have hfunction : d₃.program.IsFunction v := ⟨_, _, hv, rfl, htypes ▸ ht⟩
  have hhome₃ := hd.lt_size_modules hhome
  cases isDeclaration with
  | true => exact hd.tail (.listFunction hhome₃ hfunction (.inl rfl))
  | false =>
    have hnames : d₃.program.Names name v := ⟨_, hv, rfl, rfl⟩
    refine Meets.bind ((edits_pushArguments v 0 shape.params d₃).mono (fun _ _ h => h)
      (fun _ h => hd.trans h)) ?_
    intro args d₄ hd₄
    have hargs : Edits raw (modifyFunction v fun f => { f with args := args }) :=
      edits_modifyFunction v fun _ => rfl
    refine Meets.bind ((hargs d₄).mono (fun _ _ h => h) (fun _ h => (hd.trans hd₄).trans h)) ?_
    intro _ d₅ hd₅
    have hd' : d₃.program.Edits raw d₅.program := hd₄.trans hd₅
    have hfunction₅ := hd'.keeps (fun _ _ h => h.isFunction) hfunction
    have hnames₅ := hd'.keeps (fun _ _ h => h.names) hnames
    refine (editsAt_define hnames₅ fun _ hs => ?_).mono (fun _ _ h => (hd.trans hd').trans h)
      (fun _ h => (hd.trans hd').trans h)
    exact .listFunction (hd'.lt_size_modules hhome₃) hfunction₅ hs

theorem editsAt_pushInstruction {d : Draft} {type : Nat} {op : Instruction}
    (ht : ∀ parent, Value.Typed { type, name := none, kind := .instruction parent op }
      d.program.types) : EditsAt raw d (pushInstruction type op) := by
  unfold EditsAt pushInstruction
  rw [meets_get_bind]
  cases d.insertion with
  | none => exact .refl
  | some parent =>
    refine (editsAt_pushValue (.inr (ht parent))).bind fun v => ?_
    refine Edits.bind (edits_modifyFunction parent ?_) fun _ => ?_
    · exact fun _ => rfl
    · exact edits_pure v

theorem edits_pushInstruction (type : Nat) {op : Instruction}
    (hop : ∀ types parent,
      Value.Typed { type, name := none, kind := .instruction parent op } types) :
    Edits raw (pushInstruction type op) :=
  fun _ => editsAt_pushInstruction (hop _)

/-- What is done with a type may count on its being a pointer. -/
theorem Edits.bind_pointer {α : Type} {step : Build Nat} {next : Nat → Build α}
    (h : ∀ d, Meets step d
      (fun type d' => d.program.Edits raw d'.program ∧ d'.program.types.isPointer type = true)
      (fun d' => d.program.Edits raw d'.program))
    (hnext : ∀ type d, d.program.types.isPointer type = true → EditsAt raw d (next type)) :
    Edits raw (step >>= next) := by
  intro d
  refine Meets.bind (h d) ?_
  rintro type d' ⟨hd', ht⟩
  exact (hnext type d' ht).mono (fun _ _ h' => hd'.trans h') (fun _ h' => hd'.trans h')

theorem pointerTo_isPointer (t : Nat) (d : Draft) :
    Meets (onTypes (·.pointerTo t)) d
      (fun type d' => d.program.Edits raw d'.program ∧ d'.program.types.isPointer type = true)
      (fun d' => d.program.Edits raw d'.program) := by
  refine (pointerTo_meets d t).mono ?_ (fun _ h => h)
  rintro type d' ⟨hd', ht⟩
  exact ⟨hd', by simp [TypeTable.isPointer, TypeTable.pointee?, ht, Ty.pointee?]⟩

theorem elementAddressType_isPointer (source : Nat) (indices : List Nat) (d : Draft) :
    Meets (elementAddressType source indices) d
      (fun type d' => d.program.Edits raw d'.program ∧ d'.program.types.isPointer type = true)
      (fun d' => d.program.Edits raw d'.program) := by
  refine Meets.bind (edits_ask _ d) ?_
  intro element d' hd'
  refine (pointerTo_isPointer element d').mono ?_ (fun _ h => hd'.trans h)
  exact fun _ _ h => ⟨hd'.trans h.1, h.2⟩

theorem edits_pushIndices (int32 int64 current : Nat) (indices : List Int) :
    Edits raw (pushIndices int32 int64 current indices) := by
  induction indices generalizing current with
  | nil => exact edits_pure []
  | cons index rest ih =>
    refine (edits_ask _).bind fun isMember => (edits_pushValue fun _ => by trivial).bind fun v => ?_
    exact (edits_ask _).bind fun next => (ih next).bind fun _ => edits_pure _

theorem edits_constantAddress (source base : Nat) (indices : List Int) :
    Edits raw (constantAddress source base indices) := by
  refine (edits_intern (fun _ => rfl) rfl).bind fun int32 => ?_
  refine (edits_intern (fun _ => rfl) rfl).bind fun int64 => ?_
  have hlast : ∀ operands, Edits raw (do
      let type ← elementAddressType source operands
      pushConstant type (.expr (.elementAddress ⟨source, base, operands⟩))) :=
    fun operands => Edits.bind_pointer (elementAddressType_isPointer source operands)
      fun _ _ ht => editsAt_pushValue (.inr ht)
  cases indices with
  | nil => exact hlast []
  | cons first rest =>
    refine (edits_pushValue fun _ => by trivial).bind fun v => ?_
    exact (edits_pushIndices int32 int64 source rest).bind fun vs => hlast (v :: vs)

theorem edits_insertInto (v : Nat) : Edits raw (insertInto v) := by
  refine (edits_ask _).bind fun value => ?_
  cases value.function? with
  | none => exact edits_throw _
  | some f =>
    dsimp only
    split
    · exact edits_throw _
    · exact fun _ => .refl

end Build

/-- Whether a command adds a value just as it is given. -/
def Command.isRaw : Command → Bool
  | .value .. => true
  | _ => false

theorem Command.run_edits {raw : Bool} (c : Command) (hraw : c.isRaw = true → raw = true) :
    Build.Edits raw c.run := by
  open Build in
  cases c with
  | void | int | float | pointerTo | arrayOf | functionOf | literalStruct =>
    exact (edits_intern (fun _ => rfl) rfl).map _
  | namedStruct name => exact (edits_onTypes fun _ => .declare name).map _
  | setBody t members packed => exact (edits_setBody t members packed).map _
  | defineStruct name members => exact (edits_onTypes fun _ => .define name members false).map _
  | defineUnion name members => exact (edits_onTypes fun _ => .define name members true).map _
  | addModule name => exact Edits.map _ fun _ => .single (.addModule name)
  | enterModule index => exact Edits.map _ fun _ => .refl
  | global name t isDeclaration => exact (edits_addGlobal name t isDeclaration).map _
  | function name t isDeclaration => exact (edits_addFunction name t isDeclaration).map _
  | arguments v => exact (edits_ask _).map _
  | insertInto v => exact (edits_insertInto v).map _
  | alloca t =>
    refine Edits.map _ (Edits.bind_pointer (pointerTo_isPointer t) ?_)
    exact fun _ _ ht => editsAt_pushInstruction fun _ => ht
  | store | ret =>
    refine Edits.map _ ((edits_intern (fun _ => rfl) rfl).bind fun _ => ?_)
    exact edits_pushInstruction _ fun _ _ => by trivial
  | call | load =>
    refine Edits.map _ ((edits_ask _).bind fun _ => (edits_ask _).bind fun _ => ?_)
    exact edits_pushInstruction _ fun _ _ => by trivial
  | cast | instruction => exact (edits_pushInstruction _ fun _ _ => by trivial).map _
  | elementAddress t base indices =>
    refine Edits.map _ (Edits.bind_pointer (elementAddressType_isPointer t indices) ?_)
    exact fun _ _ _ => editsAt_pushInstruction fun _ => trivial
  | blockAddress =>
    refine Edits.map _ ((edits_intern (fun _ => rfl) rfl).bind fun _ => ?_)
    exact (edits_intern (fun _ => rfl) rfl).bind fun _ => edits_pushValue fun _ => by trivial
  | constantAddress t base indices => exact (edits_constantAddress t base indices).map _
  | integer | null | undefined | constantCast | constantExpr =>
    exact (edits_pushValue fun _ => by trivial).map _
  | value => exact Edits.map _ fun _ => editsAt_pushValue (.inl (hraw rfl))

theorem Draft.runScript_edits {raw : Bool} (d : Draft) (commands : List Command)
    (hraw : ∀ c ∈ commands, c.isRaw = true → raw = true) :
    d.program.Edits raw (d.runScript commands).2.program := by
  induction commands generalizing d with
  | nil => exact .refl
  | cons c rest ih =>
    have hstep := c.run_edits (hraw c (List.mem_cons_self ..)) d
    have hrun : d.program.Edits raw (c.step d).2.program := by
      unfold Build.EditsAt Meets at hstep
      unfold Command.step
      split at hstep <;> simp_all
    exact hrun.trans (ih _ fun c hc => hraw c (List.mem_cons_of_mem _ hc))

/-- Whatever its commands are, a script writes a well-formed program. -/
theorem Draft.runScript_wellFormed (layout : DataLayout) (commands : List Command) :
    ((Draft.start layout).runScript commands).2.program.WellFormed := by
  refine ((Draft.start layout).runScript_edits commands (fun _ _ _ => rfl)).wellFormed ⟨?_, ?_⟩
  · intro v value hv
    simp [Draft.start, ValueTable.get?] at hv
  · intro m hm
    simp [Draft.start] at hm

/-- A script with no raw command gives all addresses the type of a pointer. -/
theorem Draft.runScript_typed (layout : DataLayout) {commands : List Command}
    (h : ∀ c ∈ commands, c.isRaw = false) :
    ((Draft.start layout).runScript commands).2.program.Typed := by
  refine ((Draft.start layout).runScript_edits commands ?_).typed ?_
  · intro c hc hraw
    simp [h c hc] at hraw
  · intro v value hv
    simp [Draft.start, ValueTable.get?] at hv

end AbstractMemory
