import AbstractMemory.Proofs.Callees
import AbstractMemory.Proofs.Entries
import AbstractMemory.Proofs.Geometry
import AbstractMemory.Proofs.Validation
import Mathlib

/-! Which values a model has nodes for. Each pass over a module enters the nodes of
what it goes through, and no value is gone through twice, so a model has just
these nodes, its tally counts them, and the arena never stands in the way of one. -/

namespace AbstractMemory

open Steps

theorem AllocatorTable.contains_insert (table : AllocatorTable) (a : Allocator) (name : String) :
    (table.insert a).contains name = (a.name == name || table.contains name) := by
  rw [contains, lookup_insert]
  by_cases h : a.name = name
  · simp [h]
  · simp [h, contains]

theorem AllocatorTable.contains_ofList (allocators : List Allocator) (name : String) :
    (ofList allocators).contains name = true ↔ ∃ a ∈ allocators, a.name = name := by
  have hrun : ∀ table, (allocators.foldl insert table).contains name = true ↔
      table.contains name = true ∨ ∃ a ∈ allocators, a.name = name := by
    induction allocators with
    | nil => simp
    | cons a rest ih =>
      intro table
      rw [List.foldl_cons, ih, contains_insert]
      simp [or_assoc, or_left_comm]
  rw [ofList, hrun]
  simp [contains, lookup]

namespace Program

variable {p : Program} {i j u v w : Nat} {f : Function} {value : Value} {e : Role × Nat}
  {allocators : List Allocator} {functionObjects : Bool}

def DefinesGlobal (p : Program) (v : Nat) : Prop :=
  ∃ value, p.values.get? v = some value ∧ value.global?.isSome = true ∧
    value.isDeclaration = false

/-- The nodes of a global. -/
inductive GlobalEntry (p : Program) (v : Nat) : Role × Nat → Prop
  | value (h : p.DefinesGlobal v) : GlobalEntry p v (.value, v)
  | object (h : p.DefinesGlobal v) : GlobalEntry p v (.object, v)

/-- The nodes of a function apart from those of its body. -/
inductive FunctionEntry (p : Program) (functionObjects : Bool) (v : Nat) : Role × Nat → Prop
  | result {f : Function} {shape : FunctionType} (h : p.Defines v f)
      (hshape : p.types.get? f.signature = some (.function shape))
      (hresult : p.types.isVoid shape.result = false) :
      FunctionEntry p functionObjects v (.result, v)
  | variadic {f : Function} {shape : FunctionType} (h : p.Defines v f)
      (hshape : p.types.get? f.signature = some (.function shape))
      (hvariadic : shape.variadic = true) : FunctionEntry p functionObjects v (.variadic, v)
  | argument {f : Function} {a : Nat} (h : p.Defines v f) (ha : a ∈ f.args) :
      FunctionEntry p functionObjects v (.value, a)
  | value {f : Function} (h : p.Defines v f) : FunctionEntry p functionObjects v (.value, v)
  | object {f : Function} (h : p.Defines v f) (hon : functionObjects = true)
      (htaken : p.AddressTaken v) : FunctionEntry p functionObjects v (.object, v)

def IsAllocator (p : Program) (allocators : List Allocator) (v : Nat) : Prop :=
  ∃ value, p.values.get? v = some value ∧ ∃ a ∈ allocators, value.name = some a.name

/-- An instruction that makes an object: a local variable, or a call of an
allocator. -/
inductive Allocates (p : Program) (allocators : List Allocator) (u : Nat) : Prop
  | alloca {value : Value} {t : Nat} (hu : p.values.get? u = some value)
      (hop : value.instruction? = some (.alloca t))
  | heap {callee : Nat} (hcall : p.Calls u callee) (hname : p.IsAllocator allocators callee)

/-- The nodes of the body of a function. Allocators are taken as they are, whatever
their bodies are. -/
inductive BodyEntry (p : Program) (allocators : List Allocator) (v : Nat) : Role × Nat → Prop
  | value {f : Function} {u : Nat} (h : p.Defines v f) (hname : ¬ p.IsAllocator allocators v)
      (hu : u ∈ f.body) : BodyEntry p allocators v (.value, u)
  | object {f : Function} {u : Nat} (h : p.Defines v f) (hname : ¬ p.IsAllocator allocators v)
      (hu : u ∈ f.body) (hmakes : p.Allocates allocators u) : BodyEntry p allocators v (.object, u)

inductive ModuleEntry (p : Program) (allocators : List Allocator) (functionObjects : Bool)
    (m : Module) (e : Role × Nat) : Prop
  | global {v : Nat} (hv : v ∈ m.globals) (h : p.GlobalEntry v e)
  | function {v : Nat} (hv : v ∈ m.functions) (h : p.FunctionEntry functionObjects v e)
  | body {v : Nat} (hv : v ∈ m.functions) (h : p.BodyEntry allocators v e)

/-- A model of the program has a node for the value in this role. -/
def Expects (p : Program) (config : Config) (role : Role) (v : Nat) : Prop :=
  ∃ m ∈ p.modules, p.ModuleEntry config.allocators config.functionObjects m (role, v)

/-! ### Nothing is gone through twice -/

inductive Stage where
  | globals
  | functions
  | bodies

def stage? (p : Program) (u : Nat) : Option Stage :=
  match (p.values.get? u).map Value.kind with
  | some (.global _) => some .globals
  | some (.function _) | some (.argument _ _) => some .functions
  | some (.instruction _ _) => some .bodies
  | _ => none

/-- The global or function that a value belongs to. -/
def owner (p : Program) (u : Nat) : Nat :=
  match (p.values.get? u).map Value.kind with
  | some (.argument parent _) | some (.instruction parent _) => parent
  | _ => u

def home? (p : Program) (v : Nat) : Option Nat :=
  match (p.values.get? v).map Value.kind with
  | some (.global global) => some global.home
  | some (.function f) => some f.home
  | _ => none

/-- The value is gone through at this stage of the module, as part of `v`. -/
structure Spot (p : Program) (i : Nat) (stage : Stage) (v u : Nat) : Prop where
  stage : p.stage? u = some stage
  owner : p.owner u = v
  home : p.home? v = some i

theorem Spot.unique {stage stage' : Stage} (h : p.Spot i stage v u) (h' : p.Spot j stage' w u) :
    i = j ∧ stage = stage' ∧ v = w := by
  obtain rfl : v = w := h.owner.symm.trans h'.owner
  exact ⟨Option.some.inj (h.home.symm.trans h'.home),
    Option.some.inj (h.stage.symm.trans h'.stage), rfl⟩

theorem GlobalAt.spot (h : p.GlobalAt i v) : p.Spot i .globals v v := by
  obtain ⟨value, global, hvalue, hkind, rfl⟩ := h
  constructor <;> simp [stage?, owner, home?, hvalue, hkind]

theorem FunctionAt.spot (h : p.FunctionAt i v) : p.Spot i .functions v v := by
  obtain ⟨value, f, hvalue, hkind, hf⟩ := h
  constructor <;> simp [stage?, owner, home?, hvalue, hkind, hf.home]

theorem FunctionAt.argument_spot (h : p.FunctionAt i v) (ha : p.IsArgument v u) :
    p.Spot i .functions v u := by
  obtain ⟨value, index, hvalue, hkind⟩ := ha
  refine ⟨?_, ?_, h.spot.home⟩ <;> simp [stage?, owner, hvalue, hkind]

theorem FunctionAt.instruction_spot (h : p.FunctionAt i v) (hu : p.IsInstruction v u) :
    p.Spot i .bodies v u := by
  obtain ⟨value, op, hvalue, hkind, _⟩ := hu
  refine ⟨?_, ?_, h.spot.home⟩ <;> simp [stage?, owner, hvalue, hkind]

theorem Defines.of_get? (h : p.Defines v f) (hv : p.values.get? v = some value) :
    value.function? = some f ∧ value.isDeclaration = false ∧ value.isIntrinsic = false := by
  obtain ⟨value', hv', hrest⟩ := h
  obtain rfl := Option.some.inj (hv.symm.trans hv')
  exact hrest

theorem defines_of_not (hv : p.values.get? v = some value) (hf : value.function? = some f)
    (h : ¬ (value.isDeclaration || value.isIntrinsic) = true) : p.Defines v f := by
  rw [Bool.or_eq_true, not_or] at h
  exact ⟨value, hv, hf, by simpa using h.1, by simpa using h.2⟩

theorem Defines.unique {f' : Function} (h : p.Defines v f) (h' : p.Defines v f') : f = f' := by
  obtain ⟨value, hvalue, hf, _⟩ := h'
  exact Option.some.inj ((h.of_get? hvalue).1.symm.trans hf)

theorem FunctionAt.arranges (h : p.FunctionAt i v) (hf : p.Defines v f) : p.Arranges i v f := by
  obtain ⟨value, f', hvalue, hkind, harr⟩ := h
  have hsame : f' = f := by simpa [Value.function?, hkind] using (hf.of_get? hvalue).1
  exact hsame ▸ harr

theorem FunctionEntry.defines (h : p.FunctionEntry functionObjects v e) : ∃ f, p.Defines v f := by
  cases h <;> exact ⟨_, ‹_›⟩

theorem functionEntry_iff (hdef : p.Defines v f) {shape : FunctionType}
    (hshape : p.types.get? f.signature = some (.function shape)) :
    p.FunctionEntry functionObjects v e ↔
      (!p.types.isVoid shape.result) = true ∧ e = (.result, v) ∨
      shape.variadic = true ∧ e = (.variadic, v) ∨ (∃ a ∈ f.args, e = (.value, a)) ∨
      e = (.value, v) ∨ (functionObjects = true ∧ p.AddressTaken v) ∧ e = (.object, v) := by
  have hone : ∀ f' shape', p.Defines v f' → p.types.get? f'.signature = some (.function shape') →
      shape' = shape := by
    intro f' shape' hdef' hshape'
    rw [← hdef.unique hdef', hshape] at hshape'
    simpa using hshape'.symm
  constructor
  · intro h
    cases h with
    | result hdef' hshape' hresult =>
      rw [hone _ _ hdef' hshape'] at hresult
      exact .inl ⟨by simp [hresult], rfl⟩
    | variadic hdef' hshape' hvariadic =>
      exact .inr (.inl ⟨hone _ _ hdef' hshape' ▸ hvariadic, rfl⟩)
    | argument hdef' ha => exact .inr (.inr (.inl ⟨_, hdef.unique hdef' ▸ ha, rfl⟩))
    | value _ => exact .inr (.inr (.inr (.inl rfl)))
    | object _ hon htaken => exact .inr (.inr (.inr (.inr ⟨⟨hon, htaken⟩, rfl⟩)))
  · rintro (⟨hresult, rfl⟩ | ⟨hvariadic, rfl⟩ | ⟨a, ha, rfl⟩ | rfl | ⟨⟨hon, htaken⟩, rfl⟩)
    · exact .result hdef hshape (by simpa using hresult)
    · exact .variadic hdef hshape hvariadic
    · exact .argument hdef ha
    · exact .value hdef
    · exact .object hdef hon htaken

theorem isAllocator_iff (hv : p.values.get? v = some value)
    (allocators : List Allocator) : p.IsAllocator allocators v ↔
      value.name.any (AllocatorTable.ofList allocators).contains = true := by
  simp only [Option.any_eq_true, AllocatorTable.contains_ofList]
  constructor
  · rintro ⟨value', hv', a, ha, hname⟩
    obtain rfl := Option.some.inj (hv.symm.trans hv')
    exact ⟨a.name, hname, a, ha, rfl⟩
  · rintro ⟨name, hname, a, ha, rfl⟩
    exact ⟨value, hv, a, ha, hname⟩

theorem GlobalEntry.spot (h : p.GlobalEntry v e) (hv : p.GlobalAt i v) :
    p.Spot i .globals v e.2 := by
  cases h <;> exact hv.spot

theorem FunctionEntry.spot (h : p.FunctionEntry functionObjects v e) (hv : p.FunctionAt i v) :
    p.Spot i .functions v e.2 := by
  cases h with
  | argument hf ha => exact hv.argument_spot ((hv.arranges hf).args.2 _ ha)
  | _ => exact hv.spot

theorem BodyEntry.spot (h : p.BodyEntry allocators v e) (hv : p.FunctionAt i v) :
    p.Spot i .bodies v e.2 := by
  cases h with
  | value hf _ hu => exact hv.instruction_spot ((hv.arranges hf).body.2 _ hu)
  | object hf _ hu _ => exact hv.instruction_spot ((hv.arranges hf).body.2 _ hu)

theorem pairwise_disjoint {l : List Nat} {stage : Stage} {part : Nat → Role × Nat → Prop}
    (hnodup : l.Nodup) (hspot : ∀ v ∈ l, ∀ e, part v e → p.Spot i stage v e.2) :
    l.Pairwise fun v w => Disjoint {e | part v e} {e | part w e} := by
  refine hnodup.imp_of_mem fun {v w} hv hw hne => ?_
  rw [Set.disjoint_left]
  exact fun e he he' => hne ((hspot v hv e he).unique (hspot w hw e he')).2.2

theorem disjoint_of_stage {l l' : List Nat} {stage stage' : Stage}
    {part part' : Nat → Role × Nat → Prop}
    (hspot : ∀ v ∈ l, ∀ e, part v e → p.Spot i stage v e.2)
    (hspot' : ∀ v ∈ l', ∀ e, part' v e → p.Spot i stage' v e.2) (hne : stage ≠ stage') :
    Disjoint {e | ∃ v ∈ l, e ∈ {e | part v e}} {e | ∃ v ∈ l', e ∈ {e | part' v e}} := by
  rw [Set.disjoint_left]
  rintro e ⟨v, hv, he⟩ ⟨w, hw, he'⟩
  exact hne ((hspot v hv e he).unique (hspot' w hw e he')).2.1

theorem ModuleEntry.spot {m : Module} (h : p.ModuleEntry allocators functionObjects m e)
    (hp : p.InPlace) (hm : p.modules[i]? = some m) : ∃ stage v, p.Spot i stage v e.2 := by
  cases h with
  | global hv h => exact ⟨_, _, h.spot ((hp.globals i m hm).2 _ hv)⟩
  | function hv h => exact ⟨_, _, h.spot ((hp.functions i m hm).2 _ hv)⟩
  | body hv h => exact ⟨_, _, h.spot ((hp.functions i m hm).2 _ hv)⟩

end Program

namespace Population

variable {p : Program} {i u v : Nat}

theorem populateGlobal_enters (hv : p.IsGlobal v) :
    Enters {e | p.GlobalEntry v e} (populateGlobal p v) := by
  obtain ⟨value, global, hvalue, hglobal, htype⟩ := hv
  have hone : p.DefinesGlobal v ↔ value.isDeclaration = false := by
    constructor
    · rintro ⟨value', hvalue', _, hdef⟩
      exact Option.some.inj (hvalue.symm.trans hvalue') ▸ hdef
    · exact fun hdef => ⟨value, hvalue, by simp [hglobal], hdef⟩
  unfold populateGlobal
  refine enters_ask_bind fun value' hvalue' => ?_
  obtain rfl := Option.some.inj (hvalue.symm.trans (ValueTable.get_eq_ok.mp hvalue'))
  split
  · rename_i hdeclared
    refine (enters_count fun _ => by constructor <;> rfl).congr fun e => ?_
    refine iff_of_false ?_ (Set.notMem_empty e)
    rintro (h | h) <;> simp [hone, hdeclared] at h
  · rename_i hdefined
    have hdef : p.DefinesGlobal v := hone.mpr (by simpa using hdefined)
    have hpointer : p.types.isPointer value.type = true := by
      simp [TypeTable.isPointer, TypeTable.pointee?, htype, Ty.pointee?]
    refine ((createValue_enters v).bind (fun _ => createPointedTo_enters v hpointer)
      (by simp)).congr fun e => ⟨?_, ?_⟩
    · rintro (_ | _)
      · exact .inl rfl
      · exact .inr rfl
    · rintro (rfl | rfl)
      · exact .value hdef
      · exact .object hdef

/-- A node that is made or not, before all the rest. -/
theorem enters_optional {α β : Type} {c : Prop} [Decidable c] {x : Role × Nat}
    {new : Set (Role × Nat)} {step : Arranging α} {tally : Tally → Tally}
    {rest : Unit → Populating β}
    (h : Enters {x} (do let _ ← onArena step; count tally)) (hrest : Enters new (rest ()))
    (hx : x ∉ new) :
    Enters ({e | c ∧ e = x} ∪ new)
      (if c then onArena step >>= fun _ => count tally >>= rest else rest ()) := by
  by_cases hc : c
  · rw [if_pos hc, ← bind_assoc]
    refine (h.bind (fun _ => hrest) (Set.disjoint_singleton_left.mpr hx)).congr fun e => ?_
    simp [hc]
  · rw [if_neg hc]
    exact hrest.congr fun e => by simp [hc]

theorem resultNode_enters (v : Nat) :
    Enters {(.result, v)} (do
      let _ ← onArena (Arena.createReturn v)
      count fun t => { t with returnNodes := t.returnNodes + 1 }) :=
  enters_counted (Arena.createReturn_enters v) (fun a _ _ => Arena.createReturn_adds a v)
    fun t => ⟨by simp only [Tally.made]; omega, rfl, rfl, rfl, rfl⟩

theorem variadicNode_enters (v : Nat) :
    Enters {(.variadic, v)} (do
      let _ ← onArena (Arena.createVariadic v)
      count fun t => { t with variadicNodes := t.variadicNodes + 1 }) :=
  enters_counted (Arena.createVariadic_enters v) (fun a _ _ => Arena.createVariadic_adds a v)
    fun t => ⟨by simp only [Tally.made]; omega, rfl, rfl, rfl, rfl⟩

theorem functionObject_enters (hix : p.Indexed) (hp : p.InPlace) (functionObjects : Bool)
    (v : Nat) :
    Enters {e | (functionObjects = true ∧ p.AddressTaken v) ∧ e = (.object, v)}
      (do
        if functionObjects then
          if ← ask (p.values.addressTaken v) then
            let _ ← onArena (Arena.createObject (some v) false false)
            count fun t => { t with functionObjects := t.functionObjects + 1 }) := by
  cases functionObjects with
  | false => exact (enters_pure ()).congr (by simp)
  | true =>
    refine enters_ask_bind fun taken htaken => ?_
    have hiff := Program.addressTaken_iff hix hp htaken
    cases taken with
    | false =>
      have hno : ¬ p.AddressTaken v := fun h => by simpa using hiff.mpr h
      exact (enters_pure ()).congr (by simp [hno])
    | true =>
      refine Enters.congr (enters_counted (Arena.createObject_enters v false false)
        (fun a hsize hfree => Arena.createObject_adds hsize (Arena.getElem?_of_disjoint hfree) _ _)
        fun t => ⟨?_, rfl, rfl, rfl, rfl⟩) (by simp [hiff.mp rfl])
      simp only [Tally.made]
      omega

theorem populateFunction_enters (hix : p.Indexed) (hp : p.InPlace) (hv : p.FunctionAt i v)
    (functionObjects : Bool) :
    Enters {e | p.FunctionEntry functionObjects v e} (populateFunction p functionObjects v) := by
  unfold populateFunction
  refine enters_ask_bind fun value hvalue => ?_
  have hvalue := ValueTable.get_eq_ok.mp hvalue
  split
  · exact enters_throw (.program _)
  · rename_i f hf
    split
    · rename_i hskip
      refine (enters_count fun _ => by constructor <;> rfl).congr fun e =>
        iff_of_false (fun he => ?_) (Set.notMem_empty e)
      obtain ⟨f', hdef⟩ := he.defines
      simp [hdef.of_get? hvalue] at hskip
    · rename_i hkeep
      have hdef := Program.defines_of_not hvalue hf hkeep
      refine enters_ask_bind fun type htype => ?_
      split
      · rename_i shape
        have hshape := TypeTable.get_eq_ok.mp htype
        extract_lets last next
        have hargs : Enters {e | ∃ a ∈ f.args, e ∈ ({(.value, a)} : Set (Role × Nat))}
            (f.args.forM createValue) := by
          refine enters_forM (fun a _ => createValue_enters a) ?_
          exact (hv.arranges hdef).args.1.imp fun hne => by simpa using hne
        have hother : ∀ a ∈ f.args, a ≠ v := by
          rintro a ha rfl
          obtain ⟨value', index, hvalue', hkind⟩ := (hv.arranges hdef).args.2 a ha
          obtain rfl := Option.some.inj (hvalue.symm.trans hvalue')
          simp [Value.function?, hkind] at hf
        have hlast : Enters _ (last ()) := hargs.bind (fun _ => (createValue_enters v).bind
          (fun _ => functionObject_enters hix hp functionObjects v) (by simp)) (by
            rw [Set.disjoint_left]
            rintro _ ⟨a, ha, rfl⟩
            simp [hother a ha])
        have hnext : Enters _ (next ()) := enters_optional (variadicNode_enters v) hlast (by simp)
        exact (enters_optional (resultNode_enters v) hnext (by simp)).congr
          fun e => Program.functionEntry_iff hdef hshape
      · exact enters_throw (.program _)

theorem populateInstruction_enters (hwf : p.WellFormed) (hu : p.IsInstruction v u)
    (allocators : List Allocator) :
    Enters {e | p.Allocates allocators u ∧ e = (.object, u)}
      (populateInstruction p (.ofList allocators) u) := by
  obtain ⟨value, op, hvalue, hkind, htyped⟩ := hu
  have hop : value.instruction? = some op := by simp [Value.instruction?, hkind]
  unfold populateInstruction
  refine enters_ask_bind fun value' hvalue' => ?_
  obtain rfl := Option.some.inj (hvalue.symm.trans (ValueTable.get_eq_ok.mp hvalue'))
  rw [hop]
  split
  · rename_i t heq
    obtain rfl := Option.some.inj heq
    have hpointer : p.types.isPointer value.type = true := by
      simpa [Value.Typed, hkind] using htyped
    exact (createPointedTo_enters u hpointer).congr (by simp [Program.Allocates.alloca hvalue hop])
  · refine enters_ask_bind fun answer hanswer => ?_
    have hcalls := Program.calledFunction_iff hwf hanswer
    -- a call makes an object only if it reaches an allocator
    have hheap : p.Allocates allocators u ↔
        ∃ callee, answer = some callee ∧ p.IsAllocator allocators callee := by
      constructor
      · rintro (⟨hu, hlocal⟩ | ⟨hcall, hname⟩)
        · obtain rfl := Option.some.inj (hvalue.symm.trans hu)
          simp [hop, ‹_ = some (Instruction.call _ _)›] at hlocal
        · exact ⟨_, (hcalls _).mpr hcall, hname⟩
      · rintro ⟨callee, hcallee, hname⟩
        exact .heap ((hcalls callee).mp hcallee) hname
    split
    · exact (enters_pure ()).congr (by simp [hheap])
    · rename_i callee
      refine enters_ask_bind fun target htarget => ?_
      have hiff := Program.isAllocator_iff (ValueTable.get_eq_ok.mp htarget) allocators
      have hany : target.name.any (AllocatorTable.ofList allocators).contains =
          (target.name.bind (AllocatorTable.ofList allocators).lookup).isSome := by
        cases target.name <;> rfl
      rw [hany] at hiff
      split
      · rename_i hnone
        exact (enters_pure ()).congr (by simp [hheap, hiff, hnone])
      · rename_i spec hspec
        exact (populateHeap_enters u spec).congr (by simp [hheap, hiff, hspec])
  · rename_i hno hnocall
    refine (enters_pure ()).congr fun e => iff_of_false ?_ (Set.notMem_empty e)
    rintro ⟨⟨hu, hlocal⟩ | ⟨hcall, _⟩, _⟩
    · obtain rfl := Option.some.inj (hvalue.symm.trans hu)
      exact hno _ (hop.symm.trans hlocal)
    · obtain ⟨value', target, args, _, hvalue', hop', _⟩ := hcall
      obtain rfl := Option.some.inj (hvalue.symm.trans hvalue')
      exact hnocall _ _ (hop.symm.trans hop')

theorem populateBody_enters (hwf : p.WellFormed) (hv : p.FunctionAt i v)
    (allocators : List Allocator) :
    Enters {e | p.BodyEntry allocators v e} (populateBody p (.ofList allocators) v) := by
  unfold populateBody
  refine enters_ask_bind fun value hvalue => ?_
  have hvalue := ValueTable.get_eq_ok.mp hvalue
  have hiff := Program.isAllocator_iff hvalue allocators
  -- a body that is passed over has no entries
  have hskip : (∀ f, p.Defines v f → p.IsAllocator allocators v) → ∀ e,
      e ∈ {e | p.BodyEntry allocators v e} ↔ e ∈ (∅ : Set (Role × Nat)) := by
    refine fun hno e => iff_of_false ?_ (Set.notMem_empty e)
    rintro (⟨hdef, hname, _⟩ | ⟨hdef, hname, _, _⟩) <;> exact hname (hno _ hdef)
  split
  · rename_i hnone
    refine (enters_pure ()).congr (hskip fun f hdef => ?_)
    cases hnone.symm.trans (hdef.of_get? hvalue).1
  · rename_i f hf
    split
    · rename_i hdeclared
      refine (enters_pure ()).congr (hskip fun f hdef => ?_)
      simp [hdef.of_get? hvalue] at hdeclared
    · rename_i hkeep
      have hdef := Program.defines_of_not hvalue hf hkeep
      split
      · rename_i hname
        exact (enters_count fun _ => by constructor <;> rfl).congr
          (hskip fun _ _ => hiff.mpr hname)
      · rename_i hname
        have hbody := (hv.arranges hdef).body
        have hnot : ¬ p.IsAllocator allocators v := fun h => hname (hiff.mp h)
        have hvalues := enters_forM (fun u _ => createValue_enters u)
          (hbody.1.imp fun hne => by simpa using hne)
        have hobjects := enters_forM
          (fun u hu => populateInstruction_enters hwf (hbody.2 u hu) allocators)
          (hbody.1.imp fun hne => Set.disjoint_left.mpr fun e he he' => hne (by
            simpa using he.2.symm.trans he'.2))
        refine (hvalues.bind (fun _ => hobjects) ?_).congr fun e => ⟨?_, ?_⟩
        · rw [Set.disjoint_left]
          rintro _ ⟨u, _, rfl⟩ ⟨w, _, _, heq⟩
          cases heq
        · rintro (⟨hdef', _, hu⟩ | ⟨hdef', _, hu, hmakes⟩)
          · exact .inl ⟨_, hdef.unique hdef' ▸ hu, rfl⟩
          · exact .inr ⟨_, hdef.unique hdef' ▸ hu, hmakes, rfl⟩
        · rintro (⟨u, hu, rfl⟩ | ⟨u, hu, hmakes, rfl⟩)
          · exact .value hdef hnot hu
          · exact .object hdef hnot hu hmakes

theorem populateModule_enters (hwf : p.WellFormed) (hix : p.Indexed) (hp : p.InPlace) {m : Module}
    (hm : p.modules[i]? = some m) (allocators : List Allocator) (functionObjects : Bool) :
    Enters {e | p.ModuleEntry allocators functionObjects m e}
      (populateModule p (.ofList allocators) functionObjects m) := by
  have hmem : m ∈ p.modules := Array.mem_of_getElem? hm
  obtain ⟨hgnodup, hglobals⟩ := hp.globals i m hm
  obtain ⟨hfnodup, hfunctions⟩ := hp.functions i m hm
  have hglobalSpot : ∀ v ∈ m.globals, ∀ e, p.GlobalEntry v e → p.Spot i .globals v e.2 :=
    fun v hv e he => he.spot (hglobals v hv)
  have hfunctionSpot : ∀ v ∈ m.functions, ∀ e, p.FunctionEntry functionObjects v e →
      p.Spot i .functions v e.2 := fun v hv e he => he.spot (hfunctions v hv)
  have hbodySpot : ∀ v ∈ m.functions, ∀ e, p.BodyEntry allocators v e → p.Spot i .bodies v e.2 :=
    fun v hv e he => he.spot (hfunctions v hv)
  have hglobalPass := enters_forM (fun v hv => populateGlobal_enters (hwf.globals m hmem v hv))
    (Program.pairwise_disjoint hgnodup hglobalSpot)
  have hfunctionPass := enters_forM
    (fun v hv => populateFunction_enters hix hp (hfunctions v hv) functionObjects)
    (Program.pairwise_disjoint hfnodup hfunctionSpot)
  have hbodyPass := enters_forM (fun v hv => populateBody_enters hwf (hfunctions v hv) allocators)
    (Program.pairwise_disjoint hfnodup hbodySpot)
  refine (hglobalPass.bind (fun _ => hfunctionPass.bind
    (fun _ => hbodyPass.after fun _ => enters_count fun _ => by constructor <;> rfl) ?_)
    ?_).congr fun e => ⟨?_, ?_⟩
  · exact Program.disjoint_of_stage hfunctionSpot hbodySpot (by simp)
  · rw [Set.disjoint_union_right]
    exact ⟨Program.disjoint_of_stage hglobalSpot hfunctionSpot (by simp),
      Program.disjoint_of_stage hglobalSpot hbodySpot (by simp)⟩
  · rintro (⟨hv, h⟩ | ⟨hv, h⟩ | ⟨hv, h⟩)
    · exact .inl ⟨_, hv, h⟩
    · exact .inr (.inl ⟨_, hv, h⟩)
    · exact .inr (.inr ⟨_, hv, h⟩)
  · rintro (⟨v, hv, h⟩ | ⟨v, hv, h⟩ | ⟨v, hv, h⟩)
    · exact .global hv h
    · exact .function hv h
    · exact .body hv h

theorem populate_enters (hwf : p.WellFormed) (hix : p.Indexed) (hp : p.InPlace)
    (allocators : List Allocator) (functionObjects : Bool) :
    Enters {e | ∃ m ∈ p.modules, p.ModuleEntry allocators functionObjects m e}
      (populate p (.ofList allocators) functionObjects) := by
  have hmodules : Enters {e | ∃ m ∈ p.modules.toList,
      e ∈ {e | p.ModuleEntry allocators functionObjects m e}}
      (populate p (.ofList allocators) functionObjects) := by
    refine enters_forM ?_ ?_
    · intro m hm
      obtain ⟨i, hi⟩ := List.mem_iff_getElem?.mp hm
      exact populateModule_enters hwf hix hp (by simpa using hi) allocators functionObjects
    · rw [List.pairwise_iff_getElem]
      intro i j hi hj hij
      rw [Set.disjoint_left]
      intro e he he'
      obtain ⟨k, v, hspot⟩ := he.spot hp (Array.getElem?_eq_getElem (by simpa using hi))
      obtain ⟨k', v', hspot'⟩ := he'.spot hp (Array.getElem?_eq_getElem (by simpa using hj))
      exact Nat.ne_of_lt hij (hspot.unique hspot').1
  exact hmodules.congr (by simp)

end Population

namespace MemoryModel

variable {layout : DataLayout} {commands : List Command} {p : Program} {config : Config}

theorem populate_enters_expected
    (hp : ((Draft.start layout).runScript commands).2.program = p) (config : Config) :
    Population.Enters {e | p.Expects config e.1 e.2}
      (Population.populate p config.allocatorTable config.functionObjects) :=
  Population.populate_enters (hp ▸ Draft.runScript_wellFormed layout commands)
    (hp ▸ Draft.runScript_indexed layout commands) (hp ▸ Draft.runScript_inPlace layout commands)
    config.allocators config.functionObjects

theorem populate_expected (hp : ((Draft.start layout).runScript commands).2.program = p)
    (config : Config) (s : Population) (hs : s.arena.Orderly) :
    Meets (Population.populate p config.allocatorTable config.functionObjects) s
      (fun _ s' => s'.arena.Orderly ∧
        s'.arena.entries = s.arena.entries ∪ {e | p.Expects config e.1 e.2}) (fun _ => True) ∧
    (Disjoint s.arena.entries {e | p.Expects config e.1 e.2} →
      Blames (Population.populate p config.allocatorTable config.functionObjects) s
        NodeError.OfProgram) := by
  obtain ⟨hmeets, hrest⟩ := populate_enters_expected hp config s hs
  exact ⟨hmeets, fun hfree => (hrest hfree).1⟩

/-- A model has nodes for what the program defines, in each role, and for nothing
else. The node of a value was made for it alone. -/
theorem nodes_exact {m : MemoryModel}
    (hp : ((Draft.start layout).runScript commands).2.program = p) (h : build p config = .ok m) :
    (∀ role v, v ∈ m.arena.nodesFor role ↔ p.Expects config role v) ∧
    (∀ v n : Nat, m.arena.valueNodes[v]? = some n →
      ∃ node, m.arena.get? n = some node ∧ node.kind = .value ∧ node.origin = some v) ∧
    ∀ v w n : Nat, m.arena.valueNodes[v]? = some n → m.arena.valueNodes[w]? = some n → v = w := by
  obtain ⟨_, _, c, _, hpopulate⟩ := build_population h
  have hentered := (populate_expected hp config { catalog := c } Arena.orderly_empty).1
  obtain ⟨horderly, hentries⟩ := hentered.of_ok hpopulate
  rw [Arena.entries_empty, Set.empty_union] at hentries
  refine ⟨fun role v => Set.ext_iff.mp hentries (role, v), horderly.labels, ?_⟩
  · intro v w n hv hw
    obtain ⟨node, hnode, _, horigin⟩ := horderly.labels v n hv
    obtain ⟨node', hnode', _, horigin'⟩ := horderly.labels w n hw
    obtain rfl := Option.some.inj (hnode.symm.trans hnode')
    exact Option.some.inj (horigin.symm.trans horigin')

/-- A global that is written twice, an allocator with a body, and a variadic
function that calls it through a cast and passes itself on. -/
def calling : List Command := [
  .int 8,
  .pointerTo 0,
  .int 64,
  .functionOf 1 [2] false,
  .void,
  .functionOf 4 [1] true,
  .addModule "main",
  .global "table" 2 false,
  .global "table" 2 false,
  .function "malloc" 3 false,
  .insertInto 2,
  .alloca 2,
  .function "visit" 5 false,
  .constantCast .bit 2 7,
  .insertInto 5,
  .integer 2 16,
  .call 7 [8],
  .call 5 [5]]

def called : Program :=
  ((Draft.start {}).runScript calling).2.program

theorem nodes_exact_called : ∃ m, build called {} = .ok m ∧ called.Expects {} .object 9 ∧
    called.Expects {} .object 5 ∧ called.Expects {} .variadic 5 ∧ ¬ called.Expects {} .result 5 ∧
    ¬ called.Expects {} .value 1 ∧ ¬ called.Expects {} .value 4 := by
  obtain ⟨m, hb, hfacts⟩ := exists_built called {} (fun m =>
    decide (9 ∈ m.arena.nodesFor .object ∧ 5 ∈ m.arena.nodesFor .object ∧
      5 ∈ m.arena.nodesFor .variadic ∧ 5 ∉ m.arena.nodesFor .result ∧
      1 ∉ m.arena.nodesFor .value ∧ 4 ∉ m.arena.nodesFor .value)) (by decide +kernel)
  have hp : ((Draft.start {}).runScript calling).2.program = called := rfl
  obtain ⟨hexact, _⟩ := nodes_exact hp hb
  have hall := of_decide_eq_true hfacts
  simp only [hexact] at hall
  exact ⟨m, hb, hall⟩

/-- The tally of a model accounts for each of its nodes, for the heap objects and
their nodes, and for the values that have a sentinel for their object. -/
theorem tally_exact {m : MemoryModel}
    (hp : ((Draft.start layout).runScript commands).2.program = p) (h : build p config = .ok m) :
    m.arena.size = 5 + m.tally.valueNodes + m.tally.objectNodes + m.tally.returnNodes +
      m.tally.variadicNodes + m.tally.functionObjects ∧
    m.tally.heapNodes = (m.heap.map HeapAllocation.fieldCount).sum ∧
    m.tally.heapNodes = m.arena.nodes.countP MemoryNode.isHeap ∧
    m.tally.heapAllocations = m.heap.length ∧
    m.tally.unknownHeapTypes = m.heap.countP HeapAllocation.unknownType ∧
    m.tally.sentinelAliases =
      m.arena.objectNodes.toList.countP (fun entry => isSentinel entry.2) := by
  obtain ⟨_, _, c, _, hpopulate⟩ := build_population h
  have hrest := (populate_enters_expected hp config { catalog := c } Arena.orderly_empty).2
  rw [Arena.entries_empty] at hrest
  have hbooks := ((hrest (Set.empty_disjoint _)).2 (Population.balanced_empty c)).of_ok hpopulate
  refine ⟨?_, hbooks.fields, hbooks.heapNodes, hbooks.heapAllocations, hbooks.unknownHeapTypes,
    hbooks.aliases⟩
  have hnodes : m.arena.size = sentinelCount + m.tally.made := hbooks.nodes
  simp only [Tally.made, sentinelCount] at hnodes
  omega

/-- An object without a layout, two objects on the heap of which one is of unknown
type, and a variadic function that passes itself on. -/
def tallying : List Command := [
  .int 32,
  .defineStruct "pair" [0, 0],
  .int 8,
  .pointerTo 2,
  .functionOf 3 [0] false,
  .pointerTo 1,
  .namedStruct "file",
  .functionOf 0 [3] true,
  .addModule "main",
  .global "table" 1 false,
  .global "handle" 6 false,
  .function "malloc" 4 true,
  .function "visit" 7 false,
  .insertInto 3,
  .integer 0 16,
  .call 2 [5],
  .cast .bit 6 5,
  .call 2 [5],
  .call 3 [3]]

def tallied : Program :=
  ((Draft.start {}).runScript tallying).2.program

theorem tally_exact_tallied : ∃ m, build tallied {} = .ok m ∧ m.arena.size = 22 ∧
    (m.heap.map HeapAllocation.fieldCount).sum = 4 ∧
    m.arena.nodes.countP MemoryNode.isHeap = 4 ∧ m.heap.length = 2 ∧
    m.heap.countP HeapAllocation.unknownType = 1 ∧
    m.arena.objectNodes.toList.countP (fun entry => isSentinel entry.2) = 1 := by
  obtain ⟨m, hb, hfacts⟩ := exists_built tallied {} (fun m => decide (m.tally = {
    modules := 1
    valueNodes := 8
    objectNodes := 6
    heapNodes := 4
    heapAllocations := 2
    unknownHeapTypes := 1
    returnNodes := 1
    variadicNodes := 1
    functionObjects := 1
    sentinelAliases := 1
    skippedDeclarations := 1 })) (by decide +kernel)
  have htally := of_decide_eq_true hfacts
  have hp : ((Draft.start {}).runScript tallying).2.program = tallied := rfl
  obtain ⟨hsize, hfields, hheap, hlength, hunknown, haliases⟩ := tally_exact hp hb
  rw [htally] at hsize hfields hheap hlength hunknown haliases
  exact ⟨m, hb, hsize, hfields.symm, hheap.symm, hlength.symm, hunknown.symm, haliases.symm⟩

/-- Whatever is written and however a model is set up, building one fails only for
the settings, for the layout of a struct, or for what it finds in the program. -/
theorem build_error_of_program {e : BuildError}
    (hp : ((Draft.start layout).runScript commands).2.program = p) (h : build p config = .error e) :
    (∃ fault, e = .config fault) ∨ (∃ fault, e = .record fault) ∨
      ∃ fault, e = .node fault ∧ fault.OfProgram := by
  unfold build at h
  split at h
  · cases h
    exact .inl ⟨_, rfl⟩
  · split at h
    · cases h
      exact .inr (.inl ⟨_, rfl⟩)
    · rename_i c _
      split at h
      · rename_i fault _ hpopulate
        cases h
        have hblames := (populate_expected hp config { catalog := c } Arena.orderly_empty).2
        rw [Arena.entries_empty] at hblames
        exact .inr (.inr ⟨fault, rfl, hblames (Set.empty_disjoint _) fault _ hpopulate⟩)
      · cases h

/-- What a computation finds true of the reason why a program has no model. -/
theorem exists_failed (p : Program) (config : Config) (good : BuildError → Bool)
    (h : (match build p config with
      | .ok _ => false
      | .error e => good e) = true) : ∃ e, build p config = .error e ∧ good e = true := by
  cases hb : build p config with
  | error e => exact ⟨e, rfl, by simpa [hb] using h⟩
  | ok m => simp [hb] at h

/-- An allocator whose calls are numbers, and a function that is written twice. -/
def untyping : List Command := [
  .int 64,
  .functionOf 0 [0] false,
  .void,
  .functionOf 2 [] false,
  .addModule "main",
  .function "malloc" 1 true,
  .function "main" 3 false,
  .function "main" 3 false,
  .insertInto 1,
  .integer 0 16,
  .call 0 [3]]

def untyped : Program :=
  ((Draft.start {}).runScript untyping).2.program

theorem build_error_of_program_untyped : ∃ e, build untyped {} = .error e ∧
    e = .node (.allocationNotPointer 4) ∧
    ((∃ fault, e = .config fault) ∨ (∃ fault, e = .record fault) ∨
      ∃ fault, e = .node fault ∧ fault.OfProgram) := by
  obtain ⟨e, hb, he⟩ := exists_failed untyped {}
    (fun e => decide (e = .node (.allocationNotPointer 4))) (by decide +kernel)
  have hp : ((Draft.start {}).runScript untyping).2.program = untyped := rfl
  exact ⟨e, hb, of_decide_eq_true he, build_error_of_program hp hb⟩

end MemoryModel

end AbstractMemory
