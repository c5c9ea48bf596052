import AbstractMemory.Config.Allocator
import AbstractMemory.Node.Lookup
import AbstractMemory.Record.Flatten

/-! Filling the arena from a program: value nodes for globals, functions,
arguments and instructions, and object nodes for what globals, local variables
and calls of allocators make. -/

namespace AbstractMemory

structure Tally where
  modules : Nat := 0
  valueNodes : Nat := 0
  objectNodes : Nat := 0
  heapNodes : Nat := 0
  heapAllocations : Nat := 0
  /-- Heap allocations of unknown type. -/
  unknownHeapTypes : Nat := 0
  returnNodes : Nat := 0
  variadicNodes : Nat := 0
  functionObjects : Nat := 0
  /-- Objects that stand for a sentinel and have no nodes of their own. -/
  sentinelAliases : Nat := 0
  skippedDeclarations : Nat := 0
  skippedAllocatorBodies : Nat := 0
deriving DecidableEq, Repr, Inhabited

structure HeapAllocation where
  site : Nat
  allocator : String
  object : Nat
  elementType : Option Nat
  requestedBytes : Option Nat
  fieldCount : Nat
  unknownType : Bool
deriving DecidableEq, Repr, Inhabited

/-- All that filling the arena reads and writes. -/
structure Population where
  catalog : Catalog := {}
  arena : Arena := {}
  tally : Tally := {}
  heap : List HeapAllocation := []
deriving Inhabited

abbrev Populating := EStateM NodeError Population

namespace Population

def onArena {α : Type} (step : Arranging α) : Populating α := fun s =>
  match step s.arena with
  | .ok x arena => .ok x { s with arena := arena }
  | .error e arena => .error e { s with arena := arena }

def onCatalog {α : Type} (step : Cataloguing α) : Populating α := fun s =>
  match step s.catalog with
  | .ok x catalog => .ok x { s with catalog := catalog }
  | .error e catalog => .error (.record e) { s with catalog := catalog }

def ask {α : Type} (answer : Except ProgramError α) : Populating α :=
  match answer with
  | .ok x => pure x
  | .error e => throw (.program e)

def count (f : Tally → Tally) : Populating Unit :=
  modify fun s => { s with tally := f s.tally }

def createValue (v : Nat) : Populating Unit := do
  let _ ← onArena (Arena.createValue (some v))
  count fun t => { t with valueNodes := t.valueNodes + 1 }

/-- What an object of some type is made of: a sentinel that stands for it, or
a field for each entry of a list that says which fields are unions. -/
inductive ObjectPlan where
  | sentinel (node : Nat)
  | fields (unionFlags : List Bool)
deriving DecidableEq, Repr

def planFor (p : Program) (t : Nat) : Populating ObjectPlan := do
  if !p.types.isStruct t then return .fields [false]
  if (← get).catalog.isUnion p t then return .fields [true]
  let r ← onCatalog (Catalog.layoutOf p t)
  if r.isOpaque then return .sentinel universalObject
  if r.fields.isEmpty then return .sentinel nullObject
  return .fields (r.fields.map Field.isUnion)

/-- Object nodes for the fields after the first, from field `offset` on. -/
def createFields (base : Nat) (isHeap : Bool) : Nat → List Bool → Populating Unit
  | _, [] => return ()
  | offset, isUnion :: rest => do
    let _ ← onArena (Arena.createField base offset isUnion isHeap)
    createFields base isHeap (offset + 1) rest

/-- The nodes of one allocation. An origin that has an object keeps it. -/
def allocate (origin : Nat) (unionFlags : List Bool) (isHeap : Bool) :
    Populating Nat := do
  match (← get).arena.objectNodes[origin]? with
  | some n => return n
  | none =>
    let base ← onArena (Arena.createObject (some origin) (unionFlags.headD false) isHeap)
    createFields base isHeap 1 unionFlags.tail
    count fun t =>
      { t with
        objectNodes := t.objectNodes + unionFlags.length
        heapNodes := t.heapNodes + if isHeap then unionFlags.length else 0 }
    return base

/-- Objects for what a pointer of some type points to. -/
def createPointedTo (p : Program) (v : Nat) (type : Nat) : Populating Unit := do
  match p.types.pointee? type with
  | none => return ()
  | some pointee =>
    match ← planFor p (← ask (p.types.strip pointee)) with
    | .sentinel n =>
      onArena (Arena.aliasObject v n)
      count fun t => { t with sentinelAliases := t.sentinelAliases + 1 }
    | .fields unionFlags => let _ ← allocate v unionFlags false

def populateGlobal (p : Program) (v : Nat) : Populating Unit := do
  let value ← ask (p.values.get v)
  if value.isDeclaration then
    count fun t => { t with skippedDeclarations := t.skippedDeclarations + 1 }
  else
    createValue v
    createPointedTo p v value.type

def populateFunction (p : Program) (functionObjects : Bool) (v : Nat) : Populating Unit := do
  let value ← ask (p.values.get v)
  match value.function? with
  | none => throw (.program (.notFunction v))
  | some f =>
    if value.isDeclaration || value.isIntrinsic then
      count fun t => { t with skippedDeclarations := t.skippedDeclarations + 1 }
    else
      match ← ask (p.types.get f.signature) with
      | .function shape =>
        if !p.types.isVoid shape.result then
          let _ ← onArena (Arena.createReturn v)
          count fun t => { t with returnNodes := t.returnNodes + 1 }
        if shape.variadic then
          let _ ← onArena (Arena.createVariadic v)
          count fun t => { t with variadicNodes := t.variadicNodes + 1 }
        f.args.forM createValue
        createValue v
        if functionObjects then
          if ← ask (p.values.addressTaken v) then
            let _ ← onArena (Arena.createObject (some v) false false)
            count fun t => { t with functionObjects := t.functionObjects + 1 }
      | _ => throw (.program (.wrongType .functionType f.signature))

/-- The type a use casts a pointer to, unless it is cast to a number. -/
def castPointee? (p : Program) (user : Value) : Option Nat :=
  match user.instruction? with
  | some (.cast kind _) => if kind = .pointerToInt then none else p.types.pointee? user.type
  | _ => none

/-- The first type that the uses of a pointer cast it to. -/
def firstCast? (p : Program) : List Nat → Except ProgramError (Option Nat)
  | [] => .ok none
  | user :: rest =>
    match p.values.get user with
    | .error e => .error e
    | .ok value =>
      match castPointee? p value with
      | some t => .ok (some t)
      | none => firstCast? p rest

/-- The type of the elements that a call allocates. Bytes take the type of
their first cast. -/
def heapElement (p : Program) (v : Nat) (site : Value) : Populating Nat := do
  match p.types.pointee? site.type with
  | none => throw (.allocationNotPointer v)
  | some pointee =>
    if p.types.isInteger pointee 8 then
      ask (p.types.strip ((← ask (firstCast? p site.users)).getD pointee))
    else ask (p.types.strip pointee)

/-- The number of bytes a call asks for, if it is a constant. -/
def requestedBytes (p : Program) (spec : Allocator) (site : Value) : Option Nat :=
  match spec.sizeArg, site.instruction? with
  | some position, some (.call _ args) =>
    ((args[position]?).bind p.values.constInt?).bind fun size =>
      if size < 0 then none else some size.toNat
  | _, _ => none

/-- Heap objects for a call of an allocator. An object of unknown type has as
many fields as the largest struct. -/
def populateHeap (p : Program) (v : Nat) (spec : Allocator) : Populating Unit := do
  let site ← ask (p.values.get v)
  let element ← heapElement p v site
  let known ←
    if p.types.isStruct element then
      match ← planFor p element with
      | .fields unionFlags => pure (some unionFlags)
      | .sentinel _ => pure none
    else pure none
  let unionFlags := known.getD (List.replicate (max 1 (← get).catalog.maxFields) false)
  let object ← allocate v unionFlags true
  count fun t =>
    { t with
      heapAllocations := t.heapAllocations + 1
      unknownHeapTypes := t.unknownHeapTypes + if known.isNone then 1 else 0 }
  modify fun s =>
    { s with
      heap := s.heap ++ [{
        site := v
        allocator := spec.name
        object
        elementType := if known.isNone then none else some element
        requestedBytes := requestedBytes p spec site
        fieldCount := unionFlags.length
        unknownType := known.isNone }] }

def populateInstruction (p : Program) (allocators : AllocatorTable) (v : Nat) :
    Populating Unit := do
  let value ← ask (p.values.get v)
  match value.instruction? with
  | some (.alloca _) => createPointedTo p v value.type
  | some (.call _ _) =>
    match ← ask (p.values.calledFunction v) with
    | none => return ()
    | some callee =>
      match (← ask (p.values.get callee)).name.bind allocators.lookup with
      | none => return ()
      | some spec => populateHeap p v spec
  | _ => return ()

def populateBody (p : Program) (allocators : AllocatorTable) (v : Nat) : Populating Unit := do
  let value ← ask (p.values.get v)
  match value.function? with
  | none => return ()
  | some f =>
    if value.isDeclaration || value.isIntrinsic then return ()
    else if value.name.any allocators.contains then
      count fun t => { t with skippedAllocatorBodies := t.skippedAllocatorBodies + 1 }
    else
      f.body.forM createValue
      f.body.forM (populateInstruction p allocators)

def populateModule (p : Program) (allocators : AllocatorTable) (functionObjects : Bool)
    (m : Module) : Populating Unit := do
  m.globals.forM (populateGlobal p)
  m.functions.forM (populateFunction p functionObjects)
  m.functions.forM (populateBody p allocators)
  count fun t => { t with modules := t.modules + 1 }

/-- Makes the nodes for all modules of a program. -/
def populate (p : Program) (allocators : AllocatorTable) (functionObjects : Bool) :
    Populating Unit :=
  p.modules.toList.forM (populateModule p allocators functionObjects)

end Population

end AbstractMemory
