import AbstractMemory.Program.Basic

/-! Writing a program down step by step. A step that fails keeps what it did
before it failed: types it interned and values it appended stay. -/

namespace AbstractMemory

/-- A program being written, with the module that symbols go to and the
function that instructions go to. -/
structure Draft where
  program : Program := {}
  home : Nat := 0
  insertion : Option Nat := none
deriving Inhabited

/-- A step on a draft. -/
abbrev Build := EStateM ProgramError Draft

namespace Build

/-- The answer to a question about the draft, which stays as it is. -/
def ask {α : Type} (f : Draft → Except ProgramError α) : Build α := fun d =>
  match f d with
  | .ok a => .ok a d
  | .error e => .error e d

def onTypes {α : Type} (f : TypeTable → α × TypeTable) : Build α := fun d =>
  let (a, types) := f d.program.types
  .ok a { d with program := { d.program with types := types } }

def pushValue (value : Value) : Build Nat := fun d =>
  match d.program.values.push value with
  | .error e => .error e d
  | .ok (v, values) => .ok v { d with program := { d.program with values := values } }

def modifyFunction (v : Nat) (f : Function → Function) : Build Unit :=
  modify fun d =>
    { d with
      program :=
        { d.program with
          values := d.program.values.modify v fun value =>
            match value.kind with
            | .function g => { value with kind := .function (f g) }
            | _ => value } }

def modifyModule (index : Nat) (f : Module → Module) : Build Unit :=
  modify fun d =>
    { d with program := { d.program with modules := d.program.modules.modify index f } }

def addModule (name : String) : Build Nat := fun d =>
  .ok d.program.modules.size
    { d with program := { d.program with modules := d.program.modules.push { name } } }

/-- Turns to another module, with no function to insert into. -/
def enterModule (index : Nat) : Build Unit :=
  modify fun d => { d with home := index, insertion := none }

def setBody (t : Nat) (members : List Nat) (packed : Bool) : Build Unit := fun d =>
  match d.program.types.setBody t members packed with
  | .error e => .error e d
  | .ok types => .ok () { d with program := { d.program with types := types } }

def defineSymbol (name : String) (v : Nat) : Build Unit := fun d =>
  if d.program.symbols.contains name then .error (.duplicateSymbol name) d
  else
    .ok () { d with program := { d.program with symbols := d.program.symbols.insert name v } }

def currentModule : Build Nat := do
  let d ← get
  let _ ← ask fun d => d.program.getModule d.home
  return d.home

def addGlobal (name : String) (valueType : Nat) (isDeclaration : Bool) : Build Nat := do
  let home ← currentModule
  let type ← onTypes (·.pointerTo valueType)
  let v ← pushValue { type, name := some name, kind := .global ⟨valueType, isDeclaration, home⟩ }
  unless isDeclaration do defineSymbol name v
  modifyModule home fun m => { m with globals := m.globals ++ [v] }
  return v

def pushArguments (parent : Nat) : Nat → List Nat → Build (List Nat)
  | _, [] => return []
  | index, type :: rest => do
    let arg ← pushValue { type, name := none, kind := .argument parent index }
    return arg :: (← pushArguments parent (index + 1) rest)

def functionType (signature : Nat) : Build FunctionType :=
  ask fun d =>
    match d.program.types.get signature with
    | .error e => .error e
    | .ok (.function f) => .ok f
    | .ok _ => .error (.wrongType .functionType signature)

def addFunction (name : String) (signature : Nat) (isDeclaration : Bool) : Build Nat := do
  let home ← currentModule
  let shape ← functionType signature
  let type ← onTypes (·.pointerTo signature)
  let v ← pushValue
    { type, name := some name, kind := .function ⟨signature, isDeclaration, [], [], home⟩ }
  unless isDeclaration do
    let args ← pushArguments v 0 shape.params
    modifyFunction v fun f => { f with args := args }
    defineSymbol name v
  modifyModule home fun m => { m with functions := m.functions ++ [v] }
  return v

def arguments (v : Nat) : Build (List Nat) :=
  ask fun d => do
    match (← d.program.values.get v).function? with
    | some f => return f.args
    | none => throw (.notFunction v)

/-- Lets instructions go to the end of a defined function. -/
def insertInto (v : Nat) : Build Unit := do
  let value ← ask fun d => d.program.values.get v
  match value.function? with
  | some f =>
    if f.isDeclaration then throw (.notFunction v)
    else modify fun d => { d with insertion := some v }
  | none => throw (.notFunction v)

def pushInstruction (type : Nat) (op : Instruction) : Build Nat := do
  match (← get).insertion with
  | none => throw .noInsertionPoint
  | some parent =>
    let v ← pushValue { type, name := none, kind := .instruction parent op }
    modifyFunction parent fun f => { f with body := f.body ++ [v] }
    return v

def alloca (allocated : Nat) : Build Nat := do
  let type ← onTypes (·.pointerTo allocated)
  pushInstruction type (.alloca allocated)

def typeOf (v : Nat) : Build Nat :=
  ask fun d => (d.program.values.get v).map Value.type

def call (callee : Nat) (args : List Nat) : Build Nat := do
  let calleeType ← typeOf callee
  let result ← ask fun d =>
    let types := d.program.types
    match (types.pointee? calleeType).bind types.get? with
    | some (.function f) => .ok f.result
    | _ => .error (.wrongType .functionPointer calleeType)
  pushInstruction result (.call callee args)

def cast (kind : CastKind) (source : Nat) (type : Nat) : Build Nat :=
  pushInstruction type (.cast kind source)

/-- The type of the address of an element. The first index stays within the
source type, the others descend. -/
def elementAddressType (source : Nat) (indices : List Nat) : Build Nat := do
  let element ← ask fun d =>
    d.program.types.indexedType source ((indices.drop 1).map d.program.values.constInt?)
  onTypes (·.pointerTo element)

def elementAddress (source : Nat) (base : Nat) (indices : List Nat) :
    Build Nat := do
  let type ← elementAddressType source indices
  pushInstruction type (.elementAddress ⟨source, base, indices⟩)

def load (pointer : Nat) : Build Nat := do
  let pointerType ← typeOf pointer
  let type ← ask fun d =>
    match d.program.types.pointee? pointerType with
    | some t => .ok t
    | none => .error (.wrongType .pointer pointerType)
  pushInstruction type (.load pointer)

def store (value pointer : Nat) : Build Nat := do
  let type ← onTypes (·.void)
  pushInstruction type (.store value pointer)

def ret (value : Option Nat) : Build Nat := do
  let type ← onTypes (·.void)
  pushInstruction type (.ret value)

def pushConstant (type : Nat) (c : Constant) : Build Nat :=
  pushValue { type, name := none, kind := .constant c }

def blockAddress : Build Nat := do
  let byte ← onTypes (·.int 8)
  let type ← onTypes (·.pointerTo byte)
  pushConstant type .blockAddress

/-- Constants for the indices that follow the first. A member of a struct is
numbered in 32 bits, an element of an array in 64. -/
def pushIndices (int32 int64 : Nat) : Nat → List Int → Build (List Nat)
  | _, [] => return []
  | current, index :: rest => do
    let isMember ← ask fun d => .ok (d.program.types.isStruct current)
    let v ← pushConstant (if isMember then int32 else int64) (.integer index)
    let next ← ask fun d => d.program.types.indexStep current (some index)
    return v :: (← pushIndices int32 int64 next rest)

def constantAddress (source : Nat) (base : Nat) (indices : List Int) : Build Nat := do
  let int32 ← onTypes (·.int 32)
  let int64 ← onTypes (·.int 64)
  let operands ← match indices with
    | [] => pure []
    | first :: rest => do
      let v ← pushConstant int64 (.integer first)
      let vs ← pushIndices int32 int64 source rest
      pure (v :: vs)
  let type ← elementAddressType source operands
  pushConstant type (.expr (.elementAddress ⟨source, base, operands⟩))

end Build

end AbstractMemory
