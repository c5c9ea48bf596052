import AbstractMemory.Program.Types

/-! The values of a program: globals, functions, arguments, instructions and
constants. A value is written with values that are there already, and each of
those keeps the list of its users. -/

namespace AbstractMemory

inductive CastKind where
  | bit
  | addressSpace
  | intToPointer
  | pointerToInt
  | truncate
  | zeroExtend
  | signExtend
  | other
deriving DecidableEq, Repr, Inhabited

namespace CastKind

/-- Casts that keep the address they are given. -/
def keepsPointer : CastKind → Bool
  | .bit | .addressSpace => true
  | _ => false

def opcode : CastKind → String
  | .bit => "bitcast"
  | .addressSpace => "addrspacecast"
  | .intToPointer => "inttoptr"
  | .pointerToInt => "ptrtoint"
  | .truncate => "trunc"
  | .zeroExtend => "zext"
  | .signExtend => "sext"
  | .other => "cast"

end CastKind

/-- The address of an element: indices into an object of the source type that
starts at the base. -/
structure ElementAddress where
  source : Nat
  base : Nat
  indices : List Nat
deriving DecidableEq, Repr, Inhabited

def ElementAddress.operands (a : ElementAddress) : List Nat :=
  a.base :: a.indices

inductive ConstantExpr where
  | elementAddress (address : ElementAddress)
  | cast (kind : CastKind) (source : Nat)
  | other (opcode : String) (operands : List Nat)
deriving DecidableEq, Repr, Inhabited

namespace ConstantExpr

def opcode : ConstantExpr → String
  | .elementAddress _ => "getelementptr"
  | .cast kind _ => kind.opcode
  | .other name _ => name

def operands : ConstantExpr → List Nat
  | .elementAddress a => a.operands
  | .cast _ source => [source]
  | .other _ vs => vs

end ConstantExpr

inductive Constant where
  | null
  | undefined
  | integer (value : Int)
  | blockAddress
  | expr (e : ConstantExpr)
deriving DecidableEq, Repr, Inhabited

inductive Instruction where
  | alloca (allocated : Nat)
  | call (callee : Nat) (args : List Nat)
  | cast (kind : CastKind) (source : Nat)
  | elementAddress (address : ElementAddress)
  | load (pointer : Nat)
  | store (value pointer : Nat)
  | phi (incoming : List Nat)
  | ret (value : Option Nat)
  | other (opcode : String) (operands : List Nat)
deriving DecidableEq, Repr, Inhabited

namespace Instruction

def opcode : Instruction → String
  | .alloca _ => "alloca"
  | .call _ _ => "call"
  | .cast kind _ => kind.opcode
  | .elementAddress _ => "getelementptr"
  | .load _ => "load"
  | .store _ _ => "store"
  | .phi _ => "phi"
  | .ret _ => "ret"
  | .other name _ => name

def operands : Instruction → List Nat
  | .alloca _ => []
  | .call callee args => callee :: args
  | .cast _ source => [source]
  | .elementAddress a => a.operands
  | .load pointer => [pointer]
  | .store value pointer => [value, pointer]
  | .phi incoming => incoming
  | .ret value => value.toList
  | .other _ vs => vs

end Instruction

structure Global where
  valueType : Nat
  isDeclaration : Bool
  /-- The module it belongs to. -/
  home : Nat
deriving DecidableEq, Repr, Inhabited

structure Function where
  signature : Nat
  isDeclaration : Bool
  args : List Nat
  body : List Nat
  /-- The module it belongs to. -/
  home : Nat
deriving DecidableEq, Repr, Inhabited

inductive ValueKind where
  | global (g : Global)
  | function (f : Function)
  | argument (parent : Nat) (index : Nat)
  | instruction (parent : Nat) (op : Instruction)
  | constant (c : Constant)
deriving DecidableEq, Repr, Inhabited

structure Value where
  type : Nat
  name : Option String
  kind : ValueKind
  users : List Nat := []
deriving DecidableEq, Repr, Inhabited

namespace Value

def constant? (v : Value) : Option Constant :=
  match v.kind with
  | .constant c => some c
  | _ => none

def function? (v : Value) : Option Function :=
  match v.kind with
  | .function f => some f
  | _ => none

def global? (v : Value) : Option Global :=
  match v.kind with
  | .global g => some g
  | _ => none

def instruction? (v : Value) : Option Instruction :=
  match v.kind with
  | .instruction _ op => some op
  | _ => none

def constantExpr? (v : Value) : Option ConstantExpr :=
  match v.kind with
  | .constant (.expr e) => some e
  | _ => none

/-- The element address of an instruction or of a constant. -/
def elementAddress? (v : Value) : Option ElementAddress :=
  match v.kind with
  | .instruction _ (.elementAddress a) => some a
  | .constant (.expr (.elementAddress a)) => some a
  | _ => none

/-- The cast of an instruction or of a constant. -/
def cast? (v : Value) : Option (CastKind × Nat) :=
  match v.kind with
  | .instruction _ (.cast kind source) => some (kind, source)
  | .constant (.expr (.cast kind source)) => some (kind, source)
  | _ => none

/-- Functions with a reserved name, which stand for no code of the program. -/
def isIntrinsic (v : Value) : Bool :=
  v.function?.isSome && (v.name.any fun name => name.startsWith "llvm.")

def isDeclaration (v : Value) : Bool :=
  match v.kind with
  | .global g => g.isDeclaration
  | .function f => f.isDeclaration
  | _ => false

def operands (v : Value) : List Nat :=
  match v.kind with
  | .instruction _ op => op.operands
  | .constant (.expr e) => e.operands
  | _ => []

def addUser (v : Value) (user : Nat) : Value :=
  if user ∈ v.users then v else { v with users := v.users ++ [user] }

end Value

structure ValueTable where
  entries : Array Value := #[]
deriving DecidableEq, Repr, Inhabited

namespace ValueTable

def size (values : ValueTable) : Nat :=
  values.entries.size

def get? (values : ValueTable) (v : Nat) : Option Value :=
  values.entries[v]?

def get (values : ValueTable) (v : Nat) : Except ProgramError Value :=
  match values.get? v with
  | some value => .ok value
  | none => .error (.unknownValue v)

theorem get_eq_ok {values : ValueTable} {v : Nat} {value : Value} :
    values.get v = .ok value ↔ values.get? v = some value := by
  unfold get
  cases values.get? v <;> simp

theorem lt_size_of_get? {values : ValueTable} {v : Nat} {value : Value}
    (h : values.get? v = some value) : v < values.size :=
  (Array.getElem?_eq_some_iff.mp h).1

def modify (values : ValueTable) (v : Nat) (f : Value → Value) : ValueTable :=
  { entries := values.entries.modify v f }

/-- Adds `user` to the users of each value of a list. -/
def addUsers (values : ValueTable) (user : Nat) (operands : List Nat) : ValueTable :=
  operands.foldl (fun table v => table.modify v (·.addUser user)) values

/-- Appends a value, which becomes a user of its operands. -/
def push (values : ValueTable) (value : Value) : Except ProgramError (Nat × ValueTable) :=
  match value.operands.find? (fun v => decide (values.size ≤ v)) with
  | some v => .error (.unknownValue v)
  | none =>
    .ok (values.size,
      { entries := (values.addUsers values.size value.operands).entries.push value })

def constInt? (values : ValueTable) (v : Nat) : Option Int :=
  match (values.get? v).map Value.kind with
  | some (.constant (.integer i)) => some i
  | _ => none

def allZero (values : ValueTable) (indices : List Nat) : Bool :=
  indices.all fun i => values.constInt? i == some 0

/-- The value whose address this one passes on: the source of a cast that
keeps it, or the base of an element address with all indices zero. -/
def passedOn? (values : ValueTable) (value : Value) : Option Nat :=
  match value.cast?, value.elementAddress? with
  | some (kind, source), _ => if kind.keepsPointer then some source else none
  | none, some a => if values.allZero a.indices then some a.base else none
  | none, none => none

/-- The value behind all casts that keep an address. Operands come before
their users, so every step goes to a smaller id. -/
def stripCasts (values : ValueTable) (v : Nat) : Except ProgramError Nat :=
  match values.get? v with
  | none => .error (.unknownValue v)
  | some value =>
    match values.passedOn? value with
    | none => .ok v
    | some source => if source < v then values.stripCasts source else .ok v
termination_by v

/-- Whether a use of `func` is more than a call of it. -/
def takesAddress (func : Nat) (user : Value) : Bool :=
  match user.kind with
  | .instruction _ (.call callee args) => !(callee == func && !args.contains func)
  | _ => true

/-- Whether a function is used other than as the callee of direct calls. -/
def addressTaken (values : ValueTable) (func : Nat) : Except ProgramError Bool :=
  match values.get? func with
  | none => .error (.unknownValue func)
  | some value =>
    value.users.foldlM
      (fun taken user =>
        if taken then .ok true
        else
          match values.get? user with
          | none => .error (.unknownValue user)
          | some u => .ok (takesAddress func u))
      false

/-- The function a call reaches directly, through casts that keep its address. -/
def calledFunction (values : ValueTable) (call : Nat) :
    Except ProgramError (Option Nat) := do
  let value ← values.get call
  match value.instruction? with
  | some (.call callee _) =>
    let target ← values.stripCasts callee
    let found ← values.get target
    return if found.function?.isSome then some target else none
  | _ => return none

end ValueTable

end AbstractMemory
