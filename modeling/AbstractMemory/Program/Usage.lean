import AbstractMemory.Program.Basic
import AbstractMemory.Walk

/-! The struct types a module uses: those reached from the types of its
globals, functions and instructions, and of the constants in them. -/

namespace AbstractMemory

/-- The types a value is written with, its own first. -/
def Value.mentions (value : Value) : List Nat :=
  value.type :: match value.kind with
    | .global g => [g.valueType]
    | .function f => [f.signature]
    | .instruction _ (.alloca allocated) => [allocated]
    | .instruction _ (.elementAddress a) => [a.source]
    | .constant (.expr (.elementAddress a)) => [a.source]
    | _ => []

/-- The types a type is written with. -/
def TypeTable.mentions (types : TypeTable) (t : Nat) : List Nat :=
  (types.get? t).elim [] Ty.mentions

namespace Program

/-- The operands of a constant that is an expression. -/
def constantOperands (p : Program) (v : Nat) : List Nat :=
  ((p.values.get? v).bind Value.constantExpr?).elim [] ConstantExpr.operands

/-- The types of the constants among some values, and of the constants that
those are written with. -/
def constantTypes (p : Program) (operands : List Nat) : Except ProgramError (List Nat) := do
  let values ← (visited p.values.size p.constantOperands operands).mapM p.values.get
  return (values.filter fun value => value.constant?.isSome).flatMap Value.mentions

def instructionTypes (p : Program) (v : Nat) : Except ProgramError (List Nat) := do
  let value ← p.values.get v
  return value.mentions ++ (← p.constantTypes value.operands)

def functionTypes (p : Program) (v : Nat) : Except ProgramError (List Nat) := do
  let value ← p.values.get v
  let args ← (value.function?.elim [] Function.args).mapM p.values.get
  let body ← (value.function?.elim [] Function.body).mapM p.instructionTypes
  return value.mentions ++ args.map Value.type ++ body.flatten

/-- The types a module is written with. -/
def moduleTypes (p : Program) (m : Module) : Except ProgramError (List Nat) := do
  let globals ← m.globals.mapM p.values.get
  let functions ← m.functions.mapM p.functionTypes
  return globals.flatMap Value.mentions ++ functions.flatten

/-- The struct types a module uses, in the order they are met. -/
def usedStructs (p : Program) (index : Nat) : Except ProgramError (List Nat) := do
  let types := visited p.types.size p.types.mentions (← p.moduleTypes (← p.getModule index))
  match types.find? fun t => decide (p.types.size ≤ t) with
  | some t => throw (.unknownType t)
  | none => return types.filter p.types.isStruct

end Program

end AbstractMemory
