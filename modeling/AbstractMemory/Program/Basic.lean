import AbstractMemory.Program.Layout
import AbstractMemory.Program.Values
import Std.Data.TreeMap

/-! Programs: modules that share one table of types and one of values. -/

namespace AbstractMemory

structure Module where
  name : String
  globals : List Nat := []
  functions : List Nat := []
deriving DecidableEq, Repr, Inhabited

structure Program where
  types : TypeTable := {}
  values : ValueTable := {}
  dataLayout : DataLayout := {}
  modules : Array Module := #[]
  /-- Defined globals and functions by name. -/
  symbols : Std.TreeMap String Nat := {}
deriving Inhabited

namespace Program

def getModule (p : Program) (index : Nat) : Except ProgramError Module :=
  match p.modules[index]? with
  | some m => .ok m
  | none => .error (.unknownModule index)

/-- The definition a global or function stands for, possibly in another module.
All other values stand for themselves. -/
def definitionOf (p : Program) (v : Nat) : Except ProgramError (Option Nat) := do
  let value ← p.values.get v
  if value.isDeclaration then
    return value.name.bind fun name => p.symbols[name]?
  else
    return some v

end Program

end AbstractMemory
