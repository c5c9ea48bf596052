import AbstractMemory.Record.Error

/-! What can go wrong in the arena of nodes. -/

namespace AbstractMemory

inductive NodeError where
  | duplicateValueNode (value : Nat)
  | duplicateReturnNode (function : Nat)
  | duplicateVariadicNode (function : Nat)
  | notContiguous (base : Nat) (offset : Nat)
  | zeroFieldOffset (base : Nat)
  | unknownNode (node : Nat)
  | notObject (node : Nat)
  | mergedSentinel (node : Nat)
  | taintedValue (node : Nat)
  | missingBase (value : Nat)
  | unhandledConstant (value : Nat) (opcode : String)
  | allocationNotPointer (value : Nat)
  | record (e : RecordError)
  | program (e : ProgramError)
deriving DecidableEq, Repr

def NodeError.message : NodeError → String
  | .duplicateValueNode v => "value " ++ valueText v ++ " already has a value node"
  | .duplicateReturnNode v => "function " ++ valueText v ++ " already has a return node"
  | .duplicateVariadicNode v => "function " ++ valueText v ++ " already has a vararg node"
  | .notContiguous base offset =>
    "object node " ++ toString base ++ " has no contiguous field at offset " ++ toString offset
  | .zeroFieldOffset base =>
    "field object nodes need a non-zero offset (base " ++ toString base ++ ")"
  | .unknownNode n => "unknown node " ++ toString n
  | .notObject n => "node " ++ toString n ++ " is not an object node"
  | .mergedSentinel n =>
    "sentinel node " ++ toString n ++ " cannot be merged into another node"
  | .taintedValue n => "only object nodes can be tainted (node " ++ toString n ++ ")"
  | .missingBase v => "no node for the base of constant GEP " ++ valueText v
  | .unhandledConstant v opcode =>
    "unhandled constant expression '" ++ opcode ++ "' (" ++ valueText v ++ ")"
  | .allocationNotPointer v =>
    "allocation site " ++ valueText v ++ " does not return a pointer"
  | .record e => e.message
  | .program e => e.message

end AbstractMemory
