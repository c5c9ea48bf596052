import AbstractMemory.Node.Arena
import AbstractMemory.Record.Resolve

/-! The nodes of values. Constants are resolved: null, unknown addresses and
numbers have nodes of their own, a constant address is a field of the object
it starts from. A declaration stands for its definition. -/

namespace AbstractMemory

namespace Arena

/-- The value node for a field of what `base` points to, first asked for by the
constant `v`. -/
def fieldPointer (v : Nat) (base : Nat) (field : Nat) : Arranging Nat := do
  let a ← get
  match a.fieldPointers.lookup (base, field) with
  | some n => return n
  | none =>
    let n ← match a.valueNodes[v]? with
      | some n => pure n
      | none => createValue (some v)
    modify fun a =>
      { a with
        fieldPointers := ((base, field), n) :: a.fieldPointers
        fieldPointerOrigins := a.fieldPointerOrigins.insert n (base, field) }
    return n

/-- The value node of a value, or nothing if it is not modelled. -/
def valueNode (p : Program) (c : Catalog) (v : Nat) : Arranging (Option Nat) := do
  let value ← askProgram (p.values.get v)
  match value.kind with
  | .constant k =>
    if !p.types.isPointer value.type then return some constantInteger
    match k with
    | .null | .undefined | .blockAddress => return some nullPointer
    | .integer i => return some (if i = 0 then nullPointer else universalPointer)
    | .expr (.elementAddress _) =>
      let object ← askProgram (p.underlying v)
      match ← if object < v then valueNode p c object else pure none with
      | none => throw (.missingBase v)
      | some base =>
        if base = nullPointer ∨ base = universalPointer then return some base
        let field ← askProgram (c.constantField p v)
        if field.index = 0 then return some base
        return some (← fieldPointer v base field.index)
    | .expr (.cast kind source) =>
      if kind.keepsPointer then
        match ← if source < v then valueNode p c source else pure none with
        | none => throw (.missingBase v)
        | some n => return some n
      else if kind = .intToPointer then return some universalPointer
      else throw (.unhandledConstant v kind.opcode)
    | .expr (.other opcode _) => throw (.unhandledConstant v opcode)
  | .global _ | .function _ =>
    match ← askProgram (p.definitionOf v) with
    | some d => return (← get).valueNodes[d]?
    | none => return some universalPointer
  | _ => return (← get).valueNodes[v]?
termination_by v

/-- The object node of a value, or nothing if it has none. -/
def objectNode (a : Arena) (p : Program) (c : Catalog) (v : Nat) :
    Except NodeError (Option Nat) := do
  let value ← (p.values.get v).mapError .program
  match value.kind with
  | .constant k =>
    if !p.types.isPointer value.type then return some universalObject
    match k with
    | .null | .undefined | .blockAddress => return some nullObject
    | .integer i => return some (if i = 0 then nullObject else universalObject)
    | .expr (.elementAddress _) =>
      let object ← (p.underlying v).mapError .program
      match ← if object < v then a.objectNode p c object else pure none with
      | none => throw (.missingBase v)
      | some base =>
        if base = nullObject ∨ base = universalObject then return some base
        let field ← (c.constantField p v).mapError .program
        return some (← a.fieldNode base field.index)
    | .expr (.cast kind source) =>
      if kind.keepsPointer then
        match ← if source < v then a.objectNode p c source else pure none with
        | none => throw (.missingBase v)
        | some n => return some n
      else if kind = .intToPointer then return some universalObject
      else throw (.unhandledConstant v kind.opcode)
    | .expr (.other opcode _) => throw (.unhandledConstant v opcode)
  | .global _ | .function _ =>
    match ← (p.definitionOf v).mapError .program with
    | some d => return a.objectNodes[d]?
    | none => return some universalObject
  | _ => return a.objectNodes[v]?
termination_by v

end Arena

end AbstractMemory
