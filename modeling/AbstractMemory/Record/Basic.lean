import AbstractMemory.Bytes
import AbstractMemory.Record.Error

/-! The flattened fields of one struct or union. Members that are structs are
spliced in, an array counts as one field, and a union is one field. A record
also remembers which structs hold its type by value, and at which offset. -/

namespace AbstractMemory

/-- Inserts a pair into a strictly ascending list of pairs. -/
def insertPair (a : Nat × Nat) : List (Nat × Nat) → List (Nat × Nat)
  | [] => [a]
  | b :: rest =>
    if a.1 < b.1 ∨ a.1 = b.1 ∧ a.2 < b.2 then a :: b :: rest
    else if a = b then b :: rest
    else b :: insertPair a rest

structure Field where
  offset : Nat
  size : Nat
  isArray : Bool
  isPointer : Bool
  isUnion : Bool
deriving DecidableEq, Repr, Inhabited

/-- The field at an offset that is larger by some bytes. -/
def Field.shift (overflow : Overflow) (bytes : Nat) (f : Field) : Except ProgramError Field := do
  return { f with offset := ← overflow.count (bytes + f.offset) }

structure FieldRecord where
  name : String
  type : Nat
  fields : List Field := []
  /-- Pairs of a field and a type met there, ascending. -/
  elementTypes : List (Nat × Nat) := []
  /-- The first field of each declared member. -/
  memberFields : List Nat := []
  /-- Pairs of a struct that holds this one by value and the offset, ascending. -/
  containers : List (Nat × Nat) := []
  size : Nat := 0
  isUnion : Bool := false
  isOpaque : Bool := false
  isFinal : Bool := false
deriving DecidableEq, Repr, Inhabited

namespace FieldRecord

/-- The record of a struct without a body, which has no fields. -/
def bodiless (name : String) (type : Nat) : FieldRecord :=
  { name, type, isOpaque := true, isFinal := true }

def fieldCount (r : FieldRecord) : Nat :=
  r.fields.length

def push (r : FieldRecord) (f : Field) : FieldRecord :=
  { r with fields := r.fields ++ [f] }

def addElementType (r : FieldRecord) (field : Nat) (t : Nat) : FieldRecord :=
  { r with elementTypes := insertPair (field, t) r.elementTypes }

/-- Says that the next declared member starts at a field. -/
def mapMember (r : FieldRecord) (field : Nat) : FieldRecord :=
  { r with memberFields := r.memberFields ++ [field] }

/-- Appends the fields of a record that starts `bytes` into this one. -/
def splice (overflow : Overflow) (r inner : FieldRecord) (bytes : Nat) :
    Except ProgramError FieldRecord := do
  let moved ← inner.fields.mapM (Field.shift overflow bytes)
  return { r with
    fields := r.fields ++ moved
    elementTypes := inner.elementTypes.foldl
      (fun pairs pair => insertPair (r.fieldCount + pair.1, pair.2) pairs) r.elementTypes }

def hasContainer (r : FieldRecord) (container : Nat) (offset : Nat) : Bool :=
  r.containers.contains (container, offset)

def addContainer (r : FieldRecord) (container : Nat) (offset : Nat) : FieldRecord :=
  { r with containers := insertPair (container, offset) r.containers }

/-- What keeps a record from being finished, if anything. -/
def fault? (r : FieldRecord) : Option RecordFault :=
  match r.elementTypes.find? (fun pair => decide (r.fieldCount ≤ pair.1)) with
  | some (field, _) => some (.elementTypesOfMissingField field)
  | none =>
    (r.memberFields.find?
      (fun field => decide (0 < r.fieldCount ∧ r.fieldCount ≤ field))).map
        .memberAtMissingField

/-- Checks a field table and freezes it with the size of the type. -/
def finish (r : FieldRecord) (size : Nat) : Except RecordError FieldRecord :=
  match r.fault? with
  | some fault => .error (.inconsistent r.name fault)
  | none => .ok { r with size := size, isFinal := true }

/-- The types met at a field, if any are. -/
def elementTypesAt? (r : FieldRecord) (field : Nat) : Option (List Nat) :=
  match (r.elementTypes.filter (fun pair => pair.1 == field)).map Prod.snd with
  | [] => none
  | types => some types

end FieldRecord

end AbstractMemory
