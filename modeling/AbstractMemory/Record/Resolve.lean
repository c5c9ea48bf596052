import AbstractMemory.Record.Catalog

/-! From constant addresses to fields. An address is first reduced to a byte
offset into the object it starts from, and the offset is then followed down
the flattened members of the object's type. -/

namespace AbstractMemory

structure ResolvedField where
  index : Nat
  /-- Whether the offset is where the field starts. If not, the field is the
  first one of the innermost struct around it. -/
  exact : Bool
deriving DecidableEq, Repr, Inhabited

namespace Program

/-- The offset an element address adds to its base. An index that is not a
constant counts as zero. -/
def ownOffset (p : Program) (a : ElementAddress) : Except ProgramError Int :=
  p.dataLayout.indexedOffset p.types a.source
    (a.indices.map fun i => (p.values.constInt? i).getD 0)

/-- The byte offset of an element address, with the offsets of the constant
addresses it is based on. -/
def byteOffset (p : Program) (v : Nat) : Except ProgramError Int :=
  match p.values.get? v with
  | none => .error (.unknownValue v)
  | some value =>
    match value.elementAddress? with
    | none => .error (.wrongType .elementAddress value.type)
    | some a => do
      let base ← p.values.stripCasts a.base
      let below ← match (← p.values.get base).constantExpr? with
        | some (.elementAddress _) => if base < v then p.byteOffset base else .ok 0
        | _ => .ok 0
      return wrap64 (below + (← p.ownOffset a))
termination_by v

/-- The value behind all element addresses and all casts that keep an address. -/
def underlying (p : Program) (v : Nat) : Except ProgramError Nat := do
  let stripped ← p.values.stripCasts v
  match (← p.values.get stripped).elementAddress? with
  | none => return stripped
  | some a => if a.base < v then p.underlying a.base else return stripped
termination_by v

end Program

namespace Catalog

/-- Follows an offset down a type. The field reached so far is `index`, the
first one of the innermost struct is `outer`. -/
def descend (c : Catalog) (p : Program) (path : List Nat) (t : Nat)
    (index outer offset : Nat) : Except ProgramError ResolvedField :=
  if offset = 0 then .ok ⟨index, true⟩
  else
    let stripped := p.types.stripArrays t
    if p.types.isStruct stripped then
      match c.record? p stripped with
      | none => .ok ⟨outer, false⟩
      | some r =>
        if r.isOpaque || r.size == 0 then .ok ⟨index, false⟩
        else if r.isUnion then .ok ⟨index, true⟩
        else
          match p.dataLayout.structLayout p.types r.type with
          | .error e => .error e
          | .ok none => .ok ⟨index, false⟩
          | .ok (some placed) =>
            if _hp : r.type ∈ path then .ok ⟨index, false⟩
            else
              match _h : p.types.get? r.type with
              | some (.struct s) =>
                let rest := offset % r.size
                let m := placed.memberAt rest
                c.descend p (r.type :: path) (s.members[m]?.getD stripped)
                  (index + r.memberFields[m]?.getD 0) index (rest - placed.offsets[m]?.getD 0)
              | _ => .ok ⟨index, false⟩
    else
      match p.dataLayout.size? p.types stripped with
      | .error e => .error e
      | .ok size =>
        let size := size.getD 0
        if size = 0 then .ok ⟨outer, false⟩
        else if offset % size = 0 then .ok ⟨index, true⟩
        else .ok ⟨outer, false⟩
termination_by unseen p.types.size path
decreasing_by exact unseen_cons_lt (TypeTable.lt_size_of_get? _h) _hp

/-- The field of a type at a byte offset. Before the object, and in a struct
without a body, it is the first one. -/
def fieldInType (c : Catalog) (p : Program) (t : Nat) (offset : Int) :
    Except ProgramError ResolvedField :=
  if offset < 0 then .ok ⟨0, false⟩
  else
    match p.types.struct? t with
    | none => c.descend p [] t 0 0 offset.toNat
    | some s =>
      if c.treatsAsUnion s then .ok ⟨0, true⟩
      else if s.body.isNone && (c.record? p t).all FieldRecord.isOpaque then .ok ⟨0, false⟩
      else c.descend p [] t 0 0 offset.toNat

/-- The field at a byte offset from where a pointer points. -/
def fieldOf (c : Catalog) (p : Program) (pointer : Nat) (offset : Int) :
    Except ProgramError ResolvedField := do
  let t := (← p.values.get pointer).type
  match p.types.pointee? t with
  | some pointee => c.fieldInType p pointee offset
  | none => throw (.wrongType .pointer t)

/-- The field of the underlying object that a constant address reaches. -/
def constantField (c : Catalog) (p : Program) (v : Nat) :
    Except ProgramError ResolvedField := do
  let offset ← p.byteOffset v
  let object ← p.underlying v
  c.fieldOf p object offset

/-- The field an element address reaches from its base, if all its indices are
constants. -/
def addressField (c : Catalog) (p : Program) (v : Nat) :
    Except ProgramError (Option ResolvedField) := do
  let value ← p.values.get v
  match value.elementAddress? with
  | none => throw (.wrongType .elementAddress value.type)
  | some a =>
    match a.indices.mapM p.values.constInt? with
    | none => return none
    | some indices =>
      let offset ← p.dataLayout.indexedOffset p.types a.source indices
      return some (← c.fieldInType p a.source offset)

end Catalog

end AbstractMemory
