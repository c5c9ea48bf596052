import AbstractMemory.Record.Catalog

/-! Flattening structs into records. A record is made once. What was recorded
before a struct turned out to have no record stays. -/

namespace AbstractMemory

/-- A step that fills a catalog. -/
abbrev Cataloguing := EStateM RecordError Catalog

namespace Catalog

/-- The answer of the program, whose errors are errors of a record. -/
def ask {α : Type} (answer : Except ProgramError α) : Cataloguing α :=
  match answer with
  | .ok a => pure a
  | .error e => throw (.program e)

def finish (r : FieldRecord) (size : Nat) : Cataloguing FieldRecord :=
  match r.finish size with
  | .ok r => pure r
  | .error e => throw e

/-- The record of a struct member, which has to have a body. -/
def member (record : Nat → Cataloguing Nat) (outer : String) (t : Nat) :
    Cataloguing Nat := do
  let sub ← record t
  match (← get).records[sub]? with
  | some r => if r.isOpaque then throw (.bodilessMember outer r.name) else return sub
  | none => return sub

def sizeOrZero (p : Program) (t : Nat) : Cataloguing Nat := do
  return (← ask (p.dataLayout.size? p.types t)).getD 0

/-- Records that `outer` holds a struct with a record, and all that is in it. -/
def embedMember (p : Program) (outer inner offset : Nat) : Cataloguing Unit := do
  set (← ask (embed p outer [] inner offset (← get)))

/-- Appends one declared member at its offset. -/
def addMember (p : Program) (record : Nat → Cataloguing Nat) (r : FieldRecord)
    (placed : Nat × Nat) : Cataloguing FieldRecord := do
  let (m, offset) := placed
  let stripped := p.types.stripArrays m
  let first := r.fieldCount
  let mapped := r.mapMember first
  let extended ←
    if p.types.isStruct stripped then do
      let sub ← member record r.name stripped
      embedMember p r.type sub offset
      match (← get).records[sub]? with
      | some inner => ask (mapped.splice p.dataLayout.overflow inner offset)
      | none => pure mapped
    else do
      let size ← sizeOrZero p m
      pure (mapped.push
        { offset, size, isArray := p.types.isArray m, isPointer := p.types.isPointer stripped,
          isUnion := false })
  return if first < extended.fieldCount then extended.addElementType first stripped else extended

/-- The record of a struct whose members follow each other. All members have
to have records before offsets are asked for. -/
def flattenStruct (p : Program) (record : Nat → Cataloguing Nat) (name : String) (t : Nat)
    (members : List Nat) : Cataloguing FieldRecord := do
  for m in members do
    let stripped := p.types.stripArrays m
    if p.types.isStruct stripped then
      let _ ← member record name stripped
  match ← ask (p.dataLayout.structLayout p.types t) with
  | none => throw (.program (.unsizedType t))
  | some placed =>
    let r ← (members.zip placed.offsets).foldlM (addMember p record) { name, type := t }
    finish (if r.fields.isEmpty then r else r.addElementType 0 t) placed.size

/-- What the members of a union amount to. -/
structure Overlay where
  isArray : Bool := false
  isPointer : Bool := false
  types : List Nat := []

/-- Adds one member to the overlay of a union. -/
def overlayMember (p : Program) (record : Nat → Cataloguing Nat) (t : Nat)
    (name : String) (o : Overlay) (m : Nat) : Cataloguing Overlay := do
  let stripped := p.types.stripArrays m
  let o := { o with isArray := o.isArray || p.types.isArray m, types := o.types ++ [stripped] }
  if p.types.isStruct stripped then do
    let sub ← member record name stripped
    embedMember p t sub 0
    match (← get).records[sub]? with
    | none => return o
    | some inner =>
      return {
        isArray := o.isArray || inner.fields.any Field.isArray
        isPointer := o.isPointer || inner.fields.any Field.isPointer
        types := o.types ++
          (inner.elementTypes.filter fun pair => decide (pair.1 < inner.fieldCount)).map Prod.snd }
  else
    return { o with isPointer := o.isPointer || p.types.isPointer stripped }

/-- The record of a union, which has one field for all its members. -/
def flattenUnion (p : Program) (record : Nat → Cataloguing Nat) (name : String) (t : Nat)
    (members : List Nat) : Cataloguing FieldRecord := do
  let blank : FieldRecord := { name, type := t, isUnion := true }
  if members.isEmpty then finish blank 0
  else
    let o ← members.foldlM (overlayMember p record t name) {}
    let size ← sizeOrZero p t
    let r := { blank with memberFields := members.map fun _ => 0 }.push
      { offset := 0, size, isArray := o.isArray, isPointer := o.isPointer, isUnion := true }
    finish ((t :: o.types).foldl (fun r u => r.addElementType 0 u) r) size

/-- Makes sure that a struct has a record and gives the struct it is kept
under. The structs being flattened are `pending`: one met again is inside
itself. -/
def ensure (p : Program) (pending : List Nat) (t : Nat) : Cataloguing Nat := do
  match p.types.struct? t with
  | none => throw (.notStruct t)
  | some s =>
    modify fun c => c.register s t
    let c ← get
    let key := c.standIn s t
    if c.records.contains key then return key
    else if _hp : key ∈ pending then throw (.containsItself (← ask (p.types.text key)))
    else
      match _h : p.types.get? key with
      | some (.struct shape) =>
        let name ← ask (p.types.text key)
        match shape.body with
        | none =>
          modify fun c => { c with records := c.records.insert key (.bodiless name key) }
          return key
        | some members =>
          let flatten := if c.treatsAsUnion shape then flattenUnion else flattenStruct
          let r ← flatten p (fun m => ensure p (key :: pending) m) name key members
          modify fun c => c.keep key r
          return key
      | _ => throw (.notStruct key)
termination_by unseen p.types.size pending
decreasing_by exact unseen_cons_lt (TypeTable.lt_size_of_get? _h) _hp

/-- The record of a struct, made if there is none. -/
def layoutOf (p : Program) (t : Nat) : Cataloguing FieldRecord := do
  let key ← ensure p [] t
  match (← get).records[key]? with
  | some r => return r
  | none => throw (.notStruct t)

/-- Makes a record for a struct that a module uses: for an unnamed one always,
for a named one with a body if it is the first of its scope name. -/
def coverStruct (p : Program) (t : Nat) : Cataloguing Unit := do
  match p.types.struct? t with
  | none => throw (.notStruct t)
  | some s =>
    match s.name, s.body with
    | none, _ => let _ ← ensure p [] t
    | some name, some _ =>
      unless (← get).scopes.contains (scopeName name) do
        modify fun c => c.register s t
        let _ ← ensure p [] t
    | some _, none => pure ()

def coverModule (p : Program) (index : Nat) : Cataloguing Unit := do
  let used ← ask (p.usedStructs index)
  used.forM (coverStruct p)

/-- Makes records for all structs that the modules of a program use. -/
def coverProgram (p : Program) : Cataloguing Unit :=
  (List.range p.modules.size).forM (coverModule p)

end Catalog

end AbstractMemory
