import AbstractMemory.Bytes
import AbstractMemory.Descent
import AbstractMemory.Program.Error

/-! The types of a program. A table owns all of them: an unnamed type has one
id for each structure, a named struct has one id for each declaration and may
get its body later. -/

namespace AbstractMemory

/-- A struct or union. Without a name it stands for its structure alone, and a
named one without a body is not laid out yet. -/
structure StructType where
  name : Option String
  body : Option (List Nat)
  packed : Bool
  isUnion : Bool
deriving DecidableEq, Repr, Inhabited

def StructType.members (s : StructType) : List Nat :=
  s.body.getD []

structure FunctionType where
  result : Nat
  params : List Nat
  variadic : Bool
deriving DecidableEq, Repr, Inhabited

inductive Ty where
  | void
  | integer (bits : Nat)
  | float (bits : Nat)
  | pointer (pointee : Nat)
  | array (element : Nat) (length : Nat)
  | struct (shape : StructType)
  | function (signature : FunctionType)
deriving DecidableEq, Repr, Inhabited

namespace Ty

def struct? : Ty → Option StructType
  | .struct s => some s
  | _ => none

def function? : Ty → Option FunctionType
  | .function f => some f
  | _ => none

def pointee? : Ty → Option Nat
  | .pointer t => some t
  | _ => none

def element? : Ty → Option Nat
  | .array t _ => some t
  | _ => none

/-- The types a type is written with, in the order they are looked at. -/
def mentions : Ty → List Nat
  | .pointer t => [t]
  | .array t _ => [t]
  | .function f => f.params ++ [f.result]
  | .struct s => s.members
  | _ => []

/-- The types whose texts are part of the text of a type. Named structs are
written by name. -/
def writtenParts : Ty → List Nat
  | .pointer t => [t]
  | .array t _ => [t]
  | .function f => f.result :: f.params
  | .struct s => if s.name.isSome then [] else s.members
  | _ => []

/-- The text of a type, given the texts of its parts. -/
def text (ty : Ty) (parts : List String) : String :=
  match ty with
  | .void => "void"
  | .integer bits => "i" ++ toString bits
  | .float bits => "f" ++ toString bits
  | .pointer _ => parts.headD "" ++ "*"
  | .array _ length => "[" ++ toString length ++ " x " ++ parts.headD "" ++ "]"
  | .function f =>
    parts.headD "" ++ " (" ++ ", ".intercalate parts.tail ++
      (if f.variadic then ", ..." else "") ++ ")"
  | .struct s =>
    match s.name with
    | some name => "%" ++ name
    | none => "\x7b " ++ ", ".intercalate parts ++ " \x7d"

end Ty

structure TypeTable where
  entries : Array Ty := #[]
  /-- The next suffix to try for a struct name that is taken. -/
  nextSuffix : Nat := 0
deriving DecidableEq, Repr, Inhabited

namespace TypeTable

def size (types : TypeTable) : Nat :=
  types.entries.size

def get? (types : TypeTable) (t : Nat) : Option Ty :=
  types.entries[t]?

def get (types : TypeTable) (t : Nat) : Except ProgramError Ty :=
  match types.get? t with
  | some ty => .ok ty
  | none => .error (.unknownType t)

theorem get_eq_ok {types : TypeTable} {t : Nat} {ty : Ty} :
    types.get t = .ok ty ↔ types.get? t = some ty := by
  unfold get
  cases types.get? t <;> simp

theorem lt_size_of_get? {types : TypeTable} {t : Nat} {ty : Ty}
    (h : types.get? t = some ty) : t < types.size :=
  (Array.getElem?_eq_some_iff.mp h).1

def struct? (types : TypeTable) (t : Nat) : Option StructType :=
  (types.get? t).bind Ty.struct?

def structName? (types : TypeTable) (t : Nat) : Option String :=
  (types.struct? t).bind StructType.name

def pointee? (types : TypeTable) (t : Nat) : Option Nat :=
  (types.get? t).bind Ty.pointee?

def isStruct (types : TypeTable) (t : Nat) : Bool :=
  (types.struct? t).isSome

def isPointer (types : TypeTable) (t : Nat) : Bool :=
  (types.pointee? t).isSome

def isArray (types : TypeTable) (t : Nat) : Bool :=
  ((types.get? t).bind Ty.element?).isSome

def isVoid (types : TypeTable) (t : Nat) : Bool :=
  types.get? t == some .void

def isInteger (types : TypeTable) (t : Nat) (bits : Nat) : Bool :=
  types.get? t == some (.integer bits)

/-- The named struct with exactly this name. -/
def byName? (types : TypeTable) (name : String) : Option Nat :=
  types.entries.findIdx? fun ty => (ty.struct?.bind StructType.name) == some name

def push (types : TypeTable) (ty : Ty) : Nat × TypeTable :=
  (types.size, { types with entries := types.entries.push ty })

/-- The id of an unnamed type, which is new only if no equal type is there. -/
def intern (types : TypeTable) (ty : Ty) : Nat × TypeTable :=
  match types.entries.idxOf? ty with
  | some t => (t, types)
  | none => types.push ty

def void (types : TypeTable) : Nat × TypeTable :=
  types.intern .void

def int (types : TypeTable) (bits : Nat) : Nat × TypeTable :=
  types.intern (.integer bits)

def float (types : TypeTable) (bits : Nat) : Nat × TypeTable :=
  types.intern (.float bits)

def pointerTo (types : TypeTable) (pointee : Nat) : Nat × TypeTable :=
  types.intern (.pointer pointee)

def arrayOf (types : TypeTable) (element : Nat) (length : Nat) : Nat × TypeTable :=
  types.intern (.array element length)

def function (types : TypeTable) (result : Nat) (params : List Nat) (variadic : Bool) :
    Nat × TypeTable :=
  types.intern (.function ⟨result, params, variadic⟩)

def literalStruct (types : TypeTable) (members : List Nat) (packed : Bool) :
    Nat × TypeTable :=
  types.intern (.struct ⟨none, some members, packed, false⟩)

def suffixed (name : String) (k : Nat) : String :=
  name ++ "." ++ toString k

/-- The first suffix from `nextSuffix` on that makes the name unused. The table
is too small to hold more names than it is searched for. -/
def freeSuffix (types : TypeTable) (name : String) : Nat :=
  ((List.range' types.nextSuffix (types.size + 1)).find?
    (fun k => (types.byName? (suffixed name k)).isNone)).getD types.nextSuffix

/-- Declares a named struct without a body. A name in use gets a suffix. -/
def namedStruct (types : TypeTable) (name : String) : Nat × TypeTable :=
  match types.byName? name with
  | none => types.push (.struct ⟨some name, none, false, false⟩)
  | some _ =>
    let k := types.freeSuffix name
    { types with nextSuffix := k + 1 }.push
      (.struct ⟨some (suffixed name k), none, false, false⟩)

/-- Replaces the shape of the struct with id `t`. -/
def setStruct (types : TypeTable) (t : Nat) (s : StructType) : TypeTable :=
  { types with entries := types.entries.setIfInBounds t (.struct s) }

/-- Gives a named struct its body, once. -/
def setBody (types : TypeTable) (t : Nat) (members : List Nat) (packed : Bool) :
    Except ProgramError TypeTable :=
  match types.get? t with
  | none => .error (.unknownType t)
  | some (.struct s) =>
    match s.name, s.body with
    | none, _ => .error (.notNamedStruct t)
    | some _, some _ => .error (.bodyAlreadySet t)
    | some _, none => .ok (types.setStruct t { s with body := some members, packed := packed })
  | some _ => .error (.notNamedStruct t)

def defineWith (types : TypeTable) (name : String) (members : List Nat) (isUnion : Bool) :
    Nat × TypeTable :=
  let (t, declared) := types.namedStruct name
  match declared.struct? t with
  | some s => (t, declared.setStruct t { s with body := some members, isUnion := isUnion })
  | none => (t, declared)

/-- A named struct with its body. -/
def defineStruct (types : TypeTable) (name : String) (members : List Nat) :
    Nat × TypeTable :=
  types.defineWith name members false

/-- A named union, whose members all start at offset zero. -/
def defineUnion (types : TypeTable) (name : String) (members : List Nat) :
    Nat × TypeTable :=
  types.defineWith name members true

/-- The element type left after every array dimension is taken off. An array
that is its own element stays as it is. -/
def stripArraysFrom (types : TypeTable) (path : List Nat) (t : Nat) : Nat :=
  match _h : types.get? t with
  | some (.array element _) =>
    if _hp : t ∈ path then t else types.stripArraysFrom (t :: path) element
  | _ => t
termination_by unseen types.size path
decreasing_by exact unseen_cons_lt (lt_size_of_get? _h) _hp

/-- What is left of a type when its arrays are taken off. Arrays inside themselves
stay. -/
def stripArrays (types : TypeTable) (t : Nat) : Nat :=
  types.stripArraysFrom [] t

/-- A type without its arrays. Arrays inside themselves are taken off without end. -/
def strip (types : TypeTable) (t : Nat) : Except ProgramError Nat :=
  let u := types.stripArrays t
  if types.isArray u then .error (.halted .endless) else .ok u

def elementCountFrom (types : TypeTable) (path : List Nat) (count : Nat) (t : Nat) : Nat :=
  match _h : types.get? t with
  | some (.array element length) =>
    if _hp : t ∈ path then count
    else types.elementCountFrom (t :: path) (cappedMul count length) element
  | _ => count
termination_by unseen types.size path
decreasing_by exact unseen_cons_lt (lt_size_of_get? _h) _hp

/-- The number of elements over all array dimensions. -/
def elementCount (types : TypeTable) (t : Nat) : Nat :=
  types.elementCountFrom [] 1 t

/-- The element of a list at a signed position. -/
def atIndex? {α : Type} (l : List α) (index : Int) : Option α :=
  if index < 0 then none else l[index.toNat]?

/-- The type one index leads to. A struct needs a constant index, `none` stands
for one that is not. -/
def indexStep (types : TypeTable) (t : Nat) (index : Option Int) :
    Except ProgramError Nat :=
  match types.get? t with
  | none => .error (.unknownType t)
  | some (.struct s) =>
    match index with
    | none => .error (.variableMemberIndex t)
    | some i =>
      match atIndex? s.members i with
      | some member => .ok member
      | none => .error (.invalidIndex t i)
  | some (.array element _) => .ok element
  | some _ => .error (.notIndexable t)

/-- The type a list of indices leads to. -/
def indexedType (types : TypeTable) (source : Nat) (indices : List (Option Int)) :
    Except ProgramError Nat :=
  indices.foldlM types.indexStep source

/-- The text of a type met while the types of `path` are written. One that is
part of its own text is written without end. -/
def textFrom (types : TypeTable) (path : List Nat) (t : Nat) : Except ProgramError String :=
  match _h : types.get? t with
  | none => .ok (typeText t)
  | some ty =>
    if _hp : t ∈ path then .error (.halted .endless)
    else do
      let parts ← ty.writtenParts.mapM fun u => types.textFrom (t :: path) u
      return ty.text parts
termination_by unseen types.size path
decreasing_by exact unseen_cons_lt (lt_size_of_get? _h) _hp

def text (types : TypeTable) (t : Nat) : Except ProgramError String :=
  types.textFrom [] t

end TypeTable

end AbstractMemory
