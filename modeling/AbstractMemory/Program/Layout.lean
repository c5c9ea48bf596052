import AbstractMemory.Program.Types

/-! Sizes, alignments and member offsets of types on a target machine. Void,
functions, structs without a body and whatever holds one of them by value
have no size. -/

namespace AbstractMemory

structure DataLayout where
  pointerSize : Nat := 8
  pointerAlign : Nat := 8
  /-- The largest alignment an integer is given. -/
  maxIntAlign : Nat := 8
  overflow : Overflow := .wraps
deriving DecidableEq, Repr, Inhabited

structure Extent where
  size : Nat
  align : Nat
deriving DecidableEq, Repr, Inhabited

structure StructLayout where
  offsets : List Nat
  size : Nat
  align : Nat
deriving DecidableEq, Repr, Inhabited

namespace StructLayout

/-- The last member that starts at or before `offset`. -/
def memberAt (layout : StructLayout) (offset : Nat) : Nat :=
  (layout.offsets.takeWhile (fun start => decide (start ≤ offset))).length - 1

end StructLayout

/-- The members of a struct placed so far, and where the last of them ends. Those
of a union end where the largest does. -/
structure Placing where
  offsets : List Nat := []
  finish : Nat := 0
  align : Nat := 1

namespace Placing

/-- Places one more member: in a union at zero, else at the next multiple of
its alignment. -/
def add (overflow : Overflow) (s : StructType) (placing : Placing) (m : Extent) :
    Except ProgramError Placing := do
  let align := if s.packed then 1 else m.align
  if s.isUnion then
    return {
      offsets := placing.offsets ++ [0]
      finish := max placing.finish m.size
      align := max placing.align align }
  else
    let offset ← overflow.count (roundUp placing.finish align)
    let finish ← overflow.count (offset + m.size)
    return {
      offsets := placing.offsets ++ [offset]
      finish
      align := max placing.align align }

def close (overflow : Overflow) (placing : Placing) : Except ProgramError StructLayout := do
  let size ← overflow.count (roundUp placing.finish placing.align)
  return { offsets := placing.offsets, size, align := placing.align }

end Placing

/-- Places the members of a list and asks for the extent of each before it does.
The first that has none leaves nothing to place. -/
def placeMembers (overflow : Overflow) (s : StructType)
    (extent : Nat → Except ProgramError (Option Extent)) :
    Placing → List Nat → Except ProgramError (Option StructLayout)
  | placing, [] => (placing.close overflow).map some
  | placing, m :: rest =>
    match extent m with
    | .error e => .error e
    | .ok none => .ok none
    | .ok (some e) =>
      match placing.add overflow s e with
      | .error e => .error e
      | .ok placing => placeMembers overflow s extent placing rest

namespace DataLayout

def integerExtent (layout : DataLayout) (bits : Nat) : Extent :=
  let store := max 1 ((bits + 7) / 8)
  let align := min (ceilPowerOfTwo store) layout.maxIntAlign
  ⟨roundUp store align, align⟩

def floatExtent (bits : Nat) : Extent :=
  match bits with
  | 16 => ⟨2, 2⟩
  | 32 => ⟨4, 4⟩
  | 64 => ⟨8, 8⟩
  | _ => ⟨16, 16⟩

/-- The extent of a type met inside the types of `path`. One inside itself is
measured without end. -/
def extentFrom (layout : DataLayout) (types : TypeTable) (path : List Nat) (t : Nat) :
    Except ProgramError (Option Extent) :=
  match _h : types.get? t with
  | none => .error (.unknownType t)
  | some .void => .ok none
  | some (.function _) => .ok none
  | some (.integer bits) => .ok (some (layout.integerExtent bits))
  | some (.float bits) => .ok (some (floatExtent bits))
  | some (.pointer _) => .ok (some ⟨layout.pointerSize, layout.pointerAlign⟩)
  | some (.array element length) =>
    if _hp : t ∈ path then .error (.halted .endless)
    else
      match layout.extentFrom types (t :: path) element with
      | .error e => .error e
      | .ok none => .ok none
      | .ok (some e) => .ok (some ⟨cappedMul e.size length, e.align⟩)
  | some (.struct s) =>
    if _hp : t ∈ path then .error (.halted .endless)
    else
      match s.body with
      | none => .ok none
      | some members =>
        (placeMembers layout.overflow s (fun m => layout.extentFrom types (t :: path) m) {}
          members).map (Option.map fun placed => ⟨placed.size, placed.align⟩)
termination_by unseen types.size path
decreasing_by all_goals exact unseen_cons_lt (TypeTable.lt_size_of_get? _h) _hp

/-- Size and alignment of a type, or nothing if it has no size. -/
def extent (layout : DataLayout) (types : TypeTable) (t : Nat) :
    Except ProgramError (Option Extent) :=
  layout.extentFrom types [] t

def size? (layout : DataLayout) (types : TypeTable) (t : Nat) :
    Except ProgramError (Option Nat) :=
  (layout.extent types t).map (Option.map Extent.size)

def align? (layout : DataLayout) (types : TypeTable) (t : Nat) :
    Except ProgramError (Option Nat) :=
  (layout.extent types t).map (Option.map Extent.align)

/-- The size of a type that is required to have one. -/
def sizeOf (layout : DataLayout) (types : TypeTable) (t : Nat) : Except ProgramError Nat :=
  match layout.size? types t with
  | .error e => .error e
  | .ok none => .error (.unsizedType t)
  | .ok (some n) => .ok n

/-- Member offsets of a struct or union, or nothing if it has no size. -/
def structLayout (layout : DataLayout) (types : TypeTable) (t : Nat) :
    Except ProgramError (Option StructLayout) :=
  match types.struct? t with
  | none => .error (.wrongType .struct t)
  | some s =>
    match s.body with
    | none => .ok none
    | some members => placeMembers layout.overflow s (layout.extentFrom types [t]) {} members

/-- The bytes one index adds, and the type it leads to. -/
def offsetStep (layout : DataLayout) (types : TypeTable) (t : Nat) (index : Int) :
    Except ProgramError (Int × Nat) :=
  match types.get? t with
  | none => .error (.unknownType t)
  | some (.struct s) =>
    match layout.structLayout types t with
    | .error e => .error e
    | .ok none => .error (.unsizedType t)
    | .ok (some placed) =>
      match TypeTable.atIndex? placed.offsets index, TypeTable.atIndex? s.members index with
      | some offset, some member => .ok (offset, member)
      | _, _ => .error (.invalidIndex t index)
  | some (.array element _) =>
    match layout.sizeOf types element with
    | .error e => .error e
    | .ok n => .ok (wrap64 (index * wrap64 n), element)
  | some _ => .error (.notIndexable t)

def offsetAlong (layout : DataLayout) (types : TypeTable) :
    Int → Nat → List Int → Except ProgramError Int
  | offset, _, [] => .ok offset
  | offset, t, index :: rest =>
    match layout.offsetStep types t index with
    | .error e => .error e
    | .ok (bytes, next) => layout.offsetAlong types (wrap64 (offset + bytes)) next rest

/-- The byte offset a list of indices addresses. The first index steps over
whole objects of the source type, the others descend into it. -/
def indexedOffset (layout : DataLayout) (types : TypeTable) (source : Nat) :
    List Int → Except ProgramError Int
  | [] => .ok 0
  | first :: rest =>
    match layout.sizeOf types source with
    | .error e => .error e
    | .ok n => layout.offsetAlong types (wrap64 (first * wrap64 n)) source rest

end DataLayout

end AbstractMemory
