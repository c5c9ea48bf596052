import AbstractMemory.Program.Usage
import AbstractMemory.Record.Basic
import AbstractMemory.Record.ScopeName
import Std.Data.TreeSet

/-! The records of a program's structs. One record stands for all structs of
one scope name: that of the first of them found with a body. -/

namespace AbstractMemory

structure Catalog where
  /-- Structs whose name starts with this are unions. -/
  unionName : String := "union."
  records : Std.TreeMap Nat FieldRecord := {}
  /-- The first struct with a body of each scope name. -/
  scopes : Std.TreeMap String Nat := {}
  /-- The struct with most fields, the first of those that have as many. -/
  largest : Option Nat := none
  maxFields : Nat := 0
deriving Inhabited

namespace Catalog

def treatsAsUnion (c : Catalog) (s : StructType) : Bool :=
  s.isUnion || s.name.any fun name => name.startsWith c.unionName

def isUnion (c : Catalog) (p : Program) (t : Nat) : Bool :=
  (p.types.struct? t).any c.treatsAsUnion

/-- The struct whose record stands for a struct of this shape and id. -/
def standIn (c : Catalog) (s : StructType) (t : Nat) : Nat :=
  (s.name.bind fun name => c.scopes[scopeName name]?).getD t

def canonical? (c : Catalog) (p : Program) (t : Nat) : Option Nat :=
  (p.types.struct? t).map fun s => c.standIn s t

/-- Registers a struct with a body for its scope name, unless one is there. -/
def register (c : Catalog) (s : StructType) (t : Nat) : Catalog :=
  match s.name, s.body with
  | some name, some _ => { c with scopes := c.scopes.insertIfNew (scopeName name) t }
  | _, _ => c

/-- Keeps a finished record, and counts it if it has more fields than all before. -/
def keep (c : Catalog) (t : Nat) (r : FieldRecord) : Catalog :=
  let c := { c with records := c.records.insert t r }
  if c.maxFields < r.fieldCount then { c with largest := some t, maxFields := r.fieldCount }
  else c

/-- The finished record of a struct: its own, or else that of its scope name. -/
def record? (c : Catalog) (p : Program) (t : Nat) : Option FieldRecord :=
  match c.records[t]? with
  | some r => if r.isFinal then some r else none
  | none =>
    match (c.canonical? p t).bind (c.records[·]?) with
    | some r => if r.isFinal then some r else none
    | none => none

/-- Whether a struct holds another by value at an offset. -/
def embeds (c : Catalog) (p : Program) (inner outer : Nat) (offset : Nat) : Bool :=
  (c.record? p inner).any fun r => r.hasContainer ((c.canonical? p outer).getD outer) offset

/-- The structs held by value as members, arrays of them included. -/
def memberStructs (c : Catalog) (p : Program) (s : StructType) : List Nat :=
  (s.members.filterMap fun m => c.canonical? p (p.types.stripArrays m)).eraseDups

/-- The places of the members of a struct, as far as they are recorded. -/
def memberPlaces (c : Catalog) (p : Program) (s : StructType) (t : Nat) :
    List (Nat × Nat) :=
  (c.memberStructs p s).flatMap fun sub =>
    match c.records[sub]? with
    | none => []
    | some r => (r.containers.filter fun edge => edge.1 == t).map fun edge => (sub, edge.2)

/-- Records that `outer` holds `inner` at an offset, and with it all that
`inner` holds. -/
def embed (p : Program) (outer : Nat) (path : List Nat) (inner : Nat) (offset : Nat)
    (c : Catalog) : Except ProgramError Catalog :=
  match c.records[inner]? with
  | none => .ok c
  | some r =>
    let c := { c with records := c.records.insert inner (r.addContainer outer offset) }
    match _h : p.types.get? inner with
    | some (.struct s) =>
      if _hp : inner ∈ path then .error (.halted .endless)
      else
        (c.memberPlaces p s inner).foldlM
          (fun c place => do
            let inside ← p.dataLayout.overflow.count (place.2 + offset)
            embed p outer (inner :: path) place.1 inside c) c
    | _ => .ok c
termination_by unseen p.types.size path
decreasing_by exact unseen_cons_lt (TypeTable.lt_size_of_get? _h) _hp

/-- The names of the structs that hold a struct by value. -/
def holderNames (c : Catalog) (p : Program) (t : Nat) : List String :=
  (c.records[t]?.elim [] FieldRecord.containers).filterMap fun edge => p.types.structName? edge.1

/-- The anonymous structs that hold a struct by value. -/
def anonymousHolders (c : Catalog) (p : Program) (t : Nat) : List Nat :=
  ((c.holderNames p t).filter isAnonymous).filterMap fun name => c.scopes[scopeName name]?

/-- The named structs that hold the struct of a scope name by value, ascending.
An anonymous holder counts for its own holders. -/
def containersOf (c : Catalog) (p : Program) (name : String) : List String :=
  let types := visited p.types.size (c.anonymousHolders p) c.scopes[name]?.toList
  let names := (types.flatMap (c.holderNames p)).filter fun name => !isAnonymous name
  (Std.TreeSet.ofList names).toList

end Catalog

end AbstractMemory
