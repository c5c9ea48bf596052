import AbstractMemory.Descent
import AbstractMemory.Node.Error
import Std.Data.TreeMap
import Std.Data.TreeSet

/-! The arena of nodes. A value node stands for a pointer, an object node for
one field of one allocation. The fields of an allocation have consecutive ids,
in order. Nodes found to be equal are merged: each follows its link to a
representative. -/

namespace AbstractMemory

/-- The pointer that may point anywhere. -/
def universalPointer : Nat := 0

/-- The object that the universal pointer points to. -/
def universalObject : Nat := 1

def nullPointer : Nat := 2

def nullObject : Nat := 3

/-- The object that stands for all constants that are not addresses. -/
def constantInteger : Nat := 4

def sentinelCount : Nat := 5

def isSentinel (n : Nat) : Bool :=
  decide (n < sentinelCount)

inductive NodeKind where
  | value
  | object
deriving DecidableEq, Repr, Inhabited

structure MemoryNode where
  kind : NodeKind
  /-- The next node towards the representative, or the node itself. -/
  link : Nat
  origin : Option Nat
  /-- The field of the allocation, zero for a value. -/
  offset : Nat := 0
  isUnion : Bool := false
  isHeap : Bool := false
deriving DecidableEq, Repr, Inhabited

def MemoryNode.isObject (node : MemoryNode) : Bool :=
  node.kind == .object

structure Arena where
  nodes : Array MemoryNode := #[
    { kind := .value, link := universalPointer, origin := none },
    { kind := .object, link := universalObject, origin := none },
    { kind := .value, link := nullPointer, origin := none },
    { kind := .object, link := nullObject, origin := none },
    { kind := .object, link := constantInteger, origin := none }]
  valueNodes : Std.TreeMap Nat Nat := {}
  objectNodes : Std.TreeMap Nat Nat := {}
  returnNodes : Std.TreeMap Nat Nat := {}
  variadicNodes : Std.TreeMap Nat Nat := {}
  /-- The node for a field of what a base node points to. -/
  fieldPointers : List ((Nat × Nat) × Nat) := []
  /-- The base node and field that such a node was made for. -/
  fieldPointerOrigins : Std.TreeMap Nat (Nat × Nat) := {}
  tainted : Std.TreeSet Nat := {}
deriving Inhabited

/-- A step on an arena. -/
abbrev Arranging := EStateM NodeError Arena

namespace Arena

def size (a : Arena) : Nat :=
  a.nodes.size

def get? (a : Arena) (n : Nat) : Option MemoryNode :=
  a.nodes[n]?

def node (a : Arena) (n : Nat) : Except NodeError MemoryNode :=
  match a.get? n with
  | some node => .ok node
  | none => .error (.unknownNode n)

def object (a : Arena) (n : Nat) : Except NodeError MemoryNode :=
  match a.get? n with
  | none => .error (.unknownNode n)
  | some node => if node.isObject then .ok node else .error (.notObject n)

theorem lt_size_of_get? {a : Arena} {n : Nat} {node : MemoryNode}
    (h : a.get? n = some node) : n < a.size :=
  (Array.getElem?_eq_some_iff.mp h).1

/-- The answer to a question about the arena, which stays as it is. -/
def ask {α : Type} (f : Arena → Except NodeError α) : Arranging α := fun a =>
  match f a with
  | .ok x => .ok x a
  | .error e => .error e a

def askProgram {α : Type} (answer : Except ProgramError α) : Arranging α :=
  match answer with
  | .ok x => pure x
  | .error e => throw (.program e)

/-- Appends a node, given its id. -/
def push (node : Nat → MemoryNode) : Arranging Nat := fun a =>
  .ok a.size { a with nodes := a.nodes.push (node a.size) }

/-- A new value node. A value has at most one. -/
def createValue (origin : Option Nat) : Arranging Nat := do
  let a ← get
  match origin with
  | none => pure ()
  | some v =>
    if a.valueNodes.contains v then throw (.duplicateValueNode v)
    else modify fun a => { a with valueNodes := a.valueNodes.insert v a.size }
  push fun n => { kind := .value, link := n, origin := origin }

/-- The first object node of a new allocation, unless its origin has one. -/
def createObject (origin : Option Nat) (isUnion isHeap : Bool) : Arranging Nat := do
  let a ← get
  match origin.bind (a.objectNodes[·]?) with
  | some n => return n
  | none =>
    match origin with
    | none => pure ()
    | some v => modify fun a => { a with objectNodes := a.objectNodes.insert v a.size }
    push fun n => { kind := .object, link := n, origin := origin, isUnion, isHeap }

/-- The object node of a further field, which has to come right after those
before it. -/
def createField (base : Nat) (offset : Nat) (isUnion isHeap : Bool) : Arranging Nat := do
  if offset = 0 then throw (.zeroFieldOffset base)
  let _ ← ask (·.object base)
  if base + offset ≠ (← get).size then throw (.notContiguous base offset)
  push fun n => { kind := .object, link := n, origin := none, offset, isUnion, isHeap }

/-- The node for what a function returns. -/
def createReturn (function : Nat) : Arranging Nat := do
  if (← get).returnNodes.contains function then throw (.duplicateReturnNode function)
  modify fun a => { a with returnNodes := a.returnNodes.insert function a.size }
  push fun n => { kind := .value, link := n, origin := some function }

/-- The object that holds the variable arguments of a function. -/
def createVariadic (function : Nat) : Arranging Nat := do
  if (← get).variadicNodes.contains function then throw (.duplicateVariadicNode function)
  modify fun a => { a with variadicNodes := a.variadicNodes.insert function a.size }
  push fun n => { kind := .object, link := n, origin := some function }

/-- The nodes from `n` to its representative, which is given apart. -/
def chase (a : Arena) (seen : List Nat) (n : Nat) : List Nat × Nat :=
  match _h : a.get? n with
  | none => ([], n)
  | some node =>
    if _hs : node.link = n ∨ n ∈ seen then ([], n)
    else
      let (trail, root) := a.chase (n :: seen) node.link
      (n :: trail, root)
termination_by unseen a.size seen
decreasing_by exact unseen_cons_lt (lt_size_of_get? _h) (fun hn => _hs (.inr hn))

/-- The representative of a node. -/
def representative (a : Arena) (n : Nat) : Except NodeError Nat :=
  match a.get? n with
  | none => .error (.unknownNode n)
  | some _ => .ok (a.chase [] n).2

def setLink (a : Arena) (n target : Nat) : Arena :=
  { a with nodes := a.nodes.modify n fun node => { node with link := target } }

/-- The representative of a node, to which all nodes on the way are linked. -/
def target (n : Nat) : Arranging Nat := do
  let a ← get
  let root ← ask (·.representative n)
  modify fun _ => (a.chase [] n).1.foldl (fun a m => a.setLink m root) a
  return root

/-- Merges the class of `b` into that of `a`. -/
def merge (a b : Nat) : Arranging Unit := do
  let rootA ← target a
  let rootB ← target b
  if rootA = rootB then return ()
  if isSentinel rootB then throw (.mergedSentinel rootB)
  modify fun arena => arena.setLink rootB rootA

/-- The merged nodes with their representatives. -/
def merged (a : Arena) : List (Nat × Nat) :=
  (List.range a.size).filterMap fun n =>
    let root := (a.chase [] n).2
    if root = n then none else some (n, root)

/-- The node some fields after an object node. A union has only one. -/
def fieldNode (a : Arena) (n : Nat) (delta : Nat) : Except NodeError Nat :=
  match a.object n with
  | .error e => .error e
  | .ok node =>
    if node.isUnion || delta == 0 then .ok n
    else
      match a.get? (n + delta) with
      | none => .error (.notContiguous n delta)
      | some other =>
        if other.isObject && other.offset == node.offset + delta then .ok (n + delta)
        else .error (.notContiguous n delta)

/-- The last field of the run of consecutive fields from node `n` on, which is
field `offset` itself. -/
def lastField (a : Arena) (n : Nat) (offset : Nat) : Nat :=
  match _h : a.get? (n + 1) with
  | none => offset
  | some next =>
    if next.isObject && next.offset == offset + 1 then a.lastField (n + 1) (offset + 1)
    else offset
termination_by a.size - n
decreasing_by
  have hlt := lt_size_of_get? _h
  omega

/-- The number of fields of the allocation that an object node belongs to. -/
def objectSize (a : Arena) (n : Nat) : Except NodeError Nat :=
  match a.object n with
  | .error e => .error e
  | .ok node => .ok (a.lastField n node.offset + 1)

def objectOffset (a : Arena) (n : Nat) : Except NodeError Nat :=
  (a.object n).map MemoryNode.offset

/-- One past the last node of the allocation. -/
def objectBound (a : Arena) (n : Nat) : Except NodeError Nat := do
  let offset ← a.objectOffset n
  return n - offset + (← a.objectSize n)

/-- The value a node was made for, or that of the first field of its
allocation. -/
def originOf (a : Arena) (n : Nat) : Except NodeError (Option Nat) := do
  let node ← a.node n
  match node.origin with
  | some v => return some v
  | none => return (← a.node (n - node.offset)).origin

def isObject (a : Arena) (n : Nat) : Bool :=
  (a.get? n).any MemoryNode.isObject

def isUnionObject (a : Arena) (n : Nat) : Bool :=
  (a.get? n).any fun node => node.isObject && node.isUnion

def isHeap (a : Arena) (n : Nat) : Bool :=
  (a.get? n).any MemoryNode.isHeap

def removeValue (v : Nat) : Arranging (Option Nat) := fun a =>
  .ok a.valueNodes[v]? { a with valueNodes := a.valueNodes.erase v }

def removeObject (v : Nat) : Arranging (Option Nat) := fun a =>
  .ok a.objectNodes[v]? { a with objectNodes := a.objectNodes.erase v }

/-- Lets a value stand for an object node that is there. -/
def aliasObject (v : Nat) (n : Nat) : Arranging Unit := do
  let _ ← ask (·.object n)
  modify fun a => { a with objectNodes := a.objectNodes.insert v n }

def taint (n : Nat) : Arranging Unit := do
  let node ← ask (·.node n)
  if node.isObject then modify fun a => { a with tainted := a.tainted.insert n }
  else throw (.taintedValue n)

/-- Forgets which nodes were made for fields. The nodes stay. -/
def clearFieldPointers (a : Arena) : Arena :=
  { a with fieldPointers := [], fieldPointerOrigins := {} }

end Arena

end AbstractMemory
