import AbstractMemory.Objects.Set

/-! The points-to relation: for each node the set of objects it may point to. -/

namespace AbstractMemory

structure PointsTo where
  sets : Std.TreeMap Nat ObjectSet := {}
deriving Inhabited

structure PointsToStats where
  nodes : Nat
  pairs : Nat
  largest : Nat
deriving DecidableEq, Repr, Inhabited

namespace PointsTo

def get? (g : PointsTo) (n : Nat) : Option ObjectSet :=
  g.sets[n]?

/-- Whether the node's set grew, and the relation with the new pair. -/
def add (g : PointsTo) (n object : Nat) : Bool × PointsTo :=
  let (grown, s) := (g.sets.getD n .empty).insert object
  (grown, { sets := g.sets.insert n s })

/-- Whether the node's set grew, and the relation with a pair for each object
of a set. -/
def addAll (g : PointsTo) (n : Nat) (objects : ObjectSet) : Bool × PointsTo :=
  if objects.isEmpty then (false, g)
  else
    let (grown, s) := (g.sets.getD n .empty).union objects
    (grown, { sets := g.sets.insert n s })

/-- Lets one node point to all that another points to. -/
def copy (g : PointsTo) (target source : Nat) : Bool × PointsTo :=
  if target = source then (false, g)
  else
    match g.get? source with
    | none => (false, g)
    | some s => g.addAll target s

/-- Moves the objects of one node to another. -/
def merge (g : PointsTo) (into source : Nat) : Bool × PointsTo :=
  if into = source then (false, g)
  else
    match g.get? source with
    | none => (false, g)
    | some s => { sets := g.sets.erase source : PointsTo }.addAll into s

def pointsTo (g : PointsTo) (n object : Nat) : Bool :=
  (g.get? n).any (·.contains object)

/-- Whether two nodes may point to the same object. -/
def mayAlias (g : PointsTo) (a b : Nat) : Bool :=
  match g.get? a, g.get? b with
  | some s, some t => s.intersects t
  | _, _ => false

def size (g : PointsTo) : Nat :=
  g.sets.size

def isEmpty (g : PointsTo) : Bool :=
  g.sets.isEmpty

/-- The nodes with their objects, ascending. -/
def toList (g : PointsTo) : List (Nat × List Nat) :=
  g.sets.toList.map fun (n, s) => (n, s.toList)

def stats (g : PointsTo) : PointsToStats :=
  let sizes := g.sets.toList.map fun (_, s) => s.size
  { nodes := g.size, pairs := sizes.foldr (· + ·) 0, largest := sizes.foldl max 0 }

end PointsTo

end AbstractMemory
