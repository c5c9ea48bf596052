import AbstractMemory.Config.Basic
import AbstractMemory.Model.Populate
import AbstractMemory.Objects.Graph

/-! The memory model of a program: the records of its structs, its nodes, and
the relation between them that an analysis fills. -/

namespace AbstractMemory

inductive BuildError where
  | config (e : ConfigError)
  | record (e : RecordError)
  | node (e : NodeError)
deriving DecidableEq, Repr

def BuildError.message : BuildError → String
  | .config e => "Configuration error: " ++ e.message
  | .record e => "Layout error: " ++ e.message
  | .node e => "Memory model error: " ++ e.message

structure MemoryModel where
  program : Program
  catalog : Catalog
  arena : Arena
  heap : List HeapAllocation
  pointsTo : PointsTo := {}
  tally : Tally
  /-- How many scope names have a record, and the most fields of one. -/
  scopeCount : Nat
  maxFields : Nat
deriving Inhabited

namespace MemoryModel

/-- Makes all records, then all nodes. -/
def build (p : Program) (config : Config) : Except BuildError MemoryModel :=
  match config.validate with
  | .error e => .error (.config e)
  | .ok () =>
    match Catalog.coverProgram p { unionName := config.unionName } with
    | .error e _ => .error (.record e)
    | .ok () catalog =>
      match Population.populate p config.allocatorTable config.functionObjects { catalog } with
      | .error e _ => .error (.node e)
      | .ok () s =>
        .ok {
          program := p
          catalog := s.catalog
          arena := s.arena
          heap := s.heap
          tally := s.tally
          scopeCount := s.catalog.scopes.size
          maxFields := s.catalog.maxFields }

/-- A step on the arena of a model. -/
def onArena {α : Type} (m : MemoryModel) (step : Arranging α) :
    Except NodeError α × MemoryModel :=
  match step m.arena with
  | .ok x arena => (.ok x, { m with arena := arena })
  | .error e arena => (.error e, { m with arena := arena })

/-- The allocation made by a call. -/
def heapAt? (m : MemoryModel) (site : Nat) : Option HeapAllocation :=
  m.heap.find? fun h => h.site == site

/-- The objects that the representative of a node may point to. -/
def pointsToSet (m : MemoryModel) (n : Nat) : Except NodeError (Option ObjectSet) :=
  (m.arena.representative n).map m.pointsTo.get?

end MemoryModel

end AbstractMemory
