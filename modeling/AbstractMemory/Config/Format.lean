import AbstractMemory.Yaml.Data

/-! Formats in which trees of data are written as text and read. -/

namespace AbstractMemory

/-- How a tree is written, and how a text is read. A text is taken apart into
nodes, and a node is asked for data of the kind that should be there. Asking has
a state, since a format may limit how much is asked for. -/
structure TextFormat where
  Node : Type
  State : Type
  /-- The text of a map, entry after entry. -/
  emit : List (String × Yaml.Tree) → String
  /-- The node of a text, which may have none. -/
  parse : String → Option (Option Node × State)
  asText : Node → StateT State Option String
  asBool : Node → StateT State Option Bool
  /-- A number of up to 32 bits that may be missing. -/
  asOptionalNumber : Node → StateT State Option (Option Nat)
  asItems : Node → StateT State Option (List Node)
  asEntries : Node → StateT State Option (List (Node × Node))

namespace TextFormat

/-- What asks the nodes of a format. -/
abbrev Use (F : TextFormat) := StateT F.State Option

end TextFormat

end AbstractMemory
