import AbstractMemory.Config.Format
import AbstractMemory.Yaml.Node
import AbstractMemory.Yaml.Tree

/-! What the nodes of a document stand for, and with it a format of text. -/

namespace AbstractMemory.Yaml

/-- A text stands for itself, however it is written. -/
def Node.text? : Node → Option String
  | .scalar s => some s.text
  | _ => none

/-- Whether a scalar may stand for something other than text. -/
def Scalar.mayStandFor (s : Scalar) (tag : Tag) : Bool :=
  s.style == .plain || (s.style == .literal && s.tag == some tag)

/-- A number of up to 32 bits. -/
def Scalar.number? (s : Scalar) : Option Nat :=
  if s.mayStandFor (Tag.core "int") then natural? 0x100000000 s.text.toList else none

def Node.bool? : Node → Option Bool
  | .scalar s => if s.mayStandFor (Tag.core "bool") then Yaml.bool? s.text else none
  | _ => none

/-- A number that may be missing: nothing is written, or that there is none. -/
def Node.optionalNumber? : Node → Option (Option Nat)
  | .scalar s =>
    if s.style == .plain then
      match s.tag with
      | some tag =>
        if tag == Tag.core "null" then if isNull s.text then some none else none
        else s.number?.map some
      | none => if s.text.isEmpty || isNull s.text then some none else s.number?.map some
    else s.number?.map some
  | _ => none

/-- Whether nothing is written. -/
def Node.isUnwritten (n : Node) : Bool :=
  match n with
  | .scalar s => s.text.isEmpty && s.style == .plain
  | _ => false

def Node.items? : Node → Option (List Node)
  | .sequence items => some items
  | n => if n.isUnwritten then some [] else none

def Node.entries? : Node → Option (List (Node × Node))
  | .mapping entries => some entries
  | n => if n.isUnwritten then some [] else none

/-- A document in use, and how often references in it may still be followed. -/
structure InUse where
  document : Document
  left : Nat

/-- Asks a node, or the one that it refers to. -/
def ask {α : Type} (view : Node → Option α) (n : Node) : StateT InUse Option α := fun d =>
  match d.document.follow n d.left with
  | none => none
  | some (found, left) => (view found).map (·, { d with left })

def format : TextFormat where
  Node := Node
  State := InUse
  emit := renderMap
  parse text := (Document.parse? text).map fun d => (d.root, ⟨d, d.maxFollowed⟩)
  asText := ask Node.text?
  asBool := ask Node.bool?
  asOptionalNumber := ask Node.optionalNumber?
  asItems := ask Node.items?
  asEntries := ask Node.entries?

end AbstractMemory.Yaml
