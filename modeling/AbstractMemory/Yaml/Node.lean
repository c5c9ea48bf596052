import AbstractMemory.Yaml.Token

/-! The nodes of a document. A node that refers to another by its anchor is
kept as such, since a collection may refer to itself. -/

namespace AbstractMemory.Yaml

structure Scalar where
  text : String
  style : ScalarStyle
  tag : Option Tag := none
deriving DecidableEq, Repr, Inhabited

inductive Node where
  | scalar (s : Scalar)
  | sequence (items : List Node)
  | mapping (entries : List (Node × Node))
  | reference (anchor : Nat)
deriving Repr, Inhabited

/-- The node that is not written. -/
def Node.blank : Node := .scalar { text := "", style := .plain }

mutual

/-- How many marks a node is made of: one for a scalar or a reference, and for
a collection one at its start, one at its end and those of what it holds. -/
def Node.marks : Node → Nat
  | .scalar _ => 1
  | .sequence items => itemMarks items + 2
  | .mapping entries => entryMarks entries + 2
  | .reference _ => 1

def itemMarks : List Node → Nat
  | [] => 0
  | n :: rest => n.marks + itemMarks rest

def entryMarks : List (Node × Node) → Nat
  | [] => 0
  | (k, v) :: rest => k.marks + v.marks + entryMarks rest

end

/-- A node with an anchor. -/
structure Anchored where
  /-- The number of the anchor. -/
  number : Nat
  /-- How many anchors come before. -/
  place : Nat
  node : Node
deriving Repr, Inhabited

/-- A document, which may be missing, and its nodes with anchors. Of nodes
whose anchors have one number the last to start comes first. -/
structure Document where
  root : Option Node
  anchored : List Anchored := []
deriving Repr, Inhabited

namespace Document

/-- The node with the anchor of a number. -/
def anchoredNode? (d : Document) (number : Nat) : Option Node :=
  (d.anchored.find? (·.number == number)).map Anchored.node

/-- How often references may be followed when a document is used, so that a
short one does not stand for a huge one. -/
def maxFollowed (d : Document) : Nat :=
  100 * (d.root.map Node.marks).getD 0

/-- The use of a document, with how often references may still be followed. -/
abbrev Use := StateT Nat Option

/-- The node itself, or the one that it refers to. -/
def follow (d : Document) (n : Node) : Use Node := fun left =>
  match n, left with
  | .reference _, 0 => none
  | .reference number, left + 1 => (d.anchoredNode? number).map (·, left)
  | n, left => some (n, left)

end Document

/-- What is left to read of a document. -/
structure Reading where
  tokens : List Token
  /-- What handles of tags stand for. -/
  handles : List (List Char × Tag)
  /-- The number of each name of an anchor. -/
  anchors : List (List Char × Nat) := []
  /-- How many anchors were read. -/
  places : Nat := 0
  anchored : List Anchored := []
deriving Repr, Inhabited

/-- The anchor and the tag in front of a node. -/
structure Properties where
  anchor : Option (List Char) := none
  tag : Option (List Char × Tag) := none
deriving DecidableEq, Repr, Inhabited

namespace Reading

def head (r : Reading) : Token := r.tokens.headD .streamEnd

def tail (r : Reading) : Reading := { r with tokens := r.tokens.tail }

def properties (r : Reading) : Properties × Reading :=
  match r.tokens with
  | .anchor name :: .tag handle suffix :: rest =>
    ({ anchor := some name, tag := some (handle, suffix) }, { r with tokens := rest })
  | .tag handle suffix :: .anchor name :: rest =>
    ({ anchor := some name, tag := some (handle, suffix) }, { r with tokens := rest })
  | .anchor name :: rest => ({ anchor := some name }, { r with tokens := rest })
  | .tag handle suffix :: rest => ({ tag := some (handle, suffix) }, { r with tokens := rest })
  | _ => ({}, r)

/-- The tag that a handle and a suffix stand for, if the handle is known. -/
def tagOf (r : Reading) (handle : List Char) (suffix : Tag) : Option Tag :=
  if handle.isEmpty then some suffix
  else (r.handles.lookup handle).map (· ++ suffix)

/-- Gives the name of an anchor a number, which is how many names there are.
A name that is given again thus shares its number with the next new one. -/
def nameAnchor (r : Reading) (name : List Char) : Reading :=
  { r with
    anchors := (name, r.anchors.length) :: r.anchors.filter (·.1 != name)
    places := r.places + 1 }

/-- Keeps a node with an anchor, unless one with the same number started after
it, as a part of it may. -/
def keep (r : Reading) (a : Anchored) : Reading :=
  if r.anchored.any fun b => b.number == a.number && a.place < b.place then r
  else { r with anchored := a :: r.anchored }

mutual

/-- Reads a node. In a block it may be a block collection, and in a mapping a
sequence that is not indented. -/
def node : Nat → Bool → Bool → Reading → Option (Node × Reading)
  | 0, _, _, _ => none
  | fuel + 1, inBlock, unindented, r =>
    match r.tokens with
    | .reference name :: rest =>
      (r.anchors.lookup name).map fun number => (.reference number, { r with tokens := rest })
    | _ => do
      let (props, start) := r.properties
      let tag ← match props.tag with
        | none => some none
        | some (handle, suffix) => (start.tagOf handle suffix).map some
      let r := match props.anchor with
        | none => start
        | some name => start.nameAnchor name
      let (n, r) ← match r.head, inBlock, unindented with
        | .scalar text style, _, _ =>
          some (.scalar { text := String.ofList text, style, tag }, r.tail)
        | .flowSequenceStart, _, _ => flowItems fuel true [] r.tail
        | .flowMappingStart, _, _ => flowEntries fuel true [] r.tail
        | .blockSequenceStart, true, _ => blockItems fuel [] r.tail
        | .blockMappingStart, true, _ => blockEntries fuel [] r.tail
        | .blockEntry, _, true => unindentedItems fuel [] r
        | _, _, _ =>
          if props = ({} : Properties) then none
          else some (.scalar { text := "", style := .plain, tag }, r)
      return match props.anchor with
        | none => (n, r)
        | some _ => (n, r.keep { number := start.anchors.length, place := start.places, node := n })

/-- Reads a node, or a blank one if one of these tokens follows. -/
def nodeUnless : Nat → List Token → Bool → Bool → Reading → Option (Node × Reading)
  | 0, _, _, _, _ => none
  | fuel + 1, stops, inBlock, unindented, r =>
    if stops.contains r.head then some (.blank, r) else node fuel inBlock unindented r

def blockItems : Nat → List Node → Reading → Option (Node × Reading)
  | 0, _, _ => none
  | fuel + 1, items, r =>
    match r.head with
    | .blockEntry => do
      let (n, r) ← nodeUnless fuel [.blockEntry, .blockEnd] true false r.tail
      blockItems fuel (items ++ [n]) r
    | .blockEnd => some (.sequence items, r.tail)
    | _ => none

def unindentedItems : Nat → List Node → Reading → Option (Node × Reading)
  | 0, _, _ => none
  | fuel + 1, items, r =>
    match r.head with
    | .blockEntry => do
      let (n, r) ← nodeUnless fuel [.blockEntry, .key, .value, .blockEnd] true false r.tail
      unindentedItems fuel (items ++ [n]) r
    | _ => some (.sequence items, r)

def blockEntries : Nat → List (Node × Node) → Reading → Option (Node × Reading)
  | 0, _, _ => none
  | fuel + 1, entries, r =>
    match r.head with
    | .key => do
      let (k, r) ← nodeUnless fuel [.key, .value, .blockEnd] true true r.tail
      let (v, r) ← blockValue fuel r
      blockEntries fuel (entries ++ [(k, v)]) r
    | .blockEnd => some (.mapping entries, r.tail)
    | _ => none

def blockValue : Nat → Reading → Option (Node × Reading)
  | 0, _ => none
  | fuel + 1, r =>
    match r.head with
    | .value => nodeUnless fuel [.key, .value, .blockEnd] true true r.tail
    | _ => some (.blank, r)

def flowItems : Nat → Bool → List Node → Reading → Option (Node × Reading)
  | 0, _, _, _ => none
  | fuel + 1, isFirst, items, r =>
    if r.head = .flowSequenceEnd then some (.sequence items, r.tail)
    else do
      let r ← if isFirst then some r
        else if r.head = .flowEntry then some r.tail else none
      match r.head with
      | .flowSequenceEnd => some (.sequence items, r.tail)
      | .key =>
        let (n, r) ← flowPair fuel r.tail
        flowItems fuel false (items ++ [n]) r
      | _ =>
        let (n, r) ← node fuel false false r
        flowItems fuel false (items ++ [n]) r

/-- Reads a key and its value that are an item of a flow sequence. A key that
is not written takes the token after it along. -/
def flowPair : Nat → Reading → Option (Node × Reading)
  | 0, _ => none
  | fuel + 1, r => do
    let (k, r) ←
      if [Token.value, .flowEntry, .flowSequenceEnd].contains r.head then some (.blank, r.tail)
      else node fuel false false r
    let (v, r) ← match r.head with
      | .value => nodeUnless fuel [.flowEntry, .flowSequenceEnd] false false r.tail
      | _ => some (.blank, r)
    return (.mapping [(k, v)], r)

def flowEntries : Nat → Bool → List (Node × Node) → Reading → Option (Node × Reading)
  | 0, _, _, _ => none
  | fuel + 1, isFirst, entries, r =>
    if r.head = .flowMappingEnd then some (.mapping entries, r.tail)
    else do
      let r ← if isFirst then some r
        else if r.head = .flowEntry then some r.tail else none
      match r.head with
      | .flowMappingEnd => some (.mapping entries, r.tail)
      | .key =>
        let (k, r) ← nodeUnless fuel [.value, .flowEntry, .flowMappingEnd] false false r.tail
        let (v, r) ← match r.head with
          | .value => nodeUnless fuel [.flowEntry, .flowMappingEnd] false false r.tail
          | _ => some (.blank, r)
        flowEntries fuel false (entries ++ [(k, v)]) r
      | _ =>
        let (k, r) ← node fuel false false r
        flowEntries fuel false (entries ++ [(k, .blank)]) r

end

/-- The handles that every document knows. -/
def standardHandles : List (List Char × Tag) :=
  [(['!'], Tag.bare), (['!', '!'], Tag.coreStem)]

/-- Reads the directives in front of a document. Each handle has one stem, and
the version, if given, is one that is known. -/
def directives (hasVersion : Bool) (handles : List (List Char × Tag)) :
    List Token → Option (List (List Char × Tag) × List Token)
  | .versionDirective major minor :: rest =>
    if hasVersion || major != 1 || !(minor == 1 || minor == 2) then none
    else directives true handles rest
  | .tagDirective handle stem :: rest =>
    if (handles.lookup handle).isSome then none
    else directives hasVersion ((handle, stem) :: handles) rest
  | rest => some (handles ++ standardHandles, rest)

def isDirective : Token → Bool
  | .versionDirective _ _ => true
  | .tagDirective _ _ => true
  | _ => false

/-- Reads the only document of a stream. -/
def document (tokens : List Token) : Option Document := do
  let fuel := 4 * tokens.length + 8
  let first := tokens.headD .streamEnd
  if first = .streamEnd then return { root := none }
  else if isDirective first || first = .documentStart then
    let (handles, rest) ← directives false [] tokens
    if rest.head? = some .documentStart then
      let r : Reading := { tokens := rest.tail, handles }
      let (n, r) ←
        if isDirective r.head || [Token.documentStart, .documentEnd, .streamEnd].contains r.head then
          some (.blank, r)
        else node fuel true false r
      finish n r
    else none
  else
    let (n, r) ← node fuel true false { tokens, handles := standardHandles }
    finish n r
where
  finish (n : Node) (r : Reading) : Option Document :=
    if r.tokens.dropWhile (· == .documentEnd) = [.streamEnd] then
      some { root := some n, anchored := r.anchored }
    else none

end Reading

/-- The document of a text, unless it is malformed or holds more than one. -/
def Document.parse? (text : String) : Option Document := do
  Reading.document (← Token.scan? text)

end AbstractMemory.Yaml
