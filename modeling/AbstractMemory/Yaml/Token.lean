import AbstractMemory.Yaml.Tag

/-! Reading a text into tokens. A mapping key is known for one only when the
colon after it is met, so tokens are also put in front of ones read before. -/

namespace AbstractMemory.Yaml

inductive Token where
  | streamEnd
  | versionDirective (major minor : Nat)
  | tagDirective (handle : List Char) (stem : Tag)
  | documentStart
  | documentEnd
  | blockSequenceStart
  | blockMappingStart
  | blockEnd
  | flowSequenceStart
  | flowSequenceEnd
  | flowMappingStart
  | flowMappingEnd
  | blockEntry
  | flowEntry
  | key
  | value
  | reference (name : List Char)
  | anchor (name : List Char)
  | tag (handle : List Char) (suffix : Tag)
  | scalar (text : List Char) (style : ScalarStyle)
deriving DecidableEq, Repr, Inhabited

/-- A place where a key may start that no mark announces. -/
structure KeyPlace where
  /-- How many tokens come before. -/
  position : Nat
  /-- Whether the text makes sense only if it is a key. -/
  isRequired : Bool
  cell : Cell
deriving DecidableEq, Repr, Inhabited

structure Scanner where
  cells : List Cell
  tokens : List Token := []
  /-- The column of the innermost block collection, and those around it. -/
  indent : Int := -1
  outerIndents : List Int := []
  /-- For each open flow collection and for the block around them, innermost
  first, the place where a key may start. -/
  places : List (Option KeyPlace) := [none]
  keyAllowed : Bool := true
deriving DecidableEq, Repr, Inhabited

/-- The longest key in bytes that no mark announces. -/
def maxKeyLength : Nat := 1024

namespace Scanner

def inFlow (s : Scanner) : Bool := decide (1 < s.places.length)

def here (s : Scanner) : Cell := s.cells.headD default

def char (s : Scanner) : Char := ahead s.cells 0

def next (s : Scanner) : Char := ahead s.cells 1

def emit (s : Scanner) (t : Token) : Scanner := { s with tokens := s.tokens ++ [t] }

def insertAt (s : Scanner) (position : Nat) (t : Token) : Scanner :=
  { s with tokens := s.tokens.take position ++ t :: s.tokens.drop position }

def drop (s : Scanner) (n : Nat) : Scanner := { s with cells := s.cells.drop n }

/-- Gives up a place for a key, which must not be a required one. -/
def givenUp : Option KeyPlace → Option (Option KeyPlace)
  | some k => if k.isRequired then none else some none
  | none => some none

/-- Gives up the innermost place for a key. -/
def removePlace (s : Scanner) : Option Scanner :=
  match s.places with
  | [] => some s
  | place :: rest => (givenUp place).map fun place => { s with places := place :: rest }

/-- Notes that a key may start here. -/
def savePlace (s : Scanner) : Option Scanner :=
  if s.keyAllowed then do
    let s ← s.removePlace
    let place : KeyPlace :=
      { position := s.tokens.length
        isRequired := !s.inFlow && s.indent == s.here.column
        cell := s.here }
    return { s with places := some place :: s.places.tail }
  else some s

/-- Gives up a place that is on a line before or too far back. -/
def refresh (here : Cell) : Option KeyPlace → Option (Option KeyPlace)
  | none => some none
  | some k =>
    if k.cell.line < here.line || k.cell.index + maxKeyLength < here.index then givenUp (some k)
    else some (some k)

def dropStalePlaces (s : Scanner) : Option Scanner := do
  return { s with places := ← s.places.mapM (refresh s.here) }

/-- Opens a block collection at a column, unless one is open there. -/
def openBlock (s : Scanner) (column : Nat) (position : Nat) (t : Token) : Scanner :=
  if !s.inFlow && s.indent < column then
    { s.insertAt position t with indent := column, outerIndents := s.indent :: s.outerIndents }
  else s

def closeBlocks (column : Int) : List Int → Int → List Token → List Int × Int × List Token
  | [], indent, tokens => ([], indent, tokens)
  | outer :: rest, indent, tokens =>
    if column < indent then closeBlocks column rest outer (tokens ++ [.blockEnd])
    else (outer :: rest, indent, tokens)

/-- Closes the block collections that are indented by more than a column. -/
def closeTo (s : Scanner) (column : Int) : Scanner :=
  if s.inFlow then s
  else
    let (outerIndents, indent, tokens) := closeBlocks column s.outerIndents s.indent s.tokens
    { s with outerIndents, indent, tokens }

/-- Skips blanks, comments and line breaks. A tab is a blank only where no key
may start, and a byte order mark only where a line does. -/
def skipToToken (inFlow : Bool) (keyAllowed inComment : Bool) (cs : List Cell) :
    Bool × List Cell :=
  match cs with
  | [] => (keyAllowed, [])
  | c :: rest =>
    if isBreak c.char then skipToToken inFlow (keyAllowed || !inFlow) false rest
    else if isEnd c.char then (keyAllowed, cs)
    else if inComment || c.char == '#' then skipToToken inFlow keyAllowed true rest
    else if c.char == ' ' || (c.char == '\t' && (inFlow || !keyAllowed)) ||
        (c.char == '\ufeff' && c.column == 0) then
      skipToToken inFlow keyAllowed false rest
    else (keyAllowed, cs)

def scanStreamEnd (s : Scanner) : Option Scanner := do
  let s ← (s.closeTo (-1)).removePlace
  return { s.emit .streamEnd with keyAllowed := false }

/-- A number of at most nine digits. -/
def readVersionNumber (cs : List Cell) : Option (Nat × List Cell) :=
  let digits := takeWhile Char.isDigit cs
  if digits.isEmpty || 9 < digits.length then none
  else some (digits.foldl (fun n c => n * 10 + (c.toNat - '0'.toNat)) 0, cs.drop digits.length)

/-- The handle of a tag: a mark, or a word between two marks. -/
def readHandle (isDirective : Bool) (cs : List Cell) : Option (List Char × List Cell) :=
  if ahead cs 0 == '!' then
    let word := takeWhile isWordChar (cs.drop 1)
    let rest := cs.drop (1 + word.length)
    if ahead rest 0 == '!' then some ('!' :: word ++ ['!'], rest.drop 1)
    else if isDirective && !word.isEmpty then none
    else some ('!' :: word, rest)
  else none

/-- Reads the characters of a tag. -/
def readTagChars (bracketed : Bool) (cs : List Cell) : Option (Tag × List Cell) :=
  let written := takeWhile (Tag.isTagChar bracketed) cs
  (Tag.decode? 0 written).map fun t => (t, cs.drop written.length)

def readDirective (cs : List Cell) : Option (Token × List Cell) := do
  let name := takeWhile isWordChar cs
  let rest := cs.drop name.length
  if name.isEmpty || !isGapOrEnd (ahead rest 0) then none
  else if name = "YAML".toList then
    let (major, rest) ← readVersionNumber (skipWhile isBlank rest)
    if ahead rest 0 == '.' then
      let (minor, rest) ← readVersionNumber (rest.drop 1)
      return (.versionDirective major minor, rest)
    else none
  else if name = "TAG".toList then
    let (handle, rest) ← readHandle true (skipWhile isBlank rest)
    if isBlank (ahead rest 0) then
      let (stem, rest) ← readTagChars true (skipWhile isBlank rest)
      if stem.isEmpty || !isGapOrEnd (ahead rest 0) then none
      else return (.tagDirective handle stem.untilNull, rest)
    else none
  else none

def scanDirective (s : Scanner) : Option Scanner := do
  let s ← (s.closeTo (-1)).removePlace
  let (t, rest) ← readDirective (s.cells.drop 1)
  let rest ← skipComment rest
  return { s.emit t with cells := skipBreak rest, keyAllowed := false }

def scanDocumentMark (s : Scanner) (t : Token) : Option Scanner := do
  let s ← (s.closeTo (-1)).removePlace
  return { (s.emit t).drop 3 with keyAllowed := false }

def scanFlowStart (s : Scanner) (t : Token) : Option Scanner := do
  let s ← s.savePlace
  return { (s.emit t).drop 1 with places := none :: s.places, keyAllowed := true }

def scanFlowEnd (s : Scanner) (t : Token) : Option Scanner := do
  let s ← s.removePlace
  let places := if s.inFlow then s.places.tail else s.places
  return { (s.emit t).drop 1 with places, keyAllowed := false }

def scanFlowEntry (s : Scanner) : Option Scanner := do
  let s ← s.removePlace
  return { (s.emit .flowEntry).drop 1 with keyAllowed := true }

def scanBlockEntry (s : Scanner) : Option Scanner :=
  if s.inFlow || s.keyAllowed then do
    let s := s.openBlock s.here.column s.tokens.length .blockSequenceStart
    let s ← s.removePlace
    return { (s.emit .blockEntry).drop 1 with keyAllowed := true }
  else none

def scanKey (s : Scanner) : Option Scanner :=
  if s.inFlow || s.keyAllowed then do
    let s := s.openBlock s.here.column s.tokens.length .blockMappingStart
    let s ← s.removePlace
    return { (s.emit .key).drop 1 with keyAllowed := !s.inFlow }
  else none

def scanValue (s : Scanner) : Option Scanner :=
  match s.places with
  | some k :: rest =>
    let s := { s.insertAt k.position .key with places := none :: rest }
    let s := s.openBlock k.cell.column k.position .blockMappingStart
    some { (s.emit .value).drop 1 with keyAllowed := false }
  | _ =>
    if s.inFlow || s.keyAllowed then
      let s := s.openBlock s.here.column s.tokens.length .blockMappingStart
      some { (s.emit .value).drop 1 with keyAllowed := !s.inFlow }
    else none

/-- The name after the mark of an anchor or of a reference to one. -/
def readName (cs : List Cell) : Option (List Char × List Cell) :=
  let name := takeWhile isWordChar cs
  let rest := cs.drop name.length
  let after := ahead rest 0
  if name.isEmpty || !(isGapOrEnd after || "?:,]\x7d%@`".toList.contains after) then none
  else some (name, rest)

def scanName (s : Scanner) (token : List Char → Token) : Option Scanner := do
  let s ← s.savePlace
  let (name, rest) ← readName (s.cells.drop 1)
  return { s.emit (token name) with cells := rest, keyAllowed := false }

/-- The handle and suffix of a tag. -/
def readTag (cs : List Cell) : Option (Token × List Cell) :=
  if ahead cs 1 == '<' then do
    let (suffix, rest) ← readTagChars true (cs.drop 2)
    if suffix.isEmpty || ahead rest 0 != '>' then none
    else return (.tag [] suffix.untilNull, rest.drop 1)
  else do
    let (handle, rest) ← readHandle false cs
    let (more, rest) ← readTagChars false rest
    if 1 < handle.length && handle.getLast? == some '!' then
      if more.isEmpty then none else return (.tag handle more.untilNull, rest)
    else
      let suffix := Tag.untilNull (Tag.ofChars (handle.drop 1) ++ more)
      return (if suffix.isEmpty then .tag [] Tag.bare else .tag ['!'] suffix, rest)

def scanTag (s : Scanner) : Option Scanner := do
  let s ← s.savePlace
  let (t, rest) ← readTag s.cells
  if isGapOrEnd (ahead rest 0) || (s.inFlow && ahead rest 0 == ',') then
    return { s.emit t with cells := rest, keyAllowed := false }
  else none

def scanBlockScalar (s : Scanner) (isLiteral : Bool) : Option Scanner := do
  let s ← s.removePlace
  let (text, rest) ← readBlock isLiteral s.indent (s.cells.drop 1)
  return {
    s.emit (.scalar text (if isLiteral then .literal else .folded)) with
    cells := rest
    keyAllowed := true }

def scanQuoted (s : Scanner) (isSingle : Bool) : Option Scanner := do
  let s ← s.savePlace
  let (text, rest) ←
    if isSingle then singleQuotedFrom [] .none (s.cells.drop 1)
    else doubleQuotedFrom [] .none 0 (s.cells.drop 1)
  return {
    s.emit (.scalar text (if isSingle then .singleQuoted else .doubleQuoted)) with
    cells := rest
    keyAllowed := false }

def scanPlain (s : Scanner) : Option Scanner := do
  let s ← s.savePlace
  let (text, endsLine, rest) ← readPlain (s.indent + 1).toNat s.inFlow s.cells
  return { s.emit (.scalar text .plain) with cells := rest, keyAllowed := endsLine }

/-- Whether a plain scalar may start with a character, given the next. -/
def startsPlain (inFlow : Bool) (c next : Char) : Bool :=
  !(isGapOrEnd c || "-?:,[]\x7b\x7d#&*!|>'\"%@`".toList.contains c) ||
    (c == '-' && !isBlank next) ||
    (!inFlow && (c == '?' || c == ':') && !isGapOrEnd next)

/-- Goes to the next token. Places for keys that are behind are given up, and
collections that the token is no part of are closed. -/
def settle (s : Scanner) : Option Scanner := do
  let (keyAllowed, cells) := skipToToken s.inFlow s.keyAllowed false s.cells
  let s ← { s with keyAllowed, cells }.dropStalePlaces
  return s.closeTo s.here.column

/-- Reads the token that starts here. -/
def scanToken (s : Scanner) : Option Scanner :=
  let c := s.char
  if isEnd c then s.scanStreamEnd
  else if s.here.column == 0 && c == '%' then s.scanDirective
  else if atDocumentMark s.cells then
    s.scanDocumentMark (if c == '-' then .documentStart else .documentEnd)
  else if c == '[' then s.scanFlowStart .flowSequenceStart
  else if c == '\x7b' then s.scanFlowStart .flowMappingStart
  else if c == ']' then s.scanFlowEnd .flowSequenceEnd
  else if c == '\x7d' then s.scanFlowEnd .flowMappingEnd
  else if c == ',' then s.scanFlowEntry
  else if c == '-' && isGapOrEnd s.next then s.scanBlockEntry
  else if c == '?' && (s.inFlow || isGapOrEnd s.next) then s.scanKey
  else if c == ':' && (s.inFlow || isGapOrEnd s.next) then s.scanValue
  else if c == '*' then s.scanName .reference
  else if c == '&' then s.scanName .anchor
  else if c == '!' then s.scanTag
  else if c == '|' && !s.inFlow then s.scanBlockScalar true
  else if c == '>' && !s.inFlow then s.scanBlockScalar false
  else if c == '\'' then s.scanQuoted true
  else if c == '"' then s.scanQuoted false
  else if startsPlain s.inFlow c s.next then s.scanPlain
  else none

/-- Reads the next token. -/
def step (s : Scanner) : Option Scanner := do
  (← s.settle).scanToken

/-- Reads tokens to the end of the stream. Each one takes a character, so the
number of characters bounds that of the steps. -/
def run : Nat → Scanner → Option (List Token)
  | 0, _ => none
  | fuel + 1, s => do
    let s ← s.step
    if s.tokens.getLast? = some .streamEnd then return s.tokens
    else run fuel s

end Scanner

/-- The tokens of a text. -/
def Token.scan? (text : String) : Option (List Token) := do
  let cells ← cells? text.toList
  Scanner.run (cells.length + 1) { cells }

end AbstractMemory.Yaml
