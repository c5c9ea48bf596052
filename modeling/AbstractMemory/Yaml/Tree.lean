import AbstractMemory.Yaml.Data
import AbstractMemory.Yaml.Numeral

/-! How trees of data are written: collections as blocks, a text plain if it
can be, else in quotes or, if it has lines, as a block of them. -/

namespace AbstractMemory.Yaml

/-- Characters that are written as they are. -/
def isPrintable (c : Char) : Bool :=
  c == '\n' || (0x20 ≤ c.toNat && c.toNat ≤ 0x7E) ||
    (0xA0 ≤ c.toNat && c.toNat ≤ 0xFFFD && c.toNat != 0xFEFF) || 0x10000 ≤ c.toNat

/-- Whether a mark at the start of a text, given the next character, would not
be read as text. -/
def isLeadingMark (c next : Char) : Bool :=
  "#,[]\x7b\x7d&*!|>'\"%@`".toList.contains c ||
    ((c == '?' || c == ':' || c == '-') && isGapOrEnd next)

/-- Whether a mark inside a text, given its neighbours, would not be read as
text. -/
def isInnerMark (previous c next : Char) : Bool :=
  (c == ':' && isGapOrEnd next) || (c == '#' && isGapOrEnd previous)

def hasInnerMark : List Char → Bool
  | a :: b :: rest => isInnerMark a b (rest.headD '\x00') || hasInnerMark (b :: rest)
  | _ => false

/-- Whether two neighbours of a text are of two kinds. -/
def hasNeighbours (p q : Char → Bool) : List Char → Bool
  | a :: b :: rest => (p a && q b) || hasNeighbours p q (b :: rest)
  | _ => false

def isSpace (c : Char) : Bool := c == ' '

def hasMark (cs : List Char) : Bool :=
  cs.take 3 == "---".toList || cs.take 3 == "...".toList ||
    isLeadingMark (cs.headD '\x00') ((cs.drop 1).headD '\x00') || hasInnerMark cs

def isPlainSafe (cs : List Char) : Bool :=
  !cs.isEmpty && !hasMark cs && cs.all isPrintable && !cs.any isBreak &&
    !isSpace (cs.headD 'x') && !isSpace (cs.getLastD 'x')

/-- Whether a text can be written in single quotes. -/
def isSingleSafe (cs : List Char) : Bool :=
  cs.all isPrintable && !hasNeighbours isSpace isBreak cs && !hasNeighbours isBreak isSpace cs

/-- Whether a text can be written as a block of lines, none of which may end
with a space. -/
def isBlockSafe (cs : List Char) : Bool :=
  cs.all isPrintable && !hasNeighbours isSpace isBreak cs && !isSpace (cs.getLastD 'x')

/-- The style a text is written in. -/
def styleOf (s : String) : ScalarStyle :=
  let cs := s.toList
  if cs.contains '\n' then if isBlockSafe cs then .literal else .doubleQuoted
  else if !isAmbiguous s && isPlainSafe cs then .plain
  else if isSingleSafe cs then .singleQuoted
  else .doubleQuoted

def spaces (n : Nat) : List Char := List.replicate n ' '

/-- The characters of a text in single quotes, where lines after a break are
indented. -/
def singleChars (indent : Nat) (afterBreak : Bool) : List Char → List Char
  | [] => if afterBreak then spaces indent else []
  | c :: rest =>
    if isBreak c then c :: singleChars indent true rest
    else
      (if afterBreak then spaces indent else []) ++ (if c == '\'' then ['\'', '\''] else [c]) ++
        singleChars indent false rest

def hexDigits (width n : Nat) : List Char :=
  let digits := (Nat.toDigits 16 n).map Char.toUpper
  List.replicate (width - digits.length) '0' ++ digits

/-- A character after a backslash. -/
def escapeChar (c : Char) : List Char :=
  match c with
  | '\x00' => ['0']
  | '\x07' => ['a']
  | '\x08' => ['b']
  | '\t' => ['t']
  | '\n' => ['n']
  | '\x0b' => ['v']
  | '\x0c' => ['f']
  | '\r' => ['r']
  | '\x1b' => ['e']
  | '"' => ['"']
  | '\\' => ['\\']
  | '\u0085' => ['N']
  | '\u2028' => ['L']
  | '\u2029' => ['P']
  | _ =>
    if c.toNat ≤ 0xFF then 'x' :: hexDigits 2 c.toNat
    else if c.toNat ≤ 0xFFFF then 'u' :: hexDigits 4 c.toNat
    else 'U' :: hexDigits 8 c.toNat

def doubleChars (cs : List Char) : List Char :=
  cs.flatMap fun c =>
    if !isPrintable c || isBreak c || c == '"' || c == '\\' then '\\' :: escapeChar c else [c]

/-- The lines of a block, indented. Empty lines are not. -/
def blockChars (indent : Nat) (afterBreak : Bool) : List Char → List Char
  | [] => []
  | c :: rest =>
    if isBreak c then c :: blockChars indent true rest
    else
      (if afterBreak then spaces indent else []) ++ c :: blockChars indent false rest

/-- By how many columns a collection is indented in another. -/
def indentStep : Nat := 2

/-- The marks after the one that starts a block: that the first line starts
with a blank, and how its end is treated. -/
def blockMarks (cs : List Char) : List Char :=
  let first := cs.headD 'x'
  (if isSpace first || isBreak first then (toString indentStep).toList else []) ++
    match cs.reverse with
    | [] => ['-']
    | [c] => if isBreak c then ['+'] else ['-']
    | c :: d :: _ => if !isBreak c then ['-'] else if isBreak d then ['+'] else []

/-- A text inside a collection that is indented by `indent`. -/
def writeText (indent : Nat) (s : String) : List Char :=
  let cs := s.toList
  match styleOf s with
  | .plain => cs
  | .singleQuoted => '\'' :: singleChars (indent + indentStep) false cs ++ ['\'']
  | .doubleQuoted => '"' :: doubleChars cs ++ ['"']
  | .literal | .folded =>
    '|' :: blockMarks cs ++ '\n' :: blockChars (indent + indentStep) true cs

/-- Ends a line that is not ended. -/
def endLine (cs : List Char) : List Char :=
  if cs.getLast?.any isBreak then cs else cs ++ ['\n']

mutual

/-- A tree after the key or the dash in front of it, with the end of its last
line. -/
def writeTree (indent : Nat) (inMap : Bool) : Tree → List Char
  | .null => " null\n".toList
  | .bool b => if b then " true\n".toList else " false\n".toList
  | .number n => ' ' :: (toString n).toList ++ ['\n']
  | .text s => endLine (' ' :: writeText indent s)
  | .list [] => " []\n".toList
  | .list items =>
    if inMap then '\n' :: writeItems indent true items
    else ' ' :: writeItems (indent + indentStep) false items
  | .map [] => " \x7b\x7d\n".toList
  | .map entries =>
    if inMap then '\n' :: writeEntries (indent + indentStep) true entries
    else ' ' :: writeEntries (indent + indentStep) false entries

/-- Items of a list, each after a dash. The first is indented already unless
`fresh`. -/
def writeItems (indent : Nat) (fresh : Bool) : List Tree → List Char
  | [] => []
  | item :: rest =>
    (if fresh then spaces indent else []) ++ '-' :: writeTree indent false item ++
      writeItems indent true rest

/-- Entries of a map. The first is indented already unless `fresh`. -/
def writeEntries (indent : Nat) (fresh : Bool) : List (String × Tree) → List Char
  | [] => []
  | (key, value) :: rest =>
    (if fresh then spaces indent else []) ++ writeText indent key ++
      ':' :: writeTree indent true value ++ writeEntries indent true rest

end

/-- The text of a map, entry after entry. -/
def renderMap (entries : List (String × Tree)) : String :=
  String.ofList (writeEntries 0 true entries)

end AbstractMemory.Yaml
