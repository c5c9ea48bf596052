/-! The characters of a text with their places. The end of a text is a cell of
its own, and every way to end a line is a line feed, except the two separators
of Unicode, which stay what they are. -/

namespace AbstractMemory.Yaml

structure Cell where
  char : Char
  /-- How many bytes, lines, and characters of the line come before. -/
  index : Nat
  line : Nat
  column : Nat
deriving DecidableEq, Repr, Inhabited

def isBlank (c : Char) : Bool := c == ' ' || c == '\t'

def isEnd (c : Char) : Bool := c == '\x00'

def isBreak (c : Char) : Bool :=
  c == '\n' || c == '\r' || c == '\u0085' || c == '\u2028' || c == '\u2029'

def isBreakOrEnd (c : Char) : Bool := isBreak c || isEnd c

def isGap (c : Char) : Bool := isBlank c || isBreak c

def isGapOrEnd (c : Char) : Bool := isGap c || isEnd c

/-- Letters, digits and the two characters that join them in a name. -/
def isWordChar (c : Char) : Bool := c.isAlphanum || c == '_' || c == '-'

/-- Characters that a text may hold. -/
def isAllowed (c : Char) : Bool :=
  c == '\t' || c == '\n' || c == '\r' || c == '\u0085' ||
    (0x20 ≤ c.toNat && c.toNat ≤ 0x7E) || (0xA0 ≤ c.toNat && c.toNat ≤ 0xFFFD) ||
    0x10000 ≤ c.toNat

def plainBreak (c : Char) : Char :=
  if c == '\u2028' || c == '\u2029' then c else '\n'

def cellsFrom (index line column : Nat) : List Char → List Cell
  | [] => [⟨'\x00', index, line, column⟩]
  | '\r' :: '\n' :: rest => ⟨'\n', index, line, column⟩ :: cellsFrom (index + 2) (line + 1) 0 rest
  | c :: rest =>
    if isBreak c then
      ⟨plainBreak c, index, line, column⟩ :: cellsFrom (index + c.utf8Size) (line + 1) 0 rest
    else ⟨c, index, line, column⟩ :: cellsFrom (index + c.utf8Size) line (column + 1) rest

/-- The cells of a text, unless it holds a character it may not. -/
def cells? (text : List Char) : Option (List Cell) :=
  if text.all isAllowed then some (cellsFrom 0 0 0 text) else none

/-- The character at a place ahead. Past the end there are only ends. -/
def ahead (cs : List Cell) (n : Nat) : Char :=
  (cs[n]?.map Cell.char).getD '\x00'

/-- Whether a line starts here with a mark between documents. -/
def atDocumentMark (cs : List Cell) : Bool :=
  match cs with
  | [] => false
  | c :: _ =>
    c.column == 0 && isGapOrEnd (ahead cs 3) &&
      ((ahead cs 0 == '-' && ahead cs 1 == '-' && ahead cs 2 == '-') ||
        (ahead cs 0 == '.' && ahead cs 1 == '.' && ahead cs 2 == '.'))

def skipWhile (p : Char → Bool) (cs : List Cell) : List Cell :=
  cs.dropWhile fun c => p c.char

def takeWhile (p : Char → Bool) (cs : List Cell) : List Char :=
  (cs.takeWhile fun c => p c.char).map Cell.char

end AbstractMemory.Yaml
