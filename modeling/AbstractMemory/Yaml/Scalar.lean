import AbstractMemory.Yaml.Cell

/-! Reading scalars: plain ones, ones in quotes, and blocks of lines. -/

namespace AbstractMemory.Yaml

inductive ScalarStyle where
  | plain
  | singleQuoted
  | doubleQuoted
  | literal
  | folded
deriving DecidableEq, Repr, Inhabited

/-- What stands between two words of a scalar: blanks, or line breaks with the
blanks around them dropped. A break that a backslash hides is not there. -/
inductive WordGap where
  | blanks (cs : List Char)
  | breaks (first : Option Char) (more : List Char)
deriving DecidableEq, Repr, Inhabited

namespace WordGap

def none : WordGap := .blanks []

def add (g : WordGap) (c : Char) : WordGap :=
  match g, isBreak c with
  | .blanks cs, false => .blanks (cs ++ [c])
  | .blanks _, true => .breaks (some c) []
  | .breaks first more, false => .breaks first more
  | .breaks first more, true => .breaks first (more ++ [c])

/-- One line feed is a space, and more of them are one less. -/
def text : WordGap → List Char
  | .blanks cs => cs
  | .breaks (some '\n') [] => [' ']
  | .breaks (some '\n') more => more
  | .breaks first more => first.toList ++ more

def hasBreak : WordGap → Bool
  | .blanks _ => false
  | .breaks _ _ => true

end WordGap

/-- Whether a character, given the one after it, ends a plain scalar. -/
def endsPlain (inFlow : Bool) (c next : Char) : Bool :=
  (c == ':' && isGapOrEnd next) ||
    (inFlow && (c == ',' || c == '[' || c == ']' || c == '\x7b' || c == '\x7d'))

/-- Whether a colon stands where a flow collection allows none. -/
def badColon (inFlow : Bool) (c next : Char) : Bool :=
  inFlow && c == ':' &&
    (next == ',' || next == '?' || next == '[' || next == ']' || next == '\x7b' || next == '\x7d')

/-- Reads a plain scalar whose further lines are indented by at least `indent`.
The answer has its text, whether it ends in a new line, and what follows. -/
def plainFrom (indent : Nat) (inFlow : Bool) (text : List Char) (gap : WordGap) (inWord : Bool)
    (cs : List Cell) : Option (List Char × Bool × List Cell) :=
  match cs with
  | [] => some (text, gap.hasBreak, [])
  | c :: rest =>
    if isGap c.char then
      if gap.hasBreak && c.column < indent && c.char == '\t' then none
      else plainFrom indent inFlow text (gap.add c.char) false rest
    else if !inWord && ((!inFlow && c.column < indent) || atDocumentMark cs || c.char == '#') then
      some (text, gap.hasBreak, cs)
    else if isEnd c.char then some (text, gap.hasBreak, cs)
    else if badColon inFlow c.char (ahead rest 0) then none
    else if endsPlain inFlow c.char (ahead rest 0) then some (text, gap.hasBreak, cs)
    else plainFrom indent inFlow (text ++ gap.text ++ [c.char]) .none true rest

/-- Reads a plain scalar. -/
def readPlain (indent : Nat) (inFlow : Bool) (cs : List Cell) :
    Option (List Char × Bool × List Cell) :=
  plainFrom indent inFlow [] .none true cs

/-- Reads a scalar in single quotes, from after the first of them. A quote in
it is written twice. -/
def singleQuotedFrom (text : List Char) (gap : WordGap) (cs : List Cell) :
    Option (List Char × List Cell) :=
  match cs with
  | [] => none
  | c :: rest =>
    if isGap c.char then singleQuotedFrom text (gap.add c.char) rest
    else if isEnd c.char || atDocumentMark cs then none
    else if c.char == '\'' then
      match rest with
      | ⟨'\'', _, _, _⟩ :: rest => singleQuotedFrom (text ++ gap.text ++ ['\'']) .none rest
      | _ => some (text ++ gap.text, rest)
    else singleQuotedFrom (text ++ gap.text ++ [c.char]) .none rest

/-- The character that a letter stands for after a backslash. -/
def escaped? (c : Char) : Option Char :=
  match c with
  | '0' => some '\x00'
  | 'a' => some '\x07'
  | 'b' => some '\x08'
  | 't' => some '\t'
  | '\t' => some '\t'
  | 'n' => some '\n'
  | 'v' => some '\x0b'
  | 'f' => some '\x0c'
  | 'r' => some '\r'
  | 'e' => some '\x1b'
  | ' ' => some ' '
  | '"' => some '"'
  | '/' => some '/'
  | '\\' => some '\\'
  | 'N' => some '\u0085'
  | '_' => some '\u00a0'
  | 'L' => some '\u2028'
  | 'P' => some '\u2029'
  | _ => none

/-- How many digits a letter asks for after a backslash. -/
def escapeLength? (c : Char) : Option Nat :=
  match c with
  | 'x' => some 2
  | 'u' => some 4
  | 'U' => some 8
  | _ => none

def hexDigit? (c : Char) : Option Nat :=
  if '0' ≤ c ∧ c ≤ '9' then some (c.toNat - '0'.toNat)
  else if 'a' ≤ c ∧ c ≤ 'f' then some (c.toNat - 'a'.toNat + 10)
  else if 'A' ≤ c ∧ c ≤ 'F' then some (c.toNat - 'A'.toNat + 10)
  else none

/-- The number written in hexadecimal digits, nothing being zero. -/
def hexNumber? (cs : List Char) : Option Nat :=
  cs.foldlM (fun n c => (hexDigit? c).map (n * 16 + ·)) 0

/-- The character with a code, if there is one. -/
def charOfCode? (n : Nat) : Option Char :=
  if n < 0xD800 ∨ 0xDFFF < n ∧ n ≤ 0x10FFFF then some (Char.ofNat n) else none

/-- Reads a scalar in double quotes, from after the first of them. `skip`
counts characters of an escape that were read ahead. -/
def doubleQuotedFrom (text : List Char) (gap : WordGap) (skip : Nat) (cs : List Cell) :
    Option (List Char × List Cell) :=
  match cs with
  | [] => none
  | c :: rest =>
    if 0 < skip then doubleQuotedFrom text gap (skip - 1) rest
    else if isGap c.char then doubleQuotedFrom text (gap.add c.char) 0 rest
    else if isEnd c.char || atDocumentMark cs then none
    else
      let before := text ++ gap.text
      if c.char == '"' then some (before, rest)
      else if c.char == '\\' then
        let next := ahead rest 0
        if isBreak next then doubleQuotedFrom before (.breaks Option.none []) 1 rest
        else
          match escaped? next, escapeLength? next with
          | some e, _ => doubleQuotedFrom (before ++ [e]) .none 1 rest
          | _, some n =>
            let digits := ((rest.drop 1).take n).map Cell.char
            match (hexNumber? digits).bind charOfCode? with
            | some e => doubleQuotedFrom (before ++ [e]) .none (n + 1) rest
            | _ => none
          | _, _ => none
      else doubleQuotedFrom (before ++ [c.char]) .none 0 rest

inductive Chomping where
  | strip
  | clip
  | keep
deriving DecidableEq, Repr, Inhabited

/-- How a block of lines is read. An `indent` of zero is not known yet, and
is then the larger of `leastIndent` and that of the first line with text. -/
structure BlockHeader where
  isLiteral : Bool
  chomping : Chomping
  indent : Nat
  leastIndent : Nat
deriving DecidableEq, Repr, Inhabited

/-- The lines read so far: text, the break after it, and the breaks of empty
lines that follow. -/
structure BlockText where
  text : List Char := []
  lineBreak : List Char := []
  emptyLines : List Char := []
  /-- Whether the last line starts with a blank. -/
  startsBlank : Bool := false
  deepest : Nat := 0
deriving DecidableEq, Repr, Inhabited

namespace BlockText

/-- Joins the lines so far with one that starts with a blank or not. -/
def startLine (b : BlockText) (isLiteral blank : Bool) : BlockText :=
  let joint :=
    if !isLiteral && b.lineBreak == ['\n'] && !b.startsBlank && !blank then
      if b.emptyLines.isEmpty then [' '] else []
    else b.lineBreak
  { b with
    text := b.text ++ joint ++ b.emptyLines
    lineBreak := []
    emptyLines := []
    startsBlank := blank }

def finish (b : BlockText) (chomping : Chomping) : List Char :=
  match chomping with
  | .strip => b.text
  | .clip => b.text ++ b.lineBreak
  | .keep => b.text ++ b.lineBreak ++ b.emptyLines

end BlockText

/-- Reads a block of lines, from the start of the first. -/
def blockFrom (h : BlockHeader) (indent : Nat) (inLine : Bool) (b : BlockText) (cs : List Cell) :
    Option (List Char × List Cell) :=
  match cs with
  | [] => some (b.finish h.chomping, [])
  | c :: rest =>
    if inLine then
      if isEnd c.char then some (b.finish h.chomping, cs)
      else if isBreak c.char then
        blockFrom h indent false { b with lineBreak := [c.char] } rest
      else blockFrom h indent true { b with text := b.text ++ [c.char] } rest
    else
      let loose := indent == 0 || c.column < indent
      if loose && c.char == ' ' then blockFrom h indent false b rest
      else if loose && c.char == '\t' then none
      else
        let b := { b with deepest := max b.deepest c.column }
        if isBreak c.char then
          blockFrom h indent false { b with emptyLines := b.emptyLines ++ [c.char] } rest
        else
          let indent := if indent == 0 then max b.deepest h.leastIndent else indent
          if c.column == indent && !isEnd c.char then
            let b := b.startLine h.isLiteral (isBlank c.char)
            blockFrom h indent true { b with text := b.text ++ [c.char] } rest
          else some (b.finish h.chomping, cs)

def chomping? (c : Char) : Option Chomping :=
  if c == '+' then some .keep else if c == '-' then some .strip else none

def increment? (c : Char) : Option Nat :=
  if c.isDigit then some (c.toNat - '0'.toNat) else none

/-- The marks after the one that starts a block, in either order: how its end
is treated, and by how much it is indented. -/
def readMarks (cs : List Cell) : Option (Chomping × Nat × List Cell) :=
  let (chomping, increment, rest) :=
    match chomping? (ahead cs 0), increment? (ahead cs 0) with
    | some k, _ =>
      match increment? (ahead cs 1) with
      | some n => (k, some n, cs.drop 2)
      | none => (k, none, cs.drop 1)
    | _, some n =>
      match chomping? (ahead cs 1) with
      | some k => (k, some n, cs.drop 2)
      | none => (.clip, some n, cs.drop 1)
    | _, _ => (.clip, none, cs)
  match increment with
  | some 0 => none
  | some n => some (chomping, n, rest)
  | none => some (chomping, 0, rest)

/-- The rest of a line that may hold only blanks and a comment. The line break
is not part of it. -/
def skipComment (cs : List Cell) : Option (List Cell) :=
  let cs := skipWhile isBlank cs
  let cs := if ahead cs 0 == '#' then skipWhile (fun c => !isBreakOrEnd c) cs else cs
  if isBreakOrEnd (ahead cs 0) then some cs else none

/-- Skips a line break, if there is one. -/
def skipBreak (cs : List Cell) : List Cell :=
  if isBreak (ahead cs 0) then cs.drop 1 else cs

/-- Reads a block of lines inside a collection indented by `outer`, which is
below zero outside of all, from after the mark that starts it. -/
def readBlock (isLiteral : Bool) (outer : Int) (cs : List Cell) : Option (List Char × List Cell) := do
  let (chomping, increment, rest) ← readMarks cs
  let rest ← skipComment rest
  let indent := if increment = 0 then 0 else (max outer 0).toNat + increment
  let leastIndent := max 1 (outer + 1).toNat
  blockFrom { isLiteral, chomping, indent, leastIndent } indent false {} (skipBreak rest)

end AbstractMemory.Yaml
