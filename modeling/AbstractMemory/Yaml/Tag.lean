import AbstractMemory.Yaml.Scalar

/-! Tags of nodes. A tag is a string of bytes, of which those that are no
characters of their own are written as percent signs with two digits. -/

namespace AbstractMemory.Yaml

abbrev Tag := List UInt8

namespace Tag

/-- The tag of characters that are bytes each. -/
def ofChars (cs : List Char) : Tag := cs.map fun c => UInt8.ofNat c.toNat

/-- The tag that says nothing about a node. -/
def bare : Tag := ofChars ['!']

/-- What the tags of common types start with. -/
def coreStem : Tag := ofChars "tag:yaml.org,2002:".toList

/-- The tag of a common type. -/
def core (name : String) : Tag := coreStem ++ ofChars name.toList

/-- A tag ends where a null byte is. -/
def untilNull (t : Tag) : Tag := t.takeWhile (· != 0)

/-- Characters that tags are written with. Those that end an item of a flow
collection are among them only between angle brackets. -/
def isTagChar (bracketed : Bool) (c : Char) : Bool :=
  isWordChar c || ";/?:@&=+$.%!~*'()".toList.contains c ||
    (bracketed && (c == ',' || c == '[' || c == ']'))

/-- How many bytes belong together if this is the first of them. -/
def groupLength (byte : Nat) : Nat :=
  if byte < 0x80 then 1
  else if 0xC0 ≤ byte && byte < 0xE0 then 2
  else if 0xE0 ≤ byte && byte < 0xF0 then 3
  else if 0xF0 ≤ byte && byte < 0xF8 then 4
  else 0

/-- How many bytes have to follow this one, if `pending` of them have to be
there with it. -/
def pendingAfter (pending byte : Nat) : Option Nat :=
  if 0 < pending then if 0x80 ≤ byte && byte < 0xC0 then some (pending - 1) else none
  else if groupLength byte = 0 then none
  else some (groupLength byte - 1)

/-- The bytes that characters of a tag stand for, where `pending` more have to
be written with percent signs. -/
def decode? (pending : Nat) : List Char → Option Tag
  | [] => if pending = 0 then some [] else none
  | '%' :: a :: b :: rest => do
    let byte ← hexNumber? [a, b]
    return UInt8.ofNat byte :: (← decode? (← pendingAfter pending byte) rest)
  | c :: rest =>
    if pending = 0 && c != '%' then (decode? 0 rest).map (ofChars [c] ++ ·) else none

end Tag

end AbstractMemory.Yaml
