import AbstractMemory.Record.DecimalDigit

/-! Scope names. Struct names that differ only by the numbers appended to make
them unique stand for one struct of the source text, except that anonymous
structs are all different. -/

namespace AbstractMemory

def isAnonymous (name : String) : Bool :=
  name.startsWith "struct.anon" || name.startsWith "union.anon"

/-- Drops every appended number from a name written backwards: digits and the
dot before them, as often as there are any. -/
def dropNumbers (cs : List Char) : List Char :=
  match _h : cs.dropWhile isDecimalDigit with
  | '.' :: rest => if cs.takeWhile isDecimalDigit = [] then cs else dropNumbers rest
  | _ => cs
termination_by cs.length
decreasing_by
  have hle := (List.dropWhile_sublist isDecimalDigit (l := cs)).length_le
  rw [_h] at hle
  exact hle

/-- The name without the numbers appended to it. -/
def scopeName (name : String) : String :=
  if isAnonymous name then name
  else String.ofList (dropNumbers name.toList.reverse).reverse

end AbstractMemory
