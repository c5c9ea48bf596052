import AbstractMemory.Yaml.Scalar

/-! Plain scalars that stand for something other than text: nothing, a truth
value or a number. -/

namespace AbstractMemory.Yaml

def isNull (s : String) : Bool :=
  s == "null" || s == "Null" || s == "NULL" || s == "~"

def bool? (s : String) : Option Bool :=
  if s == "true" || s == "True" || s == "TRUE" then some true
  else if s == "false" || s == "False" || s == "FALSE" then some false
  else none

/-- The number that digits of a radix stand for, if it is below a bound. -/
def digits? (radix bound : Nat) (cs : List Char) : Option Nat :=
  if cs.isEmpty then none
  else do
    let n ← cs.foldlM
      (fun n c => (hexDigit? c).bind fun d => if d < radix then some (n * radix + d) else none) 0
    if n < bound then some n else none

def dropPlus : List Char → List Char
  | '+' :: cs => cs
  | cs => cs

def dropSign : List Char → List Char
  | '+' :: cs => cs
  | '-' :: cs => cs
  | cs => cs

/-- Digits with a zero in front that is not the only one. They are no number. -/
def isPadded (cs : List Char) : Bool :=
  match dropSign cs with
  | '0' :: c :: rest => (c :: rest).all Char.isDigit
  | _ => false

/-- The number written with the mark of a radix other than ten. -/
def marked? (bound : Nat) : List Char → Option Nat
  | '0' :: 'x' :: cs => digits? 16 bound cs
  | '0' :: 'o' :: cs => digits? 8 bound cs
  | '0' :: 'b' :: cs => digits? 2 bound cs
  | _ => none

/-- The number without a minus sign that a scalar stands for. -/
def natural? (bound : Nat) (cs : List Char) : Option Nat :=
  match marked? bound (dropPlus cs) with
  | some n => some n
  | none => if isPadded cs then none else digits? 10 bound (dropPlus cs)

/-- The parts of a decimal number: digits before and after the point, and the
exponent of ten. -/
def decimal? (cs : List Char) : Option (List Char × List Char × Int) :=
  let whole := cs.takeWhile Char.isDigit
  let rest := cs.dropWhile Char.isDigit
  let (fraction, rest) := match rest with
    | '.' :: rest => (rest.takeWhile Char.isDigit, rest.dropWhile Char.isDigit)
    | rest => ([], rest)
  if whole.isEmpty && fraction.isEmpty then none
  else
    match rest with
    | [] => some (whole, fraction, 0)
    | c :: rest =>
      if c == 'e' || c == 'E' then
        let isNegative := rest.head? == some '-'
        let digits := dropSign rest
        if digits.isEmpty || !digits.all Char.isDigit then none
        else
          let n : Int := (digits? 10 (Nat.pow 10 digits.length) digits).getD 0
          some (whole, fraction, if isNegative then -n else n)
      else none

/-- Whether a decimal number is below the bound of 64-bit floating point, from
which on numbers round to infinity. The place of its first digit settles all
but the close cases. -/
def isFinite (whole fraction : List Char) (exponent : Int) : Bool :=
  let digits := (whole ++ fraction).dropWhile (· == '0')
  let n := (digits? 10 (Nat.pow 10 digits.length) digits).getD 0
  let scale := exponent - fraction.length
  let places := scale + digits.length
  if digits.isEmpty || places < 300 then true
  else if 310 < places then false
  else
    let bound := Nat.pow 2 1024 - Nat.pow 2 970
    if 0 ≤ scale then n * Nat.pow 10 scale.toNat < bound
    else n < bound * Nat.pow 10 (-scale).toNat

/-- Whether a scalar stands for a floating point number. -/
def isFloat (cs : List Char) : Bool :=
  let unsigned := dropPlus cs
  let afterMinus := match unsigned with
    | '-' :: rest => if unsigned == cs then rest else unsigned
    | _ => unsigned
  [".inf", ".Inf", ".INF"].any (fun s => unsigned == s.toList) ||
    ["-.inf", "-.Inf", "-.INF", ".nan", ".NaN", ".NAN"].any (fun s => cs == s.toList) ||
    match decimal? afterMinus with
    | some (whole, fraction, exponent) => isFinite whole fraction exponent
    | none => false

/-- Whether a scalar stands for a whole number of up to 128 bits. -/
def isInteger (cs : List Char) : Bool :=
  (natural? (Nat.pow 2 128) cs).isSome ||
    match cs with
    | '-' :: rest =>
      (marked? (Nat.pow 2 127 + 1) rest).isSome ||
        (!isPadded cs && (digits? 10 (Nat.pow 2 127 + 1) rest).isSome)
    | _ => false

/-- Whether a text, written plain, would be taken for something else. -/
def isAmbiguous (s : String) : Bool :=
  s.isEmpty || isNull s || (bool? s).isSome || isInteger s.toList || isPadded s.toList ||
    isFloat s.toList

end AbstractMemory.Yaml
