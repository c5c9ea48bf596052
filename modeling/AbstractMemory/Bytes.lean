import AbstractMemory.Program.Error

/-! Arithmetic on byte counts. Counts have 64 bits: a sum that does not fit
wraps around or stops the program, as the program was built. The size of an
array goes no further than the largest count. Offsets are signed and wrap
around in 64 bits. -/

namespace AbstractMemory

/-- The least multiple of `align` that is at least `value`. An alignment of
zero or one asks for nothing. -/
def roundUp (value align : Nat) : Nat :=
  if align ≤ 1 then value else (value + (align - 1)) / align * align

def maxByteCount : Nat := 0xFFFFFFFFFFFFFFFF

/-- What becomes of a byte count that 64 bits do not hold: they keep its low
part, or the program stops. -/
inductive Overflow where
  | wraps
  | stops
deriving DecidableEq, Repr, Inhabited

/-- The byte count for a number. -/
def Overflow.count (overflow : Overflow) (n : Nat) : Except ProgramError Nat :=
  match overflow with
  | .wraps => .ok (n % 0x10000000000000000)
  | .stops => if n ≤ maxByteCount then .ok n else .error (.halted .overflow)

def cappedMul (a b : Nat) : Nat :=
  min (a * b) maxByteCount

/-- The signed 64-bit number with the same low 64 bits. -/
def wrap64 (x : Int) : Int :=
  x.bmod 0x10000000000000000

/-- The least power of two that is at least `n`. -/
def ceilPowerOfTwo (n : Nat) : Nat :=
  if n ≤ 1 then 1 else Nat.pow 2 ((n - 1).log2 + 1)

end AbstractMemory
