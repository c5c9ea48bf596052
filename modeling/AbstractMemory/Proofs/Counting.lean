import AbstractMemory.Bytes
import Mathlib

/-! Byte counts of 64 bits. A number that fits counts as itself. Sums can be
formed before they are counted or after, with the same result. -/

namespace AbstractMemory

namespace Overflow

variable {overflow : Overflow} {n k : Nat}

theorem count_eq_ok :
    overflow.count n = .ok k ↔
      k = n % 0x10000000000000000 ∧ (overflow = .stops → n ≤ maxByteCount) := by
  cases overflow with
  | wraps => simp [count, eq_comm]
  | stops =>
    by_cases hle : n ≤ maxByteCount
    · have hmod : n % 0x10000000000000000 = n := Nat.mod_eq_of_lt (Nat.lt_succ_of_le hle)
      simp [count, hle, hmod, eq_comm]
    · simp [count, hle]

theorem count_of_le (h : n ≤ maxByteCount) : overflow.count n = .ok n :=
  count_eq_ok.mpr ⟨(Nat.mod_eq_of_lt (Nat.lt_succ_of_le h)).symm, fun _ => h⟩

theorem le_of_count (h : overflow.count n = .ok k) : k ≤ maxByteCount := by
  obtain ⟨rfl, _⟩ := count_eq_ok.mp h
  exact Nat.le_of_lt_succ (Nat.mod_lt n (by decide))

/-- Only a number that does not fit stops a program. -/
theorem count_eq_error {e : ProgramError} :
    overflow.count n = .error e ↔
      overflow = .stops ∧ maxByteCount < n ∧ e = .halted .overflow := by
  cases overflow with
  | wraps => simp [count]
  | stops =>
    by_cases hle : n ≤ maxByteCount
    · simp [count, hle]
    · simp [count, hle, Nat.lt_of_not_le hle, eq_comm]

/-- A number can be counted before something is added to it. -/
theorem count_add_left {x a : Nat} (h : overflow.count x = .ok a) (y : Nat) :
    overflow.count (a + y) = overflow.count (x + y) := by
  cases overflow with
  | wraps =>
    obtain ⟨rfl, _⟩ := count_eq_ok.mp h
    simp [count]
  | stops =>
    obtain rfl : x = a := by simpa [count_of_le ((count_eq_ok.mp h).2 rfl)] using h
    rfl

theorem count_add_right {x a : Nat} (h : overflow.count x = .ok a) (y : Nat) :
    overflow.count (y + a) = overflow.count (y + x) := by
  rw [Nat.add_comm y, count_add_left h, Nat.add_comm]

/-- The count of a count is itself. -/
theorem count_self (h : overflow.count n = .ok k) : overflow.count k = .ok k :=
  count_of_le (le_of_count h)

/-- An answer is there, or the program stops at a number that is too large. -/
def Settles {α : Type} (overflow : Overflow) (answer : Except ProgramError α) : Prop :=
  (∃ a, answer = .ok a) ∨ overflow = .stops ∧ answer = .error (.halted .overflow)

theorem settles_count (overflow : Overflow) (n : Nat) : overflow.Settles (overflow.count n) := by
  cases h : overflow.count n with
  | ok k => exact .inl ⟨k, rfl⟩
  | error e =>
    obtain ⟨hstops, _, rfl⟩ := count_eq_error.mp h
    exact .inr ⟨hstops, rfl⟩

theorem Settles.bind {α β : Type} {answer : Except ProgramError α}
    {next : α → Except ProgramError β} (h : overflow.Settles answer)
    (hnext : ∀ a, overflow.Settles (next a)) : overflow.Settles (answer >>= next) := by
  rcases h with ⟨a, rfl⟩ | ⟨hstops, rfl⟩
  · exact hnext a
  · exact .inr ⟨hstops, rfl⟩

theorem Settles.eq_of_error {α : Type} {answer : Except ProgramError α} {e : ProgramError}
    (h : overflow.Settles answer) (he : answer = .error e) : e = .halted .overflow := by
  rcases h with ⟨a, ha⟩ | ⟨_, hstopped⟩
  · simp [he] at ha
  · exact Except.error.inj (he.symm.trans hstopped)

end Overflow

theorem roundUp_zero (align : Nat) : roundUp 0 align = 0 := by
  unfold roundUp
  split
  · rfl
  · rw [Nat.zero_add, Nat.div_eq_of_lt (by omega), Nat.zero_mul]

theorem le_roundUp (value align : Nat) : value ≤ roundUp value align := by
  unfold roundUp
  split
  · exact Nat.le_refl value
  · rename_i h
    have hmod := Nat.div_add_mod (value + (align - 1)) align
    have hlt := Nat.mod_lt (value + (align - 1)) (show 0 < align by omega)
    rw [Nat.mul_comm] at hmod
    omega

end AbstractMemory
