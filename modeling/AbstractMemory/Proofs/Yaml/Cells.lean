import AbstractMemory.Yaml.Tree
import Mathlib

/-! The cells of a text that holds only characters written as they are. They
are the characters, each where the ones before it have led. -/

namespace AbstractMemory.Yaml

/-- How many bytes, lines, and characters of the line come before. -/
structure Spot where
  index : Nat
  line : Nat
  column : Nat
deriving DecidableEq

namespace Spot

def cell (p : Spot) (c : Char) : Cell := ⟨c, p.index, p.line, p.column⟩

@[simp] theorem cell_char (p : Spot) (c : Char) : (p.cell c).char = c := rfl

@[simp] theorem cell_column (p : Spot) (c : Char) : (p.cell c).column = p.column := rfl

def after (p : Spot) (c : Char) : Spot :=
  if isBreak c then ⟨p.index + c.utf8Size, p.line + 1, 0⟩
  else ⟨p.index + c.utf8Size, p.line, p.column + 1⟩

def afterAll (p : Spot) (cs : List Char) : Spot := cs.foldl after p

/-- The cells of a text from a spot on. -/
def cells (p : Spot) : List Char → List Cell
  | [] => [p.cell '\x00']
  | c :: cs => p.cell c :: (p.after c).cells cs

@[simp] theorem afterAll_nil (p : Spot) : p.afterAll [] = p := rfl

@[simp] theorem afterAll_cons (p : Spot) (c : Char) (cs : List Char) :
    p.afterAll (c :: cs) = (p.after c).afterAll cs := rfl

theorem afterAll_append (p : Spot) (cs ds : List Char) :
    p.afterAll (cs ++ ds) = (p.afterAll cs).afterAll ds :=
  List.foldl_append

theorem after_break (p : Spot) {c : Char} (h : isBreak c = true) :
    p.after c = ⟨p.index + c.utf8Size, p.line + 1, 0⟩ :=
  if_pos h

theorem after_same_line (p : Spot) {c : Char} (h : isBreak c = false) :
    p.after c = ⟨p.index + c.utf8Size, p.line, p.column + 1⟩ :=
  if_neg (by simp [h])

theorem line_le_afterAll (p : Spot) (cs : List Char) : p.line ≤ (p.afterAll cs).line := by
  induction cs generalizing p with
  | nil => exact Nat.le_refl _
  | cons c cs ih =>
    have hstep : p.line ≤ (p.after c).line := by
      by_cases h : isBreak c = true
      · rw [p.after_break h]
        exact Nat.le_succ _
      · have hspot := p.after_same_line (by simpa using h)
        exact Nat.le_of_eq (congrArg line hspot).symm
    exact Nat.le_trans hstep (ih (p.after c))

theorem line_lt_afterAll (p : Spot) (cs ds : List Char) {c : Char} (h : isBreak c = true) :
    p.line < (p.afterAll (cs ++ c :: ds)).line := by
  rw [afterAll_append, afterAll_cons]
  have hle := p.line_le_afterAll cs
  have hrest := ((p.afterAll cs).after c).line_le_afterAll ds
  rw [(p.afterAll cs).after_break h] at hrest ⊢
  dsimp only at hrest
  omega

/-- A text without a break moves along its line. -/
theorem afterAll_same_line (p : Spot) {cs : List Char} (h : ∀ c ∈ cs, isBreak c = false) :
    p.afterAll cs =
      ⟨p.index + (cs.map Char.utf8Size).sum, p.line, p.column + cs.length⟩ := by
  induction cs generalizing p with
  | nil => rfl
  | cons c cs ih =>
    rw [afterAll_cons, ih (p.after c) fun d hd => h d (List.mem_cons_of_mem _ hd),
      p.after_same_line (h c List.mem_cons_self)]
    simp only [List.map_cons, List.sum_cons, List.length_cons, mk.injEq, true_and]
    omega

@[simp] theorem length_cells (p : Spot) (cs : List Char) : (p.cells cs).length = cs.length + 1 := by
  induction cs generalizing p with
  | nil => rfl
  | cons c cs ih => rw [cells, List.length_cons, ih, List.length_cons]

theorem ahead_cells (p : Spot) (cs : List Char) (n : Nat) :
    ahead (p.cells cs) n = cs.getD n '\x00' := by
  induction cs generalizing p n with
  | nil => cases n <;> rfl
  | cons c cs ih =>
    cases n with
    | zero => rfl
    | succ n => exact ih (p.after c) n

@[simp] theorem ahead_cells_zero (p : Spot) (cs : List Char) :
    ahead (p.cells cs) 0 = cs.headD '\x00' := by
  cases cs <;> rfl

@[simp] theorem tail_cells (p : Spot) (c : Char) (cs : List Char) :
    (p.cells (c :: cs)).tail = (p.after c).cells cs := rfl

theorem take_cells (p : Spot) (cs ds : List Char) :
    ((p.cells (cs ++ ds)).take cs.length).map Cell.char = cs := by
  induction cs generalizing p with
  | nil => rfl
  | cons c cs ih => exact congrArg (c :: ·) (ih (p.after c))

end Spot

theorem spaces_succ (n : Nat) : spaces (n + 1) = ' ' :: spaces n := rfl

theorem isBreak_of_mem_spaces {n : Nat} {c : Char} (h : c ∈ spaces n) : isBreak c = false := by
  rw [List.eq_of_mem_replicate h]
  decide

theorem Spot.afterAll_spaces (p : Spot) (n : Nat) :
    p.afterAll (spaces n) = ⟨p.index + n, p.line, p.column + n⟩ := by
  rw [p.afterAll_same_line fun c => isBreak_of_mem_spaces, spaces, List.map_replicate,
    List.sum_replicate_nat, List.length_replicate]
  simp [show Char.utf8Size ' ' = 1 from rfl]

theorem Spot.column_spaces {p : Spot} (h : p.column = 0) (n : Nat) :
    (p.afterAll (spaces n)).column = n := by
  rw [afterAll_spaces, h]
  exact Nat.zero_add n

/-- After a break the indentation is the column. -/
theorem Spot.column_line (p : Spot) (cs : List Char) {c : Char} (h : isBreak c = true) (n : Nat) :
    (p.afterAll (cs ++ c :: spaces n)).column = n := by
  rw [afterAll_append, afterAll_cons, after_break _ h]
  exact column_spaces rfl n

section Printable

variable {c : Char}

theorem isPrintable_iff : isPrintable c = true ↔
    c = '\n' ∨ (0x20 ≤ c.toNat ∧ c.toNat ≤ 0x7E) ∨
      (0xA0 ≤ c.toNat ∧ c.toNat ≤ 0xFFFD ∧ c.toNat ≠ 0xFEFF) ∨ 0x10000 ≤ c.toNat := by
  simp [isPrintable, or_assoc, and_assoc]

theorem ne_of_printable (h : isPrintable c = true) :
    c ≠ '\x00' ∧ c ≠ '\t' ∧ c ≠ '\r' ∧ c ≠ '\u0085' ∧ c ≠ '\ufeff' := by
  refine ⟨?_, ?_, ?_, ?_, ?_⟩ <;> (rintro rfl; exact absurd h (by decide))

theorem isEnd_of_printable (h : isPrintable c = true) : isEnd c = false := by
  simpa [isEnd] using (ne_of_printable h).1

theorem isAllowed_of_printable (h : isPrintable c = true) : isAllowed c = true := by
  rcases isPrintable_iff.mp h with rfl | h | h | h <;> simp [isAllowed, h]

theorem plainBreak_of_printable (h : isPrintable c = true) (hb : isBreak c = true) :
    plainBreak c = c := by
  obtain ⟨_, _, hr, hn, _⟩ := ne_of_printable h
  simp only [isBreak, Bool.or_eq_true, beq_iff_eq] at hb
  grind [plainBreak]

/-- Of the characters written as they are, a gap is a space or a break. -/
theorem isGap_of_printable (h : isPrintable c = true) :
    isGap c = (c == ' ' || isBreak c) := by
  have htab : (c == '\t') = false := by simpa using (ne_of_printable h).2.1
  simp [isGap, isBlank, htab]

theorem isGap_eq_false (h : isPrintable c = true) (hb : isBreak c = false) (hsp : c ≠ ' ') :
    isGap c = false := by
  rw [isGap_of_printable h, hb]
  simpa using hsp

end Printable

theorem cellsFrom_eq_cells {cs : List Char} (h : ∀ c ∈ cs, isPrintable c = true) (p : Spot) :
    cellsFrom p.index p.line p.column cs = p.cells cs := by
  induction cs generalizing p with
  | nil => rfl
  | cons c cs ih =>
    have hc := h c List.mem_cons_self
    have hrest := ih (fun d hd => h d (List.mem_cons_of_mem _ hd)) (p.after c)
    have hr : c ≠ '\r' := (ne_of_printable hc).2.2.1
    rw [cellsFrom, Spot.cells, ← hrest]
    · by_cases hb : isBreak c = true
      · rw [if_pos hb, plainBreak_of_printable hc hb, p.after_break hb]
        rfl
      · rw [if_neg hb, p.after_same_line (by simpa using hb)]
        rfl
    · intro rest heq _
      exact hr heq

/-- The cells of a text that holds only characters written as they are. -/
theorem cells?_of_printable {cs : List Char} (h : ∀ c ∈ cs, isPrintable c = true) :
    cells? cs = some ((⟨0, 0, 0⟩ : Spot).cells cs) := by
  have hallowed : cs.all isAllowed = true :=
    List.all_eq_true.mpr fun c hc => isAllowed_of_printable (h c hc)
  rw [cells?, if_pos hallowed]
  exact congrArg some (cellsFrom_eq_cells h ⟨0, 0, 0⟩)

end AbstractMemory.Yaml
