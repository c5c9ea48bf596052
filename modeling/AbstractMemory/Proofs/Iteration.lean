import AbstractMemory.Proofs.Registers
import Mathlib

/-! Going through the elements of a set. A cursor gives out the lowest bit of
the block at hand and clears it, and turns to the next block when no bit is
left. What it gives out is all that is ahead of it, in order. -/

namespace AbstractMemory

namespace ObjectSet

variable {s : ObjectSet} {b : Block} {i : Nat}

theorem mem_bits : i ∈ bits b ↔ i < 128 ∧ b.getLsbD i = true := by
  simp [bits]

theorem bits_ascending (b : Block) : (bits b).Pairwise (· < ·) :=
  List.pairwise_lt_range.filter _

theorem bits_zero : bits 0#128 = [] := by
  simp [bits]

/-! ### The lowest bit -/

theorem lowestBit_lt (h : b ≠ 0) : lowestBit b < 128 := by
  obtain ⟨i, hi, hbit⟩ := exists_bit h
  have hlt : lowestBit b < (List.range 128).length :=
    List.findIdx_lt_length_of_exists ⟨i, List.mem_range.mpr hi, hbit⟩
  simpa using hlt

theorem getLsbD_lowestBit (h : b ≠ 0) : b.getLsbD (lowestBit b) = true := by
  have hlt : lowestBit b < (List.range 128).length := by simpa using lowestBit_lt h
  have hbit : b.getLsbD ((List.range 128).get ⟨lowestBit b, hlt⟩) = true :=
    List.findIdx_getElem (w := hlt)
  simpa using hbit

theorem getLsbD_of_lt_lowestBit (h : i < lowestBit b) : b.getLsbD i = false := by
  have hlt : i < (List.range 128).length := Nat.lt_of_lt_of_le h List.findIdx_le_length
  have hbefore : b.getLsbD ((List.range 128).get ⟨i, hlt⟩) = false := by
    simpa using List.not_of_lt_findIdx h
  simpa using hbefore

/-- A number whose lowest bit is `t` ends in a one and `t` zeros. -/
theorem toNat_mod_lowestBit (h : b ≠ 0) :
    b.toNat % 2 ^ (lowestBit b + 1) = 2 ^ lowestBit b := by
  apply Nat.eq_of_testBit_eq
  intro i
  rw [Nat.testBit_mod_two_pow, Nat.testBit_two_pow, BitVec.testBit_toNat]
  rcases Nat.lt_trichotomy i (lowestBit b) with hlt | heq | hgt
  · have hne : lowestBit b ≠ i := by omega
    simp [getLsbD_of_lt_lowestBit hlt, hne]
  · simp [heq, getLsbD_lowestBit h]
  · have hne : lowestBit b ≠ i := by omega
    simp [show ¬ i < lowestBit b + 1 by omega, hne]

theorem getLsbD_dropLowest (h : b ≠ 0) (i : Nat) :
    (dropLowest b).getLsbD i = (b.getLsbD i && i != lowestBit b) := by
  have hmod := toNat_mod_lowestBit h
  have hpos : 0 < 2 ^ lowestBit b := Nat.two_pow_pos _
  have hpow : 2 ^ lowestBit b < 2 ^ (lowestBit b + 1) := by
    rw [Nat.pow_succ]
    omega
  have hsplit := Nat.div_add_mod b.toNat (2 ^ (lowestBit b + 1))
  rw [hmod] at hsplit
  have hone : (1 : Block).toNat = 1 := rfl
  -- one less turns the last one into a zero and the zeros after it into ones
  have hless : (b - 1).toNat =
      2 ^ (lowestBit b + 1) * (b.toNat / 2 ^ (lowestBit b + 1)) + (2 ^ lowestBit b - 1) := by
    rw [BitVec.toNat_sub_of_le (BitVec.le_def.mpr (by omega))]
    omega
  rw [dropLowest, BitVec.getLsbD_and, ← BitVec.testBit_toNat (b - 1), hless,
    Nat.testBit_two_pow_mul_add _ (by omega)]
  rcases Nat.lt_trichotomy i (lowestBit b) with hlt | heq | hgt
  · simp [getLsbD_of_lt_lowestBit hlt]
  · simp [heq]
  · have hne : i ≠ lowestBit b := by omega
    have hhigh : (b.toNat / 2 ^ (lowestBit b + 1)).testBit (i - (lowestBit b + 1)) =
        b.getLsbD i := by
      rw [Nat.testBit_div_two_pow, BitVec.testBit_toNat]
      congr 1
      omega
    simp [show ¬ i < lowestBit b + 1 by omega, hne, hhigh]

theorem bits_eq_cons (h : b ≠ 0) : bits b = lowestBit b :: bits (dropLowest b) := by
  have hascending : (lowestBit b :: bits (dropLowest b)).Pairwise (· < ·) := by
    rw [List.pairwise_cons]
    refine ⟨?_, bits_ascending _⟩
    intro i hi
    have hbit := (mem_bits.mp hi).2
    rw [getLsbD_dropLowest h, Bool.and_eq_true] at hbit
    have hne : i ≠ lowestBit b := by simpa using hbit.2
    by_contra hle
    have hlow := getLsbD_of_lt_lowestBit (b := b) (i := i) (by omega)
    simp [hlow] at hbit
  apply (bits_ascending b).eq_of_mem_iff hascending
  intro i
  rw [List.mem_cons, mem_bits, mem_bits, getLsbD_dropLowest h, Bool.and_eq_true, bne_iff_ne]
  by_cases heq : i = lowestBit b
  · simp [heq, lowestBit_lt h, getLsbD_lowestBit h]
  · simp [heq]

/-! ### The cursor -/

/-- The elements of a block, ascending. -/
def blockElements (key : Nat) (b : Block) : List Nat :=
  (bits b).map (key * 128 + ·)

/-- The elements that a cursor has ahead of it. -/
def upcoming (s : ObjectSet) (current : Option (Nat × Block)) (keys : List Nat) : List Nat :=
  (current.map fun entry => blockElements entry.1 entry.2).getD [] ++
    keys.flatMap fun key => blockElements key (s.block key)

variable {current : Option (Nat × Block)} {keys : List Nat}

theorem upcoming_of_ne_zero {key : Nat} (h : b ≠ 0) : s.upcoming (some (key, b)) keys =
    (key * 128 + lowestBit b) :: s.upcoming (some (key, dropLowest b)) keys := by
  simp [upcoming, blockElements, bits_eq_cons h]

theorem Spent.elements_eq (h : Spent current) :
    (current.map fun entry => blockElements entry.1 entry.2).getD [] = [] := by
  cases current with
  | none => rfl
  | some entry => simp [blockElements, h entry rfl, bits_zero]

theorem upcoming_cons {key : Nat} (h : Spent current) : s.upcoming current (key :: keys) =
    s.upcoming (s.blocks[key]?.map fun b => (key, b)) keys := by
  have hblock : ((s.blocks[key]?.map fun b => (key, b)).map
      fun entry => blockElements entry.1 entry.2).getD [] = blockElements key (s.block key) := by
    rw [block, Std.TreeMap.getD_eq_getD_getElem?]
    cases s.blocks[key]? with
    | none => simp [blockElements, bits_zero]
    | some b => rfl
  rw [upcoming, upcoming, h.elements_eq, hblock, List.flatMap_cons, List.nil_append]

/-- One step of a cursor takes the first of the elements ahead. -/
theorem next?_takes (s : ObjectSet) (current : Option (Nat × Block)) (keys : List Nat) :
    s.next? current keys = none ∧ s.upcoming current keys = [] ∨
      ∃ n c, s.next? current keys = some (n, c) ∧
        s.upcoming current keys = n :: s.upcoming c.current c.keys := by
  induction keys generalizing current with
  | nil =>
    rcases spent_or_ne_zero current with hspent | ⟨key, b, rfl, hb⟩
    · exact .inl ⟨next?_nil hspent, by rw [upcoming, hspent.elements_eq]; rfl⟩
    · exact .inr ⟨_, _, next?_of_ne_zero hb, upcoming_of_ne_zero hb⟩
  | cons key rest ih =>
    rcases spent_or_ne_zero current with hspent | ⟨key', b, rfl, hb⟩
    · rw [next?_cons hspent, upcoming_cons hspent]
      exact ih _
    · exact .inr ⟨_, _, next?_of_ne_zero hb, upcoming_of_ne_zero hb⟩

theorem drain_eq_upcoming (s : ObjectSet) (c : Cursor) :
    s.drain c = s.upcoming c.current c.keys := by
  induction c using drain.induct s with
  | case1 c hnone =>
    rw [drain, hnone]
    rcases s.next?_takes c.current c.keys with ⟨_, hup⟩ | ⟨n, rest, hnext, _⟩
    · exact hup.symm
    · simp [hnone] at hnext
  | case2 c n rest hnext ih =>
    rw [drain, hnext]
    rcases s.next?_takes c.current c.keys with ⟨hnone, _⟩ | ⟨n', rest', hnext', hup⟩
    · simp [hnone] at hnext
    · rw [hnext] at hnext'
      cases hnext'
      rw [hup, ← ih]

theorem toList_eq_flatMap (s : ObjectSet) :
    s.toList = s.blocks.toList.flatMap fun entry => blockElements entry.1 entry.2 := by
  rw [toList, drain_eq_upcoming, cursor, upcoming, ← Std.TreeMap.map_fst_toList_eq_keys]
  simp only [Option.map_none, Option.getD_none, List.nil_append, List.flatMap_map]
  apply List.flatMap_congr
  intro entry hentry
  have hget := Std.TreeMap.mem_toList_iff_getElem?_eq_some.mp hentry
  rw [block, Std.TreeMap.getD_eq_getD_getElem?, hget, Option.getD_some]

end ObjectSet

end AbstractMemory
