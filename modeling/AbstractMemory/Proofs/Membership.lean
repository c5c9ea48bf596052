import AbstractMemory.Objects.Graph
import Mathlib

/-! Sets of objects and the points-to relation, seen through membership. -/

namespace AbstractMemory

namespace ObjectSet

variable {s other : ObjectSet} {n m : Nat}

theorem block_insert (blocks : Std.TreeMap Nat Block) (key k : Nat) (b : Block) :
    (⟨blocks.insert key b⟩ : ObjectSet).block k =
      if key = k then b else (⟨blocks⟩ : ObjectSet).block k := by
  simp only [block, Std.TreeMap.getD_insert, Std.LawfulEqCmp.compare_eq_iff_eq]

theorem contains_empty (n : Nat) : empty.contains n = false := by
  simp [contains, block, empty]

theorem contains_insert (s : ObjectSet) (n m : Nat) :
    (s.insert n).2.contains m = (s.contains m || m == n) := by
  have hself : s = ⟨s.blocks⟩ := rfl
  simp only [insert, contains, block_insert, ← hself]
  by_cases hkey : blockKey n = blockKey m
  · have hbit : n % 128 = m % 128 ↔ m = n := by
      unfold blockKey at hkey
      omega
    rw [if_pos hkey, hkey, BitVec.getLsbD_or, blockBit, BitVec.getLsbD_twoPow]
    have hlt : n % 128 < 128 := Nat.mod_lt n (by omega)
    simp [hlt, hbit, Bool.beq_eq_decide_eq]
  · have hne : m ≠ n := by
      rintro rfl
      exact hkey rfl
    simp [hkey, hne]

theorem block_unionBlock (acc : Bool × ObjectSet) (key k : Nat) (b : Block) :
    (unionBlock acc (key, b)).2.block k =
      if key = k then acc.2.block k ||| b else acc.2.block k := by
  rw [unionBlock, block_insert]
  by_cases hkey : key = k
  · rw [if_pos hkey, if_pos hkey, hkey]
  · rw [if_neg hkey, if_neg hkey]

/-- A bit of a union comes from the first set or from an entry of the second. -/
theorem getLsbD_foldl_unionBlock (entries : List (Nat × Block)) (acc : Bool × ObjectSet)
    (k i : Nat) : ((entries.foldl unionBlock acc).2.block k).getLsbD i = true ↔
      (acc.2.block k).getLsbD i = true ∨ ∃ b, (k, b) ∈ entries ∧ b.getLsbD i = true := by
  induction entries generalizing acc with
  | nil => simp
  | cons entry rest ih =>
    obtain ⟨key, b⟩ := entry
    rw [List.foldl_cons, ih, block_unionBlock]
    by_cases hkey : key = k
    · subst hkey
      rw [if_pos rfl, BitVec.getLsbD_or, Bool.or_eq_true, or_assoc]
      constructor
      · rintro (h | h | ⟨b', hb', h⟩)
        · exact .inl h
        · exact .inr ⟨b, by simp, h⟩
        · exact .inr ⟨b', by simp [hb'], h⟩
      · rintro (h | ⟨b', hb', h⟩)
        · exact .inl h
        · rcases List.mem_cons.mp hb' with heq | hb'
          · cases heq
            exact .inr (.inl h)
          · exact .inr (.inr ⟨b', hb', h⟩)
    · have hne : ∀ b', (k, b') ∈ (key, b) :: rest ↔ (k, b') ∈ rest := by
        intro b'
        simp [Ne.symm hkey]
      simp only [if_neg hkey, hne]

theorem contains_union (s other : ObjectSet) (n : Nat) :
    (s.union other).2.contains n = (s.contains n || other.contains n) := by
  rw [Bool.eq_iff_iff, Bool.or_eq_true]
  unfold union contains
  rw [getLsbD_foldl_unionBlock]
  refine or_congr Iff.rfl ?_
  rw [block, Std.TreeMap.getD_eq_getD_getElem?]
  constructor
  · rintro ⟨b, hb, hbit⟩
    rw [Std.TreeMap.mem_toList_iff_getElem?_eq_some] at hb
    rwa [hb]
  · intro h
    cases hb : other.blocks[blockKey n]? with
    | none => simp [hb] at h
    | some b =>
      rw [hb] at h
      exact ⟨b, Std.TreeMap.mem_toList_iff_getElem?_eq_some.mpr hb, h⟩

theorem contains_of_isEmpty (h : s.isEmpty = true) (n : Nat) : s.contains n = false := by
  have hnone := Std.TreeMap.isEmpty_iff_forall_not_mem.mp h (blockKey n)
  simp [contains, block, Std.TreeMap.getD_eq_fallback hnone]

end ObjectSet

namespace PointsTo

variable {g : PointsTo} {n object : Nat}

theorem pointsTo_eq (g : PointsTo) (n object : Nat) :
    g.pointsTo n object = (g.sets.getD n .empty).contains object := by
  rw [pointsTo, get?, Std.TreeMap.getD_eq_getD_getElem?]
  cases g.sets[n]? <;> simp [ObjectSet.contains_empty]

theorem pointsTo_insert (sets : Std.TreeMap Nat ObjectSet) (key n object : Nat) (s : ObjectSet) :
    (⟨sets.insert key s⟩ : PointsTo).pointsTo n object =
      if key = n then s.contains object else (⟨sets⟩ : PointsTo).pointsTo n object := by
  simp only [pointsTo_eq, Std.TreeMap.getD_insert, Std.LawfulEqCmp.compare_eq_iff_eq]
  split <;> rfl

theorem pointsTo_add (g : PointsTo) (key added n object : Nat) :
    (g.add key added).2.pointsTo n object =
      (g.pointsTo n object || (n == key && object == added)) := by
  rw [add, pointsTo_insert, ObjectSet.contains_insert]
  by_cases hkey : key = n
  · simp [hkey, pointsTo_eq]
  · simp [hkey, Ne.symm hkey]

theorem pointsTo_addAll (g : PointsTo) (key : Nat) (s : ObjectSet) (n object : Nat) :
    (g.addAll key s).2.pointsTo n object =
      (g.pointsTo n object || (n == key && s.contains object)) := by
  unfold addAll
  split
  · rename_i hempty
    simp [ObjectSet.contains_of_isEmpty hempty]
  · rw [pointsTo_insert, ObjectSet.contains_union]
    by_cases hkey : key = n
    · simp [hkey, pointsTo_eq]
    · simp [hkey, Ne.symm hkey]

theorem pointsTo_of_get? {s : ObjectSet} (h : g.get? n = some s) :
    g.pointsTo n object = s.contains object := by
  simp [pointsTo, h]

theorem pointsTo_copy (g : PointsTo) (target source n object : Nat) :
    (g.copy target source).2.pointsTo n object =
      (g.pointsTo n object || (n == target && g.pointsTo source object)) := by
  unfold copy
  split
  · rename_i hsame
    subst hsame
    by_cases hn : n = target
    · simp [hn]
    · simp [hn]
  · split
    · rename_i hnone
      simp [pointsTo, hnone]
    · rename_i s hs
      rw [pointsTo_addAll, pointsTo_of_get? hs]

theorem pointsTo_merge (g : PointsTo) {into source : Nat} (hne : into ≠ source) (n object : Nat) :
    (g.merge into source).2.pointsTo n object =
      if n = source then false
      else g.pointsTo n object || (n == into && g.pointsTo source object) := by
  unfold merge
  rw [if_neg hne]
  split
  · rename_i hnone
    by_cases hn : n = source
    · simp [hn, pointsTo, hnone]
    · simp [hn, pointsTo, hnone]
  · rename_i s hs
    have herase : (⟨g.sets.erase source⟩ : PointsTo).pointsTo n object =
        if n = source then false else g.pointsTo n object := by
      simp only [pointsTo, get?, Std.TreeMap.getElem?_erase, Std.LawfulEqCmp.compare_eq_iff_eq]
      by_cases hn : n = source
      · simp [hn]
      · simp [hn, Ne.symm hn]
    rw [pointsTo_addAll, herase, pointsTo_of_get? hs]
    by_cases hn : n = source
    · simp [hn, hne.symm]
    · simp [hn]

end PointsTo

end AbstractMemory
