import AbstractMemory.Proofs.Iteration
import Mathlib

/-! The elements of a set as an ascending list, how many there are, and what
two sets have in common. Blocks are compared in place of elements, which is
right since no set that operations make has an empty one. -/

namespace AbstractMemory

namespace ObjectSet

variable {s other : ObjectSet} {elements : Finset Nat} {n : Nat}

theorem Reduced.isEmpty_eq_false_iff (h : s.Reduced) :
    s.isEmpty = false ↔ ∃ n, s.contains n = true := by
  rw [← Bool.not_eq_true, h.isEmpty_iff]
  simp

theorem contains_iff_block : s.contains n = true ↔
    ∃ b, (blockKey n, b) ∈ s.blocks.toList ∧ b.getLsbD (n % 128) = true := by
  rw [contains, block, Std.TreeMap.getD_eq_getD_getElem?]
  constructor
  · intro h
    cases hb : s.blocks[blockKey n]? with
    | none => simp [hb] at h
    | some b =>
      exact ⟨b, Std.TreeMap.mem_toList_iff_getElem?_eq_some.mpr hb, by simpa [hb] using h⟩
  · intro hblock
    obtain ⟨b, hb, hbit⟩ := hblock
    rw [Std.TreeMap.mem_toList_iff_getElem?_eq_some.mp hb]
    exact hbit

theorem mem_toList : n ∈ s.toList ↔ s.contains n = true := by
  rw [contains_iff_block]
  simp only [toList_eq_flatMap, blockElements, List.mem_flatMap, List.mem_map, Prod.exists, mem_bits]
  constructor
  · intro hplace
    obtain ⟨key, b, hb, i, ⟨hi, hbit⟩, hn⟩ := hplace
    have hkey : blockKey n = key := by
      unfold blockKey
      omega
    have hmod : n % 128 = i := by omega
    exact ⟨b, by rwa [hkey], by rwa [hmod]⟩
  · intro hblock
    obtain ⟨b, hb, hbit⟩ := hblock
    have hn : blockKey n * 128 + n % 128 = n := by
      unfold blockKey
      omega
    exact ⟨blockKey n, b, hb, n % 128, ⟨Nat.mod_lt n (by omega), hbit⟩, hn⟩

theorem toList_ascending (s : ObjectSet) : s.toList.Pairwise (· < ·) := by
  rw [toList_eq_flatMap, List.pairwise_flatMap]
  constructor
  · intro entry _
    obtain ⟨key, b⟩ := entry
    rw [blockElements, List.pairwise_map]
    exact (bits_ascending b).imp fun hlt => by omega
  · apply Std.TreeMap.ordered_keys_toList.imp
    intro entry entry' hkeys n hn n' hn'
    obtain ⟨key, b⟩ := entry
    obtain ⟨key', b'⟩ := entry'
    have hlt : key < key' := Nat.compare_eq_lt.mp hkeys
    obtain ⟨i, hi, rfl⟩ := List.mem_map.mp hn
    obtain ⟨i', hi', rfl⟩ := List.mem_map.mp hn'
    have hsmall := (mem_bits.mp hi).1
    -- the last place of a block is before the first of the next
    omega

theorem length_toList (s : ObjectSet) : s.toList.length = s.size := by
  rw [toList_eq_flatMap, size]
  induction s.blocks.toList with
  | nil => rfl
  | cons entry rest ih =>
    rw [List.flatMap_cons, List.length_append, ih, blockElements, List.length_map,
      List.foldr_cons]

theorem Holds.size_eq (h : s.Holds elements) : s.size = elements.card := by
  have hnodup : s.toList.Nodup := s.toList_ascending.imp Nat.ne_of_lt
  have hsame : s.toList.toFinset = elements := by
    ext n
    rw [List.mem_toFinset, mem_toList, h.contains_iff]
  rw [← length_toList, ← hsame, List.toFinset_card_of_nodup hnodup]

theorem any_shared (s other : ObjectSet) :
    (s.blocks.toList.any fun (key, b) => other.block key &&& b != 0) = true ↔
      ∃ n, s.contains n = true ∧ other.contains n = true := by
  simp only [List.any_eq_true, Prod.exists, bne_iff_ne]
  constructor
  · intro hshares
    obtain ⟨key, b, hb, hshared⟩ := hshares
    obtain ⟨i, hi, hbit⟩ := exists_bit hshared
    rw [BitVec.getLsbD_and, Bool.and_eq_true] at hbit
    refine ⟨key * 128 + i, ?_, ?_⟩
    · rw [contains_at (Std.TreeMap.mem_toList_iff_getElem?_eq_some.mp hb) hi]
      exact hbit.2
    · rw [other.contains_place hi]
      exact hbit.1
  · intro hshares
    obtain ⟨n, hs, hother⟩ := hshares
    obtain ⟨b, hb, hbit⟩ := contains_iff_block.mp hs
    refine ⟨blockKey n, b, hb, ne_zero_of_bit (i := n % 128) ?_⟩
    rw [BitVec.getLsbD_and, hbit, Bool.and_true]
    exact hother

theorem intersects_iff (s other : ObjectSet) :
    s.intersects other = true ↔ ∃ n, s.contains n = true ∧ other.contains n = true := by
  unfold intersects
  by_cases hsize : s.blocks.size ≤ other.blocks.size
  · rw [if_pos hsize]
    exact any_shared s other
  · rw [if_neg hsize]
    refine (any_shared other s).trans (exists_congr fun n => ?_)
    exact and_comm

/-! ### Comparing two sets -/

/-- A set without empty blocks is given by what its blocks read as. -/
theorem Reduced.getElem?_eq (h : s.Reduced) (key : Nat) :
    s.blocks[key]? = if s.block key = 0 then none else some (s.block key) := by
  cases hb : s.blocks[key]? with
  | none =>
    have hzero : s.block key = 0 := by
      rw [block, Std.TreeMap.getD_eq_getD_getElem?, hb, Option.getD_none]
    rw [if_pos hzero]
  | some b =>
    rw [block_of_getElem? hb, if_neg (h key b hb)]

theorem Reduced.mem_blocks (h : s.Reduced) (hother : other.Reduced) (hall : other.Within s)
    {key : Nat} {b : Block} (hb : other.blocks[key]? = some b) :
    ∃ mine, s.blocks[key]? = some mine ∧ mine &&& b = b := by
  have hbits : ∀ i < 128, b.getLsbD i = true → (s.block key).getLsbD i = true := by
    intro i hi hbit
    rw [← s.contains_place hi]
    apply hall
    rw [other.contains_place hi, block_of_getElem? hb]
    exact hbit
  obtain ⟨i, hi, hbit⟩ := exists_bit (hother key b hb)
  refine ⟨s.block key, ?_, ?_⟩
  · rw [h.getElem?_eq, if_neg (ne_zero_of_bit (hbits i hi hbit))]
  · apply BitVec.eq_of_getLsbD_eq
    intro j hj
    rw [BitVec.getLsbD_and]
    cases hj' : b.getLsbD j with
    | false => rw [Bool.and_false]
    | true => rw [hbits j hj hj', Bool.and_true]

theorem Reduced.containsAll_iff (h : s.Reduced) (hother : other.Reduced) :
    s.containsAll other = true ↔ other.Within s := by
  rw [containsAll, Bool.and_eq_true, decide_eq_true_iff, List.all_eq_true]
  constructor
  · intro hall n hn
    obtain ⟨b, hb, hbit⟩ := contains_iff_block.mp hn
    obtain ⟨mine, hmine, hsub⟩ := (Option.any_eq_true _ _).mp (hall.2 _ hb)
    have hand : mine &&& b = b := eq_of_beq hsub
    rw [← hand, BitVec.getLsbD_and, Bool.and_eq_true] at hbit
    rw [contains, block_of_getElem? hmine]
    exact hbit.1
  · intro hall
    constructor
    · -- each key of the second set is one of the first
      rw [← Std.TreeMap.length_keys, ← Std.TreeMap.length_keys]
      apply (Std.TreeMap.nodup_keys.subperm _).length_le
      intro key hkey
      obtain ⟨b, hb⟩ := Option.isSome_iff_exists.mp
        (Std.TreeMap.isSome_getElem?_iff_mem.mpr (Std.TreeMap.mem_keys.mp hkey))
      obtain ⟨mine, hmine, _⟩ := h.mem_blocks hother hall hb
      exact Std.TreeMap.mem_keys.mpr (Std.TreeMap.isSome_getElem?_iff_mem.mp (by simp [hmine]))
    · intro entry hentry
      obtain ⟨mine, hmine, hsub⟩ := h.mem_blocks hother hall
        (Std.TreeMap.mem_toList_iff_getElem?_eq_some.mp hentry)
      exact (Option.any_eq_true _ _).mpr ⟨mine, hmine, by simp [hsub]⟩

theorem Reduced.same_iff (h : s.Reduced) (hother : other.Reduced) :
    s.same other = true ↔ ∀ n, s.contains n = other.contains n := by
  rw [same, beq_iff_eq]
  constructor
  · intro heq n
    rw [Bool.eq_iff_iff, contains_iff_block, contains_iff_block, heq]
  · intro hsame
    have hblock : ∀ key, s.block key = other.block key := by
      intro key
      apply BitVec.eq_of_getLsbD_eq
      intro i hi
      rw [← s.contains_place hi, ← other.contains_place hi, hsame]
    apply Std.TreeMap.equiv_iff_toList_eq.mp
    apply Std.TreeMap.Equiv.of_forall_constGet?_eq
    intro key
    rw [h.getElem?_eq, hother.getElem?_eq, hblock]

/-- Of any two sets that operations make, the comparisons say what their
elements say. -/
theorem comparisons_exact (ops ops' : List Operation) (r r' : Nat) :
    let s := registers ops r
    let other := registers ops' r'
    (s.containsAll other = true ↔ ∀ n, other.contains n = true → s.contains n = true) ∧
    (s.intersects other = true ↔ ∃ n, s.contains n = true ∧ other.contains n = true) ∧
    s.intersects other = other.intersects s ∧
    (s.same other = true ↔ ∀ n, s.contains n = other.contains n) := by
  intro s other
  have h := (registers_hold ops r).reduced
  have hother := (registers_hold ops' r').reduced
  refine ⟨h.containsAll_iff hother, intersects_iff s other, ?_, h.same_iff hother⟩
  rw [Bool.eq_iff_iff, intersects_iff, intersects_iff]
  apply exists_congr
  intro n
  exact and_comm

/-! ### Elements in a list -/

theorem Reduced.first?_eq (h : s.Reduced) : s.first? = s.toList.head? := by
  rw [toList, drain_eq_upcoming, first?, Std.TreeMap.minKey?_eq_head?_keys, cursor]
  cases hkeys : s.blocks.keys with
  | nil => rfl
  | cons key rest =>
    obtain ⟨b, hb⟩ := Option.isSome_iff_exists.mp (Std.TreeMap.isSome_getElem?_iff_mem.mpr
      (Std.TreeMap.mem_keys.mp (hkeys ▸ List.mem_cons_self)))
    have hne : s.block key ≠ 0 := block_of_getElem? hb ▸ h key b hb
    simp [upcoming, blockElements, bits_eq_cons hne]

theorem first?_eq_none_iff : s.first? = none ↔ s.isEmpty = true := by
  rw [first?, Option.map_eq_none_iff, Std.TreeMap.minKey?_eq_none_iff, isEmpty]

theorem Holds.toList_eq (h : s.Holds elements) : s.toList = elements.sort (· ≤ ·) := by
  apply s.toList_ascending.eq_of_mem_iff elements.sortedLT_sort.pairwise
  intro n
  rw [mem_toList, h.contains_iff, Finset.mem_sort]

theorem ofNumbers?_map (ns : List Nat) (h : ∀ n ∈ ns, n < idCount) :
    ofNumbers? (ns.map Int.ofNat) = some (ofList ns) := by
  have hids : ∀ n ∈ ns.map Int.ofNat, 0 ≤ n ∧ n < 4294967296 := by
    intro n hn
    obtain ⟨m, hm, rfl⟩ := List.mem_map.mp hn
    have hlt : m < 4294967296 := h m hm
    constructor <;> simp only [Int.ofNat_eq_natCast] <;> omega
  have hback : (ns.map Int.ofNat).map Int.toNat = ns := by
    rw [List.map_map]
    exact List.map_id ns
  rw [ofNumbers?_eq, if_pos hids, hback]

namespace Operation

/-- The numbers that an operation is given as ids. -/
def ids : Operation → List Nat
  | singleton _ n | insert _ n | remove _ n => [n]
  | ofList _ ns | insertAll _ ns | extend _ ns => ns
  | new _ | read _ _ | clear _ | clone _ _ | union _ _ => []

theorem lt_of_mem_meaning {sets : Nat → Finset Nat} {op : Operation}
    (hsets : ∀ r, ∀ n ∈ sets r, n < idCount) (hop : ∀ n ∈ op.ids, n < idCount)
    (hn : n ∈ op.meaning sets) : n < idCount := by
  cases op with
  | new r | clear r => simp [meaning] at hn
  | singleton r m | ofList r ns => exact hop n (by simpa [meaning, ids] using hn)
  | read r ns =>
    rw [meaning] at hn
    split at hn
    · rename_i hids
      obtain ⟨m, hm, rfl⟩ := List.mem_map.mp (List.mem_toFinset.mp hn)
      have hlt := hids m hm
      unfold idCount
      omega
    · exact hsets r n hn
  | insert r m =>
    rcases Finset.mem_insert.mp hn with rfl | hn
    · exact hop n (by simp [ids])
    · exact hsets r n hn
  | insertAll r ns | extend r ns =>
    rcases Finset.mem_union.mp hn with hn | hn
    · exact hsets r n hn
    · exact hop n (List.mem_toFinset.mp hn)
  | remove r m => exact hsets r n (Finset.mem_of_mem_erase hn)
  | clone r source => exact hsets source n hn
  | union r source =>
    rcases Finset.mem_union.mp hn with hn | hn
    · exact hsets r n hn
    · exact hsets source n hn

end Operation

theorem lt_of_mem_meanings {ops : List Operation} (h : ∀ op ∈ ops, ∀ n ∈ op.ids, n < idCount)
    (r : Nat) : ∀ n ∈ meanings ops r, n < idCount := by
  induction ops using List.reverseRecOn generalizing r with
  | nil => simp [meanings]
  | append_singleton ops op ih =>
    have hbefore := ih fun op' hop' => h op' (List.mem_append_left _ hop')
    intro n hn
    rw [meanings_append] at hn
    by_cases hr : r = op.target
    · subst hr
      rw [Function.update_self] at hn
      exact Operation.lt_of_mem_meaning hbefore (h op (by simp)) hn
    · rw [Function.update_of_ne hr] at hn
      exact hbefore r n hn

/-- The elements of a set that operations make are listed once each and in
ascending order. Its size and its least element are those of the list, and the
list is read as the same set again. Any list of ids, read as a set, is listed
in ascending order and without repetitions. -/
theorem elements_listed (ops : List Operation)
    (hids : ∀ op ∈ ops, ∀ n ∈ op.ids, n < idCount) (r : Nat) :
    let s := registers ops r
    s.toList.Pairwise (· < ·) ∧
    (∀ n, n ∈ s.toList ↔ s.contains n = true) ∧
    s.size = s.toList.length ∧
    s.first? = s.toList.head? ∧
    (s.first? = none ↔ s.isEmpty = true) ∧
    (∃ s', ofNumbers? (s.toList.map Int.ofNat) = some s' ∧ s'.same s = true) ∧
    ∀ ns : List Nat, (∀ n ∈ ns, n < idCount) →
      ∃ s', ofNumbers? (ns.map Int.ofNat) = some s' ∧ s'.toList = ns.toFinset.sort (· ≤ ·) := by
  intro s
  have h := registers_hold ops r
  have hsmall : ∀ n ∈ s.toList, n < idCount := fun n hn =>
    lt_of_mem_meanings hids r n ((h.contains_iff n).mp (mem_toList.mp hn))
  refine ⟨s.toList_ascending, fun n => mem_toList, s.length_toList.symm, h.reduced.first?_eq,
    first?_eq_none_iff, ⟨_, ofNumbers?_map _ hsmall, ?_⟩, ?_⟩
  · rw [(holds_ofList _).reduced.same_iff h.reduced]
    intro n
    rw [Bool.eq_iff_iff, (holds_ofList _).contains_iff, List.mem_toFinset, mem_toList]
  · intro ns hns
    exact ⟨_, ofNumbers?_map ns hns, (holds_ofList ns).toList_eq⟩

theorem elements_listed_spread :
    let s := registers [.insertAll 0 [4294967295, 7, 300], .remove 0 300, .insert 0 128] 0
    s.toList = [7, 128, 4294967295] ∧ s.size = 3 ∧ s.first? = some 7 ∧
      ∃ s', ofNumbers? [7, 128, 4294967295] = some s' ∧ s'.same s = true := by
  intro s
  have hlist : s.toList = [7, 128, 4294967295] := by decide +kernel
  obtain ⟨_, _, hsize, hfirst, _, ⟨s', hread, hsame⟩, _⟩ := elements_listed
    [.insertAll 0 [4294967295, 7, 300], .remove 0 300, .insert 0 128] (by decide) 0
  refine ⟨hlist, hsize.trans (congrArg List.length hlist), hfirst.trans (congrArg List.head? hlist),
    s', ?_, hsame⟩
  exact (congrArg (fun l => ofNumbers? (l.map Int.ofNat)) hlist).symm.trans hread

end ObjectSet

end AbstractMemory
