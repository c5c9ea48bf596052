/-! Depth-first walks over ids, of which each is visited once. -/

namespace AbstractMemory

/-- The ids below `n` that are not in a list, each with its weight. -/
def unseenWeight (weight : Nat → Nat) (n : Nat) (seen : List Nat) : Nat :=
  ((List.range n).filter (fun i => decide (i ∉ seen))).foldr (fun i total => weight i + total) 0

theorem filter_unseen_cons_of_not_mem {i : Nat} {l : List Nat} (seen : List Nat) (h : i ∉ l) :
    l.filter (fun j => decide (j ∉ i :: seen)) = l.filter (fun j => decide (j ∉ seen)) := by
  apply List.filter_congr
  intro j hj
  have hji : j ≠ i := fun he => h (he ▸ hj)
  simp [hji]

theorem weight_add_filter_unseen_cons (weight : Nat → Nat) {i : Nat} {seen l : List Nat}
    (hl : l.Nodup) (hi : i ∈ l) (hs : i ∉ seen) :
    weight i + (l.filter (fun j => decide (j ∉ i :: seen))).foldr
        (fun j total => weight j + total) 0 =
      (l.filter (fun j => decide (j ∉ seen))).foldr (fun j total => weight j + total) 0 := by
  induction l with
  | nil => simp at hi
  | cons a l ih =>
    obtain ⟨ha, hl⟩ := List.nodup_cons.mp hl
    rcases List.mem_cons.mp hi with rfl | hi
    · rw [List.filter_cons, List.filter_cons, filter_unseen_cons_of_not_mem seen ha]
      simp [hs]
    · have hai : a ≠ i := fun he => ha (he ▸ hi)
      have hh := ih hl hi
      by_cases has : a ∈ seen
      · simpa [List.filter_cons, has] using hh
      · rw [List.filter_cons_of_pos (by simp [hai, has]), List.filter_cons_of_pos (by simp [has]),
          List.foldr_cons, List.foldr_cons]
        omega

/-- A new id takes its weight away. -/
theorem weight_add_unseenWeight_cons (weight : Nat → Nat) {n i : Nat} {seen : List Nat}
    (hi : i < n) (hs : i ∉ seen) :
    weight i + unseenWeight weight n (i :: seen) = unseenWeight weight n seen :=
  weight_add_filter_unseen_cons weight List.nodup_range (List.mem_range.mpr hi) hs

theorem unseenWeight_cons_of_le (weight : Nat → Nat) {n i : Nat} (seen : List Nat) (hi : n ≤ i) :
    unseenWeight weight n (i :: seen) = unseenWeight weight n seen := by
  unfold unseenWeight
  rw [filter_unseen_cons_of_not_mem seen]
  simpa using hi

/-- Visits the ids of a work list and, depth first, those that follow them. The
answer has all visited ids, the latest first. Only ids below `n` have others
that follow. -/
def walk (n : Nat) (next : Nat → List Nat) (seen work : List Nat) : List Nat :=
  match work with
  | [] => seen
  | i :: rest =>
    if _hs : i ∈ seen then walk n next seen rest
    else if _hi : i < n then walk n next (i :: seen) (next i ++ rest)
    else walk n next (i :: seen) rest
termination_by unseenWeight (fun i => (next i).length) n seen + work.length
decreasing_by
  · simp
  · have hw := weight_add_unseenWeight_cons (fun i => (next i).length) _hi _hs
    simp only [List.length_append, List.length_cons]
    omega
  · rw [unseenWeight_cons_of_le _ seen (Nat.le_of_not_lt _hi)]
    simp

/-- All ids that a walk from a list visits, in the order of the visits. -/
def visited (n : Nat) (next : Nat → List Nat) (start : List Nat) : List Nat :=
  (walk n next [] start).reverse

end AbstractMemory
