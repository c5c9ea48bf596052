/-! Walks through a finite table of ids that never enter the same id twice. -/

namespace AbstractMemory

/-- How many of the ids below `n` a walk has not entered yet. -/
def unseen (n : Nat) (seen : List Nat) : Nat :=
  ((List.range n).filter (fun i => decide (i ∉ seen))).length

/-- Entering a new id lowers the count, so such a walk ends. -/
theorem unseen_cons_lt {n i : Nat} {seen : List Nat} (hi : i < n) (hs : i ∉ seen) :
    unseen n (i :: seen) < unseen n seen := by
  have hsplit : (List.range n).filter (fun j => decide (j ∉ i :: seen)) =
      ((List.range n).filter (fun j => decide (j ∉ seen))).filter (fun j => j != i) := by
    rw [List.filter_filter]
    apply List.filter_congr
    intro j _
    by_cases hji : j = i <;> simp [hji]
  unfold unseen
  rw [hsplit]
  exact List.length_filter_lt_length_iff_exists.mpr
    ⟨i, List.mem_filter.mpr ⟨List.mem_range.mpr hi, by simpa using hs⟩, by simp⟩

end AbstractMemory
