import AbstractMemory.Proofs.ByValue
import AbstractMemory.Proofs.FieldTable
import Mathlib

/-! Types without empty parts. All they hold by value takes up room, and the
size of an array is a multiple of the size of its innermost elements. -/

namespace AbstractMemory

theorem StructLayout.size_le_finish (start : Nat) {members : List Extent} {e : Extent}
    (h : e ∈ members) : start + e.size ≤ (placeFrom start members).2 := by
  obtain ⟨i, hi⟩ := List.mem_iff_getElem?.mp h
  have hlen : i < (placeFrom start members).1.length := by
    rw [length_placeFrom]
    exact (List.getElem?_eq_some_iff.mp hi).1
  have ho := List.getElem?_eq_getElem hlen
  have hle := le_of_mem_placeFrom (List.mem_of_getElem? ho)
  have hend := (placeFrom_apart ho hi).1
  omega

theorem le_foldl_max {l : List Nat} {start n : Nat} (h : n ≤ start ∨ n ∈ l) :
    n ≤ l.foldl max start := by
  induction l generalizing start with
  | nil => simpa using h
  | cons a rest ih =>
    refine ih ?_
    rcases h with h | h
    · exact .inl (h.trans (Nat.le_max_left _ _))
    · rcases List.mem_cons.mp h with rfl | h
      · exact .inl (Nat.le_max_right _ _)
      · exact .inr h

theorem StructLayout.size_le_ofMembers {s : StructType} {members : List Extent} {e : Extent}
    (h : e ∈ members) : e.size ≤ (ofMembers s members).size := by
  have hplain : ∀ members : List Extent, ∀ e ∈ members,
      e.size ≤ (if s.isUnion then overlapping members else sequential members).size := by
    intro members e he
    split
    · exact (le_foldl_max (.inr (List.mem_map_of_mem he))).trans (le_roundUp _ _)
    · have hfin := size_le_finish 0 he
      have hround := le_roundUp (placeFrom 0 members).2 (alignOf members)
      simp only [sequential]
      omega
  by_cases hpk : s.packed = true
  · have hh : e.size ≤ _ := hplain _ (unaligned e) (List.mem_map_of_mem h)
    simpa [ofMembers, hpk] using hh
  · simpa [ofMembers, hpk] using hplain _ e h

/-- The extent of a type, or none at all for one that has no size. -/
def Program.extentOf (p : Program) (t : Nat) : Extent :=
  match p.dataLayout.extent p.types t with
  | .ok (some e) => e
  | _ => ⟨0, 1⟩

/-- The size that the members of a struct and the bytes between them add up to. -/
def Program.exactSize (p : Program) (s : StructType) : Nat :=
  (StructLayout.ofMembers s (s.members.map p.extentOf)).size

/-- A type is not empty by itself, and its size is exact: an array has elements, but
not so many that its size is capped, and a struct has members that fit. -/
def Program.isFilled (p : Program) (t : Nat) : Bool :=
  match p.types.get? t with
  | some (.array element length) =>
    decide (1 ≤ length ∧ p.byteCount element * length ≤ maxByteCount)
  | some (.struct s) => !s.members.isEmpty && decide (p.exactSize s ≤ maxByteCount)
  | _ => true

/-- Nothing that a type holds by value is empty. -/
def Program.Solid (p : Program) (t : Nat) : Prop :=
  ∀ u, p.types.ByValue t u → p.isFilled u = true

theorem Program.Solid.inside {p : Program} {t u : Nat} (h : p.Solid t)
    (hu : p.types.ByValue t u) : p.Solid u :=
  fun v hv => h v (hu.trans hv)

theorem Program.Solid.array {p : Program} {t element length : Nat} (h : p.Solid t)
    (ht : p.types.get? t = some (.array element length)) :
    1 ≤ length ∧ p.byteCount element * length ≤ maxByteCount := by
  simpa [Program.isFilled, ht] using h t .refl

theorem Program.Solid.struct {p : Program} {t : Nat} {s : StructType} (h : p.Solid t)
    (hs : p.types.struct? t = some s) : s.members ≠ [] := by
  have hfilled := h t .refl
  simp only [Program.isFilled, TypeTable.get?_of_struct? hs, Bool.and_eq_true,
    Bool.not_eq_true', List.isEmpty_eq_false_iff] at hfilled
  exact hfilled.1

theorem Program.Solid.exactSize_le {p : Program} {t : Nat} {s : StructType} (h : p.Solid t)
    (hs : p.types.struct? t = some s) : p.exactSize s ≤ maxByteCount := by
  have hfilled := h t .refl
  simp only [Program.isFilled, TypeTable.get?_of_struct? hs, Bool.and_eq_true,
    decide_eq_true_eq] at hfilled
  exact hfilled.2

theorem Program.extentOf_eq {p : Program} {path : List Nat} {t : Nat} {e : Extent}
    (h : p.dataLayout.extentFrom p.types path t = .ok (some e)) : p.extentOf t = e := by
  have hext : p.dataLayout.extent p.types t = .ok (some e) :=
    DataLayout.extentFrom_of_subset (List.nil_subset _) h
  rw [extentOf, hext]

theorem Program.map_extentOf {p : Program} {path members : List Nat} {extents : List Extent}
    (h : List.Forall₂ (fun m e => p.dataLayout.extentFrom p.types path m = .ok (some e))
      members extents) : members.map p.extentOf = extents := by
  induction h with
  | nil => rfl
  | cons hm _ ih => rw [List.map_cons, ih, extentOf_eq hm]

/-- The members of a struct that fits are placed exactly. -/
theorem Program.place_eq {p : Program} {path : List Nat} {s : StructType}
    {extents : List Extent} {placed : StructLayout} (hfits : p.exactSize s ≤ maxByteCount)
    (hall : List.Forall₂ (fun m e => p.dataLayout.extentFrom p.types path m = .ok (some e))
      s.members extents)
    (hplace : StructLayout.place p.dataLayout.overflow s extents = .ok placed) :
    placed = StructLayout.ofMembers s extents := by
  rw [exactSize, map_extentOf hall] at hfits
  rw [StructLayout.place_of_le hfits] at hplace
  exact (Except.ok.inj hplace).symm

theorem Program.solid_of_isFilled {p : Program} (h : ∀ u < p.types.size, p.isFilled u = true)
    (t : Nat) : p.Solid t := by
  intro u _
  by_cases hu : u < p.types.size
  · exact h u hu
  · have hnone : p.types.get? u = none := Array.getElem?_eq_none (Nat.le_of_not_lt hu)
    simp [Program.isFilled, hnone]

theorem Program.byteCount_of_extent {p : Program} {path : List Nat} {t : Nat} {e : Extent}
    (h : p.dataLayout.extentFrom p.types path t = .ok (some e)) : p.byteCount t = e.size := by
  have hsize : p.dataLayout.size? p.types t = .ok (some e.size) :=
    DataLayout.size?_eq_ok.mpr ⟨e.align, DataLayout.extentFrom_of_subset (List.nil_subset _) h⟩
  simp [Program.byteCount, hsize]

theorem DataLayout.scalar_size_pos {layout : DataLayout} {types : TypeTable} {path : List Nat}
    {t : Nat} {e : Extent} (hp : 1 ≤ layout.pointerSize)
    (harray : ∀ element length, types.get? t ≠ some (.array element length))
    (hstruct : ∀ s, types.get? t ≠ some (.struct s))
    (h : layout.extentFrom types path t = .ok (some e)) : 0 < e.size := by
  rw [extentFrom] at h
  split at h
  · cases h
  · cases h
  · cases h
  · rename_i bits _
    obtain rfl : layout.integerExtent bits = e := by simpa using h
    have hle := le_roundUp (max 1 ((bits + 7) / 8)) (min (ceilPowerOfTwo (max 1 ((bits + 7) / 8)))
      layout.maxIntAlign)
    simp only [integerExtent]
    omega
  · rename_i bits _
    obtain rfl : floatExtent bits = e := by simpa using h
    unfold floatExtent
    split <;> simp
  · obtain rfl : Extent.mk layout.pointerSize layout.pointerAlign = e := by simpa using h
    exact hp
  · rename_i element length ht
    exact (harray element length ht).elim
  · rename_i s ht
    exact (hstruct s ht).elim

theorem cappedMul_pos {a b : Nat} (ha : 0 < a) (hb : 0 < b) : 0 < cappedMul a b := by
  have hmul := Nat.mul_pos ha hb
  simp only [cappedMul, maxByteCount]
  omega

theorem Program.Solid.size_pos {p : Program} {path : List Nat} {t : Nat} {e : Extent}
    (hsolid : p.Solid t) (hp : 1 ≤ p.dataLayout.pointerSize)
    (h : p.dataLayout.extentFrom p.types path t = .ok (some e)) : 0 < e.size := by
  induction h using DataLayout.extentFrom_ind with
  | scalar path t e harray hstruct h => exact DataLayout.scalar_size_pos hp harray hstruct h
  | array path t element length e ht _ he ih =>
    exact cappedMul_pos (ih (hsolid.inside (.single (.element ht)))) (hsolid.array ht).1
  | struct path t s members extents placed ht _ hb hall hplace ih =>
    have hs := TypeTable.struct?_of_get? ht
    obtain rfl : s.members = members := by simp [StructType.members, hb]
    obtain rfl := p.place_eq (hsolid.exactSize_le hs) hall hplace
    obtain ⟨m, rest, hm⟩ := List.exists_cons_of_ne_nil (hsolid.struct hs)
    rw [hm] at ih
    cases ih with
    | cons hfirst _ =>
      obtain ⟨_, hpos⟩ := hfirst
      have hmem : m ∈ s.members := by simp [hm]
      exact (hpos (hsolid.inside (.single (.member hs hmem)))).trans_le
        (StructLayout.size_le_ofMembers (List.mem_cons_self ..))

theorem TypeTable.stripArraysFrom_self {types : TypeTable} {t : Nat} (path : List Nat)
    (h : ∀ element length, types.get? t ≠ some (.array element length)) :
    types.stripArraysFrom path t = t := by
  rw [stripArraysFrom]
  split
  · rename_i element length ht
    exact (h element length ht).elim
  · rfl

theorem TypeTable.stripArraysFrom_array {types : TypeTable} {path : List Nat}
    {t element length : Nat} (ht : types.get? t = some (.array element length)) (hp : t ∉ path) :
    types.stripArraysFrom path t = types.stripArraysFrom (t :: path) element := by
  rw [stripArraysFrom]
  split
  · rename_i hget
    rw [ht] at hget
    cases hget
    rw [dif_neg hp]
  · rename_i hno
    exact (hno element length ht).elim

/-- Where arrays have a size, no path keeps them from being taken off. -/
theorem DataLayout.stripArraysFrom_eq {layout : DataLayout} {types : TypeTable} {path : List Nat}
    {t : Nat} {e : Extent} (h : layout.extentFrom types path t = .ok (some e))
    {path₁ path₂ : List Nat} (h₁ : path₁ ⊆ path) (h₂ : path₂ ⊆ path) :
    types.stripArraysFrom path₁ t = types.stripArraysFrom path₂ t := by
  induction h using extentFrom_ind generalizing path₁ path₂ with
  | scalar path t e harray =>
    rw [TypeTable.stripArraysFrom_self _ harray, TypeTable.stripArraysFrom_self _ harray]
  | array path t element length e ht hp _ ih =>
    rw [TypeTable.stripArraysFrom_array ht fun hm => hp (h₁ hm),
      TypeTable.stripArraysFrom_array ht fun hm => hp (h₂ hm)]
    exact ih (List.cons_subset_cons t h₁) (List.cons_subset_cons t h₂)
  | struct path t s members extents placed ht =>
    have harray : ∀ element length, types.get? t ≠ some (.array element length) := by simp [ht]
    rw [TypeTable.stripArraysFrom_self _ harray, TypeTable.stripArraysFrom_self _ harray]

theorem DataLayout.stripArrays_array {layout : DataLayout} {types : TypeTable} {path : List Nat}
    {t element length : Nat} {e : Extent} (ht : types.get? t = some (.array element length))
    (h : layout.extentFrom types path t = .ok (some e)) :
    types.stripArrays t = types.stripArrays element := by
  obtain ⟨_, e', he', _⟩ := (extentFrom_array ht).mp h
  rw [TypeTable.stripArrays, TypeTable.stripArraysFrom_array ht List.not_mem_nil]
  exact stripArraysFrom_eq he' (by simp) (List.nil_subset _)

theorem DataLayout.extentFrom_stripArrays {layout : DataLayout} {types : TypeTable}
    {path : List Nat} {t : Nat} {e : Extent} (h : layout.extentFrom types path t = .ok (some e)) :
    ∃ e', layout.extentFrom types path (types.stripArrays t) = .ok (some e') := by
  induction h using extentFrom_ind with
  | scalar path t e harray _ h =>
    rw [TypeTable.stripArrays, TypeTable.stripArraysFrom_self _ harray]
    exact ⟨e, h⟩
  | array path t element length e ht hp he ih =>
    obtain ⟨e', he'⟩ := ih
    rw [stripArrays_array ht ((extentFrom_array ht).mpr ⟨hp, e, he, rfl⟩)]
    exact ⟨e', extentFrom_of_subset (by simp) he'⟩
  | struct path t s members extents placed ht hp hb hall hplace =>
    rw [TypeTable.stripArrays, TypeTable.stripArraysFrom_self _ (by simp [ht])]
    exact ⟨_, (extentFrom_struct ht).mpr ⟨hp, members, extents, placed, hb, hall, hplace, rfl⟩⟩

theorem TypeTable.stripArrays_self {types : TypeTable} {t : Nat} {s : StructType}
    (hs : types.struct? t = some s) : types.stripArrays t = t :=
  stripArraysFrom_self [] (by simp [get?_of_struct? hs])

theorem Program.Solid.byteCount_array {p : Program} {path : List Nat} {t element length : Nat}
    {e : Extent} (hsolid : p.Solid t) (ht : p.types.get? t = some (.array element length))
    (h : p.dataLayout.extentFrom p.types path t = .ok (some e)) :
    p.byteCount t = p.byteCount element * length := by
  obtain ⟨_, e', he', rfl⟩ := (DataLayout.extentFrom_array ht).mp h
  have hcap := (hsolid.array ht).2
  rw [p.byteCount_of_extent he'] at hcap ⊢
  rw [p.byteCount_of_extent h]
  exact Nat.min_eq_left hcap

theorem Program.Solid.exists_byteCount_eq_mul {p : Program} {path : List Nat} {t : Nat}
    {e : Extent} (hsolid : p.Solid t) (h : p.dataLayout.extentFrom p.types path t = .ok (some e)) :
    ∃ count, p.byteCount t = count * p.byteCount (p.types.stripArrays t) := by
  induction h using DataLayout.extentFrom_ind with
  | scalar path t e harray =>
    refine ⟨1, ?_⟩
    rw [TypeTable.stripArrays, TypeTable.stripArraysFrom_self _ harray, Nat.one_mul]
  | array path t element length e ht hp he ih =>
    have h := (DataLayout.extentFrom_array ht).mpr ⟨hp, e, he, rfl⟩
    obtain ⟨count, hcount⟩ := ih (hsolid.inside (.single (.element ht)))
    refine ⟨count * length, ?_⟩
    rw [hsolid.byteCount_array ht h, hcount, DataLayout.stripArrays_array ht h]
    ring
  | struct path t s members extents placed ht =>
    refine ⟨1, ?_⟩
    rw [TypeTable.stripArrays, TypeTable.stripArraysFrom_self _ (by simp [ht]), Nat.one_mul]

end AbstractMemory
