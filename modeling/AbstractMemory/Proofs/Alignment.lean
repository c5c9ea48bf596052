import AbstractMemory.Proofs.IndexPath
import Mathlib

/-! Alignments. The size of a type is a multiple of its alignment, and the members
of a struct are at the first places after each other that their alignments allow. -/

namespace AbstractMemory

theorem isLeast_roundUp {align : Nat} (h : 1 ≤ align) (value : Nat) :
    IsLeast {n | align ∣ n ∧ value ≤ n} (roundUp value align) := by
  unfold roundUp
  split
  · obtain rfl : align = 1 := by omega
    exact ⟨⟨Nat.one_dvd _, Nat.le_refl _⟩, fun n hn => hn.2⟩
  · rename_i hlt
    have hround := le_roundUp value align
    rw [roundUp, if_neg hlt] at hround
    refine ⟨⟨Nat.dvd_mul_left _ _, hround⟩, ?_⟩
    rintro n ⟨⟨q, rfl⟩, hn⟩
    rw [Nat.mul_comm]
    refine Nat.mul_le_mul_left align (Nat.le_of_lt_succ ?_)
    rw [Nat.div_lt_iff_lt_mul (by omega), Nat.succ_mul, Nat.mul_comm q]
    omega

theorem dvd_roundUp {align : Nat} (h : 1 ≤ align) (value : Nat) : align ∣ roundUp value align :=
  (isLeast_roundUp h value).1.1

theorem one_le_ceilPowerOfTwo (n : Nat) : 1 ≤ ceilPowerOfTwo n := by
  unfold ceilPowerOfTwo
  split
  · exact Nat.le_refl 1
  · exact Nat.one_le_two_pow

namespace StructLayout

variable {s : StructType} {members : List Extent} {e : Extent}

theorem one_le_alignOf (members : List Extent) : 1 ≤ alignOf members :=
  le_foldl_max (.inl (Nat.le_refl 1))

theorem align_le_alignOf (h : e ∈ members) : e.align ≤ alignOf members :=
  le_foldl_max (.inr (List.mem_map_of_mem h))

theorem align_le_of_place {overflow : Overflow} {placed : StructLayout}
    (h : place overflow s members = .ok placed) (hs : s.packed = false) (he : e ∈ members) :
    e.align ≤ placed.align := by
  have hle := align_le_alignOf (List.mem_map_of_mem (f := effective s) he)
  rwa [← align_of_place h, align_effective, hs, if_neg (by simp)] at hle

/-- Whatever the members are, the size of a struct is a multiple of its alignment. -/
theorem ofMembers_align_dvd_size (s : StructType) (members : List Extent) :
    (ofMembers s members).align ∣ (ofMembers s members).size := by
  unfold ofMembers
  dsimp only
  generalize (if s.packed then members.map unaligned else members) = members
  split
  · exact dvd_roundUp (one_le_alignOf members) _
  · exact dvd_roundUp (one_le_alignOf members) _

/-- Where the member before the `i`-th one ends. -/
def endBefore (start : Nat) (offsets : List Nat) (members : List Extent) : Nat → Nat
  | 0 => start
  | i + 1 => offsets[i]?.getD 0 + members[i]?.elim 0 Extent.size

theorem endBefore_cons (start o : Nat) (offsets : List Nat) (m : Extent) (members : List Extent)
    (i : Nat) : endBefore start (o :: offsets) (m :: members) (i + 1) =
      endBefore (o + m.size) offsets members i := by
  cases i <;> simp [endBefore]

theorem endBefore_unaligned (start : Nat) (offsets : List Nat) (members : List Extent) (i : Nat) :
    endBefore start offsets (members.map unaligned) i = endBefore start offsets members i := by
  cases i with
  | zero => rfl
  | succ i => cases h : members[i]? <;> simp [endBefore, h, unaligned]

theorem placeFrom_least {start i o : Nat} (hpos : ∀ e ∈ members, 1 ≤ e.align)
    (ho : (placeFrom start members).1[i]? = some o) (he : members[i]? = some e) :
    IsLeast {n | e.align ∣ n ∧ endBefore start (placeFrom start members).1 members i ≤ n} o := by
  induction members generalizing start i with
  | nil => simp at he
  | cons m rest ih =>
    simp only [placeFrom] at ho ⊢
    cases i with
    | zero =>
      simp only [List.getElem?_cons_zero, Option.some.injEq] at ho he
      subst ho he
      exact isLeast_roundUp (hpos m (by simp)) start
    | succ i =>
      rw [List.getElem?_cons_succ] at ho he
      rw [endBefore_cons]
      exact ih (fun e he => hpos e (by simp [he])) ho he

/-- Members one after another. Each is at the least multiple of its alignment that the
end of the one before allows, and all are inside. -/
structure InOrder (align : Extent → Nat) (members : List Extent) (placed : StructLayout) :
    Prop where
  length : placed.offsets.length = members.length
  least : ∀ (i o : Nat) (e : Extent), placed.offsets[i]? = some o → members[i]? = some e →
    IsLeast {n | align e ∣ n ∧ endBefore 0 placed.offsets members i ≤ n} o
  apart : ∀ (i o : Nat) (e : Extent) (o' : Nat), placed.offsets[i]? = some o →
    members[i]? = some e →
    placed.offsets[i + 1]? = some o' → o + e.size ≤ o'
  inside : ∀ (i o : Nat) (e : Extent), placed.offsets[i]? = some o → members[i]? = some e →
    o + e.size ≤ placed.size

theorem ofMembers_inOrder (hu : s.isUnion = false) (hpos : ∀ e ∈ members, 1 ≤ e.align) :
    (ofMembers s members).InOrder (fun e => if s.packed then 1 else e.align) members where
  length := length_ofMembers s members
  least := by
    intro i o e ho he
    cases hpacked : s.packed with
    | false =>
      simp only [ofMembers, hpacked, hu, Bool.false_eq_true, if_false, sequential] at ho ⊢
      exact placeFrom_least hpos ho he
    | true =>
      simp only [ofMembers, hpacked, hu, if_true, Bool.false_eq_true, if_false, sequential] at ho ⊢
      have he' : (members.map unaligned)[i]? = some (unaligned e) := by simp [he]
      have hleast := placeFrom_least (by simp [unaligned]) ho he'
      rwa [endBefore_unaligned] at hleast
  apart := fun i o e o' ho he ho' => (getElem?_ofMembers ho he).2 hu (i + 1) o' (by omega) ho'
  inside := fun i o e ho he => (getElem?_ofMembers ho he).1

/-- Members that share their place, which has room for each of them. -/
structure Overlapped (members : List Extent) (placed : StructLayout) : Prop where
  length : placed.offsets.length = members.length
  zero : ∀ o ∈ placed.offsets, o = 0
  holds : ∀ e ∈ members, e.size ≤ placed.size

theorem ofMembers_overlapped (hu : s.isUnion = true) :
    (ofMembers s members).Overlapped members where
  length := length_ofMembers s members
  zero := by
    intro o ho
    simp only [ofMembers, hu, if_true, overlapping, List.mem_map] at ho
    obtain ⟨_, _, rfl⟩ := ho
    rfl
  holds := fun e he => size_le_ofMembers he

end StructLayout

/-! ### Sizes and alignments -/

namespace DataLayout

/-- No alignment is zero, and pointers are no exception to what holds of other types. -/
structure Regular (layout : DataLayout) : Prop where
  intAlign : 1 ≤ layout.maxIntAlign
  pointerAlign : 1 ≤ layout.pointerAlign
  pointerSize : layout.pointerAlign ∣ layout.pointerSize

instance (layout : DataLayout) : Decidable layout.Regular :=
  decidable_of_iff (1 ≤ layout.maxIntAlign ∧ 1 ≤ layout.pointerAlign ∧
    layout.pointerAlign ∣ layout.pointerSize)
    ⟨fun h => ⟨h.1, h.2.1, h.2.2⟩, fun h => ⟨h.intAlign, h.pointerAlign, h.pointerSize⟩⟩

variable {layout : DataLayout} {types : TypeTable} {path : List Nat} {t u : Nat} {e e' : Extent}

theorem Regular.scalar (hr : layout.Regular)
    (harray : ∀ element length, types.get? t ≠ some (.array element length))
    (hstruct : ∀ s, types.get? t ≠ some (.struct s))
    (h : layout.extentFrom types path t = .ok (some e)) : 1 ≤ e.align ∧ e.align ∣ e.size := by
  rw [extentFrom] at h
  split at h
  · cases h
  · cases h
  · cases h
  · rename_i bits _
    obtain rfl : layout.integerExtent bits = e := by simpa using h
    have hpos : 1 ≤ (layout.integerExtent bits).align :=
      Nat.le_min.mpr ⟨one_le_ceilPowerOfTwo _, hr.intAlign⟩
    exact ⟨hpos, dvd_roundUp hpos _⟩
  · rename_i bits _
    obtain rfl : floatExtent bits = e := by simpa using h
    unfold floatExtent
    split <;> simp
  · obtain rfl : Extent.mk layout.pointerSize layout.pointerAlign = e := by simpa using h
    exact ⟨hr.pointerAlign, hr.pointerSize⟩
  · rename_i element length ht
    exact (harray element length ht).elim
  · rename_i s ht
    exact (hstruct s ht).elim

theorem Regular.align_pos (hr : layout.Regular)
    (h : layout.extentFrom types path t = .ok (some e)) : 1 ≤ e.align := by
  induction h using extentFrom_ind with
  | scalar path t e harray hstruct h => exact (hr.scalar harray hstruct h).1
  | array path t element length e ht hp he ih => exact ih
  | struct path t s members extents placed ht hp hb hall hplace =>
    dsimp only
    rw [StructLayout.align_of_place hplace]
    exact StructLayout.one_le_alignOf _

/-- The sizes of what a type holds by value are exact. No array has so many elements that
its size is capped, and the members of a struct fit into the largest size. -/
structure Exact (layout : DataLayout) (types : TypeTable) (t : Nat) : Prop where
  array : ∀ u element length e, types.ByValue t u →
    types.get? u = some (.array element length) →
    layout.extent types element = .ok (some e) → e.size * length ≤ maxByteCount
  struct : ∀ u s extents, types.ByValue t u → types.struct? u = some s →
    List.Forall₂ (fun m e => layout.extent types m = .ok (some e)) s.members extents →
    (StructLayout.ofMembers s extents).size ≤ maxByteCount

theorem Exact.inside (h : layout.Exact types t) (hu : types.ByValue t u) :
    layout.Exact types u :=
  ⟨fun v element length e hv => h.array v element length e (hu.trans hv),
    fun v s extents hv => h.struct v s extents (hu.trans hv)⟩

theorem exact_of_solid {p : Program} (h : p.Solid t) : p.dataLayout.Exact p.types t where
  array := by
    intro u element length e hu hget he
    have hsize := ((h.inside hu).array hget).2
    rwa [p.byteCount_of_extent he] at hsize
  struct := by
    intro u s extents hu hs hall
    have hsize := (h.inside hu).exactSize_le hs
    rwa [Program.exactSize, Program.map_extentOf hall] at hsize

theorem Exact.place_eq {s : StructType} {extents : List Extent} {placed : StructLayout}
    (h : layout.Exact types t) (hs : types.struct? t = some s)
    (hall : List.Forall₂ (fun m e => layout.extent types m = .ok (some e)) s.members extents)
    (hplace : StructLayout.place layout.overflow s extents = .ok placed) :
    placed = StructLayout.ofMembers s extents := by
  rw [StructLayout.place_of_le (h.struct t s extents .refl hs hall)] at hplace
  exact (Except.ok.inj hplace).symm

theorem Regular.align_dvd_size (hr : layout.Regular) (hexact : layout.Exact types t)
    (h : layout.extentFrom types path t = .ok (some e)) : e.align ∣ e.size := by
  induction h using extentFrom_ind with
  | scalar path t e harray hstruct h => exact (hr.scalar harray hstruct h).2
  | array path t element length e ht hp he ih =>
    have hsize := hexact.array t element length e .refl ht
      (extentFrom_of_subset (List.nil_subset _) he)
    rw [cappedMul, Nat.min_eq_left hsize]
    exact (ih (hexact.inside (.single (.element ht)))).mul_right length
  | struct path t s members extents placed ht hp hb hall hplace =>
    obtain rfl : s.members = members := by simp [StructType.members, hb]
    obtain rfl := hexact.place_eq (TypeTable.struct?_of_get? ht)
      (hall.imp fun m e he => extentFrom_of_subset (List.nil_subset _) he) hplace
    exact StructLayout.ofMembers_align_dvd_size s extents

theorem exists_mem_of_forall₂ {α β : Type} {R : α → β → Prop} {l : List α} {l' : List β} {b : β}
    (h : List.Forall₂ R l l') (hb : b ∈ l') : ∃ a ∈ l, R a b := by
  obtain ⟨i, hi, rfl⟩ := List.getElem_of_mem hb
  have hi' : i < l.length := h.length_eq ▸ hi
  exact ⟨l[i], List.getElem_mem hi', h.get hi' hi⟩

theorem exists_structLayout {s : StructType} (hs : types.struct? t = some s)
    (h : layout.extent types t = .ok (some e)) :
    ∃ placed extents, layout.structLayout types t = .ok (some placed) ∧
      e = ⟨placed.size, placed.align⟩ ∧
      List.Forall₂ (fun m e => layout.extent types m = .ok (some e)) s.members extents ∧
      StructLayout.place layout.overflow s extents = .ok placed := by
  obtain ⟨_, _, _, placed, _, _, _, hlayout, rfl⟩ := structLayout_of_extent hs h
  obtain ⟨_, extents, hall, hplace⟩ := extents_of_structLayout hs hlayout
  exact ⟨placed, extents, hlayout, rfl, hall, hplace⟩

/-! ### Alignments of what a type holds -/

/-- All alignments of what a type holds by value are powers of two, and no struct there
ignores them. -/
structure Natural (layout : DataLayout) (types : TypeTable) (t : Nat) : Prop where
  powers : ∀ u e, types.ByValue t u → layout.extent types u = .ok (some e) →
    ∃ k, e.align = 2 ^ k
  unpacked : ∀ u s, types.ByValue t u → types.struct? u = some s → s.packed = false

/-- What `Natural` asks of one type. -/
def isNatural (layout : DataLayout) (types : TypeTable) (u : Nat) : Bool :=
  (match layout.extent types u with
  | .ok (some e) => 2 ^ e.align.log2 == e.align
  | _ => true) && !(types.struct? u).any StructType.packed

theorem natural_of_isNatural (h : ∀ u < types.size, layout.isNatural types u = true) (t : Nat) :
    layout.Natural types t := by
  have hget : ∀ {u : Nat}, types.get? u ≠ none → layout.isNatural types u = true := by
    intro u hu
    refine h u (Nat.lt_of_not_le fun hle => hu (Array.getElem?_eq_none hle))
  constructor
  · intro u e _ he
    have hu : types.get? u ≠ none := by
      intro hnone
      rw [extent, extentFrom] at he
      split at he
      · cases he
      all_goals simp_all
    have hnat := hget hu
    simp only [isNatural, he, Bool.and_eq_true, beq_iff_eq] at hnat
    exact ⟨_, hnat.1.symm⟩
  · intro u s _ hs
    have hnat := hget (u := u) (by simp [TypeTable.get?_of_struct? hs])
    simpa [isNatural, hs] using (Bool.and_eq_true_iff.mp hnat).2

theorem Natural.inside (h : layout.Natural types t) (hu : types.ByValue t u) :
    layout.Natural types u :=
  ⟨fun v e hv => h.powers v e (hu.trans hv), fun v s hv => h.unpacked v s (hu.trans hv)⟩

theorem Natural.align_pos (h : layout.Natural types t) (he : layout.extent types t = .ok (some e)) :
    1 ≤ e.align := by
  obtain ⟨k, hk⟩ := h.powers t e .refl he
  exact hk ▸ Nat.one_le_two_pow

theorem Natural.align_dvd_part (h : layout.Natural types t) (hu : types.Part t u)
    (ht : layout.extent types t = .ok (some e)) (he : layout.extent types u = .ok (some e')) :
    e'.align ∣ e.align := by
  have hle : e'.align ≤ e.align := by
    cases hu with
    | element hget =>
      obtain ⟨_, e'', he'', rfl⟩ := (extentFrom_array hget).mp ht
      have hsame := (extentFrom_of_subset (List.nil_subset _) he'').symm.trans he
      obtain rfl : e'' = e' := by simpa using hsame
      exact Nat.le_refl _
    | member hs hm =>
      obtain ⟨placed, extents, _, rfl, hall, hplace⟩ := exists_structLayout hs ht
      obtain ⟨i, hi, rfl⟩ := List.getElem_of_mem hm
      have hi' : i < extents.length := hall.length_eq ▸ hi
      have hsame := (hall.get hi hi').symm.trans he
      obtain rfl : extents[i] = e' := by simpa using hsame
      exact StructLayout.align_le_of_place hplace (h.unpacked t _ .refl hs) (List.getElem_mem hi')
  -- of two powers of two, the smaller one divides the other
  obtain ⟨j, hj⟩ := h.powers u e' (.single hu) he
  obtain ⟨k, hk⟩ := h.powers t e .refl ht
  rw [hj, hk] at hle ⊢
  exact Nat.pow_dvd_pow 2 ((Nat.pow_le_pow_iff_right (by omega)).mp hle)

theorem Natural.align_dvd (h : layout.Natural types t) (hu : types.ByValue t u)
    (ht : layout.extent types t = .ok (some e)) (he : layout.extent types u = .ok (some e')) :
    e'.align ∣ e.align := by
  induction hu generalizing e' with
  | refl =>
    obtain rfl : e = e' := by simpa using ht.symm.trans he
    exact Nat.dvd_refl _
  | tail hbefore hpart ih =>
    obtain ⟨e'', he''⟩ := extent_byValue ht hbefore
    exact ((h.inside hbefore).align_dvd_part hpart he'' he).trans (ih he'')

/-- What two aligned counts add up to is aligned, even if it wraps around. -/
theorem Natural.align_dvd_wrapped {a b : Nat} (h : layout.Natural types t)
    (hu : types.ByValue t u) (he : layout.extent types u = .ok (some e)) (ha : e.align ∣ a)
    (hb : e.align ∣ b) : e.align ∣ (a + b) % 0x10000000000000000 := by
  obtain ⟨k, hk⟩ := h.powers u e hu he
  have hsum := Nat.dvd_add ha hb
  rw [hk] at hsum ⊢
  rcases Nat.le_total k 64 with hle | hle
  · exact (Nat.dvd_mod_iff (Nat.pow_dvd_pow 2 hle)).mpr hsum
  · rw [Nat.mod_eq_zero_of_dvd ((Nat.pow_dvd_pow 2 hle).trans hsum)]
    exact Nat.dvd_zero _

theorem Natural.align_dvd_offset {s : StructType} {placed : StructLayout} {i m o : Nat}
    (h : layout.Natural types t) (hexact : layout.Exact types t)
    (hs : types.struct? t = some s) (hu : s.isUnion = false)
    (hlayout : layout.structLayout types t = .ok (some placed)) (hm : s.members[i]? = some m)
    (ho : placed.offsets[i]? = some o) :
    ∃ e, layout.extent types m = .ok (some e) ∧ e.align ∣ o := by
  obtain ⟨_, extents, hall, hplace⟩ := extents_of_structLayout hs hlayout
  obtain rfl := hexact.place_eq hs hall hplace
  have hpos : ∀ e ∈ extents, 1 ≤ e.align := by
    intro e he
    obtain ⟨m', hm', he'⟩ := exists_mem_of_forall₂ hall he
    exact (h.inside (.single (.member hs hm'))).align_pos he'
  obtain ⟨hi, rfl⟩ := List.getElem?_eq_some_iff.mp hm
  have hi' : i < extents.length := hall.length_eq ▸ hi
  have hleast := (StructLayout.ofMembers_inOrder hu hpos).least i o extents[i] ho
    (List.getElem?_eq_getElem hi')
  have hdvd := hleast.1.1
  rw [h.unpacked t s .refl hs] at hdvd
  exact ⟨extents[i], hall.get hi hi', hdvd⟩

end DataLayout

end AbstractMemory
