import AbstractMemory.Program.Layout
import AbstractMemory.Proofs.Counting
import AbstractMemory.Proofs.Steps

/-! Sizes and offsets of types. A type that has a size keeps it when fewer
types are around it. Members are placed as in exact arithmetic unless the size of
the whole does not fit, and there the members of a struct lie one after another. -/

namespace AbstractMemory

namespace StructLayout

/-- Offsets of members placed one after another from `start`, and where the
last of them ends. -/
def placeFrom (start : Nat) : List Extent → List Nat × Nat
  | [] => ([], start)
  | m :: rest =>
    let offset := roundUp start m.align
    let (offsets, finish) := placeFrom (offset + m.size) rest
    (offset :: offsets, finish)

def alignOf (members : List Extent) : Nat :=
  (members.map Extent.align).foldl max 1

/-- Members of a struct follow each other, each at the next multiple of its
alignment. -/
def sequential (members : List Extent) : StructLayout :=
  let (offsets, finish) := placeFrom 0 members
  { offsets, size := roundUp finish (alignOf members), align := alignOf members }

/-- Members of a union all start at zero. -/
def overlapping (members : List Extent) : StructLayout :=
  { offsets := members.map fun _ => 0
    size := roundUp ((members.map Extent.size).foldl max 0) (alignOf members)
    align := alignOf members }

def unaligned (m : Extent) : Extent :=
  { m with align := 1 }

/-- The layout of members in exact arithmetic. -/
def ofMembers (s : StructType) (members : List Extent) : StructLayout :=
  let members := if s.packed then members.map unaligned else members
  if s.isUnion then overlapping members else sequential members

/-- The layout of members as it is computed. -/
def place (overflow : Overflow) (s : StructType) (members : List Extent) :
    Except ProgramError StructLayout := do
  (← members.foldlM (Placing.add overflow s) {}).close overflow

theorem length_placeFrom (start : Nat) (members : List Extent) :
    (placeFrom start members).1.length = members.length := by
  induction members generalizing start with
  | nil => rfl
  | cons m rest ih => simp [placeFrom, ih]

theorem length_ofMembers (s : StructType) (members : List Extent) :
    (ofMembers s members).offsets.length = members.length := by
  unfold ofMembers
  split <;> split <;> simp [overlapping, sequential, length_placeFrom]

theorem placeFrom_finish (start : Nat) (members : List Extent) :
    start ≤ (placeFrom start members).2 := by
  induction members generalizing start with
  | nil => exact Nat.le_refl start
  | cons m rest ih =>
    have hh := ih (roundUp start m.align + m.size)
    have hr := le_roundUp start m.align
    simp only [placeFrom]
    omega

theorem le_of_mem_placeFrom {start o : Nat} {members : List Extent}
    (h : o ∈ (placeFrom start members).1) : start ≤ o := by
  induction members generalizing start with
  | nil => simp [placeFrom] at h
  | cons m rest ih =>
    have hr := le_roundUp start m.align
    rcases List.mem_cons.mp h with rfl | hm
    · exact hr
    · have hh := ih hm
      omega

theorem placeFrom_apart {start i o : Nat} {members : List Extent} {e : Extent}
    (ho : (placeFrom start members).1[i]? = some o) (he : members[i]? = some e) :
    o + e.size ≤ (placeFrom start members).2 ∧
      ∀ j o', i < j → (placeFrom start members).1[j]? = some o' → o + e.size ≤ o' := by
  induction members generalizing start i with
  | nil => simp at he
  | cons m rest ih =>
    simp only [placeFrom] at ho ⊢
    cases i with
    | zero =>
      simp only [List.getElem?_cons_zero, Option.some.injEq] at ho he
      subst ho he
      refine ⟨placeFrom_finish _ rest, ?_⟩
      intro j o' hj ho'
      obtain ⟨j, rfl⟩ : ∃ i, j = i + 1 := ⟨j - 1, by omega⟩
      rw [List.getElem?_cons_succ] at ho'
      exact le_of_mem_placeFrom (List.mem_of_getElem? ho')
    | succ i =>
      rw [List.getElem?_cons_succ] at ho he
      obtain ⟨hfin, hnext⟩ := ih ho he
      refine ⟨hfin, ?_⟩
      intro j o' hj ho'
      obtain ⟨j, rfl⟩ : ∃ i, j = i + 1 := ⟨j - 1, by omega⟩
      rw [List.getElem?_cons_succ] at ho'
      exact hnext j o' (by omega) ho'

section Place

variable {overflow : Overflow} {s : StructType} {members : List Extent} {placing : Placing}
  {placed : StructLayout}

/-- The extent that a member counts with. -/
def effective (s : StructType) (m : Extent) : Extent :=
  if s.packed then unaligned m else m

theorem map_effective (s : StructType) (members : List Extent) :
    members.map (effective s) = if s.packed then members.map unaligned else members := by
  cases hp : s.packed
  · simp [show effective s = id from funext fun m => by simp [effective, hp]]
  · simp [show effective s = unaligned from funext fun m => by simp [effective, hp]]

theorem align_effective (s : StructType) (m : Extent) :
    (effective s m).align = if s.packed then 1 else m.align := by
  cases hp : s.packed <;> simp [effective, hp, unaligned]

theorem size_effective (s : StructType) (m : Extent) : (effective s m).size = m.size := by
  cases hp : s.packed <;> simp [effective, hp, unaligned]

theorem add_of_union (hu : s.isUnion = true) (m : Extent) :
    placing.add overflow s m = .ok
      { offsets := placing.offsets ++ [0]
        finish := max placing.finish m.size
        align := max placing.align (effective s m).align } := by
  simp only [Placing.add, hu, if_true, align_effective]
  rfl

theorem add_eq_ok (hu : s.isUnion = false) {m : Extent} {next : Placing} :
    placing.add overflow s m = .ok next ↔ ∃ offset finish,
      overflow.count (roundUp placing.finish (effective s m).align) = .ok offset ∧
      overflow.count (offset + m.size) = .ok finish ∧
      next = { offsets := placing.offsets ++ [offset]
               finish
               align := max placing.align (effective s m).align } := by
  simp only [Placing.add, hu, align_effective]
  cases hoffset : overflow.count (roundUp placing.finish (if s.packed then 1 else m.align)) with
  | error e => simp [bind, Except.bind]
  | ok offset =>
    cases hfinish : overflow.count (offset + m.size) with
    | error e => simp [bind, Except.bind, hfinish]
    | ok finish =>
      simp only [bind, Except.bind, pure, Except.pure, hfinish, Except.ok.injEq, exists_and_left,
        exists_eq_left', Bool.false_eq_true, if_false]
      exact eq_comm

theorem close_eq_ok :
    placing.close overflow = .ok placed ↔ ∃ size,
      overflow.count (roundUp placing.finish placing.align) = .ok size ∧
      placed = { offsets := placing.offsets, size, align := placing.align } := by
  unfold Placing.close
  cases overflow.count (roundUp placing.finish placing.align) with
  | error e => simp [bind, Except.bind]
  | ok size =>
    simp only [bind, Except.bind, pure, Except.pure, Except.ok.injEq, exists_eq_left']
    exact eq_comm

/-- The members of a union are placed in one way, which has no sums. -/
theorem foldlM_add_union (hu : s.isUnion = true) :
    members.foldlM (Placing.add overflow s) placing = .ok
      { offsets := placing.offsets ++ members.map fun _ => 0
        finish := (members.map Extent.size).foldl max placing.finish
        align := ((members.map (effective s)).map Extent.align).foldl max placing.align } := by
  induction members generalizing placing with
  | nil => simp [pure, Except.pure]
  | cons m rest ih =>
    rw [List.foldlM_cons, add_of_union hu]
    exact (ih ..).trans (by simp)

theorem foldlM_add_of_le (hu : s.isUnion = false)
    (h : (placeFrom placing.finish (members.map (effective s))).2 ≤ maxByteCount) :
    members.foldlM (Placing.add overflow s) placing = .ok
      { offsets := placing.offsets ++ (placeFrom placing.finish (members.map (effective s))).1
        finish := (placeFrom placing.finish (members.map (effective s))).2
        align := ((members.map (effective s)).map Extent.align).foldl max placing.align } := by
  induction members generalizing placing with
  | nil => simp [placeFrom, pure, Except.pure]
  | cons m rest ih =>
    simp only [List.map_cons, placeFrom] at h ⊢
    have hfinish := placeFrom_finish
      (roundUp placing.finish (effective s m).align + (effective s m).size) (rest.map (effective s))
    rw [size_effective] at h hfinish ⊢
    rw [List.foldlM_cons, (add_eq_ok hu).mpr ⟨_, _, Overflow.count_of_le (by omega),
      Overflow.count_of_le (by omega), rfl⟩]
    refine (ih ?_).trans (by simp)
    exact h

/-- What is placed without an overflow is placed exactly. -/
theorem foldlM_add_stops (hu : s.isUnion = false) {next : Placing}
    (h : members.foldlM (Placing.add .stops s) placing = .ok next)
    (hfinish : placing.finish ≤ maxByteCount) :
    (placeFrom placing.finish (members.map (effective s))).2 ≤ maxByteCount := by
  induction members generalizing placing with
  | nil => exact hfinish
  | cons m rest ih =>
    rw [List.foldlM_cons] at h
    cases hadd : placing.add .stops s m with
    | error e => rw [hadd] at h; cases h
    | ok mid =>
      rw [hadd] at h
      obtain ⟨offset, finish, hoffset, hfinish, rfl⟩ := (add_eq_ok hu).mp hadd
      obtain ⟨rfl⟩ := Except.ok.inj
        (hoffset.symm.trans (Overflow.count_of_le ((Overflow.count_eq_ok.mp hoffset).2 rfl)))
      obtain ⟨rfl⟩ := Except.ok.inj
        (hfinish.symm.trans (Overflow.count_of_le ((Overflow.count_eq_ok.mp hfinish).2 rfl)))
      have hrest := ih h (Overflow.le_of_count hfinish)
      simpa only [List.map_cons, placeFrom, size_effective] using hrest

theorem foldlM_add_shape {next : Placing}
    (h : members.foldlM (Placing.add overflow s) placing = .ok next) :
    next.align = ((members.map (effective s)).map Extent.align).foldl max placing.align ∧
      ∃ offsets, next.offsets = placing.offsets ++ offsets ∧ offsets.length = members.length ∧
        ∀ o ∈ offsets, o ≤ maxByteCount := by
  cases hu : s.isUnion with
  | true =>
    rw [foldlM_add_union hu] at h
    obtain rfl := Except.ok.inj h
    refine ⟨rfl, _, rfl, List.length_map _, fun o ho => ?_⟩
    obtain ⟨_, _, rfl⟩ := List.mem_map.mp ho
    exact Nat.zero_le _
  | false =>
    induction members generalizing placing with
    | nil =>
      obtain rfl := Except.ok.inj h
      exact ⟨rfl, [], by simp⟩
    | cons m rest ih =>
      rw [List.foldlM_cons] at h
      cases hadd : placing.add overflow s m with
      | error e => rw [hadd] at h; cases h
      | ok mid =>
        rw [hadd] at h
        obtain ⟨offset, finish, hoffset, _, rfl⟩ := (add_eq_ok hu).mp hadd
        obtain ⟨halign, offsets, hoffsets, hlen, hle⟩ := ih h
        refine ⟨by simpa using halign, offset :: offsets, by simpa using hoffsets, by simp [hlen],
          List.forall_mem_cons.mpr ⟨Overflow.le_of_count hoffset, hle⟩⟩

theorem ofMembers_union (hu : s.isUnion = true) :
    ofMembers s members = overlapping (members.map (effective s)) := by
  rw [ofMembers, map_effective, if_pos hu]

theorem ofMembers_struct (hu : s.isUnion = false) :
    ofMembers s members = sequential (members.map (effective s)) := by
  rw [ofMembers, map_effective, if_neg (by simp [hu])]

/-- If the size fits, nothing overflows. -/
theorem place_of_le (h : (ofMembers s members).size ≤ maxByteCount) :
    place overflow s members = .ok (ofMembers s members) := by
  unfold place
  cases hu : s.isUnion with
  | true =>
    rw [ofMembers_union hu] at h ⊢
    rw [foldlM_add_union hu]
    refine close_eq_ok.mpr ⟨_, Overflow.count_of_le ?_, ?_⟩
    · simpa [overlapping, alignOf, Function.comp_def, size_effective] using h
    · simp [overlapping, alignOf, Function.comp_def, size_effective]
  | false =>
    rw [ofMembers_struct hu] at h ⊢
    have hfinish := le_roundUp (placeFrom 0 (members.map (effective s))).2
      (alignOf (members.map (effective s)))
    rw [foldlM_add_of_le hu (hfinish.trans h)]
    exact close_eq_ok.mpr ⟨_, Overflow.count_of_le h, by simp [sequential, alignOf]⟩

theorem place_eq_ok :
    place overflow s members = .ok placed ↔ ∃ last,
      members.foldlM (Placing.add overflow s) {} = .ok last ∧ last.close overflow = .ok placed := by
  unfold place
  cases members.foldlM (Placing.add overflow s) {} with
  | error e => simp [bind, Except.bind]
  | ok last => simp [bind, Except.bind]

theorem place_shape (h : place overflow s members = .ok placed) :
    placed.align = alignOf (members.map (effective s)) ∧
      placed.offsets.length = members.length ∧ ∀ o ∈ placed.offsets, o ≤ maxByteCount := by
  obtain ⟨last, hlast, hclose⟩ := place_eq_ok.mp h
  obtain ⟨size, _, rfl⟩ := close_eq_ok.mp hclose
  obtain ⟨halign, offsets, hoffsets, hlen, hle⟩ := foldlM_add_shape hlast
  rw [List.nil_append] at hoffsets
  exact ⟨halign, hoffsets ▸ hlen, hoffsets ▸ hle⟩

theorem length_of_place (h : place overflow s members = .ok placed) :
    placed.offsets.length = members.length :=
  (place_shape h).2.1

theorem align_of_place (h : place overflow s members = .ok placed) :
    placed.align = alignOf (members.map (effective s)) :=
  (place_shape h).1

theorem le_of_mem_place (h : place overflow s members = .ok placed) {o : Nat}
    (ho : o ∈ placed.offsets) : o ≤ maxByteCount :=
  (place_shape h).2.2 o ho

theorem place_first {m : Extent} (h : place overflow s (m :: members) = .ok placed) :
    placed.offsets[0]? = some 0 := by
  obtain ⟨last, hlast, hclose⟩ := place_eq_ok.mp h
  obtain ⟨size, _, rfl⟩ := close_eq_ok.mp hclose
  rw [List.foldlM_cons] at hlast
  obtain ⟨mid, hadd, hrest⟩ := Steps.bind_eq_ok.mp hlast
  have hmid : mid.offsets = [0] := by
    cases hu : s.isUnion with
    | true =>
      rw [add_of_union hu] at hadd
      exact (Except.ok.inj hadd) ▸ rfl
    | false =>
      obtain ⟨offset, _, hoffset, _, rfl⟩ := (add_eq_ok hu).mp hadd
      rw [roundUp_zero, Overflow.count_of_le (Nat.zero_le _)] at hoffset
      rw [← Except.ok.inj hoffset]
      rfl
  obtain ⟨_, offsets, hoffsets, _⟩ := foldlM_add_shape hrest
  simp [hoffsets, hmid]

theorem size_of_place_nil (h : place overflow s [] = .ok placed) : placed.size = 0 := by
  obtain ⟨last, hlast, hclose⟩ := place_eq_ok.mp h
  obtain ⟨size, hsize, rfl⟩ := close_eq_ok.mp hclose
  obtain rfl : ({} : Placing) = last := Except.ok.inj hlast
  rw [roundUp_zero, Overflow.count_of_le (Nat.zero_le _)] at hsize
  exact (Except.ok.inj hsize).symm

theorem size_le_of_place (h : place overflow s members = .ok placed) :
    placed.size ≤ maxByteCount := by
  obtain ⟨last, _, hclose⟩ := place_eq_ok.mp h
  obtain ⟨size, hsize, rfl⟩ := close_eq_ok.mp hclose
  exact Overflow.le_of_count hsize

theorem le_of_place_stops (h : place .stops s members = .ok placed) :
    (ofMembers s members).size ≤ maxByteCount := by
  obtain ⟨last, hlast, hclose⟩ := place_eq_ok.mp h
  obtain ⟨size, hsize, rfl⟩ := close_eq_ok.mp hclose
  have hle := (Overflow.count_eq_ok.mp hsize).2 rfl
  cases hu : s.isUnion with
  | true =>
    rw [foldlM_add_union hu] at hlast
    obtain rfl := Except.ok.inj hlast
    rw [ofMembers_union hu]
    simpa [overlapping, alignOf, Function.comp_def, size_effective] using hle
  | false =>
    rw [foldlM_add_of_le hu (foldlM_add_stops hu hlast (Nat.zero_le _))] at hlast
    obtain rfl := Except.ok.inj hlast
    rw [ofMembers_struct hu]
    exact hle

end Place

end StructLayout

theorem TypeTable.get?_of_struct? {types : TypeTable} {t : Nat} {s : StructType}
    (h : types.struct? t = some s) : types.get? t = some (.struct s) := by
  obtain ⟨ty, hty, hs⟩ := Option.bind_eq_some_iff.mp h
  cases ty with
  | struct s' =>
    obtain rfl : s' = s := Option.some.inj hs
    exact hty
  | _ => cases hs

theorem TypeTable.struct?_of_get? {types : TypeTable} {t : Nat} {s : StructType}
    (h : types.get? t = some (.struct s)) : types.struct? t = some s := by
  rw [struct?, h]
  rfl

theorem TypeTable.pointee?_of_get? {types : TypeTable} {t u : Nat}
    (h : types.get? t = some (.pointer u)) : types.pointee? t = some u := by
  simp [pointee?, h, Ty.pointee?]

theorem TypeTable.get?_of_pointee? {types : TypeTable} {t u : Nat} (h : types.pointee? t = some u) :
    types.get? t = some (.pointer u) := by
  obtain ⟨ty, ht, hty⟩ := Option.bind_eq_some_iff.mp h
  cases ty with
  | pointer t' =>
    obtain rfl := Option.some.inj hty
    exact ht
  | _ => cases hty

/-- Placing succeeds if every member has an extent and those can be placed. -/
theorem placeMembers_eq_some {overflow : Overflow} {s : StructType}
    {extent : Nat → Except ProgramError (Option Extent)} {members : List Nat}
    {placed : StructLayout} :
    placeMembers overflow s extent {} members = .ok (some placed) ↔ ∃ extents,
      List.Forall₂ (fun m e => extent m = .ok (some e)) members extents ∧
      StructLayout.place overflow s extents = .ok placed := by
  simp only [StructLayout.place_eq_ok]
  generalize ({} : Placing) = placing
  induction members generalizing placing with
  | nil =>
    cases hclose : placing.close overflow <;>
      simp [placeMembers, hclose, Except.map, pure, Except.pure]
  | cons m rest ih =>
    simp only [placeMembers, List.forall₂_cons_left_iff]
    rcases hm : extent m with e | _ | e
    · simp
    · simp
    · cases hadd : placing.add overflow s e with
      | error e' => simp [List.foldlM_cons, hadd, bind, Except.bind]
      | ok next =>
        simp only [hadd, ih]
        constructor
        · rintro ⟨extents, hall, hlast⟩
          refine ⟨e :: extents, ⟨e, extents, rfl, hall, rfl⟩, ?_⟩
          rw [List.foldlM_cons, hadd]
          exact hlast
        · rintro ⟨_, ⟨e', extents, he, hall, rfl⟩, hlast⟩
          obtain rfl := Option.some.inj (Except.ok.inj he)
          rw [List.foldlM_cons, hadd] at hlast
          exact ⟨extents, hall, hlast⟩

theorem Placing.settles_add (overflow : Overflow) (s : StructType) (placing : Placing)
    (m : Extent) :
    overflow.Settles (placing.add overflow s m) := by
  unfold Placing.add
  dsimp only
  split
  · exact .inl ⟨_, rfl⟩
  · refine (overflow.settles_count _).bind fun _ => (overflow.settles_count _).bind fun _ => ?_
    exact .inl ⟨_, rfl⟩

theorem Placing.settles_close (overflow : Overflow) (placing : Placing) :
    overflow.Settles (placing.close overflow) :=
  (overflow.settles_count _).bind fun _ => .inl ⟨_, rfl⟩

theorem placeMembers_eq_error {overflow : Overflow} {s : StructType}
    {extent : Nat → Except ProgramError (Option Extent)} {members : List Nat} {placing : Placing}
    {e : ProgramError} (h : placeMembers overflow s extent placing members = .error e) :
    (∃ m ∈ members, extent m = .error e) ∨ e = .halted .overflow := by
  induction members generalizing placing with
  | nil =>
    unfold placeMembers at h
    cases hclose : placing.close overflow with
    | ok placed => simp [hclose, Except.map] at h
    | error e' =>
      obtain rfl : e' = e := by simpa [hclose, Except.map] using h
      exact .inr ((placing.settles_close overflow).eq_of_error hclose)
  | cons m rest ih =>
    unfold placeMembers at h
    split at h
    · rename_i e' he
      cases h
      exact .inl ⟨m, by simp, he⟩
    · cases h
    · rename_i found _
      split at h
      · rename_i e' hadd
        cases h
        exact .inr ((placing.settles_add overflow s found).eq_of_error hadd)
      · obtain ⟨m', hm', he⟩ | hlarge := ih h
        · exact .inl ⟨m', by simp [hm'], he⟩
        · exact .inr hlarge

theorem map_eq_some {α β ε : Type} {x : Except ε (Option α)} {f : α → β} {b : β} :
    x.map (Option.map f) = .ok (some b) ↔ ∃ a, x = .ok (some a) ∧ b = f a := by
  rcases x with e | _ | a <;> simp [Except.map, eq_comm]

namespace DataLayout

theorem extentFrom_array {layout : DataLayout} {types : TypeTable} {path : List Nat}
    {t element length : Nat} {e : Extent} (ht : types.get? t = some (.array element length)) :
    layout.extentFrom types path t = .ok (some e) ↔ t ∉ path ∧ ∃ e',
      layout.extentFrom types (t :: path) element = .ok (some e') ∧
        e = ⟨cappedMul e'.size length, e'.align⟩ := by
  rw [extentFrom]
  split <;> rename_i hget <;> rw [ht] at hget <;> cases hget
  by_cases hp : t ∈ path
  · simp [hp]
  · rcases he : layout.extentFrom types (t :: path) element with _ | _ | e'
    · simp [hp]
    · simp [hp]
    · simp [hp, eq_comm]

theorem extentFrom_struct {layout : DataLayout} {types : TypeTable} {path : List Nat}
    {t : Nat} {s : StructType} {e : Extent} (ht : types.get? t = some (.struct s)) :
    layout.extentFrom types path t = .ok (some e) ↔ t ∉ path ∧ ∃ members extents placed,
      s.body = some members ∧
      List.Forall₂ (fun m e => layout.extentFrom types (t :: path) m = .ok (some e))
        members extents ∧
      StructLayout.place layout.overflow s extents = .ok placed ∧
      e = ⟨placed.size, placed.align⟩ := by
  rw [extentFrom]
  split <;> rename_i hget <;> rw [ht] at hget <;> cases hget
  by_cases hp : t ∈ path
  · simp [hp]
  · cases hb : s.body with
    | none => simp [hp]
    | some members =>
      simp only [hp, dite_false, not_false_eq_true, true_and, Option.some.injEq]
      rw [map_eq_some]
      simp only [placeMembers_eq_some]
      constructor
      · rintro ⟨placed, ⟨extents, hall, hplace⟩, rfl⟩
        exact ⟨members, extents, placed, rfl, hall, hplace, rfl⟩
      · rintro ⟨_, extents, placed, rfl, hall, hplace, rfl⟩
        exact ⟨placed, ⟨extents, hall, hplace⟩, rfl⟩

/-- Induction over what a type with a size is made of. -/
theorem extentFrom_ind {layout : DataLayout} {types : TypeTable}
    {motive : ∀ path t e, layout.extentFrom types path t = .ok (some e) → Prop}
    (scalar : ∀ path t e (_ : ∀ element length, types.get? t ≠ some (.array element length))
      (_ : ∀ s, types.get? t ≠ some (.struct s))
      (h : layout.extentFrom types path t = .ok (some e)), motive path t e h)
    (array : ∀ path t element length e (ht : types.get? t = some (.array element length))
      (hp : t ∉ path) (he : layout.extentFrom types (t :: path) element = .ok (some e)),
      motive (t :: path) element e he →
      motive path t ⟨cappedMul e.size length, e.align⟩
        ((extentFrom_array ht).mpr ⟨hp, e, he, rfl⟩))
    (struct : ∀ path t s members extents placed (ht : types.get? t = some (.struct s))
      (hp : t ∉ path) (hb : s.body = some members)
      (hall : List.Forall₂ (fun m e => layout.extentFrom types (t :: path) m = .ok (some e))
        members extents)
      (hplace : StructLayout.place layout.overflow s extents = .ok placed),
      List.Forall₂ (fun m e => ∃ h, motive (t :: path) m e h) members extents →
      motive path t ⟨placed.size, placed.align⟩
        ((extentFrom_struct ht).mpr ⟨hp, members, extents, placed, hb, hall, hplace, rfl⟩))
    {path : List Nat} {t : Nat} {e : Extent}
    (h : layout.extentFrom types path t = .ok (some e)) : motive path t e h := by
  induction hn : unseen types.size path using Nat.strong_induction_on
    generalizing path t e with
  | _ n ih =>
    subst hn
    cases ht : types.get? t with
    | none => exact scalar path t e (by simp [ht]) (by simp [ht]) h
    | some ty =>
      have hlt : t ∉ path → unseen types.size (t :: path) < unseen types.size path :=
        unseen_cons_lt (TypeTable.lt_size_of_get? ht)
      cases ty with
      | array element length =>
        obtain ⟨hp, e', he', rfl⟩ := (extentFrom_array ht).mp h
        exact array path t element length e' ht hp he' (ih _ (hlt hp) he' rfl)
      | struct s =>
        obtain ⟨hp, members, extents, placed, hb, hall, hplace, rfl⟩ := (extentFrom_struct ht).mp h
        exact struct path t s members extents placed ht hp hb hall hplace
          (hall.imp fun m e' he' => ⟨he', ih _ (hlt hp) he' rfl⟩)
      | _ => exact scalar path t e (by simp [ht]) (by simp [ht]) h

theorem extentFrom_scalar {layout : DataLayout} {types : TypeTable} {t : Nat}
    (harray : ∀ element length, types.get? t ≠ some (.array element length))
    (hstruct : ∀ s, types.get? t ≠ some (.struct s)) (path path' : List Nat) :
    layout.extentFrom types path t = layout.extentFrom types path' t := by
  rw [extentFrom, extentFrom]
  split <;> simp_all

theorem exists_extent_of_scalar {layout : DataLayout} {types : TypeTable} {t : Nat}
    (hknown : t < types.size) (harray : types.isArray t = false)
    (hstruct : types.isStruct t = false) : ∃ answer, layout.extent types t = .ok answer := by
  rw [extent, extentFrom]
  split
  · rename_i hget
    exact absurd hknown (Nat.not_lt.mpr (Array.getElem?_eq_none_iff.mp hget))
  · exact ⟨_, rfl⟩
  · exact ⟨_, rfl⟩
  · exact ⟨_, rfl⟩
  · exact ⟨_, rfl⟩
  · exact ⟨_, rfl⟩
  · rename_i hget
    simp [TypeTable.isArray, hget, Ty.element?] at harray
  · rename_i hget
    simp [TypeTable.isStruct, TypeTable.struct?_of_get? hget] at hstruct

theorem extentFrom_of_subset {layout : DataLayout} {types : TypeTable} {path path' : List Nat}
    {t : Nat} {e : Extent} (hsub : path' ⊆ path)
    (h : layout.extentFrom types path t = .ok (some e)) :
    layout.extentFrom types path' t = .ok (some e) := by
  induction h using extentFrom_ind generalizing path' with
  | scalar path t e harray hstruct h => rwa [extentFrom_scalar harray hstruct path' path]
  | array path t element length e ht hp _ ih =>
    exact (extentFrom_array ht).mpr
      ⟨fun hm => hp (hsub hm), e, ih (List.cons_subset_cons t hsub), rfl⟩
  | struct path t s members extents placed ht hp hb _ hplace ih =>
    refine (extentFrom_struct ht).mpr
      ⟨fun hm => hp (hsub hm), members, extents, placed, hb, ?_, hplace, rfl⟩
    exact ih.imp fun m e h => h.2 (List.cons_subset_cons t hsub)

theorem structLayout_eq_some {layout : DataLayout} {types : TypeTable} {t : Nat}
    {s : StructType} {placed : StructLayout} (hs : types.struct? t = some s) :
    layout.structLayout types t = .ok (some placed) ↔ ∃ members extents,
      s.body = some members ∧
      List.Forall₂ (fun m e => layout.extentFrom types [t] m = .ok (some e)) members extents ∧
      StructLayout.place layout.overflow s extents = .ok placed := by
  simp only [structLayout, hs]
  cases hb : s.body with
  | none => simp
  | some members => simp [placeMembers_eq_some]

theorem extents_of_structLayout {layout : DataLayout} {types : TypeTable} {t : Nat}
    {s : StructType} {placed : StructLayout} (hs : types.struct? t = some s)
    (h : layout.structLayout types t = .ok (some placed)) :
    layout.extent types t = .ok (some ⟨placed.size, placed.align⟩) ∧ ∃ extents,
      List.Forall₂ (fun m e => layout.extent types m = .ok (some e)) s.members extents ∧
      StructLayout.place layout.overflow s extents = .ok placed := by
  obtain ⟨members, extents, hb, hall, hplace⟩ := (structLayout_eq_some hs).mp h
  constructor
  · exact (extentFrom_struct (TypeTable.get?_of_struct? hs)).mpr
      ⟨List.not_mem_nil, members, extents, placed, hb, hall, hplace, rfl⟩
  · refine ⟨extents, ?_, hplace⟩
    rw [StructType.members, hb]
    exact hall.imp fun m e he => extentFrom_of_subset (List.nil_subset _) he

theorem extent_eq_structLayout {layout : DataLayout} {types : TypeTable} {t : Nat}
    {s : StructType} (hs : types.struct? t = some s) : layout.extent types t =
      (layout.structLayout types t).map (Option.map fun placed => ⟨placed.size, placed.align⟩) := by
  have ht := TypeTable.get?_of_struct? hs
  rw [extent, extentFrom, structLayout, hs]
  split <;> rename_i hget <;> rw [ht] at hget <;> cases hget
  rw [dif_neg List.not_mem_nil]
  dsimp only
  cases s.body <;> rfl

theorem size?_eq_error {layout : DataLayout} {types : TypeTable} {t : Nat} {e : ProgramError} :
    layout.size? types t = .error e ↔ layout.extent types t = .error e := by
  unfold size?
  cases layout.extent types t <;> simp [Except.map]

theorem size?_eq_ok {layout : DataLayout} {types : TypeTable} {t n : Nat} :
    layout.size? types t = .ok (some n) ↔
      ∃ align, layout.extent types t = .ok (some ⟨n, align⟩) := by
  unfold size?
  rcases he : layout.extent types t with e | _ | e
  · simp [Except.map]
  · simp [Except.map]
  · obtain ⟨size, align⟩ := e
    simp [Except.map]

theorem size?_of_structLayout {layout : DataLayout} {types : TypeTable} {t m : Nat}
    {s : StructType} {placed : StructLayout} (hs : types.struct? t = some s)
    (h : layout.structLayout types t = .ok (some placed)) (hm : m ∈ s.members) :
    ∃ n, layout.size? types m = .ok (some n) := by
  obtain ⟨_, extents, hall, _⟩ := extents_of_structLayout hs h
  obtain ⟨i, hi, rfl⟩ := List.getElem_of_mem hm
  have he := hall.get hi (hall.length_eq ▸ hi)
  exact ⟨_, size?_eq_ok.mpr ⟨_, he⟩⟩

theorem structLayout_of_extent {layout : DataLayout} {types : TypeTable} {path : List Nat}
    {t : Nat} {s : StructType} {e : Extent} (hs : types.struct? t = some s)
    (h : layout.extentFrom types path t = .ok (some e)) : t ∉ path ∧ ∃ members extents placed,
      s.body = some members ∧
      List.Forall₂ (fun m e => layout.extentFrom types (t :: path) m = .ok (some e))
        members extents ∧
      StructLayout.place layout.overflow s extents = .ok placed ∧
      layout.structLayout types t = .ok (some placed) ∧ e = ⟨placed.size, placed.align⟩ := by
  obtain ⟨hp, members, extents, placed, hb, hall, hplace, rfl⟩ :=
    (extentFrom_struct (TypeTable.get?_of_struct? hs)).mp h
  refine ⟨hp, members, extents, placed, hb, hall, hplace, ?_, rfl⟩
  refine (structLayout_eq_some hs).mpr ⟨members, extents, hb, hall.imp ?_, hplace⟩
  exact fun m e' he' => extentFrom_of_subset (by simp) he'

end DataLayout

theorem DataLayout.length_of_structLayout {layout : DataLayout} {types : TypeTable} {t : Nat}
    {s : StructType} {placed : StructLayout} (hs : types.struct? t = some s)
    (h : layout.structLayout types t = .ok (some placed)) :
    placed.offsets.length = s.members.length := by
  obtain ⟨_, extents, hall, hplace⟩ := extents_of_structLayout hs h
  rw [StructLayout.length_of_place hplace, hall.length_eq]

end AbstractMemory
