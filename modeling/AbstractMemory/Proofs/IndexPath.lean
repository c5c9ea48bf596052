import AbstractMemory.Proofs.Coherence
import AbstractMemory.Proofs.Solid
import Mathlib

/-! Lists of indices that descend into a type, the bytes they skip and the
fields they skip. Indices in bounds stay inside the type. -/

namespace AbstractMemory

namespace Program

/-- What an index of a type leads to, if it is in bounds. -/
def element? (p : Program) (t i : Nat) : Option Nat :=
  match p.types.get? t with
  | some (.array element length) => if i < length then some element else none
  | some (.struct s) => s.members[i]?
  | _ => none

def InBounds (p : Program) : Nat → List Nat → Prop
  | _, [] => True
  | t, i :: rest => ∃ u, p.element? t i = some u ∧ p.InBounds u rest

/-- The bytes before an element of an array or a member of a struct. -/
def elementStart (p : Program) (t i : Nat) : Nat :=
  match p.types.get? t with
  | some (.array element _) => i * p.byteCount element
  | _ =>
    match p.dataLayout.structLayout p.types t with
    | .ok (some placed) => placed.offsets[i]?.getD 0
    | _ => 0

def pathBytes (p : Program) : Nat → List Nat → Nat
  | _, [] => 0
  | t, i :: rest => p.elementStart t i + p.pathBytes ((p.element? t i).getD t) rest

end Program

namespace Catalog

/-- The fields before a member of a struct, by its record. -/
def fieldsBefore? (c : Catalog) (p : Program) (t i : Nat) : Option Nat :=
  (c.record? p t).bind fun r => r.memberFields[i]?

/-- The fields before what a list of indices leads to. They are counted at each
struct on the way, up to the first union. -/
def pathField? (c : Catalog) (p : Program) : Nat → List Nat → Option Nat
  | _, [] => some 0
  | t, i :: rest =>
    match p.types.struct? t with
    | none => (p.element? t i).bind fun u => c.pathField? p u rest
    | some s =>
      if c.treatsAsUnion s then some 0
      else do
        let before ← c.fieldsBefore? p t i
        let u ← p.element? t i
        let inside ← c.pathField? p u rest
        return before + inside

end Catalog

namespace StructLayout

theorem getElem?_ofMembers {s : StructType} {members : List Extent} {i o : Nat} {e : Extent}
    (ho : (ofMembers s members).offsets[i]? = some o) (he : members[i]? = some e) :
    o + e.size ≤ (ofMembers s members).size ∧ (s.isUnion = false → ∀ j o', i < j →
      (ofMembers s members).offsets[j]? = some o' → o + e.size ≤ o') := by
  have hplain : ∀ (members : List Extent) (e : Extent), members[i]? = some e →
      (if s.isUnion then overlapping members else sequential members).offsets[i]? = some o →
      o + e.size ≤ (if s.isUnion then overlapping members else sequential members).size ∧
        (s.isUnion = false → ∀ j o', i < j →
          (if s.isUnion then overlapping members else sequential members).offsets[j]? = some o' →
          o + e.size ≤ o') := by
    intro members e he ho
    split at ho
    · rename_i hu
      have hmem := List.mem_of_getElem? he
      obtain rfl : o = 0 := by
        obtain ⟨_, _, rfl⟩ := List.mem_map.mp (List.mem_of_getElem? ho)
        rfl
      have hle := (le_foldl_max (.inr (List.mem_map_of_mem hmem))).trans
        (le_roundUp ((members.map Extent.size).foldl max 0) (alignOf members))
      simpa [hu, overlapping] using hle
    · rename_i hu
      obtain ⟨hfin, hnext⟩ := placeFrom_apart ho he
      have hround := le_roundUp (placeFrom 0 members).2 (alignOf members)
      simp only [hu, Bool.false_eq_true, if_false, sequential]
      exact ⟨by omega, fun _ => hnext⟩
  by_cases hpk : s.packed = true
  · have hh := hplain (members.map unaligned) (unaligned e) (by simp [he])
      (by simpa [ofMembers, hpk] using ho)
    simpa [ofMembers, hpk, unaligned] using hh
  · have hh := hplain members e he (by simpa [ofMembers, hpk] using ho)
    simpa [ofMembers, hpk] using hh

/-- Where members start in order, an offset belongs to the last of them that
starts before it. -/
theorem memberAt_eq {placed : StructLayout} {i o x : Nat} (ho : placed.offsets[i]? = some o)
    (hle : ∀ j o', j < i → placed.offsets[j]? = some o' → o' ≤ o)
    (hlt : ∀ j o', i < j → placed.offsets[j]? = some o' → o + x < o') :
    placed.memberAt (o + x) = i := by
  have hi := (List.getElem?_eq_some_iff.mp ho).1
  have hfirst : ∀ o' ∈ placed.offsets.take (i + 1), decide (o' ≤ o + x) = true := by
    intro o' hm
    obtain ⟨j, hj⟩ := List.mem_iff_getElem?.mp hm
    rw [List.getElem?_take] at hj
    split at hj
    · rename_i hji
      rcases Nat.lt_or_eq_of_le (Nat.le_of_lt_succ hji) with hlt | rfl
      · have := hle j o' hlt hj
        exact decide_eq_true (by omega)
      · obtain rfl : o = o' := Option.some.inj (ho.symm.trans hj)
        exact decide_eq_true (by omega)
    · cases hj
  have hrest : (placed.offsets.drop (i + 1)).takeWhile (fun o' => decide (o' ≤ o + x)) = [] := by
    cases hd : placed.offsets.drop (i + 1) with
    | nil => rfl
    | cons o' rest =>
      have hget : placed.offsets[i + 1]? = some o' := by
        rw [← List.head?_drop, hd]
        rfl
      have hh := hlt (i + 1) o' (by omega) hget
      rw [List.takeWhile_cons_of_neg (by simpa using hh)]
  have hsplit : placed.offsets.takeWhile (fun o' => decide (o' ≤ o + x)) =
      placed.offsets.take (i + 1) := by
    conv_lhs => rw [← List.take_append_drop (i + 1) placed.offsets]
    rw [List.takeWhile_append_of_pos hfirst, hrest, List.append_nil]
  rw [memberAt, hsplit, List.length_take]
  omega

end StructLayout

theorem Program.exists_member_offset {p : Program} {path : List Nat} {t i m : Nat} {e : Extent}
    {s : StructType} (hs : p.types.struct? t = some s) (hm : s.members[i]? = some m)
    (h : p.dataLayout.extentFrom p.types path t = .ok (some e)) :
    ∃ placed o, p.dataLayout.structLayout p.types t = .ok (some placed) ∧
      e.size = placed.size ∧ placed.offsets[i]? = some o := by
  obtain ⟨_, _, _, placed, _, _, _, hlayout, rfl⟩ := DataLayout.structLayout_of_extent hs h
  have hi := (List.getElem?_eq_some_iff.mp hm).1
  rw [← DataLayout.length_of_structLayout hs hlayout] at hi
  exact ⟨placed, placed.offsets[i], hlayout, rfl, List.getElem?_eq_getElem hi⟩

theorem Program.exists_member_place {p : Program} {path : List Nat} {t i m : Nat} {e : Extent}
    {s : StructType} (hs : p.types.struct? t = some s) (hfits : p.exactSize s ≤ maxByteCount)
    (hm : s.members[i]? = some m) (h : p.dataLayout.extentFrom p.types path t = .ok (some e)) :
    ∃ placed o e', p.dataLayout.structLayout p.types t = .ok (some placed) ∧
      e.size = placed.size ∧ placed.offsets[i]? = some o ∧
      p.dataLayout.extentFrom p.types (t :: path) m = .ok (some e') ∧
      o + e'.size ≤ placed.size ∧
      (s.isUnion = false → (∀ j o', j < i → placed.offsets[j]? = some o' → o' ≤ o) ∧
        ∀ j o', i < j → placed.offsets[j]? = some o' → o + e'.size ≤ o') := by
  obtain ⟨_, members, extents, placed, hb, hall, hplace, hlayout, rfl⟩ :=
    DataLayout.structLayout_of_extent hs h
  obtain rfl : s.members = members := by simp [StructType.members, hb]
  obtain rfl := p.place_eq hfits hall hplace
  obtain ⟨hi, rfl⟩ := List.getElem?_eq_some_iff.mp hm
  have hlen := hall.length_eq
  have hoff := StructLayout.length_ofMembers s extents
  have ho : (StructLayout.ofMembers s extents).offsets[i]? = some _ :=
    List.getElem?_eq_getElem (by omega)
  have he : extents[i]? = some _ := List.getElem?_eq_getElem (by omega)
  obtain ⟨hend, hapart⟩ := StructLayout.getElem?_ofMembers ho he
  refine ⟨_, _, extents[i], hlayout, rfl, ho, hall.get hi (by omega), hend, ?_⟩
  intro hu
  refine ⟨?_, hapart hu⟩
  intro j o' hj ho'
  have hej : extents[j]? = some _ := List.getElem?_eq_getElem (by omega)
  have hh := (StructLayout.getElem?_ofMembers ho' hej).2 hu i _ hj ho
  omega

theorem Program.elementStart_zero {p : Program} {path : List Nat} {t m : Nat} {e : Extent}
    {s : StructType} (hs : p.types.struct? t = some s) (hm : s.members[0]? = some m)
    (h : p.dataLayout.extentFrom p.types path t = .ok (some e)) : p.elementStart t 0 = 0 := by
  obtain ⟨_, members, extents, placed, hb, hall, hplace, hlayout, _⟩ :=
    DataLayout.structLayout_of_extent hs h
  cases hall with
  | nil => simp [StructType.members, hb] at hm
  | cons _ _ =>
    simp [elementStart, TypeTable.get?_of_struct? hs, hlayout, StructLayout.place_first hplace]

theorem Program.elementStart_eq {p : Program} {t i o : Nat} {s : StructType}
    {placed : StructLayout} (hs : p.types.struct? t = some s)
    (hlayout : p.dataLayout.structLayout p.types t = .ok (some placed))
    (ho : placed.offsets[i]? = some o) : p.elementStart t i = o := by
  simp [elementStart, TypeTable.get?_of_struct? hs, hlayout, ho]

theorem Program.exists_member_at {p : Program} {t i o : Nat} {s : StructType}
    {placed : StructLayout} (hs : p.types.struct? t = some s)
    (hlayout : p.dataLayout.structLayout p.types t = .ok (some placed))
    (ho : placed.offsets[i]? = some o) :
    ∃ m, s.members[i]? = some m ∧ p.elementStart t i = o := by
  have hi := (List.getElem?_eq_some_iff.mp ho).1
  rw [DataLayout.length_of_structLayout hs hlayout] at hi
  exact ⟨_, List.getElem?_eq_getElem hi, p.elementStart_eq hs hlayout ho⟩

theorem Program.Solid.elementStart_pos {p : Program} {path : List Nat} {t i first m : Nat}
    {e : Extent} {s : StructType} (hsolid : p.Solid first) (hptr : 1 ≤ p.dataLayout.pointerSize)
    (hs : p.types.struct? t = some s) (hfits : p.exactSize s ≤ maxByteCount)
    (hu : s.isUnion = false) (hfirst : s.members[0]? = some first) (hm : s.members[i]? = some m)
    (hi : i ≠ 0)
    (h : p.dataLayout.extentFrom p.types path t = .ok (some e)) : 0 < p.elementStart t i := by
  obtain ⟨placed, o, em, hlayout, _, _, hem, _, hplace⟩ := p.exists_member_place hs hfits hfirst h
  have hpos := hsolid.size_pos hptr hem
  obtain ⟨placed', o', _, hlayout', _, ho', _⟩ := p.exists_member_place hs hfits hm h
  obtain rfl : placed = placed' := by simpa [hlayout] using hlayout'
  have hle := (hplace hu).2 i o' (by omega) ho'
  rw [p.elementStart_eq hs hlayout ho']
  omega

namespace Program

theorem element?_array {p : Program} {t element length i u : Nat}
    (ht : p.types.get? t = some (.array element length)) :
    p.element? t i = some u ↔ i < length ∧ element = u := by
  simp [element?, ht]

theorem element?_struct {p : Program} {t i : Nat} {s : StructType}
    (hs : p.types.struct? t = some s) : p.element? t i = s.members[i]? := by
  simp [element?, TypeTable.get?_of_struct? hs]

theorem element?_cases {p : Program} {t i u : Nat} (h : p.element? t i = some u) :
    (∃ length, p.types.get? t = some (.array u length) ∧ i < length) ∨
      ∃ s, p.types.struct? t = some s ∧ s.members[i]? = some u := by
  cases ht : p.types.get? t with
  | none => simp [element?, ht] at h
  | some ty =>
    cases ty with
    | array element length =>
      obtain ⟨hi, rfl⟩ := (element?_array ht).mp h
      exact .inl ⟨length, rfl, hi⟩
    | struct s =>
      have hs := TypeTable.struct?_of_get? ht
      exact .inr ⟨s, hs, by rwa [element?_struct hs] at h⟩
    | _ => simp [element?, ht] at h

theorem part_of_element? {p : Program} {t i u : Nat} (h : p.element? t i = some u) :
    p.types.Part t u := by
  rcases element?_cases h with ⟨length, ht, _⟩ | ⟨s, hs, hm⟩
  · exact .element ht
  · exact .member hs (List.mem_of_getElem? hm)

theorem Solid.pathBytes_lt {p : Program} {path indices : List Nat} {t : Nat} {e : Extent}
    (hsolid : p.Solid t) (hp : 1 ≤ p.dataLayout.pointerSize)
    (h : p.dataLayout.extentFrom p.types path t = .ok (some e)) (hin : p.InBounds t indices) :
    p.pathBytes t indices < p.byteCount t := by
  induction indices generalizing path t e with
  | nil =>
    rw [byteCount_of_extent h]
    exact hsolid.size_pos hp h
  | cons i rest ih =>
    obtain ⟨u, hu, hin⟩ := hin
    have hpart := part_of_element? hu
    obtain ⟨_, e', he'⟩ := DataLayout.extentFrom_part h hpart
    have hlt := ih (hsolid.inside (.single hpart)) he' hin
    simp only [pathBytes, hu, Option.getD_some]
    rcases element?_cases hu with ⟨length, ht, hi⟩ | ⟨s, hs, hm⟩
    · rw [hsolid.byteCount_array ht h]
      simp only [elementStart, ht]
      calc i * p.byteCount u + p.pathBytes u rest
          < i * p.byteCount u + p.byteCount u := by omega
        _ = p.byteCount u * (i + 1) := by ring
        _ ≤ p.byteCount u * length := Nat.mul_le_mul_left _ hi
    · obtain ⟨placed, o, em, hlayout, hsize, ho, hem, hend, _⟩ :=
        exists_member_place hs (hsolid.exactSize_le hs) hm h
      rw [byteCount_of_extent hem] at hlt
      rw [byteCount_of_extent h, hsize]
      simp only [elementStart, TypeTable.get?_of_struct? hs, hlayout, ho, Option.getD_some]
      omega

end Program

namespace Catalog

variable {c : Catalog} {p : Program} {t i u : Nat} {rest : List Nat}

theorem pathField?_array {length : Nat} (ht : p.types.get? t = some (.array u length))
    (hi : i < length) : c.pathField? p t (i :: rest) = c.pathField? p u rest := by
  have hns : p.types.struct? t = none := by simp [TypeTable.struct?, ht, Ty.struct?]
  simp [pathField?, hns, Program.element?, ht, hi]

theorem pathField?_union {s : StructType} (hs : p.types.struct? t = some s)
    (hun : c.treatsAsUnion s = true) : c.pathField? p t (i :: rest) = some 0 := by
  simp [pathField?, hs, hun]

theorem pathField?_member {s : StructType} {before inside : Nat}
    (hs : p.types.struct? t = some s) (hun : c.treatsAsUnion s = false)
    (hm : s.members[i]? = some u) (hbefore : c.fieldsBefore? p t i = some before)
    (hinside : c.pathField? p u rest = some inside) :
    c.pathField? p t (i :: rest) = some (before + inside) := by
  simp [pathField?, hs, hun, hbefore, Program.element?_struct hs, hm, hinside]

end Catalog

end AbstractMemory
