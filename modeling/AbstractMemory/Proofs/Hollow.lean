import AbstractMemory.Proofs.FieldRange
import AbstractMemory.Proofs.Solid
import Mathlib

/-! Structs without fields. An empty struct adds no field to the struct around it,
so a member of that kind starts where the next member does. If there is none, it
starts past the last field, and no record can say so. -/

namespace AbstractMemory

namespace FieldTable

theorem length_take_le (parts : List (List Field)) (i : Nat) :
    (parts.take i).flatten.length ≤ parts.flatten.length := by
  have hsplit := congrArg (fun l => (List.flatten l).length) (List.take_append_drop i parts)
  simp only [List.flatten_append, List.length_append] at hsplit
  omega

/-- Every part starts at a field that is there exactly if the last part has one. -/
theorem starts_lt_iff (parts : List (List Field)) :
    (∀ f ∈ starts parts, f < parts.flatten.length) ↔ parts.getLast? ≠ some [] := by
  rcases List.eq_nil_or_concat parts with rfl | ⟨front, last, rfl⟩
  · simp [starts]
  · rw [List.concat_eq_append, starts_append, List.getLast?_concat]
    constructor
    · intro h hlast
      have hlt := h front.flatten.length (by simp)
      simp [Option.some.inj hlast] at hlt
    · intro h f hf
      have hpos : 0 < last.length := List.length_pos_iff.mpr fun he => h (by rw [he])
      have hle : f ≤ front.flatten.length := by
        rcases List.mem_append.mp hf with hf | hf
        · obtain ⟨i, _, rfl⟩ := List.mem_map.mp hf
          exact length_take_le front i
        · exact (List.mem_singleton.mp hf).le
      simp only [List.flatten_append, List.flatten_cons, List.flatten_nil, List.append_nil,
        List.length_append]
      omega

end FieldTable

/-- A struct holds another one, as a member or in an array that is a member. -/
def Program.HoldsStruct (p : Program) (a b : Nat) : Prop :=
  ∃ s m, p.types.struct? a = some s ∧ m ∈ s.members ∧ p.types.stripArrays m = b ∧
    p.types.isStruct b = true

theorem Program.HoldsStruct.inside {p : Program} {a b : Nat} (h : p.HoldsStruct a b) :
    Relation.TransGen p.types.Part a b := by
  obtain ⟨s, m, hs, hm, rfl, _⟩ := h
  exact .head' (.member hs hm) (p.types.byValue_stripArrays m)

namespace Catalog

variable {c c' : Catalog} {p : Program} {k m : Nat} {s : StructType} {r : FieldRecord}

/-- The structs that come to no field: structs of such structs, and unions of
nothing. -/
inductive Hollow (c : Catalog) (p : Program) : Nat → Prop
  | intro {k : Nat} {s : StructType} {members : List Nat} (hs : p.types.struct? k = some s)
      (hb : s.body = some members) (hu : c.treatsAsUnion s = true → members = [])
      (h : ∀ m ∈ members, Hollow c p (p.types.stripArrays m)) : Hollow c p k

theorem Hollow.congr (h : c.Hollow p k) (hname : c'.unionName = c.unionName) : c'.Hollow p k := by
  induction h with
  | intro hs hb hu _ ih => exact .intro hs hb (by rwa [treatsAsUnion, hname]) ih

/-- A struct with fields whose last member has none. -/
def EndsHollow (c : Catalog) (p : Program) (k : Nat) : Prop :=
  ∃ s members last m, p.types.struct? k = some s ∧ s.body = some members ∧
    c.treatsAsUnion s = false ∧ members.getLast? = some last ∧
    c.Hollow p (p.types.stripArrays last) ∧
    m ∈ members ∧ ¬ c.Hollow p (p.types.stripArrays m)

theorem EndsHollow.congr (h : c.EndsHollow p k) (hname : c'.unionName = c.unionName) :
    c'.EndsHollow p k := by
  obtain ⟨s, members, last, m, hs, hb, hu, hlast, hhollow, hm, hsolid⟩ := h
  exact ⟨s, members, last, m, hs, hb, by rwa [treatsAsUnion, hname], hlast, hhollow.congr hname,
    hm, fun h => hsolid (h.congr hname.symm)⟩

theorem hollow_iff {members : List Nat} (hs : p.types.struct? k = some s)
    (hb : s.body = some members) : c.Hollow p k ↔ (c.treatsAsUnion s = true → members = []) ∧
      ∀ m ∈ members, c.Hollow p (p.types.stripArrays m) := by
  constructor
  · rintro ⟨hs', hb', hu, h⟩
    obtain rfl := Option.some.inj (hs.symm.trans hs')
    obtain rfl := Option.some.inj (hb.symm.trans hb')
    exact ⟨hu, h⟩
  · exact fun ⟨hu, h⟩ => .intro hs hb hu h

theorem partOf_eq_nil_iff (hc : c.Grounded p) (hd : p.DistinctScopes) (hm : c.HasPart p m)
    (h : ∀ r, c.records[p.types.stripArrays m]? = some r → r.isOpaque = false →
      (r.fields = [] ↔ c.Hollow p (p.types.stripArrays m))) :
    c.partOf p m = [] ↔ c.Hollow p (p.types.stripArrays m) := by
  cases hs : p.types.struct? (p.types.stripArrays m) with
  | none =>
    refine iff_of_false (by simp [partOf, canonical?, hs]) ?_
    rintro ⟨hs', _⟩
    simp [hs] at hs'
  | some s =>
    obtain ⟨r, hr, ho⟩ := hm.record hc hd rfl hs
    rw [← h r hr ho, partOf_of_record hs (by rwa [hc.standIn_self hd hs])]

theorem Tabulates.sequential_eq (hu : c.treatsAsUnion s = false) {members : List Nat}
    (hs : p.types.struct? k = some s) (hb : s.body = some members)
    (h : c.Tabulates p k s members r) :
    r.memberFields = FieldTable.starts (members.map (c.partOf p)) ∧
      r.fields.length = (members.map (c.partOf p)).flatten.length := by
  have htable := h.table
  simp only [tableOver, hu, Bool.false_eq_true, if_false] at htable
  split at htable
  · rename_i placed hlayout
    have hlen := DataLayout.length_of_structLayout hs hlayout
    have htable := Option.some.inj htable
    have hfields : r.fields = (FieldTable.sequential (members.map (c.partOf p)) placed).fields :=
      (congrArg FieldTable.fields htable).symm
    refine ⟨(congrArg FieldTable.memberFields htable).symm, ?_⟩
    rw [hfields, FieldTable.length_sequential]
    simp [hlen, StructType.members, hb]
  · cases htable

theorem Tabulates.union_eq (hu : c.treatsAsUnion s = true) {members : List Nat}
    (h : c.Tabulates p k s members r) : r.fields = [] ↔ members = [] := by
  have htable := h.table
  simp only [tableOver, hu, if_true, Option.some.injEq] at htable
  have hfields := congrArg FieldTable.fields htable
  by_cases hnil : members = []
  · simp only [hnil, List.isEmpty_nil, if_true] at hfields
    exact iff_of_true hfields.symm hnil
  · simp only [List.isEmpty_iff, hnil, if_false, FieldTable.overlaid] at hfields
    exact iff_of_false (fun he => by simp [FieldRecord.table, he] at hfields) hnil

theorem Grounded.fields_eq_nil_iff (hc : c.Grounded p) (hd : p.DistinctScopes)
    (hr : c.records[k]? = some r) (ho : r.isOpaque = false) :
    r.fields = [] ↔ c.Hollow p k := by
  -- by the rank of the struct, since what it holds has smaller ones
  obtain ⟨rank, hrank⟩ := hc.ranked
  induction hn : rank k using Nat.strong_induction_on generalizing k r with
  | _ n ih =>
    subst hn
    obtain ⟨s, hs, _, _, htab⟩ := (hc.record k r hr).shape
    obtain ⟨members, hb⟩ := hc.exists_body hs hr ho
    have htab := htab members hb
    rw [hollow_iff hs hb]
    cases hu : c.treatsAsUnion s with
    | true =>
      rw [htab.union_eq hu]
      constructor
      · rintro rfl
        simp
      · exact fun h => h.1 rfl
    | false =>
      rw [← List.length_eq_zero_iff, (htab.sequential_eq hu hs hb).2, List.length_eq_zero_iff,
        List.flatten_eq_nil_iff, List.forall_mem_map]
      simp only [Bool.false_eq_true, false_implies, true_and]
      refine forall₂_congr fun m hm => partOf_eq_nil_iff hc hd (htab.parts m hm) ?_
      intro r' hr' ho'
      obtain ⟨s', hs', _⟩ := (hc.record _ r' hr').shape
      refine ih _ (hrank k _ (mem_records_iff.mpr ⟨r, hr⟩) ?_) hr' ho' rfl
      exact ⟨s, m, hs, by simpa [StructType.members, hb] using hm,
        canonical?_eq_some.mpr ⟨s', hs', hc.standIn_self hd hs'⟩⟩

/-- Over members that are recorded, fields are counted right unless the struct
ends hollow. -/
theorem Grounded.starts_lt_iff (hc : c.Grounded p) (hd : p.DistinctScopes) {members : List Nat}
    (hs : p.types.struct? k = some s) (hb : s.body = some members)
    (hu : c.treatsAsUnion s = false) (hparts : ∀ m ∈ members, c.HasPart p m) :
    (0 < (members.map (c.partOf p)).flatten.length →
      ∀ f ∈ FieldTable.starts (members.map (c.partOf p)),
        f < (members.map (c.partOf p)).flatten.length) ↔ ¬ c.EndsHollow p k := by
  have hpart : ∀ m ∈ members, c.partOf p m = [] ↔ c.Hollow p (p.types.stripArrays m) :=
    fun m hm => partOf_eq_nil_iff hc hd (hparts m hm) fun _ => hc.fields_eq_nil_iff hd
  rw [FieldTable.starts_lt_iff, List.getLast?_map, List.length_pos_iff]
  constructor
  · rintro h ⟨s', members', last, m, hs', hb', _, hlast, hhollow, hm, hsolid⟩
    obtain rfl := Option.some.inj (hs.symm.trans hs')
    obtain rfl := Option.some.inj (hb.symm.trans hb')
    refine h ?_ ?_
    · simp only [ne_eq, List.flatten_eq_nil_iff, List.forall_mem_map, not_forall]
      exact ⟨m, hm, fun he => hsolid ((hpart m hm).mp he)⟩
    · rw [hlast, Option.map_some, (hpart last (List.mem_of_getLast? hlast)).mpr hhollow]
  · intro h hne hnil
    obtain ⟨last, hlast, hempty⟩ := Option.map_eq_some_iff.mp hnil
    simp only [ne_eq, List.flatten_eq_nil_iff, List.forall_mem_map, not_forall] at hne
    obtain ⟨m, hm, hfull⟩ := hne
    exact h ⟨s, members, last, m, hs, hb, hu, hlast,
      (hpart last (List.mem_of_getLast? hlast)).mp hempty, hm,
      fun hhollow => hfull ((hpart m hm).mpr hhollow)⟩

theorem Grounded.not_endsHollow (hc : c.Grounded p) (hd : p.DistinctScopes)
    (hr : c.records[k]? = some r) : ¬ c.EndsHollow p k := by
  intro hends
  obtain ⟨s, members, _, _, hs, hb, hu, _⟩ := id hends
  obtain ⟨s', hs', _, _, htab⟩ := (hc.record k r hr).shape
  obtain rfl := Option.some.inj (hs.symm.trans hs')
  obtain ⟨hstarts, hcount⟩ := (htab members hb).sequential_eq hu hs hb
  have hfault := (FieldRecord.fault?_eq_none.mp (hc.record k r hr).faultless).2
  rw [hstarts, FieldRecord.fieldCount, hcount] at hfault
  exact (hc.starts_lt_iff hd hs hb hu (htab members hb).parts).mp hfault hends

end Catalog

end AbstractMemory
