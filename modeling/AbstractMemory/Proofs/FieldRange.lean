import AbstractMemory.Proofs.Planning
import AbstractMemory.Proofs.Resolution
import Mathlib

/-! Where an offset can lead. Following an offset down a type always ends, at a
field that the type has, or at the first one if the type has none. -/

namespace AbstractMemory

namespace FieldTable

theorem length_sequential {parts : List (List Field)} {placed : StructLayout}
    (h : placed.offsets.length = parts.length) :
    (sequential parts placed).fields.length = parts.flatten.length := by
  simp only [sequential]
  generalize placed.offsets = offsets at h ⊢
  induction parts generalizing offsets with
  | nil => simp
  | cons part rest ih =>
    cases offsets with
    | nil => simp at h
    | cons o offsets => simp [ih offsets (by simpa using h)]

end FieldTable

namespace Catalog

variable {c : Catalog} {p : Program}

theorem partOf_stripArrays_length {t t' : Nat}
    (h : p.types.stripArrays t = p.types.stripArrays t') :
    (c.partOf p t).length = (c.partOf p t').length := by
  unfold partOf
  rw [h]
  cases c.canonical? p (p.types.stripArrays t') <;> rfl

theorem partOf_of_record {t : Nat} {s : StructType} {r : FieldRecord}
    (hs : p.types.struct? (p.types.stripArrays t) = some s)
    (hr : c.records[c.standIn s (p.types.stripArrays t)]? = some r) :
    c.partOf p t = r.fields := by
  simp [partOf, canonical?, hs, hr]

/-- The fields of a member are among those of the struct, from where the member
starts. Where there is no member, the struct itself takes its place. -/
theorem Grounded.member_range (hc : c.Grounded p) {k t : Nat} {s : StructType}
    {r : FieldRecord} {placed : StructLayout} (hs : p.types.struct? k = some s)
    (hr : c.records[k]? = some r) (ho : r.isOpaque = false) (hu : r.isUnion = false)
    (hlayout : p.dataLayout.structLayout p.types k = .ok (some placed))
    (ht : (c.partOf p t).length = r.fields.length) (i : Nat) :
    r.memberFields[i]?.getD 0 + max 1 (c.partOf p (s.members[i]?.getD t)).length ≤
      max 1 r.fields.length := by
  have htab := hc.tabulates hs hr ho
  have htable := htab.sequential (htab.isUnion.symm.trans hu) hlayout
  have hstarts : r.memberFields = FieldTable.starts (s.members.map (c.partOf p)) :=
    congrArg FieldTable.memberFields htable
  cases hm : s.members[i]? with
  | none =>
    have hnone : r.memberFields[i]? = none := by simpa [hstarts, FieldTable.starts] using hm
    simp [hnone, ht]
  | some m =>
    have hpart : (s.members.map (c.partOf p))[i]? = some (c.partOf p m) := by simp [hm]
    have hlength : r.fields.length = (s.members.map (c.partOf p)).flatten.length := by
      have hoffsets : placed.offsets.length = (s.members.map (c.partOf p)).length := by
        simp [DataLayout.length_of_structLayout hs hlayout]
      rw [← FieldTable.length_sequential hoffsets, ← htable]
      rfl
    have hstart := FieldTable.getElem?_starts (List.getElem?_eq_some_iff.mp hpart).1
    rw [← hstarts] at hstart
    have hle := FieldTable.length_take_add_le hpart
    -- an empty last member would start past the fields, but the record has no such fault
    have hlt := (FieldRecord.fault?_eq_none.mp (hc.record k r hr).faultless).2
    simp only [FieldRecord.fieldCount] at hlt
    rw [hstart, Option.getD_some, Option.getD_some]
    by_cases hpos : 0 < r.fields.length
    · have := hlt hpos _ (List.mem_of_getElem? hstart)
      omega
    · omega

/-- A type that is no struct under its arrays has an answer for its size. -/
def Measured (p : Program) (t : Nat) : Prop :=
  p.types.isStruct (p.types.stripArrays t) = false →
    ∃ size, p.dataLayout.size? p.types (p.types.stripArrays t) = .ok size

theorem measured_of_member {k m : Nat} {s : StructType} {placed : StructLayout}
    (hs : p.types.struct? k = some s)
    (hlayout : p.dataLayout.structLayout p.types k = .ok (some placed)) (hm : m ∈ s.members) :
    Measured p m := by
  intro _
  obtain ⟨n, hn⟩ := DataLayout.size?_of_structLayout hs hlayout hm
  obtain ⟨align, hextent⟩ := DataLayout.size?_eq_ok.mp hn
  obtain ⟨e, he⟩ := DataLayout.extentFrom_stripArrays hextent
  exact ⟨some e.size, DataLayout.size?_eq_ok.mpr ⟨e.align, he⟩⟩

theorem Grounded.exists_placed (hc : c.Grounded p) {k : Nat} {r : FieldRecord}
    (hr : c.records[k]? = some r) (ho : r.isOpaque = false) (hu : r.isUnion = false) :
    ∃ placed, p.dataLayout.structLayout p.types k = .ok (some placed) := by
  obtain ⟨s, hs, _⟩ := (hc.record k r hr).shape
  have htab := hc.tabulates hs hr ho
  have htable := htab.table
  simp only [tableOver, htab.isUnion.symm.trans hu, Bool.false_eq_true, if_false] at htable
  split at htable
  · rename_i placed hlayout
    exact ⟨placed, hlayout⟩
  · cases htable

theorem descend_range (hc : c.Grounded p) {path : List Nat} {t index outer offset : Nat}
    (ht : Measured p t) (hle : outer ≤ index) :
    ∃ f, c.descend p path t index outer offset = .ok f ∧
      f.index < index + max 1 (c.partOf p t).length := by
  -- a record met on the way with a body is the one that gives the type its fields
  have hfound : ∀ {t : Nat} {r : FieldRecord}, c.record? p (p.types.stripArrays t) = some r →
      ¬ (r.isOpaque || r.size == 0) = true →
      r.isOpaque = false ∧ c.records[r.type]? = some r ∧ c.partOf p t = r.fields := by
    intro t r hrec hnot
    have ho : r.isOpaque = false := by simp_all
    obtain ⟨hown, ho'⟩ | ⟨s, hs, hr⟩ := hc.record?_cases hrec
    · simp [ho'] at ho
    · rw [(hc.record _ r hr).type]
      exact ⟨ho, hr, partOf_of_record hs hr⟩
  fun_induction descend c p path t index outer offset with
  | case1 | case2 | case3 | case4 | case6 | case7 | case9 | case11 | case12 | case13 =>
    exact ⟨_, rfl, by dsimp only; omega⟩
  | case5 path t index outer offset _ stripped hst r hrec hsize hu e hlayout =>
    obtain ⟨ho, hr, _⟩ := hfound hrec hsize
    obtain ⟨placed, hplaced⟩ := hc.exists_placed hr ho (by simpa using hu)
    simp [hplaced] at hlayout
  | case8 path t index outer offset _ stripped hst r hrec hsize hu placed hlayout hp s hget
      rest m ih =>
    obtain ⟨ho, hr, hfields⟩ := hfound hrec hsize
    have hs : p.types.struct? r.type = some s := TypeTable.struct?_of_get? hget
    have hself : p.types.stripArrays stripped = stripped := by
      obtain ⟨s', hs'⟩ := Option.isSome_iff_exists.mp hst
      exact TypeTable.stripArrays_self hs'
    have hrange := hc.member_range (t := stripped) hs hr ho (by simpa using hu) hlayout
      (by rw [partOf_stripArrays_length hself, hfields]) m
    have hmeasured : Measured p (s.members[m]?.getD stripped) := by
      cases hm : s.members[m]? with
      | none =>
        intro hno
        simp [hself, hst] at hno
      | some member => exact measured_of_member hs hlayout (List.mem_of_getElem? hm)
    obtain ⟨f, hf, hlt⟩ := ih hmeasured (by omega)
    refine ⟨f, hf, ?_⟩
    rw [hfields]
    omega
  | case10 path t index outer offset _ stripped hst e hsize =>
    obtain ⟨size, hok⟩ := ht (by simpa using hst)
    exact absurd (hok.symm.trans hsize) (by simp)

theorem fieldInType_range (hc : c.Grounded p) {t : Nat} (ht : Measured p t) (offset : Int) :
    ∃ f, c.fieldInType p t offset = .ok f ∧ f.index < max 1 (c.partOf p t).length := by
  have hfirst : ∀ exact, ∃ f, (.ok ⟨0, exact⟩ : Except ProgramError ResolvedField) = .ok f ∧
      f.index < max 1 (c.partOf p t).length := fun exact => ⟨_, rfl, by dsimp only; omega⟩
  have hdescend : ∃ f, c.descend p [] t 0 0 offset.toNat = .ok f ∧
      f.index < 0 + max 1 (c.partOf p t).length := descend_range hc ht (Nat.le_refl 0)
  rw [Nat.zero_add] at hdescend
  unfold fieldInType
  split
  · exact hfirst false
  · split
    · exact hdescend
    · split
      · exact hfirst true
      · split
        · exact hfirst false
        · exact hdescend

end Catalog

end AbstractMemory
