import AbstractMemory.Proofs.Resolution
import AbstractMemory.Proofs.Usage
import Mathlib

/-! What a catalog knows once it has covered a program. Structs with a size and
without empty parts never fail, so all those that are used have records. -/

namespace AbstractMemory

namespace Catalog

variable {c : Catalog} {p : Program}

/-- A struct that has a size and no empty parts. -/
def Storable (p : Program) (t : Nat) : Prop :=
  p.types.isStruct t = true ∧ p.Solid t ∧ ∃ e, p.dataLayout.extent p.types t = .ok (some e)

theorem flattenable_storable (hd : p.DistinctScopes) : Flattenable p (Storable p) where
  body := by
    rintro t ⟨hst, hsolid, e, he⟩
    obtain ⟨s, hs⟩ := TypeTable.struct_of_isStruct hst
    obtain ⟨_, members, _, _, hb, _⟩ := DataLayout.structLayout_of_extent hs he
    have hne := hsolid.struct hs
    exact ⟨s, members, hs, hb, by simpa [StructType.members, hb] using hne⟩
  alone := fun t s name u _ hs hn hu => hd.eq_of_scopeOf hs hn hu
  member := by
    rintro t s m ⟨_, hsolid, e, he⟩ hs hm hst
    have hin : p.types.ByValue t (p.types.stripArrays m) :=
      (p.types.byValue_stripArrays m).head (.member hs hm)
    exact ⟨hst, hsolid.inside hin, DataLayout.extent_byValue he hin⟩
  layout := by
    rintro t ⟨hst, _, e, he⟩
    obtain ⟨s, hs⟩ := TypeTable.struct_of_isStruct hst
    obtain ⟨_, _, _, _, _, _, _, hlayout, _⟩ := DataLayout.structLayout_of_extent hs he
    exact ⟨_, hlayout⟩
  acyclic := fun t ht => DataLayout.not_inside_self ht.2.2.choose_spec

theorem Grounded.hasPart_global (hc : c.Grounded p) (hd : p.DistinctScopes)
    (hcov : ∀ index < p.modules.size, c.Covers p (Storable p) index) {g n : Nat} {gl : Global}
    (hg : p.ListsGlobal g gl) (hsolid : p.Solid gl.valueType)
    (hsized : p.dataLayout.size? p.types gl.valueType = .ok (some n)) :
    c.HasPart p gl.valueType := by
  intro s hs
  have hin := p.types.byValue_stripArrays gl.valueType
  have hst : p.types.isStruct (p.types.stripArrays gl.valueType) = true := by
    simp [TypeTable.isStruct, hs]
  obtain ⟨align, he⟩ := DataLayout.size?_eq_ok.mp hsized
  obtain ⟨e, he⟩ := DataLayout.extent_byValue he hin
  obtain ⟨index, hindex, hmem⟩ := hg.mem_usedStructs hin hst
  obtain ⟨used, hused, hall⟩ := hcov index hindex
  obtain ⟨r, hr⟩ := mem_records_iff.mp
    (hall _ (hmem used hused) ⟨hst, hsolid.inside hin, e, he⟩)
  rw [← hc.standIn_self hd hs] at hr
  obtain ⟨_, members, _, _, hb, _⟩ := DataLayout.structLayout_of_extent hs he
  have ho := hc.isOpaque_standIn hs hb hr
  exact ⟨hc.settled hs hr ho, r, hr, ho⟩

end Catalog

end AbstractMemory
