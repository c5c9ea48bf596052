import AbstractMemory.Proofs.FieldRange
import AbstractMemory.Proofs.Geometry
import Mathlib

/-! Memory of unknown type. Its object is as long as the longest record, so the
fields of any struct fit in it. For that no struct may first be recorded while
objects are made: the modules must reach all types that an object can have. -/

namespace AbstractMemory

open Steps

/-- The value `v` is in the body of a function that some module lists. -/
def Program.Places (p : Program) (v : Nat) : Prop :=
  ∃ m ∈ p.modules.toList, ∃ g ∈ m.functions,
    v ∈ ((p.values.get? g).bind Value.function?).elim [] Function.body

/-- Every instruction belongs to a function that some module lists. -/
def Program.PlacesInstructions (p : Program) : Prop :=
  ∀ v < p.values.size, ((p.values.get? v).bind Value.instruction?).isSome = true → p.Places v

instance (p : Program) : Decidable p.PlacesInstructions :=
  inferInstanceAs (Decidable (∀ v < p.values.size,
    ((p.values.get? v).bind Value.instruction?).isSome = true →
      ∃ m ∈ p.modules.toList, ∃ g ∈ m.functions,
        v ∈ ((p.values.get? g).bind Value.function?).elim [] Function.body))

namespace Catalog

variable {c : Catalog} {p : Program} {t : Nat}

def fieldCounts (c : Catalog) : Set Nat :=
  { n | ∃ (k : Nat) (r : FieldRecord), c.records[k]? = some r ∧ r.isFinal = true ∧
    r.fieldCount = n }

theorem Intact.isGreatest_maxFields (h : c.Intact p) :
    IsGreatest (insert 0 c.fieldCounts) c.maxFields := by
  constructor
  · refine h.complete.counted.reached.imp id ?_
    rintro ⟨k, r, hr, hcount⟩
    exact ⟨k, r, hr, (h.coherent.grounded.record k r hr).isFinal, hcount⟩
  · rintro n (rfl | ⟨k, r, hr, _, rfl⟩)
    · exact Nat.zero_le _
    · exact h.complete.counted.bound k r hr

theorem Counted.partOf_le (h : c.Counted) {s : StructType}
    (hs : p.types.struct? (p.types.stripArrays t) = some s) :
    (c.partOf p t).length ≤ c.maxFields := by
  simp only [partOf, canonical?, hs, Option.map_some]
  cases hr : c.records[c.standIn s (p.types.stripArrays t)]? with
  | none => exact Nat.zero_le _
  | some r => exact h.bound _ r hr

/-- Structs that a catalog knows are answered without a longer record. -/
theorem serves_known (p : Program) (c₀ : Catalog) :
    Serves p (c₀.Knows p)
      (fun c => c.Intact p ∧ c₀.Grows c ∧ c.maxFields = c₀.maxFields) where
  coherent := fun _ h => h.1.coherent
  layoutOf := by
    rintro t c ht ⟨hc, hg, hmax⟩
    have hcoherent := (serves_coherent p).layoutOf t c trivial hc.coherent
    refine ((hcoherent.and (layoutOf_complete hc t)).and
      (layoutOf_maxFields hc (ht.mono hg))).mono ?_ (fun _ _ => trivial)
    rintro r c' ⟨⟨⟨hc', hg', hr⟩, hdone⟩, hmax'⟩
    exact ⟨⟨⟨hc', hdone⟩, hg.trans hg', hmax'.trans hmax⟩, hg', hr⟩

theorem KnowsUsed.of_reaches (h : c.KnowsUsed p) (ht : p.Reaches t) : c.Knows p t := by
  obtain ⟨index, hindex, hused⟩ := ht.used
  obtain ⟨used, hok, hall⟩ := h index hindex
  intro s hs
  exact hall t ((hused used hok).2 (by simp [TypeTable.isStruct, hs])) s hs

end Catalog

namespace Population

variable {c : Catalog} {p : Program} {v : Nat}

theorem pointee?_of_castPointee? {user : Value} {t : Nat} (h : castPointee? p user = some t) :
    user.instruction?.isSome = true ∧ p.types.pointee? user.type = some t := by
  unfold castPointee? at h
  split at h
  · rename_i kind operand hop
    split at h
    · cases h
    · exact ⟨by simp [hop], h⟩
  · cases h

theorem reaches_of_places {value : Value} (hv : p.Places v) (hvalue : p.values.get? v = some value) :
    p.Reaches value.type := by
  obtain ⟨m, hm, g, hg, hbody⟩ := hv
  cases howner : (p.values.get? g).bind Value.function? with
  | none => simp [howner] at hbody
  | some f =>
    obtain ⟨owner, hget, hf⟩ := Option.bind_eq_some_iff.mp howner
    rw [howner] at hbody
    exact Program.reaches_of_instruction (Array.mem_toList_iff.mp hm) hg hget hf hbody hvalue
      (List.mem_cons_self ..)

/-- If the modules reach the type of a value, they reach all the types that its
object can have. -/
theorem askable_of_reaches (hplaces : p.PlacesInstructions) (hc : c.KnowsUsed p)
    (hv : ∀ value, p.values.get? v = some value → p.Reaches value.type) :
    Askable p (c.Knows p) v := by
  have hpointee : ∀ t u, p.Reaches t → p.types.pointee? t = some u →
      c.Knows p (p.types.stripArrays u) := by
    intro t u ht hu
    exact hc.of_reaches ((ht.follows (TypeTable.follows_pointee hu)).byValue
      (p.types.byValue_stripArrays u))
  constructor
  · intro value t hvalue ht
    exact hpointee _ t (hv value hvalue) ht
  · intro value user other t _ _ hother hcast
    obtain ⟨hop, ht⟩ := pointee?_of_castPointee? hcast
    have hlt : user < p.values.size := ValueTable.lt_size_of_get? hother
    have hplace := hplaces user hlt (by simpa [hother] using hop)
    exact hpointee _ t (reaches_of_places hplace hother) ht

theorem servable_of_knowsUsed (hplaces : p.PlacesInstructions) (hc : c.KnowsUsed p) {m : Module}
    (hm : m ∈ p.modules) : Servable p (c.Knows p) m where
  globals := by
    intro v hv
    refine askable_of_reaches hplaces hc ?_
    intro value hvalue
    exact Program.reaches_of_global hm hv hvalue (List.mem_cons_self ..)
  bodies := by
    intro g hg owner f howner hf v hv
    refine askable_of_reaches hplaces hc ?_
    intro value hvalue
    exact Program.reaches_of_instruction hm hg howner hf hv hvalue (List.mem_cons_self ..)

end Population

namespace MemoryModel

variable {p : Program} {config : Config} {m : MemoryModel}

theorem build_intact (h : build p config = .ok m) (hplaces : p.PlacesInstructions) :
    m.catalog.Intact p ∧ ∀ alloc ∈ m.heap, alloc.unknownType = true →
      alloc.fieldCount = max 1 m.catalog.maxFields ∧ m.arena.Block alloc.site alloc.object
        (List.replicate alloc.fieldCount false) := by
  obtain ⟨c, hc, hknown, hpopulate⟩ := build_covered h
  obtain ⟨hsound, _⟩ := (Population.populate_meets (Catalog.serves_known p c)
    (Population.empty_sound ⟨hc, Catalog.Grows.refl c, rfl⟩)
    (fun _ hm => Population.servable_of_knowsUsed hplaces hknown hm) _ _).of_ok hpopulate
  obtain ⟨hintact, _, hmax⟩ := hsound.catalog
  refine ⟨hintact, fun alloc halloc hunknown => ?_⟩
  have hmade := hsound.heap alloc halloc
  obtain ⟨flags, hblock, _, hflags⟩ := hmade.block
  obtain ⟨c', ⟨_, _, hmax'⟩, hcount⟩ := hmade.largest hunknown
  refine ⟨?_, hflags hunknown ▸ hblock⟩
  rw [hcount, hmax']
  exact congrArg (max 1) hmax.symm

/-- Memory of unknown type has as many nodes as the longest record has fields.
Wherever an offset leads in a recorded struct, there is a node for it. -/
theorem unknown_heap_expanded (h : build p config = .ok m) (hplaces : p.PlacesInstructions) :
    IsGreatest (insert 0 m.catalog.fieldCounts) m.maxFields ∧
    ∀ alloc ∈ m.heap, alloc.unknownType = true →
      alloc.fieldCount = max 1 m.maxFields ∧
      ∀ t r, m.catalog.record? p t = some r → ∀ offset f,
        m.catalog.fieldInType p t offset = .ok f →
          m.arena.fieldNode alloc.object f.index = .ok (alloc.object + f.index) := by
  obtain ⟨_, hmax, _⟩ := build_population h
  obtain ⟨hintact, hheap⟩ := build_intact h hplaces
  rw [hmax]
  refine ⟨hintact.isGreatest_maxFields, fun alloc halloc hunknown => ?_⟩
  obtain ⟨hcount, hblock⟩ := hheap alloc halloc hunknown
  refine ⟨hcount, fun t r hr offset f hf => ?_⟩
  have hc := hintact.coherent.grounded
  obtain ⟨s, hs⟩ : ∃ s, p.types.struct? t = some s := by
    obtain ⟨hown, _⟩ | ⟨s, hs, _⟩ := hc.record?_cases hr
    · obtain ⟨s, hs, _⟩ := (hc.record t r hown).shape
      exact ⟨s, hs⟩
    · exact ⟨s, hs⟩
  rw [← TypeTable.stripArrays_self hs] at hs
  have hmeasured : Catalog.Measured p t := by
    intro hno
    simp [TypeTable.isStruct, hs] at hno
  obtain ⟨f', hf', hlt⟩ := Catalog.fieldInType_range hc hmeasured offset
  obtain rfl := Except.ok.inj (hf.symm.trans hf')
  have hle := hintact.complete.counted.partOf_le hs
  rw [hblock.fieldNode (by rw [List.length_replicate]; omega)]
  simp [List.head?_replicate]

theorem unknown_heap_expanded_stored : ∃ m, build stored {} = .ok m ∧
    stored.PlacesInstructions ∧ (∃ alloc ∈ m.heap, alloc.unknownType = true ∧
      alloc.object = 13 ∧ alloc.fieldCount = max 1 m.maxFields) ∧
    m.catalog.fieldInType stored 1 4 = .ok ⟨1, true⟩ ∧ m.arena.fieldNode 13 1 = .ok 14 := by
  have hplaces : stored.PlacesInstructions := by decide +kernel
  obtain ⟨m, hb, hfacts⟩ := exists_built stored {} (fun m =>
    decide ((∃ alloc ∈ m.heap, alloc.unknownType = true ∧ alloc.object = 13) ∧
      (m.catalog.record? stored 1).isSome = true ∧
      m.catalog.fieldInType stored 1 4 = .ok ⟨1, true⟩)) (by decide +kernel)
  obtain ⟨⟨alloc, halloc, hunknown, hobject⟩, hrecord, hf⟩ := of_decide_eq_true hfacts
  obtain ⟨r, hr⟩ := Option.isSome_iff_exists.mp hrecord
  obtain ⟨hcount, hfields⟩ := (unknown_heap_expanded hb hplaces).2 alloc halloc hunknown
  have hnode := hfields 1 r hr 4 _ hf
  rw [hobject] at hnode
  exact ⟨m, hb, hplaces, ⟨alloc, halloc, hunknown, hobject, hcount⟩, hf, hnode⟩

end MemoryModel

end AbstractMemory
