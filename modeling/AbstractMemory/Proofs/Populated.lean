import AbstractMemory.Model.Basic
import AbstractMemory.Proofs.Filling
import AbstractMemory.Proofs.Populating
import Mathlib

/-! The arena of a whole program. Modules are filled one after another, and the
instructions of a function get their values before any of them gets an object,
so that no object is made twice. -/

namespace AbstractMemory

open Steps

namespace Population

variable {p : Program} {asked : Nat → Prop} {inv : Catalog → Prop} {s s' : Population} {v : Nat}

/-- A value has an object if its type says what it points to. -/
def HasObject (p : Program) (v : Nat) (s : Population) : Prop :=
  ∀ value, p.values.get? v = some value → (p.types.pointee? value.type).isSome = true →
    v ∈ s.arena.objectNodes

theorem populateInstruction_meets (hserves : Catalog.Serves p asked inv) (h : Sound p inv s)
    (hv : v ∉ s.arena.objectNodes) (hknown : v ∈ s.arena.valueNodes) (hask : Askable p asked v)
    (allocators : AllocatorTable) :
    Meets (populateInstruction p allocators v) s
      (fun _ s' => Sound p inv s' ∧ s.Touches s' v ∧ ∀ value allocated,
        p.values.get? v = some value → value.instruction? = some (.alloca allocated) →
          HasObject p v s') (fun _ => True) := by
  unfold populateInstruction
  refine Meets.bind (meets_ask_value p v s) ?_
  rintro value _ ⟨hvalue, rfl⟩
  have hone : ∀ value', p.values.get? v = some value' → value = value' :=
    fun value' h' => Option.some.inj (hvalue.symm.trans h')
  -- what is not a local variable need not get an object
  have hother : (∀ allocated, value.instruction? ≠ some (.alloca allocated)) → ∀ s', Sound p inv s' →
      s.Touches s' v → Sound p inv s' ∧ s.Touches s' v ∧ ∀ value allocated,
        p.values.get? v = some value → value.instruction? = some (.alloca allocated) →
          HasObject p v s' := by
    intro hno s' h' htouches
    exact ⟨h', htouches, fun value' allocated hv' hop => (hno allocated (hone value' hv' ▸ hop)).elim⟩
  split
  · refine (createPointedTo_meets hserves h hv hknown hvalue
      (fun t => hask.pointee value t hvalue)).mono ?_ (fun _ _ => trivial)
    rintro _ s' ⟨h', htouches, hmapped⟩
    refine ⟨h', htouches, ?_⟩
    intro _ _ _ _ value' hv' hsome
    exact hmapped (hone value' hv' ▸ hsome)
  · rename_i hop
    have hno : ∀ allocated, value.instruction? ≠ some (.alloca allocated) := by simp [hop]
    refine Meets.bind (meets_ask (fun _ _ => rfl) (fun _ _ => trivial)
      : Meets _ s (fun _ s₁ => s = s₁) (fun _ => True)) ?_
    rintro callee _ rfl
    split
    · exact hother hno s h (Touches.refl s v)
    · refine Meets.bind (meets_ask (fun _ _ => rfl) (fun _ _ => trivial)
        : Meets _ s (fun _ s₁ => s = s₁) (fun _ => True)) ?_
      rintro target _ rfl
      split
      · exact hother hno s h (Touches.refl s v)
      · exact (populateHeap_meets hserves h hv hknown hask ⟨value, _, _, hvalue, hop⟩ _).mono
          (fun _ s' h' => hother hno s' h'.1 h'.2) (fun _ _ => trivial)
  · rename_i hop _
    exact hother (fun allocated => hop allocated) s h (Touches.refl s v)

theorem forM_sound {α : Type} {f : α → Populating Unit} {l : List α}
    (done : α → Population → Prop) (hlast : ∀ x s s', s.Persists s' → done x s → done x s')
    (hstep : ∀ x ∈ l, ∀ s, Sound p inv s →
      Meets (f x) s (fun _ s' => Sound p inv s' ∧ s.Persists s' ∧ done x s') (fun _ => True))
    (h : Sound p inv s) :
    Meets (l.forM f) s (fun _ s' => Sound p inv s' ∧ s.Persists s' ∧ ∀ x ∈ l, done x s')
      (fun _ => True) :=
  Meets.forM_lasting Persists.refl (fun _ _ _ => Persists.trans) done hlast hstep h

theorem HasObject.mono (h : HasObject p v s) (hp : s.Persists s') : HasObject p v s' :=
  fun value hv hsome => hp v (h value hv hsome)

end Population

/-- A function whose instructions are made into nodes. -/
structure Program.Models (p : Program) (allocators : AllocatorTable) (v : Nat) (f : Function) :
    Prop where
  body : ∃ value, p.values.get? v = some value ∧ value.function? = some f ∧
    value.isDeclaration = false ∧ value.isIntrinsic = false ∧
    value.name.any allocators.contains = false

namespace Population

variable {p : Program} {asked : Nat → Prop} {inv : Catalog → Prop} {s s' : Population} {v : Nat}

/-- The instructions of a body are all different and have no objects before they
get their own. -/
theorem populateInstructions_meets (hserves : Catalog.Serves p asked inv) (h : Sound p inv s)
    {body : List Nat} (hnodup : body.Nodup) (hfree : ∀ u ∈ body, u ∉ s.arena.objectNodes)
    (hknown : ∀ u ∈ body, u ∈ s.arena.valueNodes) (hask : ∀ u ∈ body, Askable p asked u)
    (allocators : AllocatorTable) :
    Meets (body.forM (populateInstruction p allocators)) s
      (fun _ s' => Sound p inv s' ∧ s.Persists s' ∧ ∀ u ∈ body, ∀ value allocated,
        p.values.get? u = some value → value.instruction? = some (.alloca allocated) →
          HasObject p u s') (fun _ => True) := by
  refine Meets.mono (Meets.forM (fun done s' => Sound p inv s' ∧ s.Persists s' ∧
    (∀ u ∈ body, u ∉ done → u ∉ s'.arena.objectNodes) ∧
    s'.arena.valueNodes = s.arena.valueNodes ∧ ∀ u ∈ done, ∀ value allocated,
      p.values.get? u = some value → value.instruction? = some (.alloca allocated) →
        HasObject p u s') ?_ ⟨h, Persists.refl s, fun u hu _ => hfree u hu, rfl, by simp⟩)
    (fun _ _ h => ⟨h.1, h.2.1, h.2.2.2.2⟩) (fun _ h => h)
  rintro done u rest s₁ rfl ⟨h₁, hp₁, hfree₁, hvalues, hdone⟩
  have hu : u ∈ done ++ u :: rest := by simp
  have hnew : u ∉ done := by
    intro hin
    exact (List.nodup_append.mp hnodup).2.2 u hin u (by simp) rfl
  refine (populateInstruction_meets hserves h₁ (hfree₁ u hu hnew) (hvalues ▸ hknown u hu)
    (hask u hu) allocators).mono ?_ (fun _ _ => trivial)
  rintro _ s₂ ⟨h₂, htouches, halloca⟩
  refine ⟨h₂, hp₁.trans htouches.persists, ?_, htouches.valueNodes.trans hvalues, ?_⟩
  · intro w hw hnot hin
    rw [List.mem_append, List.mem_singleton, not_or] at hnot
    exact (htouches.others w hin).elim hnot.2 (hfree₁ w hw hnot.1)
  · intro w hw
    rcases List.mem_append.mp hw with hw | hw
    · exact fun value allocated hv hop =>
        (hdone w hw value allocated hv hop).mono htouches.persists
    · obtain rfl := List.mem_singleton.mp hw
      exact halloca

theorem populateBody_meets (hserves : Catalog.Serves p asked inv) (h : Sound p inv s)
    (allocators : AllocatorTable)
    (hask : ∀ value f, p.values.get? v = some value → value.function? = some f →
      ∀ u ∈ f.body, Askable p asked u) :
    Meets (populateBody p allocators v) s
      (fun _ s' => Sound p inv s' ∧ s.Persists s' ∧ ∀ f, p.Models allocators v f →
        ∀ u ∈ f.body, ∀ value allocated, p.values.get? u = some value →
          value.instruction? = some (.alloca allocated) → HasObject p u s') (fun _ => True) := by
  unfold populateBody
  refine Meets.bind (meets_ask_value p v s) ?_
  rintro value _ ⟨hvalue, rfl⟩
  have hone : ∀ f, p.Models allocators v f → value.function? = some f ∧
      value.isDeclaration = false ∧ value.isIntrinsic = false ∧
      value.name.any allocators.contains = false := by
    rintro f ⟨value', hvalue', hmodels⟩
    obtain rfl := Option.some.inj (hvalue.symm.trans hvalue')
    exact hmodels
  have hskip : (∀ f, ¬ p.Models allocators v f) → ∀ s', Sound p inv s' → s.Persists s' →
      Sound p inv s' ∧ s.Persists s' ∧ ∀ f, p.Models allocators v f →
        ∀ u ∈ f.body, ∀ value allocated, p.values.get? u = some value →
          value.instruction? = some (.alloca allocated) → HasObject p u s' :=
    fun hno s' h' hp' => ⟨h', hp', fun f hf => (hno f hf).elim⟩
  split
  · rename_i hnone
    exact hskip (fun f hf => by simp [(hone f hf).1] at hnone) s h (Persists.refl s)
  · rename_i f hf
    split
    · rename_i hdecl
      refine hskip (fun f hf => ?_) s h (Persists.refl s)
      simp [(hone f hf).2.1, (hone f hf).2.2.1] at hdecl
    · split
      · rename_i hname
        refine hskip (fun f hf => ?_) _
          ⟨h.tidy, h.catalog, h.known, h.variadic, h.made, h.heap⟩ (Persists.refl s)
        simp [(hone f hf).2.2.2] at hname
      · refine (createValues_meets hserves h f.body).bind ?_
        rintro _ s₁ ⟨h₁, hnodup, hnew, hobjects, hmem⟩
        have hfree : ∀ u ∈ f.body, u ∉ s₁.arena.objectNodes :=
          fun u hu hin => hnew u hu (h.known u (hobjects ▸ hin))
        refine (populateInstructions_meets hserves h₁ hnodup hfree
          (fun u hu => (hmem u).mpr (.inl hu)) (hask value f hvalue hf) allocators).mono ?_
          (fun _ _ => trivial)
        rintro _ s₂ ⟨h₂, hp₂, halloca⟩
        refine ⟨h₂, (persists_of_eq hobjects).trans hp₂, ?_⟩
        intro f' hf'
        obtain rfl : f = f' := Option.some.inj (hf.symm.trans (hone f' hf').1)
        exact halloca

/-- The structs that the objects of a module may need are `asked` for. -/
structure Servable (p : Program) (asked : Nat → Prop) (m : Module) : Prop where
  globals : ∀ v ∈ m.globals, Askable p asked v
  bodies : ∀ v ∈ m.functions, ∀ value f, p.values.get? v = some value → value.function? = some f →
    ∀ u ∈ f.body, Askable p asked u

end Population

/-- The values that a module gives an object by their type: defined globals, and
local variables of functions that are modelled. -/
inductive Module.Stores (m : Module) (p : Program) (allocators : AllocatorTable) (v : Nat) : Prop
  | global {value : Value} {g : Global} (hv : v ∈ m.globals) (hvalue : p.values.get? v = some value)
      (hg : value.global? = some g) (hdef : g.isDeclaration = false)
  | alloca {function : Nat} {f : Function} {value : Value} {allocated : Nat}
      (hf : function ∈ m.functions) (hmodels : p.Models allocators function f) (hv : v ∈ f.body)
      (hvalue : p.values.get? v = some value)
      (hop : value.instruction? = some (.alloca allocated))

def Program.Stores (p : Program) (allocators : AllocatorTable) (v : Nat) : Prop :=
  ∃ m ∈ p.modules, m.Stores p allocators v

theorem Value.isDeclaration_of_global? {value : Value} {g : Global} (h : value.global? = some g) :
    value.isDeclaration = g.isDeclaration := by
  unfold global? at h
  split at h
  · rename_i g' hk
    obtain rfl := Option.some.inj h
    simp [isDeclaration, hk]
  · cases h

namespace Population

variable {p : Program} {asked : Nat → Prop} {inv : Catalog → Prop} {s : Population}

theorem populateModule_meets (hserves : Catalog.Serves p asked inv) (h : Sound p inv s)
    (allocators : AllocatorTable) (functionObjects : Bool) {m : Module}
    (hask : Servable p asked m) :
    Meets (populateModule p allocators functionObjects m) s
      (fun _ s' => Sound p inv s' ∧ s.Persists s' ∧
        ∀ v, m.Stores p allocators v → HasObject p v s') (fun _ => True) := by
  unfold populateModule
  refine (forM_sound (fun v s => ∀ value, p.values.get? v = some value →
    value.isDeclaration = false → HasObject p v s) ?_ ?_ h).bind ?_
  · exact fun v s s' hp hdone value hv hdef => (hdone value hv hdef).mono hp
  · intro v hv s h
    refine (populateGlobal_meets hserves h (hask.globals v hv)).mono ?_ (fun _ _ => trivial)
    rintro _ s' ⟨h', hp', hmapped⟩
    refine ⟨h', hp', ?_⟩
    intro value hvalue hdef value' hvalue' hsome
    obtain rfl := Option.some.inj (hvalue.symm.trans hvalue')
    exact hmapped value hvalue hdef hsome
  rintro _ s₁ ⟨h₁, hp₁, hglobals⟩
  refine (forM_sound (fun _ _ => True) (fun _ _ _ _ _ => trivial) ?_ h₁).bind ?_
  · intro v hv s h
    exact (populateFunction_meets hserves h functionObjects).mono
      (fun _ _ h' => ⟨h'.1, h'.2, trivial⟩) (fun _ _ => trivial)
  rintro _ s₂ ⟨h₂, hp₂, _⟩
  refine (forM_sound (fun v s => ∀ f, p.Models allocators v f → ∀ u ∈ f.body,
    ∀ value allocated, p.values.get? u = some value →
      value.instruction? = some (.alloca allocated) → HasObject p u s) ?_ ?_ h₂).bind ?_
  · exact fun v s s' hp hdone f hf u hu value allocated hv hop =>
      (hdone f hf u hu value allocated hv hop).mono hp
  · exact fun v hv s h => populateBody_meets hserves h allocators (hask.bodies v hv)
  rintro _ s₃ ⟨h₃, hp₃, hbodies⟩
  refine ⟨⟨h₃.tidy, h₃.catalog, h₃.known, h₃.variadic, h₃.made, h₃.heap⟩,
    (hp₁.trans hp₂).trans hp₃, ?_⟩
  intro v hv
  cases hv with
  | global hv hvalue hg hdef =>
    have hobject := hglobals v hv _ hvalue ((Value.isDeclaration_of_global? hg).trans hdef)
    exact hobject.mono (hp₂.trans hp₃)
  | alloca hf hmodels hv hvalue hop => exact hbodies _ hf _ hmodels v hv _ _ hvalue hop

theorem populate_meets (hserves : Catalog.Serves p asked inv) (h : Sound p inv s)
    (hask : ∀ m ∈ p.modules, Servable p asked m) (allocators : AllocatorTable)
    (functionObjects : Bool) :
    Meets (populate p allocators functionObjects) s
      (fun _ s' => Sound p inv s' ∧ ∀ v, p.Stores allocators v → HasObject p v s')
      (fun _ => True) := by
  refine Meets.mono (forM_sound (fun m s => ∀ v, m.Stores p allocators v → HasObject p v s)
    ?_ ?_ h) ?_ (fun _ h => h)
  · exact fun m s s' hp hdone v hv => (hdone v hv).mono hp
  · exact fun m hm s h => populateModule_meets hserves h allocators functionObjects
      (hask m (Array.mem_toList_iff.mp hm))
  · rintro _ s' ⟨h', _, hdone⟩
    refine ⟨h', ?_⟩
    rintro v ⟨m, hm, hv⟩
    exact hdone m (Array.mem_toList_iff.mpr hm) v hv

theorem empty_sound {c : Catalog} (hi : inv c) : Sound p inv { catalog := c } := by
  have hnodes : ∀ n node, ({} : Arena).get? n = some node →
      node.offset = 0 ∧ node.origin = none := by
    intro n node hn
    have hmem := Array.mem_of_getElem? hn
    simp only [List.mem_toArray, List.mem_cons, List.not_mem_nil, or_false] at hmem
    rcases hmem with rfl | rfl | rfl | rfl | rfl <;> exact ⟨rfl, rfl⟩
  refine ⟨⟨?_, ?_⟩, hi, by simp, by simp, by simp, by simp⟩
  · intro n node hn hoff
    exact absurd (hnodes n node hn).1 hoff
  · intro n node v hn _ horigin
    simp [(hnodes n node hn).2] at horigin

end Population

namespace MemoryModel

variable {p : Program} {config : Config} {m : MemoryModel}

def population (m : MemoryModel) : Population :=
  { catalog := m.catalog, arena := m.arena, tally := m.tally, heap := m.heap }

theorem build_population (h : build p config = .ok m) :
    m.program = p ∧ m.maxFields = m.catalog.maxFields ∧
      ∃ c, Catalog.coverProgram p { unionName := config.unionName } = .ok () c ∧
        Population.populate p config.allocatorTable config.functionObjects { catalog := c } =
          .ok () m.population := by
  unfold build at h
  split at h
  · cases h
  · split at h
    · cases h
    · rename_i c hcover
      split at h
      · cases h
      · rename_i s hpopulate
        obtain rfl := Except.ok.inj h
        exact ⟨rfl, rfl, c, hcover, hpopulate⟩

/-- Objects are made over a catalog that covers the program. -/
theorem build_covered (h : build p config = .ok m) :
    ∃ c : Catalog, c.Intact p ∧ c.KnowsUsed p ∧
      Population.populate p config.allocatorTable config.functionObjects { catalog := c } =
        .ok () m.population := by
  obtain ⟨_, _, c, hcover, hpopulate⟩ := build_population h
  obtain ⟨hc, _, hknown⟩ :=
    (Catalog.coverProgram_intact (Catalog.intact_empty p config.unionName)).of_ok hcover
  exact ⟨c, hc, hknown, hpopulate⟩

theorem build_sound (h : build p config = .ok m) :
    Population.Sound p (fun c => c.Coherent p) m.population ∧
      ∀ v, p.Stores config.allocatorTable v → Population.HasObject p v m.population := by
  obtain ⟨c, hc, _, hpopulate⟩ := build_covered h
  have hask : ∀ m ∈ p.modules, Population.Servable p (fun _ => True) m :=
    fun _ _ => ⟨fun _ _ => ⟨fun _ _ _ _ => trivial, fun _ _ _ _ _ _ _ _ => trivial⟩,
      fun _ _ _ _ _ _ _ _ => ⟨fun _ _ _ _ => trivial, fun _ _ _ _ _ _ _ _ => trivial⟩⟩
  exact (Population.populate_meets (Catalog.serves_coherent p)
    (Population.empty_sound hc.coherent) hask _ _).of_ok hpopulate

end MemoryModel

end AbstractMemory
