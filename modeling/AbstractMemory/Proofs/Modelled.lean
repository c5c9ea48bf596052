import AbstractMemory.Proofs.Creation
import AbstractMemory.Proofs.Drafting
import AbstractMemory.Proofs.Usage
import Mathlib

/-! Which symbols have nodes. All globals and functions with a body have a node
for their value. A function has an object if its address is taken, and none has
one if the model is to have no such objects. -/

namespace AbstractMemory

open Steps

namespace Arena

variable {may : Nat → Prop} {a a' a'' : Arena}

/-- No value loses its nodes, and only those that `may` have an object get one. -/
structure Enlarges (may : Nat → Prop) (a a' : Arena) : Prop where
  values : ∀ v ∈ a.valueNodes, v ∈ a'.valueNodes
  objects : ∀ v ∈ a.objectNodes, v ∈ a'.objectNodes
  owners : ∀ v ∈ a'.objectNodes, v ∈ a.objectNodes ∨ may v

theorem Enlarges.trans (h : a.Enlarges may a') (h' : a'.Enlarges may a'') :
    a.Enlarges may a'' where
  values := fun v hv => h'.values v (h.values v hv)
  objects := fun v hv => h'.objects v (h.objects v hv)
  owners := fun v hv => (h'.owners v hv).elim (h.owners v) .inr

theorem lasting_enlarges (may : Nat → Prop) : Lasting may (Enlarges may) := by
  -- objects stay as they are, unless one is entered
  have hsame : ∀ a a' : Arena, (∀ v ∈ a.valueNodes, v ∈ a'.valueNodes) →
      a'.objectNodes = a.objectNodes → a.Enlarges may a' :=
    fun a a' hvalues hobjects =>
      ⟨hvalues, fun _ hv => hobjects ▸ hv, fun _ hv => .inl (hobjects ▸ hv)⟩
  refine lasting_of_tables (fun a => hsame a a (fun _ hv => hv) rfl)
    (fun _ _ _ => Enlarges.trans) ?_ ?_ ?_
  · intro a a' v _ hvalues hobjects _
    refine hsame a a' (fun u hu => ?_) hobjects
    rw [hvalues, Std.TreeMap.mem_insert]
    exact .inr hu
  · intro a a' v n hv _ hvalues hobjects _
    have hmem : ∀ u, u ∈ a'.objectNodes ↔ v = u ∨ u ∈ a.objectNodes := by
      intro u
      rw [hobjects, Std.TreeMap.mem_insert, Std.LawfulEqCmp.compare_eq_iff_eq]
    refine ⟨fun u hu => hvalues ▸ hu, fun u hu => (hmem u).mpr (.inr hu), ?_⟩
    intro u hu
    rcases (hmem u).mp hu with rfl | hu
    · exact .inr hv
    · exact .inl hu
  · intro a a' _ hvalues hobjects _
    exact hsame a a' (fun u hu => hvalues ▸ hu) hobjects

theorem createObject_mem (a : Arena) (v : Nat) (isUnion isHeap : Bool) :
    Meets (createObject (some v) isUnion isHeap) a (fun _ a' => v ∈ a'.objectNodes)
      (fun _ => True) := by
  refine meets_createObject ?_ (fun _ => Std.TreeMap.mem_insert_self)
  intro n hn
  exact Std.TreeMap.isSome_getElem?_iff_mem.mp (by simp [hn])

end Arena

/-- The function is a definition, and not one that stands for no code. -/
def Program.Defines (p : Program) (v : Nat) (f : Function) : Prop :=
  ∃ value, p.values.get? v = some value ∧ value.function? = some f ∧
    value.isDeclaration = false ∧ value.isIntrinsic = false

namespace Population

variable {p : Program} {functionObjects : Bool} {may : Nat → Prop} {v : Nat} {s : Population}

/-- The function has a node, and an object if its address is taken and functions
are to have objects. -/
structure Modelled (p : Program) (functionObjects : Bool) (v : Nat) (f : Function)
    (s : Population) : Prop where
  node : v ∈ s.arena.valueNodes
  object : functionObjects = true → ∃ taken, p.values.addressTaken v = .ok taken ∧
    (taken = true → v ∈ s.arena.objectNodes)
  signature : ∃ shape, p.types.get? f.signature = some (.function shape)

theorem Modelled.mono {f : Function} {s' : Population} (h : Modelled p functionObjects v f s)
    (he : s.arena.Enlarges may s'.arena) : Modelled p functionObjects v f s' where
  node := he.values v h.node
  object := by
    intro hon
    obtain ⟨taken, htaken, hmem⟩ := h.object hon
    exact ⟨taken, htaken, fun ht => he.objects v (hmem ht)⟩
  signature := h.signature

theorem meets_ask_bind {α β : Type} {answer : Except ProgramError α} {next : α → Populating β}
    {good : β → Population → Prop}
    (h : ∀ x, answer = .ok x → Meets (next x) s good (fun _ => True)) :
    Meets (ask answer >>= next) s good (fun _ => True) := by
  cases answer with
  | ok x => exact h x rfl
  | error e => trivial

/-- What a step achieves wherever it starts does not depend on the steps before. -/
theorem meets_then {α β : Type} {step : Populating α} {next : α → Populating β}
    {good : β → Population → Prop} (h : ∀ x s', Meets (next x) s' good (fun _ => True)) :
    Meets (step >>= next) s good (fun _ => True) := by
  have hstep : Meets step s (fun _ _ => True) (fun _ => True) := by
    unfold Meets
    split <;> trivial
  exact hstep.bind fun x s' _ => h x s'

theorem createValue_mem (v : Nat) (s : Population) :
    Meets (createValue v) s (fun _ s' => v ∈ s'.arena.valueNodes) (fun _ => True) := by
  unfold createValue
  refine (onArena_meets (Arena.createValue_meets s.arena v)).bind ?_
  rintro _ s₁ ⟨⟨_, _, hvalues⟩, _⟩
  have hmem : v ∈ s₁.arena.valueNodes := hvalues ▸ Std.TreeMap.mem_insert_self
  exact hmem

theorem functionObject_mem (hnode : v ∈ s.arena.valueNodes) :
    Meets (onArena (Arena.createObject (some v) false false)) s
      (fun _ s' => v ∈ s'.arena.valueNodes ∧ v ∈ s'.arena.objectNodes) (fun _ => True) := by
  have hboth := ((Arena.lasting_enlarges fun _ => True).object s.arena v false false trivial).and
    (Arena.createObject_mem s.arena v false false)
  refine (onArena_meets hboth).mono ?_ (fun _ _ => trivial)
  rintro _ s' ⟨⟨he, hmem⟩, _⟩
  exact ⟨he.values v hnode, hmem⟩

theorem populateGlobal_mem (hv : may v) (s : Population) :
    Meets (populateGlobal p v) s (fun _ s' => ∀ value, p.values.get? v = some value →
      value.isDeclaration = false → v ∈ s'.arena.valueNodes) (fun _ => True) := by
  unfold populateGlobal
  refine meets_ask_bind fun value hvalue => ?_
  have hone : ∀ value', p.values.get? v = some value' → value = value' :=
    fun value' h => Option.some.inj ((ValueTable.get_eq_ok.mp hvalue).symm.trans h)
  split
  · rename_i hdecl
    intro value' hvalue' hdef
    rw [← hone value' hvalue', hdecl] at hdef
    cases hdef
  · refine (createValue_mem v s).bind fun _ s₁ hmem => ?_
    refine (createPointedTo_moves (Arena.lasting_enlarges may) hv _ s₁).mono ?_ (fun _ _ => trivial)
    exact fun _ s₂ he _ _ _ => he.values v hmem

theorem populateFunction_modelled (s : Population) :
    Meets (populateFunction p functionObjects v) s
      (fun _ s' => ∀ f, p.Defines v f → Modelled p functionObjects v f s') (fun _ => True) := by
  unfold populateFunction
  refine meets_ask_bind fun value hvalue => ?_
  have hone : ∀ f, p.Defines v f → value.function? = some f ∧ value.isDeclaration = false ∧
      value.isIntrinsic = false := by
    rintro f ⟨value', hvalue', hrest⟩
    obtain rfl := Option.some.inj ((ValueTable.get_eq_ok.mp hvalue).symm.trans hvalue')
    exact hrest
  split
  · trivial
  · rename_i f hf
    split
    · rename_i hskip
      intro f' hdef
      simp [(hone f' hdef).2.1, (hone f' hdef).2.2] at hskip
    · refine meets_ask_bind fun type htype => ?_
      split
      · rename_i shape
        have hshape : p.types.get? f.signature = some (.function shape) := by
          unfold TypeTable.get at htype
          split at htype
          · rename_i found
            rw [found, Except.ok.inj htype]
          · cases htype
        have hmodelled : ∀ s', v ∈ s'.arena.valueNodes → (functionObjects = true →
            ∃ taken, p.values.addressTaken v = .ok taken ∧
              (taken = true → v ∈ s'.arena.objectNodes)) →
            ∀ f, p.Defines v f → Modelled p functionObjects v f s' := by
          intro s' hnode hobject f' hdef
          obtain rfl := Option.some.inj (hf.symm.trans (hone f' hdef).1)
          exact ⟨hnode, hobject, shape, hshape⟩
        extract_lets last next
        have hlast : ∀ s, Meets (last ()) s
            (fun _ s' => ∀ f, p.Defines v f → Modelled p functionObjects v f s')
            (fun _ => True) := by
          intro s
          refine meets_then fun _ s₁ => ?_
          refine (createValue_mem v s₁).bind fun _ s₂ hnode => ?_
          split
          · refine meets_ask_bind fun taken htaken => ?_
            split
            · refine (functionObject_mem hnode).bind ?_
              rintro _ s₃ ⟨hnode₃, hmem⟩
              exact hmodelled _ hnode₃ fun _ => ⟨taken, htaken, fun _ => hmem⟩
            · rename_i hnot
              exact hmodelled _ hnode fun _ => ⟨taken, htaken, fun ht => absurd ht hnot⟩
          · rename_i hoff
            exact hmodelled _ hnode fun hon => absurd hon hoff
        have hnext : ∀ s, Meets (next ()) s
            (fun _ s' => ∀ f, p.Defines v f → Modelled p functionObjects v f s')
            (fun _ => True) := by
          intro s
          unfold next
          split
          · exact meets_then fun _ s₁ => meets_then fun _ s₂ => hlast s₂
          · exact hlast s
        split
        · exact meets_then fun _ s₁ => meets_then fun _ s₂ => hnext s₂
        · exact hnext s
      · trivial

/-- Steps one after another, each of which makes nodes that are still there at
the end. -/
theorem forM_enlarges {α : Type} {f : α → Populating Unit} {l : List α}
    (done : α → Population → Prop)
    (hlast : ∀ x s s', s.arena.Enlarges may s'.arena → done x s → done x s')
    (hmoves : ∀ x ∈ l, Moves (Arena.Enlarges may) (f x))
    (hdone : ∀ x ∈ l, ∀ s, Meets (f x) s (fun _ => done x) (fun _ => True)) (s : Population) :
    Meets (l.forM f) s (fun _ s' => s.arena.Enlarges may s'.arena ∧ ∀ x ∈ l, done x s')
      (fun _ => True) := by
  have hl := Arena.lasting_enlarges may
  have hstep : ∀ x ∈ l, ∀ s, True → Meets (f x) s
      (fun _ s' => True ∧ s.arena.Enlarges may s'.arena ∧ done x s') (fun _ => True) := by
    intro x hx s _
    refine ((hmoves x hx s).and (hdone x hx s)).mono ?_ (fun _ _ => trivial)
    exact fun _ s' h => ⟨trivial, h.1, h.2⟩
  have hrun := @Meets.forM_lasting _ _ _ _ f (fun _ => True) (fun _ => True)
    (fun s s' => s.arena.Enlarges may s'.arena) (fun s => hl.refl s.arena)
    (fun _ _ _ => Arena.Enlarges.trans) done hlast l hstep s trivial
  exact hrun.mono (fun _ _ h => h.2) (fun _ h => h)

/-- The symbols of a module have their nodes. -/
structure HasSymbols (p : Program) (functionObjects : Bool) (m : Module) (s : Population) :
    Prop where
  globals : ∀ v ∈ m.globals, ∀ value, p.values.get? v = some value →
    value.isDeclaration = false → v ∈ s.arena.valueNodes
  functions : ∀ v ∈ m.functions, ∀ f, p.Defines v f → Modelled p functionObjects v f s

theorem HasSymbols.mono {m : Module} {s' : Population} (h : HasSymbols p functionObjects m s)
    (he : s.arena.Enlarges may s'.arena) : HasSymbols p functionObjects m s' where
  globals := fun v hv value hvalue hdef => he.values v (h.globals v hv value hvalue hdef)
  functions := fun v hv f hf => (h.functions v hv f hf).mono he

theorem populateModule_hasSymbols (hgrants : p.Grants functionObjects may)
    (allocators : AllocatorTable) {m : Module} (hm : m ∈ p.modules) (s : Population) :
    Meets (populateModule p allocators functionObjects m) s
      (fun _ => HasSymbols p functionObjects m) (fun _ => True) := by
  have hl := Arena.lasting_enlarges may
  unfold populateModule
  refine (forM_enlarges (fun v s => ∀ value, p.values.get? v = some value →
    value.isDeclaration = false → v ∈ s.arena.valueNodes) ?_ (fun v hv =>
      populateGlobal_moves hl (hgrants.global m hm v hv)) (fun v hv =>
      populateGlobal_mem (hgrants.global m hm v hv)) s).bind ?_
  · exact fun v s s' he hdone value hvalue hdef => he.values v (hdone value hvalue hdef)
  rintro _ s₁ ⟨_, hglobals⟩
  refine (forM_enlarges (fun v s => ∀ f, p.Defines v f → Modelled p functionObjects v f s) ?_
    (fun v _ => populateFunction_moves hl hgrants v)
    (fun _ _ => populateFunction_modelled) s₁).bind ?_
  · exact fun v s s' he hdone f hf => (hdone f hf).mono he
  rintro _ s₂ ⟨he₂, hfunctions⟩
  have hsymbols : HasSymbols p functionObjects m s₂ :=
    ⟨fun v hv value hvalue hdef => he₂.values v (hglobals v hv value hvalue hdef), hfunctions⟩
  refine Meets.bind (moves_forM hl (fun v _ => populateBody_moves hl hgrants allocators v) s₂) ?_
  intro _ s₃ he₃
  exact hsymbols.mono he₃

theorem populate_hasSymbols (hgrants : p.Grants functionObjects may)
    (allocators : AllocatorTable) (s : Population) :
    Meets (populate p allocators functionObjects) s
      (fun _ s' => ∀ m ∈ p.modules, HasSymbols p functionObjects m s') (fun _ => True) := by
  have hmem : ∀ m : Module, m ∈ p.modules.toList → m ∈ p.modules :=
    fun _ => Array.mem_toList_iff.mp
  refine (forM_enlarges (fun m => HasSymbols p functionObjects m) (fun _ _ _ he h => h.mono he)
    (fun m hm => populateModule_moves (Arena.lasting_enlarges may) hgrants allocators (hmem m hm))
    (fun m hm => populateModule_hasSymbols hgrants allocators (hmem m hm)) s).mono ?_
    (fun _ h => h)
  exact fun _ s' h m hm => h.2 m (Array.mem_toList_iff.mpr hm)

end Population

namespace MemoryModel

variable {p : Program} {config : Config} {m : MemoryModel} {v : Nat} {value : Value}

theorem build_hasSymbols (h : build p config = .ok m) {listing : Module}
    (hm : listing ∈ p.modules) :
    Population.HasSymbols p config.functionObjects listing m.population := by
  obtain ⟨_, _, _, _, hpopulate⟩ := build_population h
  exact (Population.populate_hasSymbols (p.grants_all _) _ _).of_ok hpopulate listing hm

/-- Without objects for functions, no function has one. -/
theorem not_mem_objectNodes_of_function (hwf : p.WellFormed) (h : build p config = .ok m)
    (hoff : config.functionObjects = false) (hv : p.values.get? v = some value)
    (hf : value.function?.isSome = true) : v ∉ m.arena.objectNodes := by
  have hgrants : p.Grants config.functionObjects fun u =>
      ∀ other, p.values.get? u = some other → other.function? = none := by
    refine ⟨?_, fun hon => by simp [hoff] at hon, ?_⟩
    · intro listing hm u hu other hother
      obtain ⟨other', g, hother', hg, _⟩ := hwf.globals listing hm u hu
      obtain rfl := Option.some.inj (hother.symm.trans hother')
      simp [Value.function?, other.kind_of_global? hg]
    · intro u other hother hop other' hother'
      obtain rfl := Option.some.inj (hother.symm.trans hother')
      obtain ⟨op, hop⟩ := Option.isSome_iff_exists.mp hop
      obtain ⟨parent, hk⟩ := other.kind_of_instruction? hop
      simp [Value.function?, hk]
  intro hin
  rcases (build_moves (Arena.lasting_enlarges _) hgrants h).owners v hin with hin | hmay
  · simp at hin
  · simp [hmay value hv] at hf

end MemoryModel

end AbstractMemory
