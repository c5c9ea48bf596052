import AbstractMemory.Proofs.Forest
import AbstractMemory.Proofs.Populated
import Mathlib

/-! Filling the arena only ever makes nodes, so what each way of making nodes
preserves holds of every model that is built. -/

namespace AbstractMemory

open Steps

/-- A relation between arenas that holds across each way of making nodes for a
program, and so across any number of them, if objects are for values that `may`
have one. -/
structure Arena.Lasting (may : Nat → Prop) (moves : Arena → Arena → Prop) : Prop where
  refl : ∀ a, moves a a
  trans : ∀ a a' a'', moves a a' → moves a' a'' → moves a a''
  value : ∀ a v, Meets (createValue (some v)) a (fun _ => moves a) (fun _ => True)
  object : ∀ a v isUnion isHeap, may v →
    Meets (createObject (some v) isUnion isHeap) a (fun _ => moves a) (fun _ => True)
  field : ∀ a base offset isUnion isHeap,
    Meets (createField base offset isUnion isHeap) a (fun _ => moves a) (fun _ => True)
  result : ∀ a v, Meets (createReturn v) a (fun _ => moves a) (fun _ => True)
  variadic : ∀ a v, Meets (createVariadic v) a (fun _ => moves a) (fun _ => True)
  standIn : ∀ a v n, may v → Meets (aliasObject v n) a (fun _ => moves a) (fun _ => True)

/-- The values that get an object are among those that `may` have one. -/
structure Program.Grants (p : Program) (functionObjects : Bool) (may : Nat → Prop) : Prop where
  global : ∀ m ∈ p.modules, ∀ v ∈ m.globals, may v
  function : functionObjects = true →
    ∀ v value, p.values.get? v = some value → value.function?.isSome = true → may v
  instruction : ∀ v value, p.values.get? v = some value → value.instruction?.isSome = true → may v

theorem Program.grants_all (p : Program) (functionObjects : Bool) :
    p.Grants functionObjects fun _ => True :=
  ⟨fun _ _ _ _ => trivial, fun _ _ _ _ _ => trivial, fun _ _ _ _ => trivial⟩

namespace Population

/-- From wherever it starts, a step that succeeds moves the arena so. -/
def Moves {α : Type} (moves : Arena → Arena → Prop) (step : Populating α) : Prop :=
  ∀ s, Meets step s (fun _ s' => moves s.arena s'.arena) (fun _ => True)

variable {may : Nat → Prop} {moves : Arena → Arena → Prop} {p : Program}

section
variable {α β : Type} (hl : Arena.Lasting may moves)
include hl

theorem moves_bind {step : Populating α} {next : α → Populating β} (h : Moves moves step)
    (hnext : ∀ x, Moves moves (next x)) : Moves moves (step >>= next) := by
  intro s
  refine (h s).bind ?_
  intro x s₁ h₁
  refine (hnext x s₁).mono ?_ (fun _ _ => trivial)
  intro _ s₂ h₂
  exact hl.trans _ _ _ h₁ h₂

theorem moves_pure (x : α) : Moves moves (pure x : Populating α) :=
  fun s => hl.refl s.arena

theorem moves_get : Moves moves (get : Populating Population) :=
  fun s => hl.refl s.arena

theorem moves_count (f : Tally → Tally) : Moves moves (count f) :=
  fun s => hl.refl s.arena

theorem moves_onCatalog (step : Cataloguing α) : Moves moves (onCatalog step) := by
  intro s
  refine meets_onCatalog ?_
  cases hs : step s.catalog with
  | ok x c => simpa only [Meets, hs] using hl.refl s.arena
  | error e c => exact meets_of_error hs fun _ => trivial

theorem moves_ask (answer : Except ProgramError α) : Moves moves (ask answer) := by
  cases answer with
  | ok x => exact moves_pure hl x
  | error e => exact fun _ => trivial

theorem moves_forM {f : α → Populating Unit} {l : List α} (h : ∀ x ∈ l, Moves moves (f x)) :
    Moves moves (l.forM f) := by
  induction l with
  | nil => exact moves_pure hl ()
  | cons x rest ih =>
    exact moves_bind hl (h x (by simp)) fun _ => ih fun y hy => h y (by simp [hy])

end

theorem moves_ask_bind {α β : Type} {answer : Except ProgramError α} {next : α → Populating β}
    (h : ∀ x, answer = .ok x → Moves moves (next x)) : Moves moves (ask answer >>= next) := by
  cases answer with
  | ok x => exact h x rfl
  | error e => exact fun _ => trivial

theorem moves_throw {α : Type} (e : NodeError) : Moves moves (throw e : Populating α) :=
  fun _ => trivial

theorem moves_onArena {α : Type} {step : Arranging α}
    (h : ∀ a, Meets step a (fun _ => moves a) (fun _ => True)) : Moves moves (onArena step) :=
  fun s => (onArena_meets (h s.arena)).mono (fun _ _ h' => h'.1) (fun _ _ => trivial)

variable (hl : Arena.Lasting may moves)
include hl

theorem createValue_moves (v : Nat) : Moves moves (createValue v) :=
  moves_bind hl (moves_onArena fun a => hl.value a v) fun _ => moves_count hl _

theorem planFor_moves (t : Nat) : Moves moves (planFor p t) := by
  unfold planFor
  split
  · exact moves_pure hl _
  · refine moves_bind hl (moves_get hl) fun s => ?_
    split
    · exact moves_pure hl _
    · refine moves_bind hl (moves_onCatalog hl _) fun r => ?_
      split
      · exact moves_pure hl _
      · split <;> exact moves_pure hl _

theorem createFields_moves (base : Nat) (isHeap : Bool) (offset : Nat) (flags : List Bool) :
    Moves moves (createFields base isHeap offset flags) := by
  induction flags generalizing offset with
  | nil => exact moves_pure hl ()
  | cons isUnion rest ih =>
    exact moves_bind hl (moves_onArena fun a => hl.field a base offset isUnion isHeap)
      fun _ => ih (offset + 1)

theorem allocate_moves {v : Nat} (hv : may v) (flags : List Bool) (isHeap : Bool) :
    Moves moves (allocate v flags isHeap) := by
  unfold allocate
  refine moves_bind hl (moves_get hl) fun s => ?_
  split
  · exact moves_pure hl _
  · refine moves_bind hl (moves_onArena fun a => hl.object a v _ isHeap hv) fun base => ?_
    refine moves_bind hl (createFields_moves hl base isHeap 1 _) fun _ => ?_
    exact moves_bind hl (moves_count hl _) fun _ => moves_pure hl base

theorem createPointedTo_moves {v : Nat} (hv : may v) (type : Nat) :
    Moves moves (createPointedTo p v type) := by
  unfold createPointedTo
  split
  · exact moves_pure hl ()
  · refine moves_ask_bind fun stripped _ => ?_
    refine moves_bind hl (planFor_moves hl stripped) fun plan => ?_
    split
    · exact moves_bind hl (moves_onArena fun a => hl.standIn a v _ hv) fun _ => moves_count hl _
    · exact moves_bind hl (allocate_moves hl hv _ false) fun _ => moves_pure hl ()

theorem populateGlobal_moves {v : Nat} (hv : may v) : Moves moves (populateGlobal p v) := by
  unfold populateGlobal
  refine moves_ask_bind fun value _ => ?_
  split
  · exact moves_count hl _
  · exact moves_bind hl (createValue_moves hl v) fun _ => createPointedTo_moves hl hv _

theorem heapElement_moves (v : Nat) (site : Value) : Moves moves (heapElement p v site) := by
  unfold heapElement
  split
  · exact moves_throw _
  · split
    · exact moves_ask_bind fun _ _ => moves_ask hl _
    · exact moves_ask hl _

theorem populateHeap_moves {v : Nat} (hv : may v) (spec : Allocator) :
    Moves moves (populateHeap p v spec) := by
  unfold populateHeap
  refine moves_ask_bind fun site _ => ?_
  refine moves_bind hl (heapElement_moves hl v site) fun element => ?_
  extract_lets next
  have hnext : ∀ known, Moves moves (next known) := by
    intro known
    refine moves_bind hl (moves_get hl) fun s => ?_
    refine moves_bind hl (allocate_moves hl hv _ true) fun object => ?_
    exact moves_bind hl (moves_count hl _) fun _ s => hl.refl s.arena
  split
  · refine moves_bind hl (planFor_moves hl element) fun plan => ?_
    split <;> exact hnext _
  · exact hnext none

variable {functionObjects : Bool} (hgrants : p.Grants functionObjects may)
include hgrants

theorem populateFunction_moves (v : Nat) : Moves moves (populateFunction p functionObjects v) := by
  unfold populateFunction
  refine moves_ask_bind fun value hvalue => ?_
  split
  · exact moves_throw _
  · rename_i f hf
    have hv : functionObjects = true → may v :=
      fun hon => hgrants.function hon v value (ValueTable.get_eq_ok.mp hvalue) (by simp [hf])
    split
    · exact moves_count hl _
    · refine moves_ask_bind fun type _ => ?_
      split
      · extract_lets last next
        have hlast : Moves moves (last ()) := by
          refine moves_bind hl (moves_forM hl fun u _ => createValue_moves hl u) fun _ => ?_
          refine moves_bind hl (createValue_moves hl v) fun _ => ?_
          split
          · rename_i hon
            refine moves_ask_bind fun taken _ => ?_
            split
            · exact moves_bind hl (moves_onArena fun a => hl.object a v false false (hv hon))
                fun _ => moves_count hl _
            · exact moves_pure hl ()
          · exact moves_pure hl ()
        have hnext : Moves moves (next ()) := by
          unfold next
          split
          · refine moves_bind hl (moves_onArena fun a => hl.variadic a v) fun _ => ?_
            exact moves_bind hl (moves_count hl _) fun _ => hlast
          · exact hlast
        split
        · refine moves_bind hl (moves_onArena fun a => hl.result a v) fun _ => ?_
          exact moves_bind hl (moves_count hl _) fun _ => hnext
        · exact hnext
      · exact moves_throw _

theorem populateInstruction_moves (allocators : AllocatorTable) (v : Nat) :
    Moves moves (populateInstruction p allocators v) := by
  unfold populateInstruction
  refine moves_ask_bind fun value hvalue => ?_
  have hv : value.instruction?.isSome = true → may v :=
    hgrants.instruction v value (ValueTable.get_eq_ok.mp hvalue)
  split
  · rename_i hop
    exact createPointedTo_moves hl (hv (by simp [hop])) _
  · rename_i hop
    refine moves_ask_bind fun callee _ => ?_
    split
    · exact moves_pure hl ()
    · refine moves_ask_bind fun target _ => ?_
      split
      · exact moves_pure hl ()
      · exact populateHeap_moves hl (hv (by simp [hop])) _
  · exact moves_pure hl ()

theorem populateBody_moves (allocators : AllocatorTable) (v : Nat) :
    Moves moves (populateBody p allocators v) := by
  unfold populateBody
  refine moves_ask_bind fun value _ => ?_
  split
  · exact moves_pure hl ()
  · split
    · exact moves_pure hl ()
    · split
      · exact moves_count hl _
      · refine moves_bind hl (moves_forM hl fun u _ => createValue_moves hl u) fun _ => ?_
        exact moves_forM hl fun u _ => populateInstruction_moves hl hgrants allocators u

theorem populateModule_moves (allocators : AllocatorTable) {m : Module} (hm : m ∈ p.modules) :
    Moves moves (populateModule p allocators functionObjects m) := by
  unfold populateModule
  refine moves_bind hl (moves_forM hl fun v hv =>
    populateGlobal_moves hl (hgrants.global m hm v hv)) fun _ => ?_
  refine moves_bind hl (moves_forM hl fun v _ => populateFunction_moves hl hgrants v) fun _ => ?_
  refine moves_bind hl (moves_forM hl fun v _ =>
    populateBody_moves hl hgrants allocators v) fun _ => ?_
  exact moves_count hl _

theorem populate_moves (allocators : AllocatorTable) :
    Moves moves (populate p allocators functionObjects) :=
  moves_forM hl fun _ hm =>
    populateModule_moves hl hgrants allocators (Array.mem_toList_iff.mp hm)

end Population

theorem MemoryModel.build_moves {may : Nat → Prop} {moves : Arena → Arena → Prop}
    (hl : Arena.Lasting may moves) {p : Program} {config : Config} {m : MemoryModel}
    (hgrants : p.Grants config.functionObjects may) (h : build p config = .ok m) :
    moves {} m.arena := by
  obtain ⟨_, _, c, _, hpopulate⟩ := build_population h
  exact (Population.populate_moves hl hgrants _ _).of_ok hpopulate

/-- Making a node enters a value, or an object of a value, or neither. -/
theorem Arena.lasting_of_tables {may : Nat → Prop} {moves : Arena → Arena → Prop}
    (hrefl : ∀ a, moves a a) (htrans : ∀ a a' a'', moves a a' → moves a' a'' → moves a a'')
    (hvalue : ∀ a a' v, a'.size = a.size + 1 → a'.valueNodes = a.valueNodes.insert v a.size →
      a'.objectNodes = a.objectNodes → a'.fieldPointers = a.fieldPointers → moves a a')
    (hobject : ∀ a a' v n, may v → a.size ≤ a'.size → a'.valueNodes = a.valueNodes →
      a'.objectNodes = a.objectNodes.insert v n → a'.fieldPointers = a.fieldPointers → moves a a')
    (hother : ∀ a a', a.size ≤ a'.size → a'.valueNodes = a.valueNodes →
      a'.objectNodes = a.objectNodes → a'.fieldPointers = a.fieldPointers → moves a a') :
    Lasting may moves where
  refl := hrefl
  trans := htrans
  value := fun a v => meets_createValue (fun _ => trivial) fun _ =>
    hvalue a _ v (size_push rfl) rfl rfl rfl
  object := fun a v _ _ hv => meets_createObject (fun _ _ => hrefl a) fun _ =>
    hobject a _ v _ hv (by simp [size]) rfl rfl rfl
  field := fun a _ _ _ _ => meets_createField (fun _ => trivial) fun _ _ =>
    hother a _ (by simp [size]) rfl rfl rfl
  result := fun a _ => meets_createReturn (fun _ => trivial) fun _ =>
    hother a _ (by simp [size]) rfl rfl rfl
  variadic := fun a _ => meets_createVariadic (fun _ => trivial) fun _ =>
    hother a _ (by simp [size]) rfl rfl rfl
  standIn := fun a v n hv => meets_aliasObject (fun _ => trivial)
    (hobject a _ v n hv (Nat.le_refl _) rfl rfl rfl)

theorem Arena.lasting_upholds (may : Nat → Prop) : Lasting may Upholds where
  refl := Upholds.refl
  trans := fun _ _ _ => Upholds.trans
  value := fun a v =>
    (createValue_appends a (some v)).mono (fun _ _ h => h.upholds) (fun _ _ => trivial)
  object := fun a v isUnion isHeap _ =>
    (createObject_appends a (some v) isUnion isHeap).mono (fun _ _ h => h.upholds)
      (fun _ _ => trivial)
  field := fun a base offset isUnion isHeap =>
    (createField_upholds a base offset isUnion isHeap).mono (fun _ _ h => h) (fun _ _ => trivial)
  result := fun a v => (createReturn_appends a v).mono (fun _ _ h => h.upholds) (fun _ _ => trivial)
  variadic := fun a v =>
    (createVariadic_appends a v).mono (fun _ _ h => h.upholds) (fun _ _ => trivial)
  standIn := fun a v n _ =>
    (aliasObject_appends a v n).mono (fun _ _ h => h.upholds) (fun _ _ => trivial)

end AbstractMemory
