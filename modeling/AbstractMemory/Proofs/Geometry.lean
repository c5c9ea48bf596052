import AbstractMemory.Program.Script
import AbstractMemory.Proofs.Populated
import AbstractMemory.Proofs.Usage
import Mathlib

/-! Where the objects of a model lie. The nodes of an object are a range of
their own, as long as planned, whatever is looked up or merged later. -/

namespace AbstractMemory

open Steps

namespace Arena

variable {a : Arena} {v w b b' count count' : Nat} {flags : List Bool}

/-- The nodes from `b` on are all the nodes of the object of `v`, and the arena
finds for each of them where it lies in the object. -/
structure Owns (a : Arena) (v b count : Nat) : Prop where
  pos : 0 < count
  mem : ∀ n, a.isObject n = true ∧ a.originOf n = .ok (some v) ↔ b ≤ n ∧ n < b + count
  offset : ∀ i < count, a.objectOffset (b + i) = .ok i
  size : ∀ i < count, a.objectSize (b + i) = .ok count
  bound : ∀ i < count, a.objectBound (b + i) = .ok (b + count)
  closed : ∀ n delta k, b ≤ n → n < b + count → a.fieldNode n delta = .ok k →
    b ≤ k ∧ k < b + count

theorem Block.owns (h : a.Block v b flags) (ht : a.Tidy) (hmapped : a.objectNodes[v]? = some b)
    (hvariadic : a.variadicNodes[v]? = none) : a.Owns v b flags.length where
  pos := h.pos
  mem := by
    intro n
    constructor
    · rintro ⟨hobj, horigin⟩
      exact h.mem_of_originOf ht hmapped hvariadic hobj horigin
    · rintro ⟨hle, hlt⟩
      obtain ⟨i, rfl⟩ := Nat.exists_eq_add_of_le hle
      have hi : i < flags.length := by omega
      obtain ⟨node, hn, hobj, _⟩ := h.get hi
      exact ⟨by simp [isObject, hn, hobj], h.originOf hi⟩
  offset := fun _ hi => h.objectOffset hi
  size := fun _ hi => h.objectSize hi
  bound := fun _ hi => h.objectBound hi
  closed := by
    intro n delta k hle hlt hk
    obtain ⟨i, rfl⟩ := Nat.exists_eq_add_of_le hle
    exact h.mem_of_fieldNode ht (by omega) hk

theorem Owns.apart (h : a.Owns v b count) (h' : a.Owns w b' count') (hne : v ≠ w) :
    b + count ≤ b' ∨ b' + count' ≤ b := by
  by_contra hmeet
  have hpos := h.pos
  have hpos' := h'.pos
  -- the later of the two starts would belong to both
  have hv := (h.mem (max b b')).mpr (by omega)
  have hw := (h'.mem (max b b')).mpr (by omega)
  exact hne (by simpa [hv.2] using hw.2)

end Arena

/-- What may be asked of a model, or done to its arena. -/
inductive Use where
  | valueNode (v : Nat)
  | objectNode (v : Nat)
  | merge (into other : Nat)
  | target (n : Nat)
  | clearFieldPointers
  | taint (n : Nat)
deriving DecidableEq, Repr

namespace MemoryModel

variable {p : Program} {config : Config} {m : MemoryModel} {v b : Nat}

/-- The model after a use, also after one that fails. -/
def use (m : MemoryModel) : Use → MemoryModel
  | .valueNode v => (m.onArena (Arena.valueNode m.program m.catalog v)).2
  | .objectNode v => (m.onArena (Arena.ask (·.objectNode m.program m.catalog v))).2
  | .merge into other => (m.onArena (Arena.merge into other)).2
  | .target n => (m.onArena (Arena.target n)).2
  | .clearFieldPointers => { m with arena := m.arena.clearFieldPointers }
  | .taint n => (m.onArena (Arena.taint n)).2

def after (m : MemoryModel) (uses : List Use) : MemoryModel :=
  uses.foldl use m

theorem onArena_retains {α : Type} {step : Arranging α}
    (h : Meets step m.arena (fun _ => m.arena.Retains) m.arena.Retains) :
    m.arena.Retains (m.onArena step).2.arena := by
  unfold Meets at h
  unfold onArena
  split at h <;> simp_all

theorem use_program (m : MemoryModel) (u : Use) : (m.use u).program = m.program := by
  have honArena : ∀ {α : Type} (step : Arranging α), (m.onArena step).2.program = m.program := by
    intro α step
    unfold onArena
    split <;> rfl
  cases u with
  | clearFieldPointers => rfl
  | _ => exact honArena _

theorem use_retains (m : MemoryModel) (u : Use) : m.arena.Retains (m.use u).arena := by
  cases u with
  | valueNode v => exact onArena_retains (Arena.valueNode_retains _ _ _ v)
  | objectNode v =>
    exact onArena_retains (Arena.meets_ask (fun _ _ => Arena.Retains.refl _)
      (fun _ _ => Arena.Retains.refl _))
  | merge into other => exact onArena_retains (Arena.merge_retains _ into other)
  | target n => exact onArena_retains (Arena.target_retains _ n)
  | clearFieldPointers => exact Arena.retains_of_nodes rfl rfl rfl
  | taint n => exact onArena_retains (Arena.taint_retains _ n)

theorem after_retains (m : MemoryModel) (uses : List Use) :
    m.arena.Retains (m.after uses).arena ∧ (m.after uses).program = m.program := by
  induction uses generalizing m with
  | nil => exact ⟨Arena.Retains.refl _, rfl⟩
  | cons u rest ih =>
    obtain ⟨hr, hprogram⟩ := ih (m.use u)
    exact ⟨(m.use_retains u).trans hr, hprogram.trans (m.use_program u)⟩

/-- The number of nodes that the object of a value is made of: what is recorded
for a heap allocation, and else what the type of the value asks for. -/
def plannedFields (m : MemoryModel) (v : Nat) : Nat :=
  match m.heapAt? v with
  | some h => h.fieldCount
  | none =>
    match (m.program.values.get? v).bind fun value => m.program.types.pointee? value.type with
    | some t => m.catalog.plannedFields m.program (m.program.types.stripArrays t)
    | none => 0

/-- The value `v`, which is not a function, has an object of its own that
starts at `b`. -/
def HasObjectAt (m : MemoryModel) (v b : Nat) : Prop :=
  m.arena.objectNodes[v]? = some b ∧ isSentinel b = false ∧
    (m.program.values.get? v).bind Value.function? = none

instance (m : MemoryModel) (v b : Nat) : Decidable (m.HasObjectAt v b) :=
  inferInstanceAs (Decidable (m.arena.objectNodes[v]? = some b ∧ isSentinel b = false ∧
    (m.program.values.get? v).bind Value.function? = none))

theorem exists_block (h : build p config = .ok m) (hv : m.HasObjectAt v b) :
    ∃ flags, m.arena.Block v b flags ∧ flags.length = m.plannedFields v := by
  obtain ⟨rfl, _⟩ := build_population h
  obtain ⟨hsound, _⟩ := build_sound h
  obtain ⟨hmapped, hsentinel, hfunction⟩ := hv
  -- a heap allocation for the value says how long its object is
  have hheap : ∀ alloc ∈ m.heap, alloc.site = v →
      ∃ flags, m.arena.Block v b flags ∧ flags.length = alloc.fieldCount := by
    rintro alloc halloc rfl
    have hall := hsound.heap alloc halloc
    obtain rfl := Option.some.inj (hmapped.symm.trans hall.mapped)
    obtain ⟨flags, hb, hlen, _⟩ := hall.block
    exact ⟨flags, hb, hlen⟩
  unfold plannedFields
  cases hat : m.heapAt? v with
  | some alloc =>
    have hsite := List.find?_some hat
    exact hheap alloc (List.mem_of_find?_eq_some hat) (by simpa using hsite)
  | none =>
    cases hsound.made v b hmapped with
    | function hvalue hf _ =>
      rw [hvalue, Option.bind_some] at hfunction
      simp [hfunction] at hf
    | heap hm hsite _ =>
      have hno := List.find?_eq_none.mp hat _ hm
      simp [hsite] at hno
    | @pointed _ _ plan hvalue ht _ hplan hb =>
      simp only [hvalue, Option.bind_some, ht]
      cases plan with
      | fields flags => exact ⟨flags, hb, hplan.plannedFields_eq.symm⟩
      | sentinel n =>
        obtain rfl : b = n := hb
        cases hplan with
        | bodiless => cases hsentinel
        | empty => cases hsentinel

/-- However a model was used, each value that has an object of its own owns a
range of nodes, as many as planned. The ranges of different values are apart. -/
theorem objects_contiguous (h : build p config = .ok m) (uses : List Use) :
    (∀ v b, (m.after uses).HasObjectAt v b →
      (m.after uses).arena.Owns v b (m.plannedFields v)) ∧
    ∀ v w b b', (m.after uses).HasObjectAt v b → (m.after uses).HasObjectAt w b' → v ≠ w →
      b + m.plannedFields v ≤ b' ∨ b' + m.plannedFields w ≤ b := by
  obtain ⟨hsound, _⟩ := build_sound h
  obtain ⟨rfl, _⟩ := build_population h
  obtain ⟨hr, hprogram⟩ := m.after_retains uses
  have howns : ∀ v b, (m.after uses).HasObjectAt v b →
      (m.after uses).arena.Owns v b (m.plannedFields v) := by
    rintro v b ⟨hmapped, hsentinel, hfunction⟩
    rw [hprogram] at hfunction
    obtain ⟨flags, hb, hlen⟩ := exists_block h ⟨hr.objectNodes ▸ hmapped, hsentinel, hfunction⟩
    have hvariadic : (m.after uses).arena.variadicNodes[v]? = none := by
      rw [hr.variadicNodes]
      refine Std.TreeMap.getElem?_eq_none fun hmem => ?_
      obtain ⟨value, hvalue, hf⟩ := hsound.variadic v hmem
      rw [hvalue, Option.bind_some] at hfunction
      simp [hfunction] at hf
    rw [← hlen]
    exact (hb.mono hr.toExtends).owns (hr.tidy hsound.tidy) hmapped hvariadic
  exact ⟨howns, fun v w b b' hv hw hne => (howns v b hv).apart (howns w b' hw) hne⟩

/-- What a computation finds true of the model of a program. -/
theorem exists_built (p : Program) (config : Config) (good : MemoryModel → Bool)
    (h : (match build p config with
      | .ok m => good m
      | .error _ => false) = true) : ∃ m, build p config = .ok m ∧ good m = true := by
  cases hb : build p config with
  | error e => simp [hb] at h
  | ok m => exact ⟨m, rfl, by simpa [hb] using h⟩

/-- A global struct, a local one, and memory of unknown type from an allocator. -/
def storing : List Command := [
  .int 32,
  .defineStruct "pair" [0, 0],
  .int 8,
  .pointerTo 2,
  .functionOf 3 [0] false,
  .void,
  .functionOf 5 [] false,
  .addModule "main",
  .global "table" 1 false,
  .function "malloc" 4 true,
  .function "main" 6 false,
  .insertInto 2,
  .alloca 1,
  .integer 0 16,
  .call 1 [4]]

def stored : Program :=
  ((Draft.start {}).runScript storing).2.program

theorem objects_contiguous_stored : ∃ m, build stored {} = .ok m ∧
    (m.after [.valueNode 5, .merge 5 8, .taint 6]).arena.Owns 5 13 2 := by
  obtain ⟨m, hb, hfacts⟩ := exists_built stored {} (fun m =>
    decide ((m.after [.valueNode 5, .merge 5 8, .taint 6]).HasObjectAt 5 13 ∧
      m.plannedFields 5 = 2)) (by decide +kernel)
  obtain ⟨hobject, hcount⟩ := of_decide_eq_true hfacts
  have howns := (objects_contiguous hb [.valueNode 5, .merge 5 8, .taint 6]).1 5 13 hobject
  rw [hcount] at howns
  exact ⟨m, hb, howns⟩

end MemoryModel

/-- Whether the first field of a record is a union inside the struct. -/
def FieldRecord.startsWithUnion (r : FieldRecord) : Bool :=
  r.fields.head?.any Field.isUnion

theorem Module.Stores.function?_eq_none {p : Program} {allocators : AllocatorTable} {m : Module}
    {v : Nat} {value : Value} (h : m.Stores p allocators v) (hv : p.values.get? v = some value) :
    value.function? = none ∧ ∀ callee args, value.instruction? ≠ some (.call callee args) := by
  cases h with
  | global _ hvalue hg _ =>
    obtain rfl := Option.some.inj (hv.symm.trans hvalue)
    simp [Value.function?, Value.instruction?, value.kind_of_global? hg]
  | alloca _ _ _ hvalue hop =>
    obtain rfl := Option.some.inj (hv.symm.trans hvalue)
    obtain ⟨parent, hk⟩ := value.kind_of_instruction? hop
    exact ⟨by simp [Value.function?, hk], by simp [hop]⟩

namespace MemoryModel

variable {p : Program} {config : Config} {m : MemoryModel} {v t : Nat} {value : Value}

/-- The object of a value is the one planned for what it points to, if only
scalars are functions and heap objects are left out. -/
theorem exists_plan_of_mem (h : build p config = .ok m) (hmem : v ∈ m.arena.objectNodes)
    (hvalue : p.values.get? v = some value) (ht : p.types.pointee? value.type = some t)
    (hfunction : value.function?.isSome = true → p.types.struct? (p.types.stripArrays t) = none)
    (hcall : ∀ callee args, value.instruction? ≠ some (.call callee args)) :
    ∃ b plan, m.arena.objectNodes[v]? = some b ∧
      m.catalog.Plans p (p.types.stripArrays t) plan ∧ m.arena.Realizes v b plan ∧
      (value.function? = none → p.types.isArray (p.types.stripArrays t) = false) := by
  have hsound := (build_sound h).1
  rw [← Std.TreeMap.isSome_getElem?_iff_mem, Option.isSome_iff_exists] at hmem
  obtain ⟨b, hb⟩ := hmem
  refine ⟨b, ?_⟩
  cases hsound.made v b hb with
  | function hvalue' hf hblock =>
    obtain rfl := Option.some.inj (hvalue.symm.trans hvalue')
    exact ⟨.fields [false], hb, .scalar (hfunction hf), hblock, fun hno => by simp [hno] at hf⟩
  | heap hm hsite _ =>
    obtain ⟨value', callee, args, hvalue', hop⟩ := (hsound.heap _ hm).call
    rw [hsite] at hvalue'
    obtain rfl := Option.some.inj (hvalue.symm.trans hvalue')
    exact (hcall callee args hop).elim
  | pointed hvalue' ht' hend hplan hreal =>
    obtain rfl := Option.some.inj (hvalue.symm.trans hvalue')
    obtain rfl := Option.some.inj (ht.symm.trans ht')
    exact ⟨_, hb, hplan, hreal, fun _ => hend⟩

theorem exists_plan (h : build p config = .ok m) (hv : p.Stores config.allocatorTable v)
    (hvalue : p.values.get? v = some value) (ht : p.types.pointee? value.type = some t) :
    ∃ b plan, m.arena.objectNodes[v]? = some b ∧
      m.catalog.Plans p (p.types.stripArrays t) plan ∧ m.arena.Realizes v b plan ∧
      p.types.isArray (p.types.stripArrays t) = false := by
  have hmem := (build_sound h).2 v hv value hvalue (by simp [ht])
  obtain ⟨_, _, hstores⟩ := hv
  obtain ⟨hfunction, hcall⟩ := hstores.function?_eq_none hvalue
  obtain ⟨b, plan, hb, hplan, hreal, hend⟩ :=
    exists_plan_of_mem h hmem hvalue ht (fun hf => by simp [hfunction] at hf) hcall
  exact ⟨b, plan, hb, hplan, hreal, hend hfunction⟩

/-- From the first node of a struct all its fields are reached, each at its own
node, exactly when the first field is not a union inside the struct. Otherwise
that node answers for all of them. -/
theorem struct_fields_reached {r : FieldRecord} (h : build p config = .ok m)
    (hv : p.Stores config.allocatorTable v) (hvalue : p.values.get? v = some value)
    (ht : p.types.pointee? value.type = some t)
    (hu : m.catalog.isUnion p (p.types.stripArrays t) = false)
    (hr : m.catalog.record? p (p.types.stripArrays t) = some r) (hf : r.fields ≠ []) :
    ∃ b, m.arena.objectNodes[v]? = some b ∧
      (∀ i < r.fieldCount,
        m.arena.fieldNode b i = .ok (if r.startsWithUnion then b else b + i)) ∧
      ((∀ i < r.fieldCount, m.arena.fieldNode b i = .ok (b + i)) ↔
        r.startsWithUnion = false ∨ r.fieldCount = 1) := by
  obtain ⟨b, plan, hb, hplan, hreal, _⟩ := exists_plan h hv hvalue ht
  have hc := (build_sound h).1.catalog.grounded
  obtain rfl := hplan.of_record? hc hr hu hf
  have hblock : m.arena.Block v b (r.fields.map Field.isUnion) := hreal
  have hfields : ∀ i < r.fieldCount,
      m.arena.fieldNode b i = .ok (if r.startsWithUnion then b else b + i) := by
    intro i hi
    rw [hblock.fieldNode (by simpa [FieldRecord.fieldCount] using hi)]
    cases hhead : r.fields.head? <;> simp [FieldRecord.startsWithUnion, hhead]
  have hpos : 0 < r.fieldCount := List.length_pos_iff.mpr hf
  refine ⟨b, hb, hfields, ?_, ?_⟩
  · intro hall
    by_contra hno
    rw [not_or, Bool.not_eq_false] at hno
    -- a second field would be at the first node
    have hsecond := (hfields 1 (by omega)).symm.trans (hall 1 (by omega))
    simp [hno.1] at hsecond
  · rintro hone i hi
    rw [hfields i hi]
    rcases hone with hunion | hone
    · simp [hunion]
    · obtain rfl : i = 0 := by omega
      simp

theorem struct_fields_reached_stored : ∃ m b, build stored {} = .ok m ∧
    m.arena.objectNodes[0]? = some b ∧ m.arena.fieldNode b 1 = .ok (b + 1) := by
  obtain ⟨m, hb, hfacts⟩ := exists_built stored {} (fun m =>
    decide (m.catalog.isUnion stored (stored.types.stripArrays 1) = false ∧
      (m.catalog.record? stored (stored.types.stripArrays 1)).any
        (fun r => decide (r.fieldCount = 2 ∧ r.startsWithUnion = false)) = true))
    (by decide +kernel)
  have hvalue : stored.values.get? 0 = some ⟨7, some "table", .global ⟨1, false, 0⟩, []⟩ := by
    decide +kernel
  have hv : stored.Stores ({} : Config).allocatorTable 0 :=
    ⟨⟨"main", [0], [1, 2]⟩, by decide +kernel, .global (by simp) hvalue rfl rfl⟩
  have ht : stored.types.pointee? 7 = some 1 := by decide +kernel
  obtain ⟨hu, hany⟩ := of_decide_eq_true hfacts
  obtain ⟨r, hr, hrecord⟩ := (Option.any_eq_true _ _).mp hany
  obtain ⟨hcount, hfirst⟩ := of_decide_eq_true hrecord
  have hf : r.fields ≠ [] := by
    intro hnil
    simp [FieldRecord.fieldCount, hnil] at hcount
  obtain ⟨b, hmapped, hfields, _⟩ := struct_fields_reached hb hv hvalue ht hu hr hf
  refine ⟨m, b, hb, hmapped, ?_⟩
  simpa [hfirst] using hfields 1 (by omega)

/-- A global struct that starts with a union. -/
def leading : List Command := [
  .int 32,
  .defineUnion "union.u" [0],
  .defineStruct "struct.s" [1, 0],
  .addModule "a.o",
  .global "g" 2 false]

def led : Program :=
  ((Draft.start {}).runScript leading).2.program

/-- Both fields of the struct are at its first node. -/
theorem struct_fields_merged_led : ∃ m r, build led {} = .ok m ∧
    m.catalog.isUnion led 2 = false ∧ m.catalog.record? led 2 = some r ∧ r.fieldCount = 2 ∧
    m.arena.objectNodes[0]? = some 6 ∧ m.arena.fieldNode 6 1 = .ok 6 ∧
    ¬ ∀ i < r.fieldCount, m.arena.fieldNode 6 i = .ok (6 + i) := by
  obtain ⟨m, hb, hfacts⟩ := exists_built led {} (fun m =>
    decide (m.catalog.isUnion led 2 = false ∧
      (m.catalog.record? led 2).any (fun r => decide (r.fieldCount = 2)) = true ∧
      m.arena.objectNodes[0]? = some 6 ∧ m.arena.fieldNode 6 1 = .ok 6)) (by decide +kernel)
  obtain ⟨hu, hany, hmapped, hsame⟩ := of_decide_eq_true hfacts
  obtain ⟨r, hr, hcount⟩ := (Option.any_eq_true _ _).mp hany
  have hcount' : r.fieldCount = 2 := of_decide_eq_true hcount
  refine ⟨m, r, hb, hu, hr, hcount', hmapped, hsame, fun hall => ?_⟩
  have hone := hsame.symm.trans (hall 1 (by omega))
  simp at hone

end MemoryModel

end AbstractMemory
