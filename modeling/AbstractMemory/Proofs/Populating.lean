import AbstractMemory.Proofs.Planning
import Mathlib

/-! Filling the arena. Whatever has been made so far, each value that has an
object has the one that was planned for it, and no later step touches it. -/

namespace AbstractMemory

open Steps

/-- The object at `b` is made for `v` as planned. -/
def Arena.Realizes (a : Arena) (v b : Nat) : Population.ObjectPlan → Prop
  | .sentinel n => b = n
  | .fields flags => a.Block v b flags

theorem Arena.Realizes.mono {a a' : Arena} {v b : Nat} {plan : Population.ObjectPlan}
    (h : a.Realizes v b plan) (he : a.Extends a') : a'.Realizes v b plan := by
  cases plan with
  | sentinel n => exact h
  | fields flags => exact Arena.Block.mono h he

namespace Population

variable {p : Program} {asked : Nat → Prop} {inv : Catalog → Prop} {s s' : Population}
  {c c' : Catalog} {a a' : Arena} {heap heap' : List HeapAllocation} {v b : Nat}

/-- How a value came to its object. -/
inductive Made (p : Program) (c : Catalog) (a : Arena) (heap : List HeapAllocation) (v b : Nat) :
    Prop
  | function {value : Value} (hv : p.values.get? v = some value)
      (hf : value.function?.isSome = true) (hb : a.Block v b [false])
  | pointed {value : Value} {pointee : Nat} {plan : ObjectPlan} (hv : p.values.get? v = some value)
      (ht : p.types.pointee? value.type = some pointee)
      (hend : p.types.isArray (p.types.stripArrays pointee) = false)
      (hplan : c.Plans p (p.types.stripArrays pointee) plan) (hb : a.Realizes v b plan)
  | heap {h : HeapAllocation} (hm : h ∈ heap) (hsite : h.site = v) (hobj : h.object = b)

theorem Made.mono (h : Made p c a heap v b) (hc : c.Grounded p) (hg : c.Grows c')
    (he : a.Extends a') (hsub : heap ⊆ heap') : Made p c' a' heap' v b := by
  cases h with
  | function hv hf hb => exact .function hv hf (hb.mono he)
  | pointed hv ht hend hplan hb => exact .pointed hv ht hend (hplan.mono hc hg) (hb.mono he)
  | heap hm hsite hobj => exact .heap (hsub hm) hsite hobj

/-- A heap allocation is made by a call and has the fields it says. If its type
is unknown, none of them is a union, and there are as many as the largest
struct has. -/
structure Allocated (p : Program) (inv : Catalog → Prop) (a : Arena) (h : HeapAllocation) :
    Prop where
  call : ∃ value callee args, p.values.get? h.site = some value ∧
    value.instruction? = some (.call callee args)
  mapped : a.objectNodes[h.site]? = some h.object
  block : ∃ flags, a.Block h.site h.object flags ∧ flags.length = h.fieldCount ∧
    (h.unknownType = true → flags = List.replicate h.fieldCount false)
  largest : h.unknownType = true → ∃ c, inv c ∧ h.fieldCount = max 1 c.maxFields

/-- All objects made so far are in order. -/
structure Sound (p : Program) (inv : Catalog → Prop) (s : Population) : Prop where
  tidy : s.arena.Tidy
  catalog : inv s.catalog
  known : ∀ v ∈ s.arena.objectNodes, v ∈ s.arena.valueNodes
  variadic : ∀ v ∈ s.arena.variadicNodes,
    ∃ value, p.values.get? v = some value ∧ value.function?.isSome = true
  made : ∀ v b : Nat, s.arena.objectNodes[v]? = some b → Made p s.catalog s.arena s.heap v b
  heap : ∀ h ∈ s.heap, Allocated p inv s.arena h

theorem Allocated.mono {h : HeapAllocation} (ha : Allocated p inv a h) (he : a.Extends a')
    (hmapped : a'.objectNodes[h.site]? = some h.object) : Allocated p inv a' h := by
  obtain ⟨flags, hb, hflags⟩ := ha.block
  exact ⟨ha.call, hmapped, ⟨flags, hb.mono he, hflags⟩, ha.largest⟩

/-- A step that makes no object of a value. -/
theorem Sound.frame (hserves : Catalog.Serves p asked inv) (h : Sound p inv s)
    (he : s.arena.Extends s'.arena) (htidy : s'.arena.Tidy)
    (hobjects : s'.arena.objectNodes = s.arena.objectNodes)
    (hvalues : ∀ v ∈ s.arena.valueNodes, v ∈ s'.arena.valueNodes)
    (hvariadic : ∀ v ∈ s'.arena.variadicNodes, v ∈ s.arena.variadicNodes ∨
      ∃ value, p.values.get? v = some value ∧ value.function?.isSome = true)
    (hcatalog : s'.catalog = s.catalog) (hheap : s'.heap = s.heap) : Sound p inv s' where
  tidy := htidy
  catalog := hcatalog ▸ h.catalog
  known := fun v hv => hvalues v (h.known v (hobjects ▸ hv))
  variadic := fun v hv => (hvariadic v hv).elim (h.variadic v) id
  made := by
    intro v b hb
    rw [hobjects] at hb
    rw [hcatalog, hheap]
    exact (h.made v b hb).mono (hserves.coherent _ h.catalog).grounded (Catalog.Grows.refl _) he
      (List.Subset.refl _)
  heap := by
    intro alloc halloc
    rw [hheap] at halloc
    have hold := h.heap alloc halloc
    exact hold.mono he (hobjects ▸ hold.mapped)

theorem Sound.retain (hserves : Catalog.Serves p asked inv) (h : Sound p inv s)
    (hr : s.arena.Retains s'.arena) (hvalues : ∀ v ∈ s.arena.valueNodes, v ∈ s'.arena.valueNodes)
    (hcatalog : s'.catalog = s.catalog) (hheap : s'.heap = s.heap) : Sound p inv s' :=
  h.frame hserves hr.toExtends (hr.tidy h.tidy) hr.objectNodes hvalues
    (fun _ hv => .inl (hr.variadicNodes ▸ hv)) hcatalog hheap

/-- A step that makes the object of a value that had none. -/
theorem Sound.map (hserves : Catalog.Serves p asked inv) (h : Sound p inv s)
    (hv : v ∉ s.arena.objectNodes) (hknown : v ∈ s.arena.valueNodes)
    (hmaps : s.arena.Maps s'.arena v) (htidy : s'.arena.Tidy) (hi : inv s'.catalog)
    (hg : s.catalog.Grows s'.catalog) (hsub : s.heap ⊆ s'.heap)
    (hmade : ∀ b, s'.arena.objectNodes[v]? = some b → Made p s'.catalog s'.arena s'.heap v b)
    (hheap : ∀ h ∈ s'.heap, h ∈ s.heap ∨ Allocated p inv s'.arena h) : Sound p inv s' where
  tidy := htidy
  catalog := hi
  known := by
    intro u hu
    rw [hmaps.valueNodes]
    by_cases huv : u = v
    · exact huv ▸ hknown
    · rw [← Std.TreeMap.isSome_getElem?_iff_mem, hmaps.others u huv,
        Std.TreeMap.isSome_getElem?_iff_mem] at hu
      exact h.known u hu
  variadic := fun u hu => h.variadic u (hmaps.variadicNodes ▸ hu)
  made := by
    intro u b hb
    by_cases huv : u = v
    · subst huv
      exact hmade b hb
    · rw [hmaps.others u huv] at hb
      exact (h.made u b hb).mono (hserves.coherent _ h.catalog).grounded hg hmaps.toExtends hsub
  heap := by
    intro alloc halloc
    refine (hheap alloc halloc).elim ?_ id
    intro hold
    have hmapped := (h.heap alloc hold).mapped
    refine (h.heap alloc hold).mono hmaps.toExtends ?_
    rw [hmaps.others _ ?_, hmapped]
    rintro rfl
    exact hv (Std.TreeMap.isSome_getElem?_iff_mem.mp (by simp [hmapped]))

def Persists (s s' : Population) : Prop :=
  ∀ u ∈ s.arena.objectNodes, u ∈ s'.arena.objectNodes

theorem Persists.refl (s : Population) : s.Persists s :=
  fun _ h => h

theorem Persists.trans {s'' : Population} (h : s.Persists s') (h' : s'.Persists s'') :
    s.Persists s'' :=
  fun u hu => h' u (h u hu)

theorem persists_of_eq (h : s'.arena.objectNodes = s.arena.objectNodes) : s.Persists s' :=
  fun _ hu => h ▸ hu

/-- At most the object of `v` is new. -/
structure Touches (s s' : Population) (v : Nat) : Prop where
  persists : s.Persists s'
  others : ∀ u ∈ s'.arena.objectNodes, u = v ∨ u ∈ s.arena.objectNodes
  valueNodes : s'.arena.valueNodes = s.arena.valueNodes

theorem Touches.refl (s : Population) (v : Nat) : s.Touches s v :=
  ⟨Persists.refl s, fun _ hu => .inr hu, rfl⟩

theorem touches_of_maps (h : s.arena.Maps s'.arena v) (hv : v ∉ s.arena.objectNodes) :
    s.Touches s' v := by
  have hmem : ∀ u, u ≠ v → (u ∈ s'.arena.objectNodes ↔ u ∈ s.arena.objectNodes) := by
    intro u hu
    rw [← Std.TreeMap.isSome_getElem?_iff_mem, h.others u hu, Std.TreeMap.isSome_getElem?_iff_mem]
  refine ⟨fun u hu => (hmem u fun he => hv (he ▸ hu)).mpr hu, ?_, h.valueNodes⟩
  intro u hu
  by_cases huv : u = v
  · exact .inl huv
  · exact .inr ((hmem u huv).mp hu)

theorem onArena_meets {α : Type} {step : Arranging α} {good : α → Arena → Prop}
    {bad : Arena → Prop} (h : Meets step s.arena good bad) :
    Meets (onArena step) s
      (fun x s' => good x s'.arena ∧ s'.catalog = s.catalog ∧ s'.heap = s.heap) (fun _ => True) :=
  meets_onArena (h.mono (fun _ _ hx => ⟨hx, rfl, rfl⟩) (fun _ _ => trivial))

/-! ### Values -/

theorem createValue_meets (hserves : Catalog.Serves p asked inv) (h : Sound p inv s) (v : Nat) :
    Meets (createValue v) s
      (fun _ s' => Sound p inv s' ∧ v ∉ s.arena.valueNodes ∧
        s'.arena.objectNodes = s.arena.objectNodes ∧
        ∀ u, u ∈ s'.arena.valueNodes ↔ u = v ∨ u ∈ s.arena.valueNodes) (fun _ => True) := by
  unfold createValue
  refine (onArena_meets (Arena.createValue_meets s.arena v)).bind ?_
  rintro _ s₁ ⟨⟨hr, hnew, hvalues⟩, hcatalog, hheap⟩
  have hmem : ∀ u, u ∈ s₁.arena.valueNodes ↔ u = v ∨ u ∈ s.arena.valueNodes := by
    intro u
    rw [hvalues, Std.TreeMap.mem_insert, Std.LawfulEqCmp.compare_eq_iff_eq, eq_comm]
  exact ⟨h.retain hserves hr (fun u hu => (hmem u).mpr (.inr hu)) hcatalog hheap, hnew,
    hr.objectNodes, hmem⟩

/-- Values made one after another are all different and were not there before. -/
theorem createValues_meets (hserves : Catalog.Serves p asked inv) (h : Sound p inv s)
    (vs : List Nat) :
    Meets (vs.forM createValue) s
      (fun _ s' => Sound p inv s' ∧ vs.Nodup ∧ (∀ v ∈ vs, v ∉ s.arena.valueNodes) ∧
        s'.arena.objectNodes = s.arena.objectNodes ∧
        ∀ u, u ∈ s'.arena.valueNodes ↔ u ∈ vs ∨ u ∈ s.arena.valueNodes) (fun _ => True) := by
  refine Meets.forM (fun done s' => Sound p inv s' ∧ done.Nodup ∧
    (∀ v ∈ done, v ∉ s.arena.valueNodes) ∧ s'.arena.objectNodes = s.arena.objectNodes ∧
    ∀ u, u ∈ s'.arena.valueNodes ↔ u ∈ done ∨ u ∈ s.arena.valueNodes) ?_
    ⟨h, .nil, by simp, rfl, by simp⟩
  rintro done v rest s₁ _ ⟨hsound, hnodup, hnew, hobjects, hmem⟩
  refine (createValue_meets hserves hsound v).mono ?_ (fun _ _ => trivial)
  rintro _ s₂ ⟨hsound₂, hv, hobjects₂, hmem₂⟩
  have hv' := fun hin => hv ((hmem v).mpr hin)
  refine ⟨hsound₂, ?_, ?_, hobjects₂.trans hobjects, ?_⟩
  · rw [List.nodup_append]
    refine ⟨hnodup, List.nodup_singleton v, ?_⟩
    intro u hu w hw huw
    obtain rfl := List.mem_singleton.mp hw
    exact hv' (.inl (huw ▸ hu))
  · intro u hu
    rcases List.mem_append.mp hu with hu | hu
    · exact hnew u hu
    · obtain rfl := List.mem_singleton.mp hu
      exact fun hin => hv' (.inr hin)
  · intro u
    rw [hmem₂, hmem, List.mem_append, List.mem_singleton]
    tauto

/-! ### Objects -/

theorem createFields_meets {a : Arena} {done : List Bool} {rest : List Bool} {isHeap : Bool}
    (h : Arena.Building a s.arena v done) :
    Meets (createFields a.size isHeap done.length rest) s
      (fun _ s' => Arena.Building a s'.arena v (done ++ rest) ∧ s'.catalog = s.catalog ∧
        s'.heap = s.heap) (fun _ => True) := by
  induction rest generalizing s done with
  | nil => exact ⟨by simpa using h, rfl, rfl⟩
  | cons isUnion rest ih =>
    rw [createFields]
    refine (onArena_meets (Arena.createField_meets h isUnion isHeap)).bind ?_
    rintro _ s₁ ⟨h₁, hcatalog, hheap⟩
    have hrest := ih h₁
    rw [List.length_append, List.length_singleton] at hrest
    refine hrest.mono ?_ (fun _ _ => trivial)
    rintro _ s₂ ⟨h₂, hcatalog₂, hheap₂⟩
    rw [List.append_assoc, List.singleton_append] at h₂
    exact ⟨h₂, hcatalog₂.trans hcatalog, hheap₂.trans hheap⟩

theorem allocate_meets (ht : s.arena.Tidy) (hv : v ∉ s.arena.objectNodes) {flags : List Bool}
    (hne : flags ≠ []) (isHeap : Bool) :
    Meets (allocate v flags isHeap) s
      (fun n s' => n = s.arena.size ∧ Arena.Building s.arena s'.arena v flags ∧
        s'.catalog = s.catalog ∧ s'.heap = s.heap) (fun _ => True) := by
  obtain ⟨first, rest, rfl⟩ := List.exists_cons_of_ne_nil hne
  unfold allocate
  rw [meets_get_bind]
  simp only [Std.TreeMap.getElem?_eq_none hv, List.headD_cons, List.tail_cons]
  refine (onArena_meets (Arena.createObject_meets ht hv first isHeap)).bind ?_
  rintro _ s₁ ⟨⟨rfl, h₁⟩, hcatalog, hheap⟩
  refine (createFields_meets h₁).bind ?_
  rintro _ s₂ ⟨h₂, hcatalog₂, hheap₂⟩
  exact ⟨rfl, h₂, hcatalog₂.trans hcatalog, hheap₂.trans hheap⟩

theorem plan_ne_nil {t : Nat} {flags : List Bool} (h : c.Plans p t (.fields flags)) :
    flags ≠ [] := by
  cases h with
  | scalar => simp
  | union => simp
  | struct _ _ _ _ hf => simpa using hf

theorem meets_strip (p : Program) (t : Nat) (s : Population) :
    Meets (ask (p.types.strip t)) s
      (fun u s' => u = p.types.stripArrays t ∧ p.types.isArray u = false ∧ s = s')
      (fun _ => True) := by
  refine meets_ask (fun u hu => ?_) (fun _ _ => trivial)
  obtain ⟨hend, rfl⟩ := TypeTable.strip_eq_ok.mp hu
  exact ⟨rfl, hend, rfl⟩

theorem createPointedTo_meets (hserves : Catalog.Serves p asked inv) (h : Sound p inv s)
    (hv : v ∉ s.arena.objectNodes) (hknown : v ∈ s.arena.valueNodes) {value : Value}
    (hvalue : p.values.get? v = some value)
    (hasked : ∀ t, p.types.pointee? value.type = some t → asked (p.types.stripArrays t)) :
    Meets (createPointedTo p v value.type) s
      (fun _ s' => Sound p inv s' ∧ s.Touches s' v ∧
        ((p.types.pointee? value.type).isSome = true → v ∈ s'.arena.objectNodes))
      (fun _ => True) := by
  unfold createPointedTo
  split
  · rename_i hnone
    exact ⟨h, Touches.refl s v, fun hsome => by simp [hnone] at hsome⟩
  · rename_i pointee hpointee
    refine (meets_strip p pointee s).bind ?_
    rintro _ _ ⟨rfl, hend, rfl⟩
    refine (planFor_meets hserves (hasked pointee hpointee) h.catalog).bind ?_
    rintro plan _ ⟨c, rfl, hi, hg, hplan⟩
    -- whichever way the object is made, only `v` is mapped anew
    have hdone : ∀ (s' : Population) (n : Nat), s.arena.Maps s'.arena v → s'.arena.Tidy →
        s'.arena.objectNodes[v]? = some n → s'.arena.Realizes v n plan → s'.catalog = c →
        s'.heap = s.heap → Sound p inv s' ∧ s.Touches s' v ∧
          ((p.types.pointee? value.type).isSome = true → v ∈ s'.arena.objectNodes) := by
      rintro s' n hmaps htidy hn hreal rfl hheap
      refine ⟨h.map hserves hv hknown hmaps htidy hi hg (by simp [hheap]) ?_ ?_,
        touches_of_maps hmaps hv, fun _ => ?_⟩
      · intro b hb
        obtain rfl := Option.some.inj (hn.symm.trans hb)
        exact .pointed hvalue hpointee hend hplan hreal
      · exact fun alloc halloc => .inl (hheap ▸ halloc)
      · exact Std.TreeMap.isSome_getElem?_iff_mem.mp (by simp [hn])
    split
    · rename_i n
      refine (onArena_meets (s := { s with catalog := c })
        (Arena.aliasObject_meets h.tidy hv n)).bind ?_
      rintro _ s₁ ⟨⟨hmaps, htidy, hn⟩, hcatalog, hheap⟩
      exact hdone { s₁ with tally := _ } n hmaps htidy hn rfl hcatalog hheap
    · rename_i flags
      refine Meets.bind (allocate_meets (s := { s with catalog := c }) h.tidy hv
        (plan_ne_nil hplan) false) ?_
      rintro n s₁ ⟨rfl, hb, hcatalog, hheap⟩
      exact hdone s₁ _ hb.toMaps hb.tidy hb.mapped hb.block hcatalog hheap

theorem meets_ask_value (p : Program) (v : Nat) (s : Population) :
    Meets (ask (p.values.get v)) s (fun value s' => p.values.get? v = some value ∧ s = s')
      (fun _ => True) :=
  meets_ask (fun _ h => ⟨ValueTable.get_eq_ok.mp h, rfl⟩) (fun _ _ => trivial)

/-- The structs that the objects of a value may need are `asked` for. -/
structure Askable (p : Program) (asked : Nat → Prop) (v : Nat) : Prop where
  pointee : ∀ value t, p.values.get? v = some value → p.types.pointee? value.type = some t →
    asked (p.types.stripArrays t)
  cast : ∀ value user other t, p.values.get? v = some value → user ∈ value.users →
    p.values.get? user = some other → castPointee? p other = some t →
      asked (p.types.stripArrays t)

theorem populateGlobal_meets (hserves : Catalog.Serves p asked inv) (h : Sound p inv s)
    (hask : Askable p asked v) :
    Meets (populateGlobal p v) s
      (fun _ s' => Sound p inv s' ∧ s.Persists s' ∧ ∀ value, p.values.get? v = some value →
        value.isDeclaration = false → (p.types.pointee? value.type).isSome = true →
          v ∈ s'.arena.objectNodes) (fun _ => True) := by
  unfold populateGlobal
  refine Meets.bind (meets_ask_value p v s) ?_
  rintro value _ ⟨hvalue, rfl⟩
  have hone : ∀ value', p.values.get? v = some value' → value = value' :=
    fun value' h' => Option.some.inj (hvalue.symm.trans h')
  split
  · rename_i hdecl
    refine ⟨⟨h.tidy, h.catalog, h.known, h.variadic, h.made, h.heap⟩, Persists.refl s, ?_⟩
    intro value' hv hdef
    simp [← hone value' hv, hdecl] at hdef
  · refine (createValue_meets hserves h v).bind ?_
    rintro _ s₁ ⟨h₁, hnew, hobjects, hmem⟩
    have hfree : v ∉ s₁.arena.objectNodes := fun hin => hnew (h.known v (hobjects ▸ hin))
    refine (createPointedTo_meets hserves h₁ hfree ((hmem v).mpr (.inl rfl)) hvalue
      (fun t => hask.pointee value t hvalue)).mono ?_ (fun _ _ => trivial)
    rintro _ s₂ ⟨h₂, htouches, hmapped⟩
    refine ⟨h₂, (persists_of_eq hobjects).trans htouches.persists, ?_⟩
    intro value' hv _ hsome
    exact hmapped (hone value' hv ▸ hsome)

theorem functionObject_meets (hserves : Catalog.Serves p asked inv) (h : Sound p inv s)
    (hv : v ∉ s.arena.objectNodes) (hknown : v ∈ s.arena.valueNodes) {value : Value}
    (hvalue : p.values.get? v = some value) (hf : value.function?.isSome = true) :
    Meets (onArena (Arena.createObject (some v) false false)) s
      (fun _ s' => Sound p inv s' ∧ s.Persists s') (fun _ => True) := by
  refine (onArena_meets (Arena.createObject_meets h.tidy hv false false)).mono ?_ (fun _ _ => trivial)
  rintro n s' ⟨⟨rfl, hb⟩, hcatalog, hheap⟩
  refine ⟨h.map hserves hv hknown hb.toMaps hb.tidy (hcatalog ▸ h.catalog)
    (hcatalog ▸ Catalog.Grows.refl _) (by simp [hheap]) ?_
    (fun alloc halloc => .inl (hheap ▸ halloc)), (touches_of_maps hb.toMaps hv).persists⟩
  intro b hbv
  obtain rfl := Option.some.inj (hb.mapped.symm.trans hbv)
  exact .function hvalue hf hb.block

theorem populateFunction_meets (hserves : Catalog.Serves p asked inv) (h : Sound p inv s)
    (functionObjects : Bool) :
    Meets (populateFunction p functionObjects v) s
      (fun _ s' => Sound p inv s' ∧ s.Persists s') (fun _ => True) := by
  unfold populateFunction
  refine Meets.bind (meets_ask_value p v s) ?_
  rintro value _ ⟨hvalue, rfl⟩
  split
  · trivial
  · rename_i f hf
    split
    · exact ⟨⟨h.tidy, h.catalog, h.known, h.variadic, h.made, h.heap⟩, Persists.refl s⟩
    · refine Meets.bind (meets_ask (fun _ _ => rfl) (fun _ _ => trivial)
        : Meets _ s (fun _ s₁ => s = s₁) (fun _ => True)) ?_
      rintro ty _ rfl
      split
      · rename_i shape
        extract_lets last next
        -- from the arguments on, where the function may get an object of its own
        have hlast : ∀ s₁, Sound p inv s₁ → s.Persists s₁ → Meets (last ()) s₁
            (fun _ s' => Sound p inv s' ∧ s.Persists s') (fun _ => True) := by
          intro s₁ h₁ hp₁
          refine (createValues_meets hserves h₁ f.args).bind ?_
          rintro _ s₂ ⟨h₂, _, _, hobjects₂, _⟩
          refine (createValue_meets hserves h₂ v).bind ?_
          rintro _ s₃ ⟨h₃, hnew, hobjects₃, hmem⟩
          have hp₃ : s.Persists s₃ := hp₁.trans (persists_of_eq (hobjects₃.trans hobjects₂))
          split
          · refine Meets.bind (meets_ask (fun _ _ => rfl) (fun _ _ => trivial)
              : Meets _ s₃ (fun _ s₄ => s₃ = s₄) (fun _ => True)) ?_
            rintro taken _ rfl
            split
            · have hfree : v ∉ s₃.arena.objectNodes :=
                fun hin => hnew (h₂.known v (hobjects₃ ▸ hin))
              refine (functionObject_meets hserves h₃ hfree ((hmem v).mpr (.inl rfl)) hvalue
                (by simp [hf])).bind ?_
              rintro _ s₄ ⟨h₄, hp₄⟩
              exact ⟨⟨h₄.tidy, h₄.catalog, h₄.known, h₄.variadic, h₄.made, h₄.heap⟩, hp₃.trans hp₄⟩
            · exact ⟨h₃, hp₃⟩
          · exact ⟨h₃, hp₃⟩
        have hnext : ∀ s₁, Sound p inv s₁ → s.Persists s₁ → Meets (next ()) s₁
            (fun _ s' => Sound p inv s' ∧ s.Persists s') (fun _ => True) := by
          intro s₁ h₁ hp₁
          unfold next
          split
          · refine (onArena_meets (Arena.createVariadic_meets h₁.tidy v)).bind ?_
            rintro _ s₂ ⟨⟨htidy, he, hobjects, hvalues, hvariadic⟩, hcatalog, hheap⟩
            refine hlast _ (h₁.frame hserves he htidy hobjects (fun u hu => hvalues ▸ hu) ?_ hcatalog
              hheap) (hp₁.trans (persists_of_eq hobjects))
            intro u hu
            rw [hvariadic, Std.TreeMap.mem_insert, Std.LawfulEqCmp.compare_eq_iff_eq] at hu
            rcases hu with rfl | hu
            · exact .inr ⟨value, hvalue, by simp [hf]⟩
            · exact .inl hu
          · exact hlast s₁ h₁ hp₁
        split
        · refine (onArena_meets (Arena.createReturn_meets s.arena v)).bind ?_
          rintro _ s₁ ⟨⟨hr, hvalues⟩, hcatalog, hheap⟩
          exact hnext _ (h.retain hserves hr (fun u hu => hvalues ▸ hu) hcatalog hheap)
            (persists_of_eq hr.objectNodes)
        · exact hnext s h (Persists.refl s)
      · trivial

/-! ### Heap objects -/

theorem castPointee?_of_firstCast? {users : List Nat} {t : Nat}
    (h : firstCast? p users = .ok (some t)) :
    ∃ user ∈ users, ∃ other, p.values.get? user = some other ∧ castPointee? p other = some t := by
  induction users with
  | nil => simp [firstCast?] at h
  | cons user rest ih =>
    unfold firstCast? at h
    split at h
    · cases h
    · rename_i other hother
      split at h
      · rename_i t' ht
        obtain rfl : t' = t := by simpa using h
        exact ⟨user, by simp, other, ValueTable.get_eq_ok.mp hother, ht⟩
      · obtain ⟨user', hmem, hcast⟩ := ih h
        exact ⟨user', by simp [hmem], hcast⟩

theorem heapElement_meets (hask : Askable p asked v) {site : Value}
    (hsite : p.values.get? v = some site) :
    Meets (heapElement p v site) s (fun t s' => s = s' ∧ asked t) (fun _ => True) := by
  unfold heapElement
  split
  · trivial
  · rename_i pointee hpointee
    have hasked := hask.pointee site pointee hsite hpointee
    have hstrip : ∀ t, asked (p.types.stripArrays t) →
        Meets (ask (p.types.strip t)) s (fun t s' => s = s' ∧ asked t) (fun _ => True) := by
      intro t ht
      refine (meets_strip p t s).mono ?_ (fun _ _ => trivial)
      rintro _ _ ⟨rfl, _, rfl⟩
      exact ⟨rfl, ht⟩
    split
    · refine Meets.bind (meets_ask (fun found hfound => ⟨hfound, rfl⟩) (fun _ _ => trivial)
        : Meets _ s (fun found s₁ => firstCast? p site.users = .ok found ∧ s = s₁)
          (fun _ => True)) ?_
      rintro found _ ⟨hfound, rfl⟩
      cases found with
      | none => exact hstrip pointee hasked
      | some t =>
        obtain ⟨user, hmem, other, hother, hcast⟩ := castPointee?_of_firstCast? hfound
        exact hstrip t (hask.cast site user other t hsite hmem hother hcast)
    · exact hstrip pointee hasked

theorem populateHeap_meets (hserves : Catalog.Serves p asked inv) (h : Sound p inv s)
    (hv : v ∉ s.arena.objectNodes) (hknown : v ∈ s.arena.valueNodes) (hask : Askable p asked v)
    (hcall : ∃ value callee args, p.values.get? v = some value ∧
      value.instruction? = some (.call callee args)) (spec : Allocator) :
    Meets (populateHeap p v spec) s
      (fun _ s' => Sound p inv s' ∧ s.Touches s' v) (fun _ => True) := by
  unfold populateHeap
  refine Meets.bind (meets_ask_value p v s) ?_
  rintro site _ ⟨hsite, rfl⟩
  refine (heapElement_meets hask hsite).bind ?_
  rintro element _ ⟨rfl, hasked⟩
  extract_lets next
  have hnext : ∀ (known : Option (List Bool)) (c : Catalog), inv c → s.catalog.Grows c →
      (∀ flags, known = some flags → flags ≠ []) → Meets (next known) { s with catalog := c }
        (fun _ s' => Sound p inv s' ∧ s.Touches s' v) (fun _ => True) := by
    intro known c hi hg hne
    unfold next
    rw [meets_get_bind]
    extract_lets flags
    have hflags : flags ≠ [] := by
      cases known with
      | none =>
        rw [← List.length_pos_iff]
        simp only [flags, Option.getD_none, List.length_replicate]
        omega
      | some found => exact hne found rfl
    refine (allocate_meets (s := { s with catalog := c }) h.tidy hv hflags true).bind ?_
    rintro object s₁ ⟨rfl, hb, hcatalog, hheap⟩
    dsimp only at hb hcatalog hheap
    refine ⟨h.map hserves hv hknown hb.toMaps hb.tidy (hcatalog ▸ hi) (hcatalog ▸ hg)
      ?_ ?_ ?_, touches_of_maps hb.toMaps hv⟩
    · exact fun alloc halloc => List.mem_append_left _ (hheap ▸ halloc)
    · intro b hbv
      obtain rfl := Option.some.inj (hb.mapped.symm.trans hbv)
      exact .heap (List.mem_append_right _ (List.mem_singleton.mpr rfl)) rfl rfl
    · intro alloc halloc
      rcases List.mem_append.mp halloc with hold | hnew
      · exact .inl (hheap ▸ hold)
      · obtain rfl := List.mem_singleton.mp hnew
        refine .inr ⟨hcall, hb.mapped, ⟨flags, hb.block, rfl, ?_⟩, ?_⟩
        · intro hunknown
          obtain rfl : known = none := by simpa using hunknown
          simp [flags]
        · intro hunknown
          obtain rfl : known = none := by simpa using hunknown
          exact ⟨c, hi, by simp [flags]⟩
  split
  · refine (planFor_meets hserves hasked h.catalog).bind ?_
    rintro plan _ ⟨c, rfl, hi, hg, hplan⟩
    cases plan with
    | fields flags =>
      refine hnext (some flags) c hi hg ?_
      intro flags' heq
      exact Option.some.inj heq ▸ plan_ne_nil hplan
    | sentinel n => exact hnext none c hi hg (by simp)
  · exact hnext none s.catalog h.catalog (Catalog.Grows.refl _) (by simp)

end Population

end AbstractMemory
