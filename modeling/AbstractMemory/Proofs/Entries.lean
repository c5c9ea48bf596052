import AbstractMemory.Proofs.Ledger
import AbstractMemory.Proofs.Modelled
import Mathlib

/-! What the arena has nodes for. A step that makes nodes enters them for certain
values. If none of these has such a node yet, the arena gives the step no reason
to fail, and the step counts what it makes. -/

namespace AbstractMemory

open Steps

/-- What a node is to the value that it was made for. -/
inductive Role where
  | value
  | object
  | result
  | variadic
deriving DecidableEq

/-- Reasons to fail in which the arena has no part. -/
inductive NodeError.OfProgram : NodeError → Prop
  | allocation (v : Nat) : OfProgram (.allocationNotPointer v)
  | record (e : RecordError) : OfProgram (.record e)
  | program (e : ProgramError) : OfProgram (.program e)

namespace Arena

variable {a a' : Arena} {v n : Nat} {node : MemoryNode}

def nodesFor (a : Arena) : Role → Std.TreeMap Nat Nat
  | .value => a.valueNodes
  | .object => a.objectNodes
  | .result => a.returnNodes
  | .variadic => a.variadicNodes

def entries (a : Arena) : Set (Role × Nat) :=
  {e | e.2 ∈ a.nodesFor e.1}

theorem entries_insert {role : Role}
    (h : ∀ r, a'.nodesFor r = if r = role then (a.nodesFor r).insert v n else a.nodesFor r) :
    a'.entries = a.entries ∪ {(role, v)} := by
  ext ⟨r, u⟩
  by_cases hr : r = role
  · subst hr
    simp [entries, h, Std.TreeMap.mem_insert, Std.LawfulEqCmp.compare_eq_iff_eq,
      eq_comm (a := u)]
  · simp [entries, h, hr]

theorem object_push (hn : a'.nodes = a.nodes.push node) {old : MemoryNode}
    (h : a.object n = .ok old) : a'.object n = .ok old := by
  rw [object_eq_ok] at h ⊢
  have hlt := lt_size_of_get? h.1
  rw [get?_push hn, if_neg (by omega)]
  exact h

/-- The sentinels that stand for objects are objects, and the node of a value says
which one it is for. -/
structure Orderly (a : Arena) : Prop where
  universal : ∃ node, a.object universalObject = .ok node
  null : ∃ node, a.object nullObject = .ok node
  labels : ∀ v n : Nat, a.valueNodes[v]? = some n →
    ∃ node, a.get? n = some node ∧ node.kind = .value ∧ node.origin = some v

theorem Orderly.push (h : a.Orderly) (hn : a'.nodes = a.nodes.push node)
    (hvalues : ∀ v m : Nat, a'.valueNodes[v]? = some m → a.valueNodes[v]? = some m ∨
      m = a.size ∧ node.kind = .value ∧ node.origin = some v) : a'.Orderly where
  universal := h.universal.imp fun _ => object_push hn
  null := h.null.imp fun _ => object_push hn
  labels := by
    intro v m hm
    rcases hvalues v m hm with hm | ⟨rfl, hkind, horigin⟩
    · obtain ⟨old, hold, hrest⟩ := h.labels v m hm
      have hlt := lt_size_of_get? hold
      exact ⟨old, by rw [get?_push hn, if_neg (by omega), hold], hrest⟩
    · exact ⟨node, by rw [get?_push hn, if_pos rfl], hkind, horigin⟩

theorem orderly_empty : ({} : Arena).Orderly :=
  ⟨⟨_, rfl⟩, ⟨_, rfl⟩, by simp⟩

theorem entries_empty : ({} : Arena).entries = ∅ := by
  ext ⟨role, v⟩
  cases role <;> simp [entries, nodesFor]

/-- A step enters just `new`, and fails only if some of that is there already. -/
def Enters {α : Type} (new : Set (Role × Nat)) (step : Arranging α) : Prop :=
  ∀ a : Arena, a.Orderly → Meets step a (fun _ a' => a'.Orderly ∧ a'.entries = a.entries ∪ new)
    (fun _ => ¬ Disjoint a.entries new)

theorem not_disjoint_of_mem {role : Role} (h : v ∈ a.nodesFor role) :
    ¬ Disjoint a.entries {(role, v)} := by
  rw [Set.disjoint_singleton_right, not_not]
  exact h

theorem createValue_enters (v : Nat) : Enters {(.value, v)} (createValue (some v)) := by
  intro a h
  refine meets_createValue (fun hold => not_disjoint_of_mem hold) ?_
  intro _
  refine ⟨h.push rfl ?_, entries_insert (by rintro (_ | _ | _ | _) <;> rfl)⟩
  intro u m hm
  rw [getElem?_insert_node] at hm
  split at hm
  · rename_i hvu
    exact .inr ⟨(Option.some.inj hm).symm, rfl, congrArg some hvu⟩
  · exact .inl hm

theorem createReturn_enters (v : Nat) : Enters {(.result, v)} (createReturn v) := by
  intro a h
  exact meets_createReturn (fun hold => not_disjoint_of_mem hold) fun _ =>
    ⟨h.push rfl (fun _ _ => .inl), entries_insert (by rintro (_ | _ | _ | _) <;> rfl)⟩

theorem createVariadic_enters (v : Nat) : Enters {(.variadic, v)} (createVariadic v) := by
  intro a h
  exact meets_createVariadic (fun hold => not_disjoint_of_mem hold) fun _ =>
    ⟨h.push rfl (fun _ _ => .inl), entries_insert (by rintro (_ | _ | _ | _) <;> rfl)⟩

theorem entries_union_of_mem {e : Role × Nat} (h : e ∈ a.entries) :
    a.entries = a.entries ∪ {e} :=
  (Set.union_eq_self_of_subset_right (Set.singleton_subset_iff.mpr h)).symm

theorem getElem?_of_disjoint (h : Disjoint a.entries {(.object, v)}) :
    a.objectNodes[v]? = none := by
  rw [Set.disjoint_singleton_right] at h
  exact Std.TreeMap.getElem?_eq_none h

theorem mem_entries_of_getElem? (h : a.objectNodes[v]? = some n) : (.object, v) ∈ a.entries := by
  have hmem : v ∈ a.objectNodes := Std.TreeMap.isSome_getElem?_iff_mem.mp (by simp [h])
  exact hmem

theorem createObject_new (h : a.Orderly) (hv : a.objectNodes[v]? = none) (isUnion isHeap : Bool) :
    Meets (createObject (some v) isUnion isHeap) a
      (fun n a' => a'.Orderly ∧ a'.entries = a.entries ∪ {(.object, v)} ∧
        (∃ node, a'.object n = .ok node) ∧ n + 1 = a'.size) (fun _ => False) := by
  refine meets_createObject (fun n hn => by simp [hv] at hn) ?_
  intro _
  refine ⟨h.push rfl (fun _ _ => .inl), entries_insert (by rintro (_ | _ | _ | _) <;> rfl), ?_,
    (size_push rfl).symm⟩
  exact ⟨_, object_eq_ok.mpr ⟨(get?_push rfl _).trans (if_pos rfl), rfl⟩⟩

theorem createObject_enters (v : Nat) (isUnion isHeap : Bool) :
    Enters {(.object, v)} (createObject (some v) isUnion isHeap) := by
  intro a h
  cases hv : a.objectNodes[v]? with
  | none =>
    exact (createObject_new h hv isUnion isHeap).mono (fun _ _ h' => ⟨h'.1, h'.2.1⟩)
      fun _ => False.elim
  | some n =>
    have hmem := mem_entries_of_getElem? hv
    exact meets_createObject (fun _ _ => ⟨h, entries_union_of_mem hmem⟩) fun hnew =>
      absurd hmem hnew

theorem createField_next {base offset : Nat} (h : a.Orderly) (hoffset : offset ≠ 0)
    (hbase : ∃ node, a.object base = .ok node) (hsize : base + offset = a.size)
    (isUnion isHeap : Bool) :
    Meets (createField base offset isUnion isHeap) a
      (fun _ a' => a'.Orderly ∧ a'.entries = a.entries ∧ (∃ node, a'.object base = .ok node) ∧
        base + (offset + 1) = a'.size) (fun _ => False) := by
  obtain ⟨node, hnode⟩ := hbase
  refine meets_createField ?_ ?_
  · rintro (hzero | hnone | hgap)
    · exact hoffset hzero
    · exact hnone node hnode
    · exact hgap hsize
  · intro _ _
    refine ⟨h.push rfl (fun _ _ => .inl), rfl, ⟨node, object_push rfl hnode⟩, ?_⟩
    rw [size_push rfl, ← hsize, Nat.add_assoc]

theorem aliasObject_enters (v : Nat) (hn : n = universalObject ∨ n = nullObject) :
    Enters {(.object, v)} (aliasObject v n) := by
  intro a h
  have hobject : ∃ node, a.object n = .ok node := by
    rcases hn with rfl | rfl
    · exact h.universal
    · exact h.null
  obtain ⟨node, hnode⟩ := hobject
  exact meets_aliasObject (fun hnone => absurd hnode (hnone node))
    ⟨⟨h.universal, h.null, h.labels⟩, entries_insert (by rintro (_ | _ | _ | _) <;> rfl)⟩

end Arena

theorem Steps.Meets.blames {ε σ α : Type} {step : EStateM ε σ α} {s : σ} {good : α → σ → Prop}
    {reason : ε → Prop} (h : Meets step s good (fun _ => False)) : Blames step s reason :=
  fun _ _ hs => (h.of_error hs rfl).elim

namespace Population

section
variable {α β : Type} {new new' : Set (Role × Nat)} {step : Populating α} {next : α → Populating β}

/-- A step that succeeds enters just `new`. If nothing of that is there yet, it fails only for
what it finds in the program, and balanced books stay balanced. -/
def Enters (new : Set (Role × Nat)) (step : Populating α) : Prop :=
  ∀ s : Population, s.arena.Orderly →
    Meets step s (fun _ s' => s'.arena.Orderly ∧ s'.arena.entries = s.arena.entries ∪ new)
      (fun _ => True) ∧
    (Disjoint s.arena.entries new → Blames step s NodeError.OfProgram ∧
      (s.Balanced → Meets step s (fun _ => Balanced) (fun _ => True)))

theorem Enters.congr (h : Enters new step) (heq : ∀ e, e ∈ new' ↔ e ∈ new) : Enters new' step := by
  rw [Set.ext heq]
  exact h

theorem Enters.bind_of (h : Enters new step) {good : α → Prop}
    (hgood : ∀ s, Meets step s (fun x _ => good x) (fun _ => True))
    (hnext : ∀ x, good x → Enters new' (next x)) (hd : Disjoint new new') :
    Enters (new ∪ new') (step >>= next) := by
  intro s hs
  obtain ⟨hmeets, hrest⟩ := h s hs
  have hmid := (hmeets.and (hgood s)).mono (fun _ _ h => h) (fun _ _ => trivial)
  constructor
  · refine hmid.bind ?_
    rintro x s₁ ⟨⟨hs₁, he₁⟩, hx⟩
    refine (hnext x hx s₁ hs₁).1.mono ?_ (fun _ _ => trivial)
    rintro _ s₂ ⟨hs₂, he₂⟩
    exact ⟨hs₂, by rw [he₂, he₁, Set.union_assoc]⟩
  · intro hfree
    rw [Set.disjoint_union_right] at hfree
    obtain ⟨hblames, hbooks⟩ := hrest hfree.1
    have hfree' : ∀ s₁ : Population, s₁.arena.entries = s.arena.entries ∪ new →
        Disjoint s₁.arena.entries new' := by
      intro s₁ he₁
      rw [he₁, Set.disjoint_union_left]
      exact ⟨hfree.2, hd⟩
    constructor
    · refine hblames.bind hmid ?_
      rintro x s₁ ⟨⟨hs₁, he₁⟩, hx⟩
      exact ((hnext x hx s₁ hs₁).2 (hfree' s₁ he₁)).1
    · intro hb
      refine ((hmid.and (hbooks hb)).mono (fun _ _ h => h) fun _ _ => trivial).bind ?_
      rintro x s₁ ⟨⟨⟨hs₁, he₁⟩, hx⟩, hb₁⟩
      exact ((hnext x hx s₁ hs₁).2 (hfree' s₁ he₁)).2 hb₁

theorem Enters.bind (h : Enters new step) (hnext : ∀ x, Enters new' (next x))
    (hd : Disjoint new new') : Enters (new ∪ new') (step >>= next) := by
  have hany : ∀ s, Meets step s (fun _ _ => True) (fun _ => True) := by
    intro s
    unfold Meets
    split <;> trivial
  exact h.bind_of hany (fun x _ => hnext x) hd

theorem Enters.before (h : Enters ∅ step) (hnext : ∀ x, Enters new (next x)) :
    Enters new (step >>= next) :=
  (h.bind hnext (Set.empty_disjoint new)).congr (by simp)

theorem Enters.after (h : Enters new step) (hnext : ∀ x, Enters ∅ (next x)) :
    Enters new (step >>= next) :=
  (h.bind hnext (Set.disjoint_empty new)).congr (by simp)

theorem enters_of_meets (h : ∀ s : Population, s.arena.Orderly → Meets step s
    (fun _ s' => s'.arena.Orderly ∧ s'.arena.entries = s.arena.entries ∪ new)
      (fun _ => ¬ Disjoint s.arena.entries new))
    (hbooks : ∀ s : Population, Disjoint s.arena.entries new → s.Balanced →
      Meets step s (fun _ => Balanced) (fun _ => True)) : Enters new step := by
  intro s hs
  refine ⟨(h s hs).mono (fun _ _ h => h) (fun _ _ => trivial), fun hfree => ⟨?_, hbooks s hfree⟩⟩
  exact ((h s hs).mono (fun _ _ h => h) fun _ hno => hno hfree).blames

theorem enters_same (h : ∀ s, Meets step s
    (fun _ s' => s'.arena = s.arena ∧ s'.heap = s.heap ∧ s.tally.Adds s'.tally 0 0 [])
      (fun _ => False)) : Enters ∅ step := by
  refine enters_of_meets (fun s hs => (h s).mono ?_ (fun _ => False.elim)) fun s _ hb => ?_
  · rintro _ s' ⟨heq, _⟩
    rw [heq, Set.union_empty]
    exact ⟨hs, rfl⟩
  · refine (h s).mono ?_ (fun _ => False.elim)
    rintro _ s' ⟨heq, hheap, htally⟩
    exact hb.add [] (heq ▸ Arena.Adds.refl s.arena) htally (by simp [hheap])

theorem enters_pure (x : α) : Enters ∅ (pure x : Populating α) :=
  enters_same fun s => ⟨rfl, rfl, Tally.Adds.refl s.tally⟩

theorem enters_get : Enters ∅ (get : Populating Population) :=
  enters_same fun s => ⟨rfl, rfl, Tally.Adds.refl s.tally⟩

theorem enters_count {f : Tally → Tally} (h : ∀ t : Tally, t.Adds (f t) 0 0 []) :
    Enters ∅ (count f) :=
  enters_same fun s => ⟨rfl, rfl, h s.tally⟩

theorem enters_throw {e : NodeError} (h : e.OfProgram) : Enters new (throw e : Populating α) :=
  fun _ _ => ⟨trivial, fun _ => ⟨blames_throw h, fun _ => trivial⟩⟩

theorem enters_ask_bind {answer : Except ProgramError α}
    (h : ∀ x, answer = .ok x → Enters new (next x)) : Enters new (ask answer >>= next) := by
  cases answer with
  | ok x => exact h x rfl
  | error e => exact enters_throw (.program e)

theorem enters_ask (answer : Except ProgramError α) : Enters ∅ (ask answer) := by
  rw [← bind_pure (ask answer)]
  exact enters_ask_bind fun x _ => enters_pure x

theorem enters_onCatalog (step : Cataloguing α) : Enters ∅ (onCatalog step) := by
  intro s hs
  unfold Meets Blames onCatalog
  cases step s.catalog with
  | ok x c =>
    refine ⟨⟨hs, (Set.union_empty _).symm⟩, fun _ => ⟨fun _ _ h => (by cases h), fun hb => ?_⟩⟩
    exact hb.add [] (Arena.Adds.refl s.arena) (Tally.Adds.refl s.tally)
      (List.append_nil s.heap).symm
  | error e c =>
    refine ⟨trivial, fun _ => ⟨fun e' _ h => ?_, fun _ => trivial⟩⟩
    cases h
    exact .record e

/-- A step on the arena, with what it adds counted right after it. -/
theorem enters_counted {step : Arranging α} {f : Tally → Tally} {nodes aliases : Nat}
    (h : Arena.Enters new step)
    (hadds : ∀ a : Arena, sentinelCount ≤ a.size → Disjoint a.entries new →
      Meets step a (fun _ a' => a.Adds a' nodes 0 aliases) (fun _ => True))
    (hf : ∀ t : Tally, t.Adds (f t) nodes aliases []) :
    Enters new (do let _ ← onArena step; count f) := by
  refine enters_of_meets (fun s hs => ?_) fun s hfree hb => ?_
  · refine Meets.bind (meets_onArena (h s.arena hs)
      : Meets _ s (fun _ s₁ => s₁.arena.Orderly ∧ s₁.arena.entries = s.arena.entries ∪ new)
          (fun _ => ¬ Disjoint s.arena.entries new)) ?_
    exact fun _ s₁ h₁ => h₁
  · refine Meets.bind (meets_onArena ((hadds s.arena hb.le_size hfree).mono
      (fun _ _ ha => ⟨ha, rfl, rfl⟩) fun _ _ => trivial)
      : Meets _ s (fun _ s₁ => s.arena.Adds s₁.arena nodes 0 aliases ∧ s₁.tally = s.tally ∧
          s₁.heap = s.heap) (fun _ => True)) ?_
    rintro _ s₁ ⟨ha, ht, hheap⟩
    have hbooks : Balanced { s₁ with tally := f s₁.tally } :=
      hb.add [] ha (ht ▸ hf s.tally) (by simp [hheap])
    exact hbooks

theorem enters_forM {f : α → Populating Unit} {l : List α} {part : α → Set (Role × Nat)}
    (h : ∀ x ∈ l, Enters (part x) (f x))
    (hd : l.Pairwise fun x y => Disjoint (part x) (part y)) :
    Enters {e | ∃ x ∈ l, e ∈ part x} (l.forM f) := by
  induction l with
  | nil => exact (enters_pure ()).congr (by simp)
  | cons x rest ih =>
    rw [List.pairwise_cons] at hd
    have hrest := ih (fun y hy => h y (by simp [hy])) hd.2
    refine ((h x (by simp)).bind (fun _ => hrest) ?_).congr (by simp)
    rw [Set.disjoint_left]
    rintro e he ⟨y, hy, hey⟩
    exact Set.disjoint_left.mp (hd.1 y hy) he hey

end

variable {p : Program}

theorem createValue_enters (v : Nat) : Enters {(.value, v)} (createValue v) :=
  enters_counted (Arena.createValue_enters v) (fun a _ _ => Arena.createValue_adds a v)
    fun t => ⟨by simp only [Tally.made]; omega, rfl, rfl, rfl, rfl⟩

theorem planFor_enters (t : Nat) : Enters ∅ (planFor p t) := by
  unfold planFor
  split
  · exact enters_pure _
  · refine enters_get.before fun s => ?_
    split
    · exact enters_pure _
    · refine (enters_onCatalog _).before fun r => ?_
      split
      · exact enters_pure _
      · split <;> exact enters_pure _

/-- The plan has a node for each object. -/
def ObjectPlan.Sound : ObjectPlan → Prop
  | .sentinel n => n = universalObject ∨ n = nullObject
  | .fields flags => flags ≠ []

theorem planFor_sound (t : Nat) (s : Population) :
    Meets (planFor p t) s (fun plan _ => plan.Sound) (fun _ => True) := by
  unfold planFor
  split
  · exact List.cons_ne_nil false []
  · rw [meets_get_bind]
    split
    · exact List.cons_ne_nil true []
    · refine meets_then fun r s' => ?_
      split
      · exact .inl rfl
      · split
        · exact .inr rfl
        · rename_i hfields
          have hflags : r.fields.map Field.isUnion ≠ [] := by simpa using hfields
          exact hflags

theorem createFields_next {base offset : Nat} {s : Population} (h : s.arena.Orderly)
    (hoffset : offset ≠ 0) (hbase : ∃ node, s.arena.object base = .ok node)
    (hsize : base + offset = s.arena.size) (isHeap : Bool) (flags : List Bool) :
    Meets (createFields base isHeap offset flags) s
      (fun _ s' => s'.arena.Orderly ∧ s'.arena.entries = s.arena.entries) (fun _ => False) := by
  induction flags generalizing offset s with
  | nil => exact ⟨h, rfl⟩
  | cons isUnion rest ih =>
    refine Meets.bind (meets_onArena (Arena.createField_next h hoffset hbase hsize isUnion isHeap)
      : Meets _ s (fun _ s₁ => s₁.arena.Orderly ∧ s₁.arena.entries = s.arena.entries ∧
          (∃ node, s₁.arena.object base = .ok node) ∧ base + (offset + 1) = s₁.arena.size)
          (fun _ => False)) ?_
    rintro _ s₁ ⟨h₁, he₁, hbase₁, hsize₁⟩
    have hrest := ih h₁ (Nat.succ_ne_zero offset) hbase₁ hsize₁
    rw [he₁] at hrest
    exact hrest

theorem allocate_entered {s : Population} (hs : s.arena.Orderly) (v : Nat) (flags : List Bool)
    (isHeap : Bool) : Meets (allocate v flags isHeap) s (fun _ s' => s'.arena.Orderly ∧
      s'.arena.entries = s.arena.entries ∪ {(.object, v)}) (fun _ => False) := by
  unfold allocate
  rw [meets_get_bind]
  split
  · rename_i n hn
    exact ⟨hs, Arena.entries_union_of_mem (Arena.mem_entries_of_getElem? hn)⟩
  · rename_i hnone
    refine Meets.bind (meets_onArena (Arena.createObject_new hs hnone _ isHeap)
      : Meets _ s (fun n s₁ => s₁.arena.Orderly ∧
          s₁.arena.entries = s.arena.entries ∪ {(.object, v)} ∧
          (∃ node, s₁.arena.object n = .ok node) ∧ n + 1 = s₁.arena.size) (fun _ => False)) ?_
    rintro base s₁ ⟨h₁, he₁, hbase, hsize⟩
    refine (createFields_next h₁ Nat.one_ne_zero hbase hsize isHeap _).bind ?_
    rintro _ s₂ ⟨h₂, he₂⟩
    exact ⟨h₂, he₂.trans he₁⟩

theorem allocate_enters (v : Nat) {flags : List Bool} (hflags : flags ≠ []) :
    Enters {(.object, v)} (allocate v flags false) := by
  refine enters_of_meets (fun s hs => (allocate_entered hs v flags false).mono (fun _ _ h => h)
    fun _ => False.elim) fun s hfree hb => ?_
  refine (allocate_adds hb.le_size (Arena.getElem?_of_disjoint hfree) hflags false).mono ?_
    fun _ _ => trivial
  rintro _ s' ⟨hheap, ha, ht⟩
  refine hb.add [] ha ?_ (by simp [hheap])
  rw [ht]
  exact ⟨by simp only [Tally.made]; omega, rfl, rfl, rfl, rfl⟩

/-- A heap object is listed and counted as soon as its nodes are there. -/
theorem heapObject_enters (v : Nat) {flags : List Bool} (hflags : flags ≠ [])
    {entry : Nat → HeapAllocation} {unknown : Bool}
    (hentry : ∀ n, (entry n).fieldCount = flags.length ∧ (entry n).unknownType = unknown) :
    Enters {(.object, v)} (do
      let object ← allocate v flags true
      count fun t =>
        { t with
          heapAllocations := t.heapAllocations + 1
          unknownHeapTypes := t.unknownHeapTypes + if unknown then 1 else 0 }
      modify fun s => { s with heap := s.heap ++ [entry object] }) := by
  refine enters_of_meets (fun s hs => ?_) fun s hfree hb => ?_
  · refine ((allocate_entered hs v flags true).mono (fun _ _ h => h) fun _ => False.elim).bind ?_
    exact fun _ s₁ h₁ => h₁
  · refine (allocate_adds hb.le_size (Arena.getElem?_of_disjoint hfree) hflags true).bind ?_
    rintro object s₁ ⟨hheap, ha, ht⟩
    obtain ⟨hcount, hunknown⟩ := hentry object
    -- the nodes are counted before the object is listed, so only both together balance
    have hsum : ([entry object].map HeapAllocation.fieldCount).sum = flags.length := by
      simp [hcount]
    have hbooks : Balanced { s₁ with
        tally := { s₁.tally with
          heapAllocations := s₁.tally.heapAllocations + 1
          unknownHeapTypes := s₁.tally.unknownHeapTypes + if unknown then 1 else 0 }
        heap := s₁.heap ++ [entry object] } := by
      refine hb.add [entry object] (hsum ▸ ha) ?_ (by rw [hheap])
      rw [ht]
      constructor
      · simp only [Tally.made]
        omega
      · rfl
      · rw [hsum]
        rfl
      · rfl
      · simp [hunknown]
    exact hbooks

theorem createPointedTo_enters (v : Nat) {type : Nat} (ht : p.types.isPointer type = true) :
    Enters {(.object, v)} (createPointedTo p v type) := by
  unfold createPointedTo
  obtain ⟨pointee, hpointee⟩ := Option.isSome_iff_exists.mp ht
  rw [hpointee]
  refine enters_ask_bind fun stripped _ => ?_
  refine ((planFor_enters _).bind_of (planFor_sound _) ?_
    (Set.empty_disjoint {(.object, v)})).congr (by simp)
  intro plan hplan
  cases plan with
  | sentinel n =>
    have hn : isSentinel n = true := by rcases hplan with rfl | rfl <;> rfl
    exact enters_counted (Arena.aliasObject_enters v hplan)
      (fun a _ hfree => Arena.aliasObject_adds (Arena.getElem?_of_disjoint hfree) hn)
      fun _ => ⟨rfl, rfl, rfl, rfl, rfl⟩
  | fields flags => exact (allocate_enters v hplan).after fun _ => enters_pure ()

theorem heapElement_enters (v : Nat) (site : Value) : Enters ∅ (heapElement p v site) := by
  unfold heapElement
  split
  · exact enters_throw (.allocation v)
  · split
    · exact enters_ask_bind fun _ _ => enters_ask _
    · exact enters_ask _

theorem populateHeap_enters (v : Nat) (spec : Allocator) :
    Enters {(.object, v)} (populateHeap p v spec) := by
  unfold populateHeap
  refine enters_ask_bind fun site _ => ?_
  refine (heapElement_enters v site).before fun element => ?_
  extract_lets next
  have hnext : ∀ known : Option (List Bool), known ≠ some [] →
      Enters {(.object, v)} (next known) := by
    intro known hknown
    refine enters_get.before fun s => ?_
    refine heapObject_enters v ?_ fun n => ⟨rfl, rfl⟩
    cases known with
    | none => simp [List.replicate_eq_nil_iff]
    | some flags => simpa using hknown
  split
  · refine ((planFor_enters element).bind_of (planFor_sound element) ?_
      (Set.empty_disjoint {(.object, v)})).congr (by simp)
    intro plan hplan
    cases plan with
    | fields flags =>
      have hflags : flags ≠ [] := hplan
      exact hnext (some flags) (by simpa using hflags)
    | sentinel n => exact hnext none (by simp)
  · exact hnext none (by simp)

end Population

end AbstractMemory
