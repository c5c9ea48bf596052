import AbstractMemory.Proofs.Planning
import Mathlib

/-! The books that are kept while an arena is filled. What a step adds to the
arena or to the heap objects is to be counted in the tally, and then what was
balanced stays so. -/

namespace AbstractMemory

open Steps

namespace Arena

variable {a a' a'' : Arena} {v n : Nat}

def heapCount (a : Arena) : Nat :=
  a.nodes.countP MemoryNode.isHeap

/-- How many values have a sentinel for their object. -/
def aliasCount (a : Arena) : Nat :=
  a.objectNodes.toList.countP fun entry => isSentinel entry.2

/-- So many nodes are added, with those on the heap counted apart, and so many
values get a sentinel for their object. -/
structure Adds (a a' : Arena) (nodes heap aliases : Nat) : Prop where
  nodes : a'.size = a.size + nodes
  heap : a'.heapCount = a.heapCount + heap
  aliases : a'.aliasCount = a.aliasCount + aliases

theorem Adds.refl (a : Arena) : a.Adds a 0 0 0 :=
  ⟨rfl, rfl, rfl⟩

theorem Adds.trans {k k' h h' l l' : Nat} (hadds : a.Adds a' k h l)
    (hadds' : a'.Adds a'' k' h' l') : a.Adds a'' (k + k') (h + h') (l + l') where
  nodes := by rw [hadds'.nodes, hadds.nodes, Nat.add_assoc]
  heap := by rw [hadds'.heap, hadds.heap, Nat.add_assoc]
  aliases := by rw [hadds'.aliases, hadds.aliases, Nat.add_assoc]

theorem adds_push {node : MemoryNode} {heap : Nat} (hn : a'.nodes = a.nodes.push node)
    (hheap : heap = if node.isHeap then 1 else 0) (haliases : a'.aliasCount = a.aliasCount) :
    a.Adds a' 1 heap 0 where
  nodes := size_push hn
  heap := by rw [heapCount, hn, Array.countP_push, heapCount, hheap]
  aliases := haliases

theorem aliasCount_insert (hv : a.objectNodes[v]? = none)
    (ho : a'.objectNodes = a.objectNodes.insert v n) :
    a'.aliasCount = a.aliasCount + if isSentinel n then 1 else 0 := by
  have hfresh : a.objectNodes.toList.filter (fun entry => decide ¬ (v == entry.1) = true) =
      a.objectNodes.toList := by
    rw [List.filter_eq_self]
    rintro ⟨u, m⟩ hmem
    rw [Std.TreeMap.mem_toList_iff_getElem?_eq_some] at hmem
    have hne : v ≠ u := by
      rintro rfl
      rw [hv] at hmem
      cases hmem
    simpa using hne
  have hperm := Std.TreeMap.toList_insert_perm (t := a.objectNodes) (k := v) (v := n)
  rw [hfresh] at hperm
  rw [aliasCount, ho, hperm.countP_eq, List.countP_cons, aliasCount]

theorem createValue_adds (a : Arena) (v : Nat) :
    Meets (createValue (some v)) a (fun _ a' => a.Adds a' 1 0 0) (fun _ => True) :=
  meets_createValue (fun _ => trivial) fun _ => adds_push rfl rfl rfl

theorem createReturn_adds (a : Arena) (function : Nat) :
    Meets (createReturn function) a (fun _ a' => a.Adds a' 1 0 0) (fun _ => True) :=
  meets_createReturn (fun _ => trivial) fun _ => adds_push rfl rfl rfl

theorem createVariadic_adds (a : Arena) (function : Nat) :
    Meets (createVariadic function) a (fun _ a' => a.Adds a' 1 0 0) (fun _ => True) :=
  meets_createVariadic (fun _ => trivial) fun _ => adds_push rfl rfl rfl

theorem createObject_adds (hsize : sentinelCount ≤ a.size) (hv : a.objectNodes[v]? = none)
    (isUnion isHeap : Bool) :
    Meets (createObject (some v) isUnion isHeap) a
      (fun _ a' => a.Adds a' 1 (if isHeap then 1 else 0) 0) (fun _ => True) := by
  refine meets_createObject (fun n hn => by simp [hv] at hn) ?_
  intro _
  refine adds_push rfl rfl ?_
  have hplain : isSentinel a.size = false := decide_eq_false (by omega)
  rw [aliasCount_insert hv rfl, hplain]
  rfl

theorem createField_adds (a : Arena) (base offset : Nat) (isUnion isHeap : Bool) :
    Meets (createField base offset isUnion isHeap) a
      (fun _ a' => a.Adds a' 1 (if isHeap then 1 else 0) 0) (fun _ => True) :=
  meets_createField (fun _ => trivial) fun _ _ => adds_push rfl rfl rfl

theorem aliasObject_adds (hv : a.objectNodes[v]? = none) (hn : isSentinel n = true) :
    Meets (aliasObject v n) a (fun _ a' => a.Adds a' 0 0 1) (fun _ => True) := by
  refine meets_aliasObject (fun _ => trivial) ⟨rfl, rfl, ?_⟩
  rw [aliasCount_insert hv rfl, hn]
  rfl

end Arena

namespace Tally

/-- All nodes that were counted. -/
def made (t : Tally) : Nat :=
  t.valueNodes + t.objectNodes + t.returnNodes + t.variadicNodes + t.functionObjects

/-- So many nodes and sentinels are counted, and these heap objects. -/
structure Adds (t t' : Tally) (nodes aliases : Nat) (heap : List HeapAllocation) : Prop where
  nodes : t'.made = t.made + nodes
  aliases : t'.sentinelAliases = t.sentinelAliases + aliases
  heapNodes : t'.heapNodes = t.heapNodes + (heap.map HeapAllocation.fieldCount).sum
  heapAllocations : t'.heapAllocations = t.heapAllocations + heap.length
  unknownHeapTypes : t'.unknownHeapTypes =
    t.unknownHeapTypes + heap.countP HeapAllocation.unknownType

theorem Adds.refl (t : Tally) : t.Adds t 0 0 [] :=
  ⟨rfl, rfl, rfl, rfl, rfl⟩

end Tally

namespace Population

variable {s s' : Population} {v : Nat}

/-- The tally agrees with the arena and with the heap objects. -/
structure Balanced (s : Population) : Prop where
  nodes : s.arena.size = sentinelCount + s.tally.made
  aliases : s.tally.sentinelAliases = s.arena.aliasCount
  heapNodes : s.tally.heapNodes = s.arena.heapCount
  fields : s.tally.heapNodes = (s.heap.map HeapAllocation.fieldCount).sum
  heapAllocations : s.tally.heapAllocations = s.heap.length
  unknownHeapTypes : s.tally.unknownHeapTypes = s.heap.countP HeapAllocation.unknownType

theorem balanced_empty (c : Catalog) : Balanced { catalog := c } :=
  ⟨rfl, rfl, rfl, rfl, rfl, rfl⟩

theorem Balanced.le_size (h : s.Balanced) : sentinelCount ≤ s.arena.size := by
  rw [h.nodes]
  omega

/-- What is added to the arena and to the heap objects is counted. -/
theorem Balanced.add {nodes aliases : Nat} (h : s.Balanced) (heap : List HeapAllocation)
    (ha : s.arena.Adds s'.arena nodes (heap.map HeapAllocation.fieldCount).sum aliases)
    (ht : s.tally.Adds s'.tally nodes aliases heap) (hheap : s'.heap = s.heap ++ heap) :
    s'.Balanced where
  nodes := by rw [ha.nodes, ht.nodes, h.nodes, Nat.add_assoc]
  aliases := by rw [ht.aliases, ha.aliases, h.aliases]
  heapNodes := by rw [ht.heapNodes, ha.heap, h.heapNodes]
  fields := by rw [ht.heapNodes, hheap, List.map_append, List.sum_append, h.fields]
  heapAllocations := by rw [ht.heapAllocations, hheap, List.length_append, h.heapAllocations]
  unknownHeapTypes := by rw [ht.unknownHeapTypes, hheap, List.countP_append, h.unknownHeapTypes]

theorem createFields_adds (base : Nat) (isHeap : Bool) (offset : Nat) (flags : List Bool)
    (s : Population) :
    Meets (createFields base isHeap offset flags) s
      (fun _ s' => s'.tally = s.tally ∧ s'.heap = s.heap ∧
        s.arena.Adds s'.arena flags.length (if isHeap then flags.length else 0) 0)
      (fun _ => True) := by
  induction flags generalizing offset s with
  | nil => exact ⟨rfl, rfl, by simpa using Arena.Adds.refl s.arena⟩
  | cons isUnion rest ih =>
    refine Meets.bind (meets_onArena ((Arena.createField_adds s.arena base offset isUnion
      isHeap).mono (fun _ _ h => ⟨rfl, rfl, h⟩) fun _ _ => trivial)
      : Meets _ s (fun _ s₁ => s₁.tally = s.tally ∧ s₁.heap = s.heap ∧
          s.arena.Adds s₁.arena 1 (if isHeap then 1 else 0) 0) (fun _ => True)) ?_
    rintro _ s₁ ⟨ht₁, hh₁, ha₁⟩
    refine (ih (offset + 1) s₁).mono ?_ (fun _ _ => trivial)
    rintro _ s₂ ⟨ht₂, hh₂, ha₂⟩
    refine ⟨ht₂.trans ht₁, hh₂.trans hh₁, ?_⟩
    have hall := ha₁.trans ha₂
    cases isHeap <;> simpa [Nat.add_comm] using hall

/-- An allocation adds and counts as many nodes as it has fields. -/
theorem allocate_adds (hsize : sentinelCount ≤ s.arena.size) (hv : s.arena.objectNodes[v]? = none)
    {flags : List Bool} (hflags : flags ≠ []) (isHeap : Bool) :
    Meets (allocate v flags isHeap) s
      (fun _ s' => s'.heap = s.heap ∧
        s.arena.Adds s'.arena flags.length (if isHeap then flags.length else 0) 0 ∧
        s'.tally = { s.tally with
          objectNodes := s.tally.objectNodes + flags.length
          heapNodes := s.tally.heapNodes + if isHeap then flags.length else 0 })
      (fun _ => True) := by
  unfold allocate
  rw [meets_get_bind, hv]
  refine Meets.bind (meets_onArena ((Arena.createObject_adds hsize hv (flags.headD false)
    isHeap).mono (fun _ _ h => ⟨rfl, rfl, h⟩) fun _ _ => trivial)
    : Meets _ s (fun _ s₁ => s₁.tally = s.tally ∧ s₁.heap = s.heap ∧
        s.arena.Adds s₁.arena 1 (if isHeap then 1 else 0) 0) (fun _ => True)) ?_
  rintro base s₁ ⟨ht₁, hh₁, ha₁⟩
  refine (createFields_adds base isHeap 1 flags.tail s₁).bind ?_
  rintro _ s₂ ⟨ht₂, hh₂, ha₂⟩
  obtain ⟨flag, rest, rfl⟩ := List.exists_cons_of_ne_nil hflags
  have hall := ha₁.trans ha₂
  refine ⟨hh₂.trans hh₁, ?_, ?_⟩
  · cases isHeap <;> simpa [Nat.add_comm] using hall
  · simp [ht₂, ht₁]

end Population

end AbstractMemory
