import AbstractMemory.Proofs.Creation
import AbstractMemory.Proofs.Geometry
import AbstractMemory.Proofs.Membership
import AbstractMemory.Proofs.Merging
import Mathlib

/-! An analysis fills the points-to relation through representatives, and merges
nodes on the way. What a node points to is what its class has collected. -/

namespace AbstractMemory

open Steps

/-- Nodes that have been merged, and the objects they may point to. -/
structure MergeClass where
  nodes : Finset Nat
  objects : Finset Nat

/-- What an analysis finds out. -/
inductive Deduction where
  | add (n object : Nat)
  | copy (target source : Nat)
  | merge (into other : Nat)

namespace MergeClass

/-- Each node by itself, pointing to nothing. -/
def singletons (size : Nat) : List MergeClass :=
  (List.range size).map fun n => ⟨{n}, ∅⟩

def find (classes : List MergeClass) (n : Nat) : Option MergeClass :=
  classes.find? fun c => n ∈ c.nodes

def objectsOf (classes : List MergeClass) (n : Nat) : Finset Nat :=
  ((find classes n).map objects).getD ∅

/-- Adds objects to the class of a node. -/
def enlarge (classes : List MergeClass) (n : Nat) (found : Finset Nat) : List MergeClass :=
  classes.map fun c => if n ∈ c.nodes then { c with objects := c.objects ∪ found } else c

/-- Makes the classes of two nodes one, unless they are one or the second has a
sentinel. -/
def join (classes : List MergeClass) (into other : Nat) : List MergeClass :=
  match find classes into, find classes other with
  | some c, some d =>
    if other ∈ c.nodes ∨ ∃ n ∈ d.nodes, isSentinel n = true then classes
    else ⟨c.nodes ∪ d.nodes, c.objects ∪ d.objects⟩ ::
      classes.filter fun e => into ∉ e.nodes ∧ other ∉ e.nodes
  | _, _ => classes

def deduce (classes : List MergeClass) : Deduction → List MergeClass
  | .add n object => enlarge classes n {object}
  | .copy target source => enlarge classes target (objectsOf classes source)
  | .merge into other => join classes into other

def deduced (classes : List MergeClass) (run : List Deduction) : List MergeClass :=
  run.foldl deduce classes

end MergeClass

namespace MemoryModel

def arranging {α : Type} (step : Arranging α) : EStateM NodeError MemoryModel α := fun m =>
  match m.onArena step with
  | (.ok x, m') => .ok x m'
  | (.error e, m') => .error e m'

/-- Enters a deduction at the representatives of its nodes. -/
def deduce : Deduction → EStateM NodeError MemoryModel Unit
  | .add n object => do
    let root ← arranging (Arena.target n)
    modify fun m => { m with pointsTo := (m.pointsTo.add root object).2 }
  | .copy target source => do
    let root ← arranging (Arena.target target)
    let other ← arranging (Arena.target source)
    modify fun m => { m with pointsTo := (m.pointsTo.copy root other).2 }
  | .merge into other => do
    let root ← arranging (Arena.target into)
    let source ← arranging (Arena.target other)
    arranging (Arena.merge into other)
    modify fun m => { m with pointsTo := (m.pointsTo.merge root source).2 }

/-- The model after a run. What fails is passed over. -/
def deduced (m : MemoryModel) (run : List Deduction) : MemoryModel :=
  run.foldl (fun m d => leaves (deduce d) m) m

theorem arranging_meets {α : Type} {m : MemoryModel} {step : Arranging α}
    {good : α → MemoryModel → Prop} {bad : MemoryModel → Prop}
    (h : Meets step m.arena (fun x a => good x { m with arena := a })
      (fun a => bad { m with arena := a })) : Meets (arranging step) m good bad := by
  unfold Meets at h ⊢
  unfold arranging onArena
  split at h <;> simp_all

/-- The classes are those of the representatives, with what these point to. -/
structure Tracks (m : MemoryModel) (size : Nat) (classes : List MergeClass) : Prop where
  forest : m.arena.Forest
  size_eq : m.arena.size = size
  covers : ∀ n, n < size → ∃ c ∈ classes, n ∈ c.nodes
  exact : ∀ c ∈ classes, ∃ r, (∀ n, n ∈ c.nodes ↔ m.arena.representative n = .ok r) ∧
    ∀ o, o ∈ c.objects ↔ m.pointsTo.pointsTo r o = true

namespace Tracks

variable {m m' : MemoryModel} {classes : List MergeClass} {size n r s : Nat}

theorem find (h : m.Tracks size classes) (hr : m.arena.representative n = .ok r) :
    ∃ c, MergeClass.find classes n = some c ∧
      (∀ x, x ∈ c.nodes ↔ m.arena.representative x = .ok r) ∧
      ∀ o, o ∈ c.objects ↔ m.pointsTo.pointsTo r o = true := by
  have hn : n < size := by
    obtain ⟨k, hk⟩ := h.forest.representative_eq_ok.mp hr
    exact h.size_eq ▸ hk.lt_size
  obtain ⟨d, hd, hnd⟩ := h.covers n hn
  have hsome : (MergeClass.find classes n).isSome = true :=
    List.find?_isSome.mpr ⟨d, hd, decide_eq_true hnd⟩
  obtain ⟨c, hc⟩ := Option.isSome_iff_exists.mp hsome
  have hnc : n ∈ c.nodes := of_decide_eq_true (List.find?_some hc :)
  obtain ⟨q, hnodes, hobjects⟩ := h.exact c (List.mem_of_find?_eq_some hc)
  obtain rfl := Except.ok.inj (((hnodes n).mp hnc).symm.trans hr)
  exact ⟨c, hc, hnodes, hobjects⟩

theorem notMem_of_size_le (h : m.Tracks size classes) (hn : size ≤ n) :
    ∀ c ∈ classes, n ∉ c.nodes := by
  intro c hc hnc
  obtain ⟨r, hnodes, _⟩ := h.exact c hc
  have hr := (hnodes n).mp hnc
  rw [Arena.representative_of_size_le (h.size_eq ▸ hn)] at hr
  cases hr

theorem find_eq_none (h : m.Tracks size classes) (hn : size ≤ n) :
    MergeClass.find classes n = none := by
  refine List.find?_eq_none.mpr ?_
  intro c hc
  simpa using h.notMem_of_size_le hn c hc

theorem enlarge_of_size_le (h : m.Tracks size classes) (hn : size ≤ n) (found : Finset Nat) :
    MergeClass.enlarge classes n found = classes := by
  refine (List.map_congr_left ?_).trans (List.map_id classes)
  intro c hc
  exact if_neg (h.notMem_of_size_le hn c hc)

theorem frame (h : m.Tracks size classes) (hf : m'.arena.Forest)
    (hsize : m'.arena.size = m.arena.size)
    (hrep : m'.arena.representative = m.arena.representative) (hpts : m'.pointsTo = m.pointsTo) :
    m'.Tracks size classes := by
  refine ⟨hf, hsize.trans h.size_eq, h.covers, ?_⟩
  rw [hrep, hpts]
  exact h.exact

theorem target (h : m.Tracks size classes) (n : Nat) :
    Meets (arranging (Arena.target n)) m
      (fun r m' => m.arena.representative n = .ok r ∧ m'.Tracks size classes ∧
        m'.arena.representative = m.arena.representative)
      (fun m' => m' = m ∧ size ≤ n) := by
  refine arranging_meets ((Arena.target_meets h.forest n).mono ?_ ?_)
  · rintro r a ⟨hr, hup, hsize⟩
    have hrep := hup.representative_eq h.forest hsize
    exact ⟨hr, h.frame (hup.forest h.forest) hsize hrep rfl, hrep⟩
  · rintro a ⟨rfl, hn⟩
    exact ⟨rfl, h.size_eq ▸ hn⟩

/-- The objects found for a node are those of its representative. -/
theorem enlarge (h : m.Tracks size classes) (hr : m.arena.representative n = .ok r)
    {found : Finset Nat} {g : PointsTo} (hg : ∀ x o, g.pointsTo x o = true ↔
      m.pointsTo.pointsTo x o = true ∨ x = r ∧ o ∈ found) :
    Tracks { m with pointsTo := g } size (MergeClass.enlarge classes n found) := by
  refine ⟨h.forest, h.size_eq, ?_, ?_⟩
  · intro x hx
    obtain ⟨c, hc, hxc⟩ := h.covers x hx
    refine ⟨_, List.mem_map_of_mem hc, ?_⟩
    split <;> exact hxc
  · intro c' hc'
    obtain ⟨c, hc, rfl⟩ := List.mem_map.mp hc'
    obtain ⟨q, hnodes, hobjects⟩ := h.exact c hc
    refine ⟨q, ?_, ?_⟩
    · split <;> exact hnodes
    · intro o
      rw [hg, ← hobjects]
      by_cases hn : n ∈ c.nodes
      · obtain rfl := Except.ok.inj (((hnodes n).mp hn).symm.trans hr)
        simp [hn]
      · have hne : q ≠ r := by
          rintro rfl
          exact hn ((hnodes n).mpr hr)
        simp [hn, hne]

theorem join_of_size_le {into other : Nat} (h : m.Tracks size classes)
    (hn : size ≤ into ∨ size ≤ other) :
    MergeClass.join classes into other = classes := by
  unfold MergeClass.join
  rcases hn with hn | hn
  · rw [h.find_eq_none hn]
  · rw [h.find_eq_none hn]
    cases MergeClass.find classes into <;> rfl

/-- Two classes are joined only if both of their representatives allow it. -/
theorem join_eq_self {into other : Nat} (h : m.Tracks size classes)
    (hr : m.arena.representative into = .ok r) (hs : m.arena.representative other = .ok s)
    (hstay : r = s ∨ isSentinel s = true) : MergeClass.join classes into other = classes := by
  obtain ⟨c, hc, hcnodes, _⟩ := h.find hr
  obtain ⟨d, hd, hdnodes, _⟩ := h.find hs
  unfold MergeClass.join
  rw [hc, hd]
  refine if_pos ?_
  rcases hstay with rfl | hsentinel
  · exact .inl ((hcnodes other).mpr hs)
  · exact .inr ⟨s, (hdnodes s).mpr (h.forest.sentinel s hsentinel).representative, hsentinel⟩

theorem join {into other : Nat} (h : m.Tracks size classes)
    (hr : m.arena.representative into = .ok r) (hs : m.arena.representative other = .ok s)
    (hne : r ≠ s) (hplain : isSentinel s = false) (hf : m'.arena.Forest)
    (hsize : m'.arena.size = m.arena.size)
    (hrep : ∀ x, m'.arena.representative x =
      if m.arena.representative x = .ok s then .ok r else m.arena.representative x)
    (hpts : m'.pointsTo = (m.pointsTo.merge r s).2) :
    m'.Tracks size (MergeClass.join classes into other) := by
  obtain ⟨c, hc, hcnodes, hcobjects⟩ := h.find hr
  obtain ⟨d, hd, hdnodes, hdobjects⟩ := h.find hs
  have hapart : ¬ (other ∈ c.nodes ∨ ∃ n ∈ d.nodes, isSentinel n = true) := by
    rintro (hother | ⟨n, hn, hsentinel⟩)
    · exact hne (Except.ok.inj (((hcnodes other).mp hother).symm.trans hs))
    · -- a sentinel represents itself, so it would be the root of the second class
      have hroot := (h.forest.sentinel n hsentinel).representative
      obtain rfl := Except.ok.inj (hroot.symm.trans ((hdnodes n).mp hn))
      simp [hsentinel] at hplain
  have hjoin : MergeClass.join classes into other =
      ⟨c.nodes ∪ d.nodes, c.objects ∪ d.objects⟩ ::
        classes.filter fun e => into ∉ e.nodes ∧ other ∉ e.nodes := by
    unfold MergeClass.join
    rw [hc, hd]
    exact if_neg hapart
  rw [hjoin]
  refine ⟨hf, hsize.trans h.size_eq, ?_, ?_⟩
  · intro n hn
    obtain ⟨e, he, hne'⟩ := h.covers n hn
    by_cases htouched : into ∈ e.nodes ∨ other ∈ e.nodes
    · refine ⟨_, List.mem_cons_self .., Finset.mem_union.mpr ?_⟩
      obtain ⟨q, henodes, _⟩ := h.exact e he
      have hq := (henodes n).mp hne'
      rcases htouched with hin | hin
      · obtain rfl := Except.ok.inj (((henodes into).mp hin).symm.trans hr)
        exact .inl ((hcnodes n).mpr hq)
      · obtain rfl := Except.ok.inj (((henodes other).mp hin).symm.trans hs)
        exact .inr ((hdnodes n).mpr hq)
    · rw [not_or] at htouched
      exact ⟨e, List.mem_cons_of_mem _ (List.mem_filter.mpr ⟨he, decide_eq_true htouched⟩), hne'⟩
  · intro e he
    rcases List.mem_cons.mp he with rfl | he
    · refine ⟨r, ?_, ?_⟩
      · intro n
        rw [Finset.mem_union, hcnodes, hdnodes, hrep]
        by_cases hn : m.arena.representative n = .ok s
        · simp [hn]
        · simp [hn]
      · intro o
        rw [Finset.mem_union, hcobjects, hdobjects, hpts, PointsTo.pointsTo_merge _ hne]
        simp [hne]
    · obtain ⟨he, hout⟩ := List.mem_filter.mp he
      obtain ⟨hinto, hother⟩ := of_decide_eq_true hout
      obtain ⟨q, henodes, heobjects⟩ := h.exact e he
      have hqr : q ≠ r := fun heq => hinto ((henodes into).mpr (heq ▸ hr))
      have hqs : q ≠ s := fun heq => hother ((henodes other).mpr (heq ▸ hs))
      refine ⟨q, ?_, ?_⟩
      · intro n
        rw [henodes, hrep]
        by_cases hn : m.arena.representative n = .ok s
        · simp [hn, hqr.symm, hqs.symm]
        · simp [hn]
      · intro o
        rw [heobjects, hpts, PointsTo.pointsTo_merge _ hne]
        simp [hqr, hqs]

theorem mergeNodes {into other : Nat} (h : m.Tracks size classes)
    (hr : m.arena.representative into = .ok r) (hs : m.arena.representative other = .ok s) :
    Meets (arranging (Arena.merge into other)) m
      (fun _ m' => (r = s ∨ isSentinel s = false) ∧ m'.arena.Forest ∧
        m'.arena.size = m.arena.size ∧ m'.pointsTo = m.pointsTo ∧
        ∀ x, m'.arena.representative x =
          if m.arena.representative x = .ok s then .ok r else m.arena.representative x)
      (fun m' => m'.Tracks size classes ∧ isSentinel s = true) := by
  refine arranging_meets ((Arena.merge_meets h.forest into other).mono ?_ ?_)
  · rintro _ a ⟨⟨r', s', hr', hs', hor⟩, hf, hsize, hrep⟩
    obtain rfl := Except.ok.inj (hr.symm.trans hr')
    obtain rfl := Except.ok.inj (hs.symm.trans hs')
    rw [hr, hs] at hrep
    exact ⟨hor, hf, hsize, rfl, hrep⟩
  · rintro a ⟨hstuck, hf, hsize, hrep⟩
    refine ⟨h.frame hf hsize hrep rfl, ?_⟩
    by_contra hplain
    exact hstuck ⟨r, s, hr, hs, .inr (Bool.not_eq_true _ ▸ hplain)⟩

theorem deduce_add (h : m.Tracks size classes) (n object : Nat) :
    Meets (deduce (.add n object)) m
      (fun _ m' => m'.Tracks size (MergeClass.enlarge classes n {object}))
      (fun m' => m'.Tracks size (MergeClass.enlarge classes n {object})) := by
  unfold MemoryModel.deduce
  refine Meets.bind ((h.target n).mono (fun _ _ h => h) ?_) ?_
  · rintro _ ⟨rfl, hn⟩
    rwa [h.enlarge_of_size_le hn]
  · rintro r m₁ ⟨hr, h₁, hrep₁⟩
    refine h₁.enlarge (hrep₁ ▸ hr) ?_
    intro x o
    simp [PointsTo.pointsTo_add]

theorem deduce_copy (h : m.Tracks size classes) (target source : Nat) :
    Meets (deduce (.copy target source)) m
      (fun _ m' => m'.Tracks size
        (MergeClass.enlarge classes target (MergeClass.objectsOf classes source)))
      (fun m' => m'.Tracks size
        (MergeClass.enlarge classes target (MergeClass.objectsOf classes source))) := by
  unfold MemoryModel.deduce
  refine Meets.bind ((h.target target).mono (fun _ _ h => h) ?_) ?_
  · rintro _ ⟨rfl, hn⟩
    rwa [h.enlarge_of_size_le hn]
  rintro r m₁ ⟨hr, h₁, hrep₁⟩
  refine Meets.bind ((h₁.target source).mono (fun _ _ h => h) ?_) ?_
  · rintro _ ⟨rfl, hn⟩
    have hnone : MergeClass.objectsOf classes source = ∅ := by
      simp [MergeClass.objectsOf, h₁.find_eq_none hn]
    rw [hnone]
    refine h₁.enlarge (hrep₁ ▸ hr) ?_
    simp
  · rintro s m₂ ⟨hs, h₂, hrep₂⟩
    rw [← hrep₁, ← hrep₂] at hr
    rw [← hrep₂] at hs
    obtain ⟨d, hd, _, hdobjects⟩ := h₂.find hs
    have hfound : MergeClass.objectsOf classes source = d.objects := by
      simp [MergeClass.objectsOf, hd]
    refine h₂.enlarge hr ?_
    intro x o
    rw [hfound, hdobjects, PointsTo.pointsTo_copy]
    simp

theorem deduce_merge (h : m.Tracks size classes) (into other : Nat) :
    Meets (deduce (.merge into other)) m
      (fun _ m' => m'.Tracks size (MergeClass.join classes into other))
      (fun m' => m'.Tracks size (MergeClass.join classes into other)) := by
  unfold MemoryModel.deduce
  refine Meets.bind ((h.target into).mono (fun _ _ h => h) ?_) ?_
  · rintro _ ⟨rfl, hn⟩
    rwa [h.join_of_size_le (.inl hn)]
  rintro r m₁ ⟨hr, h₁, hrep₁⟩
  refine Meets.bind ((h₁.target other).mono (fun _ _ h => h) ?_) ?_
  · rintro _ ⟨rfl, hn⟩
    rwa [h₁.join_of_size_le (.inr hn)]
  rintro s m₂ ⟨hs, h₂, hrep₂⟩
  rw [← hrep₁, ← hrep₂] at hr
  rw [← hrep₂] at hs
  refine Meets.bind ((h₂.mergeNodes hr hs).mono (fun _ _ h => h) ?_) ?_
  · rintro m₃ ⟨h₃, hsentinel⟩
    rwa [h₂.join_eq_self hr hs (.inr hsentinel)]
  rintro _ m₃ ⟨hor, hf₃, hsize₃, hpts₃, hrep₃⟩
  by_cases heq : r = s
  · subst heq
    rw [h₂.join_eq_self hr hs (.inl rfl)]
    refine h₂.frame hf₃ hsize₃ ?_ ?_
    · funext x
      rw [hrep₃]
      split
      · rename_i hx
        rw [hx]
      · rfl
    · simp [hpts₃, PointsTo.merge]
  · have hplain := hor.resolve_left heq
    exact h₂.join hr hs heq hplain hf₃ hsize₃ hrep₃ (by simp [hpts₃])

theorem deduce (h : m.Tracks size classes) (d : Deduction) :
    (leaves (MemoryModel.deduce d) m).Tracks size (MergeClass.deduce classes d) := by
  cases d with
  | add n object => exact (h.deduce_add n object).leaves
  | copy target source => exact (h.deduce_copy target source).leaves
  | merge into other => exact (h.deduce_merge into other).leaves

theorem deduced (h : m.Tracks size classes) (run : List Deduction) :
    (m.deduced run).Tracks size (MergeClass.deduced classes run) := by
  induction run generalizing m classes with
  | nil => exact h
  | cons d rest ih => exact ih (h.deduce d)

end Tracks

variable {p : Program} {config : Config} {m : MemoryModel}

theorem build_pointsTo (h : build p config = .ok m) : m.pointsTo = {} := by
  unfold build at h
  split at h
  · cases h
  · split at h
    · cases h
    · split at h
      · cases h
      · rw [← Except.ok.inj h]

/-- Building merges nothing. -/
theorem build_unmerged (h : build p config = .ok m) :
    m.arena.Forest ∧ ∀ n, n < m.arena.size → m.arena.representative n = .ok n := by
  have hup := build_moves (Arena.lasting_upholds _) (p.grants_all _) h
  refine ⟨hup.forest Arena.forest_empty, ?_⟩
  intro n hn
  by_cases hsentinel : isSentinel n = true
  · exact (hup.atRoot (Arena.forest_empty.sentinel n hsentinel)).representative
  · refine (hup.added n ?_ hn).representative
    exact Nat.le_of_not_lt fun hlt => hsentinel (decide_eq_true hlt)

theorem build_tracks (h : build p config = .ok m) :
    m.Tracks m.arena.size (MergeClass.singletons m.arena.size) := by
  obtain ⟨hf, hself⟩ := build_unmerged h
  refine ⟨hf, rfl, ?_, ?_⟩
  · intro n hn
    exact ⟨⟨{n}, ∅⟩, List.mem_map.mpr ⟨n, List.mem_range.mpr hn, rfl⟩, Finset.mem_singleton_self n⟩
  · intro c hc
    obtain ⟨r, hr, rfl⟩ := List.mem_map.mp hc
    refine ⟨r, ?_, ?_⟩
    · intro n
      rw [Finset.mem_singleton]
      constructor
      · rintro rfl
        exact hself n (List.mem_range.mp hr)
      · intro hn
        obtain ⟨k, hk⟩ := hf.representative_eq_ok.mp hn
        exact Except.ok.inj ((hself n hk.lt_size).symm.trans hn)
    · intro o
      simp [build_pointsTo h, PointsTo.pointsTo, PointsTo.get?]

/-- After any run of an analysis on a model that was built, a node points to
exactly the objects that its class has collected. -/
theorem pointsToSet_collected (h : build p config = .ok m) (run : List Deduction) (n : Nat) :
    (n < m.arena.size → ∃ found c, (m.deduced run).pointsToSet n = .ok found ∧
      MergeClass.find (MergeClass.deduced (MergeClass.singletons m.arena.size) run) n = some c ∧
      ∀ o, found.any (·.contains o) = true ↔ o ∈ c.objects) ∧
    (m.arena.size ≤ n → (m.deduced run).pointsToSet n = .error (.unknownNode n)) := by
  have ht := (build_tracks h).deduced run
  constructor
  · intro hn
    obtain ⟨r, hr, _⟩ := ht.forest.exists_representative (ht.size_eq ▸ hn)
    obtain ⟨c, hc, _, hobjects⟩ := ht.find hr
    refine ⟨(m.deduced run).pointsTo.get? r, c, ?_, hc, fun o => (hobjects o).symm⟩
    simp [pointsToSet, hr, Except.map]
  · intro hn
    simp [pointsToSet, Arena.representative_of_size_le (ht.size_eq ▸ hn), Except.map]

/-- Two nodes merged after each has got an object, a merge that a sentinel
forbids, and a third node that takes over what they point to. -/
def analysed : List Deduction := [
  .add 5 6,
  .add 8 7,
  .merge 5 8,
  .merge 8 0,
  .copy 9 8,
  .merge 9 9]

theorem pointsToSet_collected_stored : ∃ m found, build stored {} = .ok m ∧
    (m.deduced analysed).pointsToSet 9 = .ok found ∧
    ∀ o, found.any (·.contains o) = true ↔ o = 6 ∨ o = 7 := by
  obtain ⟨m, hb, hfacts⟩ := exists_built stored {} (fun m => decide (m.arena.size = 15))
    (by decide +kernel)
  have hsize : m.arena.size = 15 := of_decide_eq_true hfacts
  obtain ⟨found, c, hset, hfind, hobjects⟩ :=
    (pointsToSet_collected hb analysed 9).1 (by omega)
  rw [hsize] at hfind
  have hc : c.objects = {6, 7} := by
    have hcomputed :
        (MergeClass.find (MergeClass.deduced (MergeClass.singletons 15) analysed) 9).map
          MergeClass.objects = some {6, 7} := by decide +kernel
    simpa [hfind] using hcomputed
  refine ⟨m, found, hb, hset, ?_⟩
  intro o
  simp [hobjects, hc]

end MemoryModel

end AbstractMemory
