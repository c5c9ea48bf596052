import AbstractMemory.Proofs.Elements
import Mathlib

/-! The points-to relation as a finite set of pairs. What is added, copied and
merged comes to the same pairs, each update reports whether the node it writes
to gained an object, and every node that is kept has one. -/

namespace AbstractMemory

namespace PointsTo

variable {g g' : PointsTo} {n m object : Nat} {s : ObjectSet} {rel rel' : Finset (Nat × Nat)}

/-! ### What each update does to the sets -/

/-- Each set that is kept has an element, and no block without one. -/
def Filled (g : PointsTo) : Prop :=
  ∀ n s, g.get? n = some s → s.Reduced ∧ s.isEmpty = false

/-- The node points to an object that is new to it. -/
def Gains (g g' : PointsTo) (n : Nat) : Prop :=
  ∃ object, g'.pointsTo n object = true ∧ g.pointsTo n object = false

theorem Filled.reduced (h : g.Filled) (n : Nat) : (g.sets.getD n .empty).Reduced := by
  rw [Std.TreeMap.getD_eq_getD_getElem?]
  cases hs : g.sets[n]? with
  | none => exact ObjectSet.reduced_empty
  | some s => exact (h n s hs).1

theorem Filled.put (h : g.Filled) (hs : s.Reduced) (ho : s.contains object = true) :
    Filled { sets := g.sets.insert n s } := by
  intro m t ht
  rw [get?, Std.TreeMap.getElem?_insert] at ht
  split at ht
  · rw [← Option.some.inj ht]
    exact ⟨hs, hs.isEmpty_eq_false_iff.mpr ⟨object, ho⟩⟩
  · exact h m t ht

theorem Filled.erase (h : g.Filled) (n : Nat) : Filled { sets := g.sets.erase n } := by
  intro m t ht
  rw [get?, Std.TreeMap.getElem?_erase] at ht
  split at ht
  · cases ht
  · exact h m t ht

theorem Filled.add (h : g.Filled) (n object : Nat) : (g.add n object).2.Filled := by
  have hadded : ((g.sets.getD n .empty).insert object).2.contains object = true := by
    simp [ObjectSet.contains_insert]
  exact h.put ((h.reduced n).insert object) hadded

theorem Filled.addAll (h : g.Filled) (n : Nat) (hs : s.Reduced) : (g.addAll n s).2.Filled := by
  unfold PointsTo.addAll
  by_cases hempty : s.isEmpty = true
  · rwa [if_pos hempty]
  · rw [if_neg hempty]
    obtain ⟨object, ho⟩ := hs.isEmpty_eq_false_iff.mp (Bool.not_eq_true _ ▸ hempty)
    have hadded : ((g.sets.getD n .empty).union s).2.contains object = true := by
      simp [ObjectSet.contains_union, ho]
    exact h.put ((h.reduced n).union hs) hadded

theorem Filled.copy (h : g.Filled) (target source : Nat) : (g.copy target source).2.Filled := by
  unfold PointsTo.copy
  by_cases hsame : target = source
  · rwa [if_pos hsame]
  · rw [if_neg hsame]
    cases hs : g.get? source with
    | none => exact h
    | some s => exact h.addAll target (h source s hs).1

theorem Filled.merge (h : g.Filled) (into source : Nat) : (g.merge into source).2.Filled := by
  unfold PointsTo.merge
  by_cases hsame : into = source
  · rwa [if_pos hsame]
  · rw [if_neg hsame]
    cases hs : g.get? source with
    | none => exact h
    | some s => exact (h.erase source).addAll into (h source s hs).1

theorem add_reports (g : PointsTo) (n object : Nat) :
    (g.add n object).1 = true ↔ g.Gains (g.add n object).2 n := by
  have hflag : (g.add n object).1 = !g.pointsTo n object := by
    rw [pointsTo_eq]
    rfl
  rw [hflag, Bool.not_eq_true']
  constructor
  · intro hold
    exact ⟨object, by simp [pointsTo_add], hold⟩
  · intro hgains
    obtain ⟨o, hnew, hold⟩ := hgains
    have ho : o = object := by simpa [pointsTo_add, hold] using hnew
    rwa [← ho]

theorem addAll_reports (g : PointsTo) (n : Nat) (s : ObjectSet) :
    (g.addAll n s).1 = true ↔ g.Gains (g.addAll n s).2 n := by
  have hgains : g.Gains (g.addAll n s).2 n ↔
      ∃ o, s.contains o = true ∧ g.pointsTo n o = false := by
    apply exists_congr
    intro o
    rw [pointsTo_addAll]
    cases g.pointsTo n o <;> simp
  rw [hgains]
  unfold addAll
  by_cases hempty : s.isEmpty = true
  · simp [hempty, ObjectSet.contains_of_isEmpty hempty]
  · rw [if_neg hempty]
    refine (ObjectSet.union_reports (g.sets.getD n .empty) s).trans (exists_congr fun o => ?_)
    rw [ObjectSet.contains_union, pointsTo_eq]
    cases (g.sets.getD n .empty).contains o <;> simp

theorem not_gains_self (g : PointsTo) (n : Nat) : ¬ g.Gains g n := by
  intro hgains
  obtain ⟨o, hnew, hold⟩ := hgains
  simp [hnew] at hold

theorem copy_reports (g : PointsTo) (target source : Nat) :
    (g.copy target source).1 = true ↔ g.Gains (g.copy target source).2 target := by
  unfold copy
  by_cases hsame : target = source
  · simp [hsame, not_gains_self]
  · rw [if_neg hsame]
    cases g.get? source with
    | none => simp [not_gains_self]
    | some s => exact addAll_reports g target s

theorem merge_reports (g : PointsTo) (into source : Nat) :
    (g.merge into source).1 = true ↔ g.Gains (g.merge into source).2 into := by
  unfold merge
  by_cases hsame : into = source
  · simp [hsame, not_gains_self]
  · rw [if_neg hsame]
    cases g.get? source with
    | none => simp [not_gains_self]
    | some s =>
      -- without the node that is merged away, the other one has what it had
      have herase : ∀ o,
          (⟨g.sets.erase source⟩ : PointsTo).pointsTo into o = g.pointsTo into o := by
        intro o
        simp [pointsTo, get?, Std.TreeMap.getElem?_erase, Ne.symm hsame]
      refine (addAll_reports _ into s).trans (exists_congr fun o => ?_)
      rw [herase]

/-! ### Updates -/

/-- What can be done to the relation. A set that is added is given with its
elements. -/
inductive Update where
  | add (n object : Nat)
  | addAll (n : Nat) (objects : ObjectSet) (elements : Finset Nat) (h : objects.Holds elements)
  | copy (target source : Nat)
  | merge (into source : Nat)

def objectsOf (rel : Finset (Nat × Nat)) (n : Nat) : Finset Nat :=
  (rel.filter fun e => e.1 = n).image Prod.snd

namespace Update

/-- The node whose set is enlarged. -/
def written : Update → Nat
  | add n _ | addAll n _ _ _ | copy n _ | merge n _ => n

def run (g : PointsTo) : Update → Bool × PointsTo
  | add n object => g.add n object
  | addAll n objects _ _ => g.addAll n objects
  | copy target source => g.copy target source
  | merge into source => g.merge into source

def relate (rel : Finset (Nat × Nat)) : Update → Finset (Nat × Nat)
  | add n object => insert (n, object) rel
  | addAll n _ elements _ => rel ∪ elements.image (Prod.mk n)
  | copy target source => rel ∪ (objectsOf rel source).image (Prod.mk target)
  | merge into source =>
    if into = source then rel
    else rel.filter (fun e => e.1 ≠ source) ∪ (objectsOf rel source).image (Prod.mk into)

end Update

/-- The relation after some updates, with nothing in it at first. -/
def updated (updates : List Update) : PointsTo :=
  updates.foldl (fun g u => (u.run g).2) {}

def related (updates : List Update) : Finset (Nat × Nat) :=
  updates.foldl Update.relate ∅

theorem mem_objectsOf : object ∈ objectsOf rel n ↔ (n, object) ∈ rel := by
  simp [objectsOf]

theorem mem_image_mk {objects : Finset Nat} :
    (m, object) ∈ objects.image (Prod.mk n) ↔ m = n ∧ object ∈ objects := by
  simp [eq_comm (a := n), and_comm]

theorem card_objectsOf (rel : Finset (Nat × Nat)) (n : Nat) :
    (objectsOf rel n).card = (rel.filter fun e => e.1 = n).card := by
  apply Finset.card_image_of_injOn
  intro e he e' he' heq
  have hfst : e.1 = e'.1 := (Finset.mem_filter.mp he).2.trans (Finset.mem_filter.mp he').2.symm
  exact Prod.ext hfst heq

theorem foldl_max_eq (l : List Nat) (f : Nat → Nat) (least : Nat) :
    (l.map f).foldl max least = max least (l.toFinset.sup f) := by
  induction l generalizing least with
  | nil => simp
  | cons x rest ih => simp [ih, max_assoc]

/-- The relation has just these pairs, and is kept as it should be. -/
structure Represents (g : PointsTo) (rel : Finset (Nat × Nat)) : Prop where
  filled : g.Filled
  pointsTo_iff : ∀ n object, g.pointsTo n object = true ↔ (n, object) ∈ rel

theorem represents_empty : Represents {} ∅ :=
  ⟨fun n s hs => by simp [get?] at hs, fun n o => by simp [pointsTo, get?]⟩

theorem Update.objectsOf_subset (rel : Finset (Nat × Nat)) (u : Update) :
    objectsOf rel u.written ⊆ objectsOf (u.relate rel) u.written := by
  intro o ho
  rw [mem_objectsOf] at ho ⊢
  cases u with
  | add n object => exact Finset.mem_insert_of_mem ho
  | addAll n objects elements hs => exact Finset.mem_union_left _ ho
  | copy target source => exact Finset.mem_union_left _ ho
  | merge into source =>
    by_cases hsame : into = source
    · simpa [relate, hsame] using ho
    · rw [relate, if_neg hsame]
      exact Finset.mem_union_left _ (Finset.mem_filter.mpr ⟨ho, hsame⟩)

theorem Update.run_reports (g : PointsTo) (u : Update) :
    (u.run g).1 = true ↔ g.Gains (u.run g).2 u.written := by
  cases u with
  | add n object => exact add_reports g n object
  | addAll n objects elements hs => exact addAll_reports g n objects
  | copy target source => exact copy_reports g target source
  | merge into source => exact merge_reports g into source

namespace Represents

theorem run (h : g.Represents rel) (u : Update) : (u.run g).2.Represents (u.relate rel) := by
  cases u with
  | add n object =>
    refine ⟨h.filled.add n object, fun m o => ?_⟩
    simp [Update.run, Update.relate, pointsTo_add, h.pointsTo_iff, or_comm]
  | addAll n objects elements hs =>
    refine ⟨h.filled.addAll n hs.reduced, fun m o => ?_⟩
    rw [Update.run, Update.relate, pointsTo_addAll, Finset.mem_union, mem_image_mk]
    simp [h.pointsTo_iff, hs.contains_iff]
  | copy target source =>
    refine ⟨h.filled.copy target source, fun m o => ?_⟩
    rw [Update.run, Update.relate, pointsTo_copy, Finset.mem_union, mem_image_mk, mem_objectsOf]
    simp [h.pointsTo_iff]
  | merge into source =>
    refine ⟨h.filled.merge into source, fun m o => ?_⟩
    by_cases hsame : into = source
    · simpa [Update.run, Update.relate, hsame, merge] using h.pointsTo_iff m o
    · rw [Update.run, Update.relate, pointsTo_merge g hsame, if_neg hsame, Finset.mem_union,
        Finset.mem_filter, mem_image_mk, mem_objectsOf]
      by_cases hm : m = source
      · simp [hm, Ne.symm hsame]
      · simp [hm, h.pointsTo_iff]

theorem gains_iff (h : g.Represents rel) (h' : g'.Represents rel')
    (hsub : objectsOf rel n ⊆ objectsOf rel' n) :
    g.Gains g' n ↔ objectsOf rel n ⊂ objectsOf rel' n := by
  rw [Finset.ssubset_iff_of_subset hsub]
  apply exists_congr
  intro o
  rw [h'.pointsTo_iff, mem_objectsOf, mem_objectsOf, ← h.pointsTo_iff, Bool.not_eq_true]

theorem holds (h : g.Represents rel) (hs : g.get? n = some s) : s.Holds (objectsOf rel n) :=
  ⟨(h.filled n s hs).1, fun o => by
    rw [mem_objectsOf, ← h.pointsTo_iff, pointsTo_of_get? hs]⟩

theorem mayAlias_iff (h : g.Represents rel) (a b : Nat) :
    g.mayAlias a b = true ↔ ∃ o, (a, o) ∈ rel ∧ (b, o) ∈ rel := by
  have hshared : g.mayAlias a b = true ↔ ∃ o, g.pointsTo a o = true ∧ g.pointsTo b o = true := by
    unfold mayAlias pointsTo
    cases g.get? a with
    | none => simp
    | some s =>
      cases g.get? b with
      | none => simp
      | some t => exact ObjectSet.intersects_iff s t
  simpa only [h.pointsTo_iff] using hshared

/-! ### Counting -/

theorem toFinset_keys (h : g.Represents rel) : g.sets.keys.toFinset = rel.image Prod.fst := by
  ext n
  rw [List.mem_toFinset, Std.TreeMap.mem_keys, ← Std.TreeMap.isSome_getElem?_iff_mem,
    Option.isSome_iff_exists, Finset.mem_image]
  constructor
  · intro hkept
    obtain ⟨s, hs⟩ := hkept
    obtain ⟨o, ho⟩ := (h.filled n s hs).1.isEmpty_eq_false_iff.mp (h.filled n s hs).2
    exact ⟨(n, o), mem_objectsOf.mp ((h.holds hs).contains_iff o |>.mp ho), rfl⟩
  · intro hpair
    obtain ⟨e, he, hn⟩ := hpair
    have hpoints : g.pointsTo e.1 e.2 = true := (h.pointsTo_iff e.1 e.2).mpr he
    obtain ⟨s, hs, _⟩ := (Option.any_eq_true _ _).mp hpoints
    exact ⟨s, hn ▸ hs⟩

theorem size_eq (h : g.Represents rel) : g.size = (rel.image Prod.fst).card := by
  rw [← h.toFinset_keys, List.toFinset_card_of_nodup Std.TreeMap.nodup_keys,
    Std.TreeMap.length_keys, size]

theorem sizes_eq (h : g.Represents rel) : (g.sets.toList.map fun (_, s) => s.size) =
    g.sets.keys.map fun n => (objectsOf rel n).card := by
  rw [← Std.TreeMap.map_fst_toList_eq_keys, List.map_map]
  apply List.map_congr_left
  intro entry hs
  obtain ⟨n, s⟩ := entry
  exact (h.holds (Std.TreeMap.mem_toList_iff_getElem?_eq_some.mp hs)).size_eq

theorem stats_eq (h : g.Represents rel) : g.stats =
    { nodes := (rel.image Prod.fst).card
      pairs := rel.card
      largest := (rel.image Prod.fst).sup fun n => (objectsOf rel n).card } := by
  have hpairs : (g.sets.keys.map fun n => (objectsOf rel n).card).sum = rel.card := by
    rw [← List.sum_toFinset _ Std.TreeMap.nodup_keys, h.toFinset_keys,
      Finset.card_eq_sum_card_image Prod.fst rel]
    exact Finset.sum_congr rfl fun n _ => card_objectsOf rel n
  simp only [stats, h.sizes_eq, h.size_eq, ← List.sum_eq_foldr, hpairs, foldl_max_eq,
    h.toFinset_keys, Nat.zero_max]

end Represents

theorem updated_represents (updates : List Update) :
    (updated updates).Represents (related updates) := by
  induction updates using List.reverseRecOn with
  | nil => exact represents_empty
  | append_singleton updates u ih => simpa [updated, related] using ih.run u

/-- After any updates, the relation has exactly the pairs that they come to, every
further update reports whether the node it writes to gains an object, no set that
is kept is empty, and aliases and statistics are those of the pairs. -/
theorem relation_exact (updates : List Update) :
    (∀ n object, (updated updates).pointsTo n object = true ↔ (n, object) ∈ related updates) ∧
    (∀ u : Update, (u.run (updated updates)).1 = true ↔
      objectsOf (related updates) u.written ⊂
        objectsOf (u.relate (related updates)) u.written) ∧
    (∀ n s, (updated updates).get? n = some s → s.isEmpty = false) ∧
    (updated updates).size = ((related updates).image Prod.fst).card ∧
    (∀ a b, (updated updates).mayAlias a b = true ↔
      ∃ o, (a, o) ∈ related updates ∧ (b, o) ∈ related updates) ∧
    (updated updates).stats =
      { nodes := ((related updates).image Prod.fst).card
        pairs := (related updates).card
        largest := ((related updates).image Prod.fst).sup fun n =>
          (objectsOf (related updates) n).card } := by
  have h := updated_represents updates
  refine ⟨h.pointsTo_iff, fun u => ?_, fun n s hs => (h.filled n s hs).2, h.size_eq,
    h.mayAlias_iff, h.stats_eq⟩
  exact (u.run_reports _).trans (h.gains_iff (h.run u) (u.objectsOf_subset _))

end PointsTo

end AbstractMemory
