import AbstractMemory.Proofs.Membership
import Mathlib

/-! Sets of objects kept in registers. Whatever is done with them, each one has
the elements of a finite set that the same operations give, and it reports
correctly whether an operation enlarged it. No block is ever empty. -/

namespace AbstractMemory

namespace ObjectSet

variable {s s' s'' other : ObjectSet} {n m key i : Nat} {b : Block}

def Reduced (s : ObjectSet) : Prop :=
  ∀ (key : Nat) (b : Block), s.blocks[key]? = some b → b ≠ 0

/-- The second set has an element that is new. -/
def Grows (s s' : ObjectSet) : Prop :=
  ∃ n, s'.contains n = true ∧ s.contains n = false

def Within (s s' : ObjectSet) : Prop :=
  ∀ n, s.contains n = true → s'.contains n = true

theorem grows_trans (h : s.Within s') (h' : s'.Within s'') :
    s.Grows s'' ↔ s.Grows s' ∨ s'.Grows s'' := by
  constructor
  · intro hgrows
    obtain ⟨n, hnew, hold⟩ := hgrows
    by_cases hn : s'.contains n = true
    · exact .inl ⟨n, hn, hold⟩
    · exact .inr ⟨n, hnew, Bool.eq_false_iff.mpr hn⟩
  · intro hor
    rcases hor with ⟨n, hnew, hold⟩ | ⟨n, hnew, hold⟩
    · exact ⟨n, h' n hnew, hold⟩
    · refine ⟨n, hnew, Bool.eq_false_iff.mpr fun hn => ?_⟩
      simp [h n hn] at hold

/-! ### Bits and blocks -/

theorem exists_bit (h : b ≠ 0) : ∃ i < 128, b.getLsbD i = true := by
  by_contra hno
  apply h
  apply BitVec.eq_of_getLsbD_eq
  intro i hi
  have hfalse : b.getLsbD i = false := Bool.eq_false_iff.mpr fun hbit => hno ⟨i, hi, hbit⟩
  simp [hfalse]

theorem ne_zero_of_bit (h : b.getLsbD i = true) : b ≠ 0 := by
  intro hz
  simp [hz] at h

theorem contains_place (s : ObjectSet) (hi : i < 128) :
    s.contains (key * 128 + i) = (s.block key).getLsbD i := by
  have hkey : blockKey (key * 128 + i) = key := by
    unfold blockKey
    omega
  have hbit : (key * 128 + i) % 128 = i := by omega
  rw [contains, hkey, hbit]

theorem block_of_getElem? (hb : s.blocks[key]? = some b) : s.block key = b := by
  rw [block, Std.TreeMap.getD_eq_getD_getElem?, hb, Option.getD_some]

theorem contains_at (hb : s.blocks[key]? = some b) (hi : i < 128) :
    s.contains (key * 128 + i) = b.getLsbD i := by
  rw [s.contains_place hi, block_of_getElem? hb]

theorem getLsbD_blockBit (h : blockKey n = blockKey m) :
    (blockBit n).getLsbD (m % 128) = (m == n) := by
  have hbit : n % 128 = m % 128 ↔ m = n := by
    unfold blockKey at h
    omega
  have hlt : n % 128 < 128 := Nat.mod_lt n (by omega)
  rw [blockBit, BitVec.getLsbD_twoPow]
  simp [hbit, hlt, Bool.beq_eq_decide_eq]

theorem Reduced.isEmpty_iff (h : s.Reduced) : s.isEmpty = true ↔ ∀ n, s.contains n = false := by
  constructor
  · exact contains_of_isEmpty
  · intro hnone
    apply Std.TreeMap.isEmpty_iff_forall_not_mem.mpr
    intro key hkey
    obtain ⟨b, hb⟩ := Option.isSome_iff_exists.mp (Std.TreeMap.isSome_getElem?_iff_mem.mpr hkey)
    obtain ⟨i, hi, hbit⟩ := exists_bit (h key b hb)
    have hcontains := (contains_at hb hi).trans hbit
    simp [hnone] at hcontains

theorem reduced_empty : empty.Reduced := by
  intro key b hb
  simp [empty] at hb

/-- Putting a block that has a bit into a set without empty blocks. -/
theorem Reduced.put (h : s.Reduced) (hb : b ≠ 0) :
    Reduced { blocks := s.blocks.insert key b } := by
  intro k b' hb'
  rw [Std.TreeMap.getElem?_insert] at hb'
  split at hb'
  · rwa [← Option.some.inj hb']
  · exact h k b' hb'

/-! ### Single elements -/

theorem Reduced.insert (h : s.Reduced) (n : Nat) : (s.insert n).2.Reduced := by
  apply h.put
  apply ne_zero_of_bit (i := n % 128)
  rw [BitVec.getLsbD_or, getLsbD_blockBit rfl]
  simp

theorem insert_reports (s : ObjectSet) (n : Nat) :
    (s.insert n).1 = true ↔ s.Grows (s.insert n).2 := by
  constructor
  · intro hnew
    exact ⟨n, by simp [contains_insert], by simpa [ObjectSet.insert] using hnew⟩
  · intro hgrows
    obtain ⟨m, hm, hold⟩ := hgrows
    have hmn : m = n := by simpa [contains_insert, hold] using hm
    simpa [ObjectSet.insert, hmn] using hold

theorem insert_within (s : ObjectSet) (n : Nat) : s.Within (s.insert n).2 := by
  intro m hm
  simp [contains_insert, hm]

theorem remove_cases (s : ObjectSet) (n : Nat) :
    s.block (blockKey n) = 0 ∧ s.remove n = (false, s) ∨
      s.block (blockKey n) &&& ~~~blockBit n = 0 ∧
        s.remove n = (s.contains n, { blocks := s.blocks.erase (blockKey n) }) ∨
      s.block (blockKey n) &&& ~~~blockBit n ≠ 0 ∧ s.remove n = (s.contains n,
        { blocks := s.blocks.insert (blockKey n) (s.block (blockKey n) &&& ~~~blockBit n) }) := by
  by_cases hin : s.blocks.contains (blockKey n) = true
  · rw [remove, if_pos hin]
    by_cases hrest : s.block (blockKey n) &&& ~~~blockBit n = 0
    · exact .inr (.inl ⟨hrest, by simp only [hrest, if_true]⟩)
    · exact .inr (.inr ⟨hrest, by simp only [hrest, if_false]⟩)
  · rw [remove, if_neg hin]
    exact .inl ⟨Std.TreeMap.getD_eq_fallback (by simpa using hin), rfl⟩

theorem block_remove (s : ObjectSet) (n k : Nat) : (s.remove n).2.block k =
    if blockKey n = k then s.block k &&& ~~~blockBit n else s.block k := by
  rcases s.remove_cases n with ⟨hzero, heq⟩ | ⟨hrest, heq⟩ | ⟨_, heq⟩
  · by_cases hk : blockKey n = k
    · rw [heq, if_pos hk, ← hk, hzero]
      exact BitVec.zero_and.symm
    · rw [heq, if_neg hk]
  · rw [heq]
    by_cases hk : blockKey n = k
    · rw [if_pos hk, ← hk, hrest, block, Std.TreeMap.getD_erase_self]
    · rw [if_neg hk, block, Std.TreeMap.getD_erase]
      simp [hk, block]
  · rw [heq, block_insert]
    by_cases hk : blockKey n = k
    · rw [if_pos hk, if_pos hk, hk]
    · rw [if_neg hk, if_neg hk]

theorem contains_remove (s : ObjectSet) (n m : Nat) :
    (s.remove n).2.contains m = (s.contains m && m != n) := by
  rw [contains, block_remove, contains]
  by_cases hk : blockKey n = blockKey m
  · have hlt : m % 128 < 128 := Nat.mod_lt m (by omega)
    rw [if_pos hk, BitVec.getLsbD_and, BitVec.getLsbD_not, getLsbD_blockBit hk]
    simp [hlt, bne]
  · have hne : m ≠ n := fun hmn => hk (by rw [hmn])
    simp [hk, hne]

theorem remove_reports (s : ObjectSet) (n : Nat) : (s.remove n).1 = s.contains n := by
  rcases s.remove_cases n with ⟨hzero, heq⟩ | ⟨_, heq⟩ | ⟨_, heq⟩
  · simp [heq, contains, hzero]
  · rw [heq]
  · rw [heq]

theorem Reduced.remove (h : s.Reduced) (n : Nat) : (s.remove n).2.Reduced := by
  rcases s.remove_cases n with ⟨_, heq⟩ | ⟨_, heq⟩ | ⟨hrest, heq⟩
  · rwa [heq]
  · rw [heq]
    intro key b hb
    rw [Std.TreeMap.getElem?_erase] at hb
    split at hb
    · cases hb
    · exact h key b hb
  · rw [heq]
    exact h.put hrest

/-! ### Many elements -/

section
variable {β : Type} {step : Bool × ObjectSet → β → Bool × ObjectSet}

theorem foldl_within (hwithin : ∀ (acc : Bool × ObjectSet) x, acc.2.Within (step acc x).2)
    (xs : List β) (acc : Bool × ObjectSet) : acc.2.Within (xs.foldl step acc).2 := by
  induction xs generalizing acc with
  | nil => exact fun _ hn => hn
  | cons x rest ih => exact fun n hn => ih (step acc x) n (hwithin acc x n hn)

/-- Steps that report whether they enlarge a set, one after another, report
whether all of them together do. -/
theorem foldl_reports (hwithin : ∀ (acc : Bool × ObjectSet) x, acc.2.Within (step acc x).2)
    (hreports : ∀ (acc : Bool × ObjectSet) x,
      (step acc x).1 = true ↔ acc.1 = true ∨ acc.2.Grows (step acc x).2)
    (xs : List β) (acc : Bool × ObjectSet) :
    (xs.foldl step acc).1 = true ↔ acc.1 = true ∨ acc.2.Grows (xs.foldl step acc).2 := by
  induction xs generalizing acc with
  | nil =>
    have hno : ¬ acc.2.Grows acc.2 := by
      intro hgrows
      obtain ⟨n, hn, hnot⟩ := hgrows
      simp [hn] at hnot
    simp [hno]
  | cons x rest ih =>
    have hboth := grows_trans (hwithin acc x) (foldl_within hwithin rest (step acc x))
    rw [List.foldl_cons, ih, hreports, hboth, or_assoc]

theorem foldl_reduced {xs : List β}
    (hstep : ∀ (acc : Bool × ObjectSet) x, x ∈ xs → acc.2.Reduced → (step acc x).2.Reduced)
    {acc : Bool × ObjectSet} (h : acc.2.Reduced) : (xs.foldl step acc).2.Reduced := by
  induction xs generalizing acc with
  | nil => exact h
  | cons x rest ih =>
    exact ih (fun acc y hy => hstep acc y (List.mem_cons_of_mem x hy)) (hstep acc x (by simp) h)

end

def insertNext (acc : Bool × ObjectSet) (n : Nat) : Bool × ObjectSet :=
  (acc.1 || (acc.2.insert n).1, (acc.2.insert n).2)

theorem insertAll_eq (s : ObjectSet) (ns : List Nat) :
    s.insertAll ns = ns.foldl insertNext (false, s) :=
  rfl

theorem contains_insertAll (s : ObjectSet) (ns : List Nat) (m : Nat) :
    (s.insertAll ns).2.contains m = true ↔ s.contains m = true ∨ m ∈ ns := by
  have hrun : ∀ acc : Bool × ObjectSet, (ns.foldl insertNext acc).2.contains m = true ↔
      acc.2.contains m = true ∨ m ∈ ns := by
    induction ns with
    | nil => simp
    | cons n rest ih =>
      intro acc
      rw [List.foldl_cons, ih]
      simp [insertNext, contains_insert, or_assoc]
  exact hrun (false, s)

theorem insertAll_reports (s : ObjectSet) (ns : List Nat) :
    (s.insertAll ns).1 = true ↔ s.Grows (s.insertAll ns).2 := by
  have hnext : ∀ acc n, (insertNext acc n).1 = true ↔
      acc.1 = true ∨ acc.2.Grows (insertNext acc n).2 := by
    intro acc n
    rw [insertNext, Bool.or_eq_true, insert_reports]
  have hwithin : ∀ (acc : Bool × ObjectSet) n, acc.2.Within (insertNext acc n).2 :=
    fun acc n => insert_within acc.2 n
  rw [insertAll_eq, foldl_reports hwithin hnext]
  simp

theorem Reduced.insertAll (h : s.Reduced) (ns : List Nat) : (s.insertAll ns).2.Reduced := by
  have hnext : ∀ (acc : Bool × ObjectSet) n, n ∈ ns → acc.2.Reduced →
      (insertNext acc n).2.Reduced := fun _ n _ hacc => hacc.insert n
  rw [insertAll_eq]
  exact foldl_reduced hnext h

theorem contains_unionBlock (acc : Bool × ObjectSet) (key n : Nat) (b : Block) :
    (unionBlock acc (key, b)).2.contains n =
      (acc.2.contains n || (key == blockKey n && b.getLsbD (n % 128))) := by
  rw [contains, contains, block_unionBlock]
  by_cases hk : key = blockKey n
  · simp [hk]
  · simp [hk]

theorem or_ne_left_iff {b c : Block} :
    b ||| c ≠ b ↔ ∃ i < 128, c.getLsbD i = true ∧ b.getLsbD i = false := by
  constructor
  · intro hne
    by_contra hno
    apply hne
    apply BitVec.eq_of_getLsbD_eq
    intro i hi
    rw [BitVec.getLsbD_or]
    cases hb : b.getLsbD i with
    | true => rfl
    | false =>
      rw [Bool.false_or]
      exact Bool.eq_false_iff.mpr fun hc => hno ⟨i, hi, hc, hb⟩
  · intro hbit heq
    obtain ⟨i, _, hc, hb⟩ := hbit
    rw [← heq, BitVec.getLsbD_or, hc] at hb
    simp at hb

theorem unionBlock_reports (acc : Bool × ObjectSet) (entry : Nat × Block) :
    (unionBlock acc entry).1 = true ↔ acc.1 = true ∨ acc.2.Grows (unionBlock acc entry).2 := by
  obtain ⟨key, b⟩ := entry
  have hgrows : acc.2.Grows (unionBlock acc (key, b)).2 ↔
      acc.2.block key ||| b ≠ acc.2.block key := by
    rw [or_ne_left_iff]
    constructor
    · intro hgrows
      obtain ⟨n, hnew, hold⟩ := hgrows
      have hbit : key = blockKey n ∧ b.getLsbD (n % 128) = true := by
        simpa [contains_unionBlock, hold] using hnew
      obtain ⟨rfl, hb⟩ := hbit
      exact ⟨n % 128, Nat.mod_lt n (by omega), hb, hold⟩
    · intro hbit
      obtain ⟨i, hi, hb, hold⟩ := hbit
      refine ⟨key * 128 + i, ?_, ?_⟩
      · rw [contains_place _ hi, block_unionBlock, if_pos rfl, BitVec.getLsbD_or, hb, Bool.or_true]
      · rw [contains_place _ hi, hold]
  rw [hgrows]
  simp [unionBlock]

theorem union_reports (s other : ObjectSet) :
    (s.union other).1 = true ↔ s.Grows (s.union other).2 := by
  have hwithin : ∀ (acc : Bool × ObjectSet) entry, acc.2.Within (unionBlock acc entry).2 := by
    intro acc entry n hn
    simp [contains_unionBlock acc entry.1 n entry.2, hn]
  rw [union, foldl_reports hwithin unionBlock_reports]
  simp

theorem Reduced.union (h : s.Reduced) (hother : other.Reduced) : (s.union other).2.Reduced := by
  apply foldl_reduced _ h
  intro acc entry hentry hacc
  apply hacc.put
  have hblock := hother entry.1 entry.2 (Std.TreeMap.mem_toList_iff_getElem?_eq_some.mp hentry)
  obtain ⟨i, _, hbit⟩ := exists_bit hblock
  apply ne_zero_of_bit (i := i)
  rw [BitVec.getLsbD_or, hbit, Bool.or_true]

/-! ### Registers -/

/-- What can be done with sets that are kept in registers. -/
inductive Operation where
  | new (r : Nat)
  | singleton (r n : Nat)
  | ofList (r : Nat) (ns : List Nat)
  | read (r : Nat) (ns : List Int)
  | insert (r n : Nat)
  | insertAll (r : Nat) (ns : List Nat)
  | extend (r : Nat) (ns : List Nat)
  | remove (r n : Nat)
  | clear (r : Nat)
  | clone (r source : Nat)
  | union (r source : Nat)

namespace Operation

/-- The register that is written. -/
def target : Operation → Nat
  | new r | singleton r _ | ofList r _ | read r _ | insert r _ | insertAll r _ | extend r _
  | remove r _ | clear r | clone r _ | union r _ => r

/-- What is answered, and what is written. A list that cannot be read changes
nothing. -/
def run (sets : Nat → ObjectSet) : Operation → Option Bool × ObjectSet
  | new _ | clear _ => (none, empty)
  | singleton _ n => (none, .singleton n)
  | ofList _ ns => (none, .ofList ns)
  | read r ns => (none, (ofNumbers? ns).getD (sets r))
  | insert r n => ((sets r).insert n).map some id
  | insertAll r ns => ((sets r).insertAll ns).map some id
  | extend r ns => (none, ((sets r).insertAll ns).2)
  | remove r n => ((sets r).remove n).map some id
  | clone _ source => (none, sets source)
  | union r source => ((sets r).union (sets source)).map some id

/-- What is written, for finite sets. -/
def meaning (sets : Nat → Finset Nat) : Operation → Finset Nat
  | new _ | clear _ => ∅
  | singleton _ n => {n}
  | ofList _ ns => ns.toFinset
  | read r ns => if ∀ n ∈ ns, 0 ≤ n ∧ n < 4294967296 then (ns.map Int.toNat).toFinset else sets r
  | insert r n => Insert.insert n (sets r)
  | insertAll r ns | extend r ns => sets r ∪ ns.toFinset
  | remove r n => (sets r).erase n
  | clone _ source => sets source
  | union r source => sets r ∪ sets source

/-- What is answered: whether the set grows, and of an element removed, whether
it was there. -/
def answer (sets : Nat → Finset Nat) (op : Operation) : Option Bool :=
  match op with
  | insert r _ | insertAll r _ | union r _ => some (decide (sets r ⊂ op.meaning sets))
  | remove r n => some (decide (n ∈ sets r))
  | _ => none

end Operation

/-- The registers after some operations, all of them empty at first. -/
def registers (ops : List Operation) : Nat → ObjectSet :=
  ops.foldl (fun sets op => Function.update sets op.target (op.run sets).2) fun _ => empty

def meanings (ops : List Operation) : Nat → Finset Nat :=
  ops.foldl (fun sets op => Function.update sets op.target (op.meaning sets)) fun _ => ∅

/-- The set has just these elements, and no block without one. -/
structure Holds (s : ObjectSet) (elements : Finset Nat) : Prop where
  reduced : s.Reduced
  contains_iff : ∀ n, s.contains n = true ↔ n ∈ elements

variable {elements elements' : Finset Nat} {sets : Nat → ObjectSet} {finite : Nat → Finset Nat}

/-- A report of growth is one of the finite sets. -/
theorem Holds.report_eq {grown : Bool} (h : s.Holds elements) (h' : s'.Holds elements')
    (hsub : elements ⊆ elements') (hreport : grown = true ↔ s.Grows s') :
    grown = decide (elements ⊂ elements') := by
  rw [Bool.eq_iff_iff, decide_eq_true_iff, hreport, Finset.ssubset_iff_of_subset hsub]
  apply exists_congr
  intro n
  rw [h'.contains_iff, ← h.contains_iff, Bool.not_eq_true]

theorem holds_empty : empty.Holds ∅ :=
  ⟨reduced_empty, by simp [contains_empty]⟩

theorem Holds.insert (h : s.Holds elements) (n : Nat) :
    (s.insert n).2.Holds (Insert.insert n elements) :=
  ⟨h.reduced.insert n, fun m => by simp [contains_insert, h.contains_iff, or_comm]⟩

theorem Holds.insertAll (h : s.Holds elements) (ns : List Nat) :
    (s.insertAll ns).2.Holds (elements ∪ ns.toFinset) :=
  ⟨h.reduced.insertAll ns, fun m => by simp [contains_insertAll, h.contains_iff]⟩

theorem Holds.remove (h : s.Holds elements) (n : Nat) :
    (s.remove n).2.Holds (elements.erase n) :=
  ⟨h.reduced.remove n, fun m => by simp [contains_remove, h.contains_iff, and_comm]⟩

theorem Holds.union (h : s.Holds elements) (h' : s'.Holds elements') :
    (s.union s').2.Holds (elements ∪ elements') :=
  ⟨h.reduced.union h'.reduced, fun m => by simp [contains_union, h.contains_iff, h'.contains_iff]⟩

theorem holds_ofList (ns : List Nat) : (ofList ns).Holds ns.toFinset := by
  simpa [ofList] using holds_empty.insertAll ns

theorem ofNumbers?_eq (ns : List Int) : ofNumbers? ns =
    if ∀ n ∈ ns, 0 ≤ n ∧ n < 4294967296 then some (ofList (ns.map Int.toNat)) else none := by
  by_cases hids : ∀ n ∈ ns, 0 ≤ n ∧ n < 4294967296
  · rw [if_pos hids]
    exact if_pos (List.all_eq_true.mpr fun n hn => decide_eq_true (hids n hn))
  · rw [if_neg hids]
    exact if_neg fun hall => hids fun n hn => of_decide_eq_true (List.all_eq_true.mp hall n hn)

theorem Operation.run_holds (h : ∀ r, (sets r).Holds (finite r)) (op : Operation) :
    (op.run sets).2.Holds (op.meaning finite) := by
  cases op with
  | new r | clear r => exact holds_empty
  | singleton r n => exact holds_empty.insert n
  | ofList r ns => exact holds_ofList ns
  | read r ns =>
    rw [run, meaning, ofNumbers?_eq]
    by_cases hids : ∀ n ∈ ns, 0 ≤ n ∧ n < 4294967296
    · rw [if_pos hids, if_pos hids]
      exact holds_ofList _
    · rw [if_neg hids, if_neg hids]
      exact h r
  | insert r n => exact (h r).insert n
  | insertAll r ns | extend r ns => exact (h r).insertAll ns
  | remove r n => exact (h r).remove n
  | clone r source => exact h source
  | union r source => exact (h r).union (h source)

theorem Operation.run_answers (h : ∀ r, (sets r).Holds (finite r)) (op : Operation) :
    (op.run sets).1 = op.answer finite := by
  cases op with
  | insert r n =>
    exact congrArg some ((h r).report_eq ((h r).insert n) (Finset.subset_insert n _)
      (insert_reports _ n))
  | insertAll r ns =>
    exact congrArg some ((h r).report_eq ((h r).insertAll ns) Finset.subset_union_left
      (insertAll_reports _ ns))
  | union r source =>
    exact congrArg some ((h r).report_eq ((h r).union (h source)) Finset.subset_union_left
      (union_reports _ _))
  | remove r n =>
    have hthere : (sets r).contains n = decide (n ∈ finite r) := by
      rw [Bool.eq_iff_iff, decide_eq_true_iff, (h r).contains_iff]
    exact congrArg some ((remove_reports _ n).trans hthere)
  | _ => rfl

theorem registers_append (ops : List Operation) (op : Operation) : registers (ops ++ [op]) =
    Function.update (registers ops) op.target (op.run (registers ops)).2 := by
  simp [registers]

theorem meanings_append (ops : List Operation) (op : Operation) : meanings (ops ++ [op]) =
    Function.update (meanings ops) op.target (op.meaning (meanings ops)) := by
  simp [meanings]

theorem registers_hold (ops : List Operation) (r : Nat) :
    (registers ops r).Holds (meanings ops r) := by
  induction ops using List.reverseRecOn generalizing r with
  | nil => exact holds_empty
  | append_singleton ops op ih =>
    rw [registers_append, meanings_append]
    by_cases hr : r = op.target
    · subst hr
      simpa using op.run_holds ih
    · simpa [hr] using ih r

/-- After any operations, each register has exactly the elements of its finite
set, every further operation answers as it should, no block is empty, and a set
is empty if it has no element. -/
theorem registers_exact (ops : List Operation) :
    (∀ r n, (registers ops r).contains n = decide (n ∈ meanings ops r)) ∧
    (∀ op : Operation, (op.run (registers ops)).1 = op.answer (meanings ops)) ∧
    (∀ (r key : Nat) (b : Block), (registers ops r).blocks[key]? = some b → b ≠ 0) ∧
    ∀ r, (registers ops r).isEmpty = true ↔ meanings ops r = ∅ := by
  have h := registers_hold ops
  refine ⟨?_, fun op => op.run_answers h, fun r => (h r).reduced, ?_⟩
  · intro r n
    rw [Bool.eq_iff_iff, decide_eq_true_iff, (h r).contains_iff]
  · intro r
    rw [(h r).reduced.isEmpty_iff, Finset.eq_empty_iff_forall_notMem]
    apply forall_congr'
    intro n
    rw [← (h r).contains_iff, Bool.not_eq_true]

end ObjectSet

end AbstractMemory
