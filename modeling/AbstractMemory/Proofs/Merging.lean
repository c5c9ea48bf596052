import AbstractMemory.Proofs.Forest
import Mathlib

/-! Representatives after any history of an arena. Two nodes have the same one
exactly if merges that succeeded connect them. -/

namespace AbstractMemory

open Steps

namespace Arena

/-- All that can be done to an arena. Values are looked up in any program, with
any catalog. -/
inductive Operation where
  | createValue (origin : Option Nat)
  | createObject (origin : Option Nat) (isUnion isHeap : Bool)
  | createField (base offset : Nat) (isUnion isHeap : Bool)
  | createReturn (function : Nat)
  | createVariadic (function : Nat)
  | valueNode (p : Program) (c : Catalog) (v : Nat)
  | clearFieldPointers
  | merge (into other : Nat)
  | target (n : Nat)
  | removeValue (v : Nat)
  | removeObject (v : Nat)
  | aliasObject (v n : Nat)
  | taint (n : Nat)

/-- The arena after an operation, also after one that fails. -/
def perform (a : Arena) : Operation → Arena
  | .createValue origin => leaves (Arena.createValue origin) a
  | .createObject origin isUnion isHeap => leaves (Arena.createObject origin isUnion isHeap) a
  | .createField base offset isUnion isHeap =>
    leaves (Arena.createField base offset isUnion isHeap) a
  | .createReturn function => leaves (Arena.createReturn function) a
  | .createVariadic function => leaves (Arena.createVariadic function) a
  | .valueNode p c v => leaves (Arena.valueNode p c v) a
  | .clearFieldPointers => a.clearFieldPointers
  | .merge into other => leaves (Arena.merge into other) a
  | .target n => leaves (Arena.target n) a
  | .removeValue v => leaves (Arena.removeValue v) a
  | .removeObject v => leaves (Arena.removeObject v) a
  | .aliasObject v n => leaves (Arena.aliasObject v n) a
  | .taint n => leaves (Arena.taint n) a

/-- The arena that a history leads to. -/
def reached (history : List Operation) : Arena :=
  history.foldl perform {}

theorem reached_append (history : List Operation) (op : Operation) :
    reached (history ++ [op]) = (reached history).perform op := by
  simp [reached]

/-- Somewhere in the history, merging `y` into `x` succeeded. -/
def Joined (history : List Operation) (x y : Nat) : Prop :=
  ∃ before later, history = before ++ .merge x y :: later ∧
    answers (Arena.merge x y) (reached before) = .ok ()

/-- An operation of a longer history was there before or is the last one. -/
theorem snoc_eq_append_cons {history before later : List Operation} {op last : Operation} :
    history ++ [last] = before ++ op :: later ↔
      (∃ rest, history = before ++ op :: rest ∧ later = rest ++ [last]) ∨
        history = before ∧ last = op ∧ later = [] := by
  constructor
  · intro heq
    rcases List.eq_nil_or_concat later with rfl | ⟨rest, op', rfl⟩
    · obtain ⟨hbefore, hop⟩ := List.append_inj' heq rfl
      exact .inr ⟨hbefore, by simpa using hop, rfl⟩
    · have hsplit : history ++ [last] = (before ++ op :: rest) ++ [op'] := by
        simpa using heq
      obtain ⟨hhistory, hop⟩ := List.append_inj' hsplit rfl
      exact .inl ⟨rest, hhistory, by simpa using hop.symm⟩
  · rintro (⟨rest, rfl, rfl⟩ | ⟨rfl, rfl, rfl⟩)
    · simp
    · rfl

theorem joined_append {history : List Operation} {op : Operation} {x y : Nat} :
    Joined (history ++ [op]) x y ↔ Joined history x y ∨
      op = .merge x y ∧ answers (Arena.merge x y) (reached history) = .ok () := by
  simp only [Joined, snoc_eq_append_cons]
  constructor
  · rintro ⟨before, later, ⟨rest, hsplit, _⟩ | ⟨rfl, rfl, _⟩, hok⟩
    · exact .inl ⟨before, rest, hsplit, hok⟩
    · exact .inr ⟨rfl, hok⟩
  · rintro (⟨before, rest, hsplit, hok⟩ | ⟨rfl, hok⟩)
    · exact ⟨before, rest ++ [op], .inl ⟨rest, hsplit, rfl⟩, hok⟩
    · exact ⟨history, [], .inr ⟨rfl, rfl, rfl⟩, hok⟩

variable {a : Arena}

theorem leaves_target_upholds (hf : a.Forest) (n : Nat) :
    a.Upholds (leaves (target n) a) ∧ (leaves (target n) a).size = a.size := by
  refine Meets.leaves ((target_meets hf n).mono (fun _ _ h => h.2) ?_)
  rintro _ ⟨rfl, _⟩
  exact ⟨Upholds.refl _, rfl⟩

/-- Only a merge moves nodes to another root. -/
theorem perform_upholds (hf : a.Forest) {op : Operation} (hop : ∀ m n, op ≠ .merge m n) :
    a.Upholds (a.perform op) := by
  cases op with
  | createValue origin => exact (createValue_appends a origin).leaves.upholds
  | createObject origin isUnion isHeap =>
    exact (createObject_appends a origin isUnion isHeap).leaves.upholds
  | createField base offset isUnion isHeap =>
    exact (createField_upholds a base offset isUnion isHeap).leaves
  | createReturn function => exact (createReturn_appends a function).leaves.upholds
  | createVariadic function => exact (createVariadic_appends a function).leaves.upholds
  | valueNode p c v => exact (valueNode_upholds p c a v).leaves
  | merge m n => exact absurd rfl (hop m n)
  | target n => exact (leaves_target_upholds hf n).1
  | aliasObject v n => exact (aliasObject_appends a v n).leaves.upholds
  | taint n => exact (taint_appends a n).leaves.upholds
  | clearFieldPointers | removeValue | removeObject => exact upholds_of_nodes rfl

theorem merge_forest (hf : a.Forest) (m n : Nat) : (leaves (merge m n) a).Forest :=
  Meets.leaves ((merge_meets hf m n).mono (fun _ _ h => h.2.1) fun _ h => h.2.1)

theorem perform_forest (hf : a.Forest) (op : Operation) : (a.perform op).Forest := by
  by_cases hop : ∀ m n, op ≠ .merge m n
  · exact (perform_upholds hf hop).forest hf
  · push Not at hop
    obtain ⟨m, n, rfl⟩ := hop
    exact merge_forest hf m n

theorem forest_empty : ({} : Arena).Forest := by
  have hroot : ∀ n, n < sentinelCount → ({} : Arena).Leads n n 0 := by
    intro n hn
    have hfive : n < 5 := hn
    interval_cases n <;> exact .root rfl rfl
  exact ⟨fun n hn => ⟨n, 0, hroot n hn⟩, fun n hn => hroot n (of_decide_eq_true hn)⟩

theorem reached_forest (history : List Operation) : (reached history).Forest := by
  induction history using List.reverseRecOn with
  | nil => exact forest_empty
  | append_singleton history op ih =>
    rw [reached_append]
    exact perform_forest ih op

/-- What a merge that succeeds does to the equality of representatives is to
connect its two nodes. -/
theorem eqvGen_of_merge {rep rep' : Nat → Except NodeError Nat} {joined joined' : Nat → Nat → Prop}
    {m n : Nat} (hrep : ∀ x y, rep x = rep y ↔ Relation.EqvGen joined x y)
    (hrep' : ∀ x, rep' x = if rep x = rep n then rep m else rep x)
    (hjoined : ∀ x y, joined' x y ↔ joined x y ∨ x = m ∧ y = n) (x y : Nat) :
    rep' x = rep' y ↔ Relation.EqvGen joined' x y := by
  have hold : ∀ x y, rep x = rep y → Relation.EqvGen joined' x y :=
    fun x y h => ((hrep x y).mp h).mono fun _ _ h => (hjoined _ _).mpr (.inl h)
  have hnew : Relation.EqvGen joined' m n := .rel _ _ ((hjoined m n).mpr (.inr ⟨rfl, rfl⟩))
  constructor
  · intro h
    rw [hrep', hrep'] at h
    by_cases hx : rep x = rep n <;> by_cases hy : rep y = rep n
    · exact hold x y (hx.trans hy.symm)
    · rw [if_pos hx, if_neg hy] at h
      exact .trans _ _ _ (hold x n hx) (.trans _ _ _ (.symm _ _ hnew) (hold m y h))
    · rw [if_neg hx, if_pos hy] at h
      exact .trans _ _ _ (hold x m h) (.trans _ _ _ hnew (hold n y hy.symm))
    · rw [if_neg hx, if_neg hy] at h
      exact hold x y h
  · intro h
    induction h with
    | rel x y h =>
      rcases (hjoined x y).mp h with h | ⟨rfl, rfl⟩
      · rw [hrep', hrep', (hrep x y).mpr (.rel _ _ h)]
      · simp [hrep']
    | refl => rfl
    | symm _ _ _ ih => exact ih.symm
    | trans _ _ _ _ _ ih ih' => exact ih.trans ih'

/-- An operation that joins nothing does not change which nodes share a
representative. -/
theorem perform_representative_eq_iff (hf : a.Forest) {op : Operation}
    (hop : ∀ m n, op = .merge m n → answers (Arena.merge m n) a ≠ .ok ()) (x y : Nat) :
    (a.perform op).representative x = (a.perform op).representative y ↔
      a.representative x = a.representative y := by
  by_cases hmerge : ∃ m n, op = .merge m n
  · obtain ⟨m, n, rfl⟩ := hmerge
    have hfails := hop m n rfl
    cases he : answers (Arena.merge m n) a with
    | ok => exact absurd he hfails
    | error e =>
      obtain ⟨_, _, _, hrep⟩ := (merge_meets hf m n).of_answers_error he rfl
      rw [perform, hrep]
  · push Not at hmerge
    exact (perform_upholds hf hmerge).representative_eq_iff hf x y

theorem representative_empty (n : Nat) : ({} : Arena).representative n = .ok n ∨
    ({} : Arena).representative n = .error (.unknownNode n) := by
  by_cases hn : n < sentinelCount
  · exact .inl (forest_empty.sentinel n (decide_eq_true hn)).representative
  · exact .inr (representative_of_size_le (Nat.le_of_not_lt hn))

theorem representative_eq_iff_joined (history : List Operation) (x y : Nat) :
    (reached history).representative x = (reached history).representative y ↔
      Relation.EqvGen (Joined history) x y := by
  induction history using List.reverseRecOn generalizing x y with
  | nil =>
    have hnone : Joined [] ≤ Eq := by
      rintro x y ⟨before, later, heq, _⟩
      simp at heq
    constructor
    · intro h
      have hxy : x = y := by
        rcases representative_empty x with hx | hx <;>
          rcases representative_empty y with hy | hy <;> simp_all [reached]
      exact hxy ▸ .refl x
    · intro h
      rw [eq_equivalence.eqvGen_iff.mp (Relation.EqvGen.mono hnone x y h)]
  | append_singleton history op ih =>
    have hf := reached_forest history
    rw [reached_append]
    by_cases hop : ∃ m n, op = .merge m n ∧
        answers (Arena.merge m n) (reached history) = .ok ()
    · obtain ⟨m, n, rfl, hok⟩ := hop
      obtain ⟨_, _, _, hrep⟩ := (merge_meets hf m n).of_answers_ok hok
      refine eqvGen_of_merge ih hrep (fun x y => ?_) x y
      rw [joined_append, Operation.merge.injEq]
      constructor
      · rintro (h | ⟨⟨rfl, rfl⟩, _⟩)
        · exact .inl h
        · exact .inr ⟨rfl, rfl⟩
      · rintro (h | ⟨rfl, rfl⟩)
        · exact .inl h
        · exact .inr ⟨⟨rfl, rfl⟩, hok⟩
    · have hkept : Joined (history ++ [op]) = Joined history := by
        funext x y
        refine propext (joined_append.trans (or_iff_left ?_))
        exact fun h => hop ⟨x, y, h⟩
      rw [perform_representative_eq_iff hf fun m n h hok => hop ⟨m, n, h, hok⟩, ih, hkept]

theorem answers_target (a : Arena) (n : Nat) : answers (target n) a = a.representative n := by
  have hrun : target n a = (ask (·.representative n) >>= fun root => do
      modify fun _ => (a.chase [] n).1.foldl (fun a m => a.setLink m root) a
      return root) a := rfl
  unfold answers
  rw [hrun]
  cases h : a.representative n with
  | ok r => simp [bind, EStateM.bind, ask, h, modify, modifyGet, MonadStateOf.modifyGet,
      EStateM.modifyGet, pure, EStateM.pure]
  | error e => simp [bind, EStateM.bind, ask, h]

theorem leaves_target (hf : a.Forest) (n : Nat) :
    (leaves (target n) a).representative = a.representative := by
  obtain ⟨hup, hsize⟩ := leaves_target_upholds hf n
  exact hup.representative_eq hf hsize

/-- After any history, the links from each node end at a root, its
representative. Asking for it by compressing changes no representative, merging
two classes gives the second the representative of the first, and a merge that
fails changes none. So two nodes have the same representative exactly if merges
connect them, and a sentinel is always its own. -/
theorem representatives_exact (history : List Operation) :
    (∀ n, n < (reached history).size → ∃ r k, (reached history).Leads n r k ∧
      (reached history).representative n = .ok r) ∧
    (∀ n, answers (target n) (reached history) = (reached history).representative n ∧
      (leaves (target n) (reached history)).representative = (reached history).representative) ∧
    (∀ m n, answers (merge m n) (reached history) = .ok () → ∀ x,
      (leaves (merge m n) (reached history)).representative x =
        if (reached history).representative x = (reached history).representative n then
          (reached history).representative m
        else (reached history).representative x) ∧
    (∀ m n e, answers (merge m n) (reached history) = .error e →
      (leaves (merge m n) (reached history)).representative = (reached history).representative) ∧
    (∀ x y, (reached history).representative x = (reached history).representative y ↔
      Relation.EqvGen (Joined history) x y) ∧
    ∀ n, isSentinel n = true → (reached history).representative n = .ok n := by
  have hf := reached_forest history
  refine ⟨?_, fun n => ⟨answers_target _ n, leaves_target hf n⟩, ?_, ?_,
    representative_eq_iff_joined history, ?_⟩
  · intro n hn
    obtain ⟨r, k, hr⟩ := hf.rooted n hn
    exact ⟨r, k, hr, hr.representative⟩
  · intro m n hok
    exact ((merge_meets hf m n).of_answers_ok hok).2.2.2
  · intro m n e he
    exact ((merge_meets hf m n).of_answers_error he rfl).2.2.2
  · intro n hn
    exact (hf.sentinel n hn).representative

/-- Three values merged one after another, and two merges with a sentinel, of
which one fails. -/
def chained : List Operation := [
  .createValue none,
  .createValue none,
  .createValue none,
  .merge 5 6,
  .merge 6 7,
  .merge 7 0,
  .createValue (some 3),
  .merge 1 8]

theorem representatives_exact_chained : (reached chained).representative 7 = .ok 5 ∧
    Relation.EqvGen (Joined chained) 7 5 ∧ ¬ Relation.EqvGen (Joined chained) 7 0 := by
  obtain ⟨_, _, _, _, hconnected, _⟩ := representatives_exact chained
  have hfive : (reached chained).representative 5 = .ok 5 := by decide +kernel
  have hseven : (reached chained).representative 7 = .ok 5 := by decide +kernel
  have hzero : (reached chained).representative 0 = .ok 0 := by decide +kernel
  refine ⟨hseven, (hconnected 7 5).mp (hseven.trans hfive.symm), ?_⟩
  intro h
  have heq := (hconnected 7 0).mpr h
  rw [hseven, hzero] at heq
  cases heq

end Arena

end AbstractMemory
