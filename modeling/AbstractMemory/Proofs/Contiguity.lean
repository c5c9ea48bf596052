import AbstractMemory.Proofs.Merging
import Mathlib

/-! Where the fields of objects come to lie over any history of an arena. A
field is only checked to be the next node, not to go on with the object it is
made for. So objects stay contiguous exactly if every field is made for the
object that is last in the arena. -/

namespace AbstractMemory

open Steps

namespace Arena

variable {a a' : Arena} {b n o i j k : Nat}

/-- Each further field of an object comes right after the field before it. -/
def Contiguous (a : Arena) : Prop :=
  ∀ n o, a.objectOffset n = .ok o → 0 < o → a.objectOffset (n - 1) = .ok (o - 1)

theorem objectOffset_eq_ok : a.objectOffset n = .ok o ↔
    ∃ node, a.get? n = some node ∧ node.isObject = true ∧ node.offset = o := by
  unfold objectOffset
  cases h : a.object n with
  | ok node =>
    obtain ⟨hn, hobj⟩ := object_eq_ok.mp h
    simp [Except.map, hn, hobj]
  | error e =>
    simp only [Except.map, reduceCtorEq, false_iff]
    rintro ⟨node, hn, hobj, _⟩
    rw [object_eq_ok.mpr ⟨hn, hobj⟩] at h
    cases h

theorem lt_size_of_objectOffset (h : a.objectOffset n = .ok o) : n < a.size := by
  obtain ⟨node, hn, _⟩ := objectOffset_eq_ok.mp h
  exact lt_size_of_get? hn

instance (a : Arena) : Decidable a.Contiguous :=
  decidable_of_iff (∀ n ∈ List.range a.size, ∀ o ∈ (a.objectOffset n).toOption,
      0 < o → a.objectOffset (n - 1) = .ok (o - 1)) <| by
    constructor
    · intro h n o ho
      exact h n (List.mem_range.mpr (lt_size_of_objectOffset ho)) o (by simp [ho, Except.toOption])
    · intro h n _ o ho
      apply h
      cases hn : a.objectOffset n <;> simp_all [Except.toOption]

/-! ### The fields of one object -/

theorem Contiguous.back (h : a.Contiguous) (ho : a.objectOffset (b + j) = .ok j) (hi : i ≤ j) :
    a.objectOffset (b + i) = .ok i := by
  induction j with
  | zero =>
    obtain rfl : i = 0 := by omega
    exact ho
  | succ j ih =>
    by_cases hij : i = j + 1
    · rw [hij, ho]
    · exact ih (h _ _ ho (by omega)) (by omega)

theorem Contiguous.first (h : a.Contiguous) (ho : a.objectOffset (b + i) = .ok i) :
    a.objectOffset b = .ok 0 :=
  h.back ho (Nat.zero_le i)

theorem lastField_step (a : Arena) (n o : Nat) : a.lastField n o =
    if a.objectOffset (n + 1) = .ok (o + 1) then a.lastField (n + 1) (o + 1) else o := by
  rw [lastField]
  split
  · rename_i hnone
    rw [if_neg]
    intro hnext
    have hlt := lt_size_of_objectOffset hnext
    have hle := get?_eq_none.mp hnone
    omega
  · rename_i next hnext
    have hiff : a.objectOffset (n + 1) = .ok (o + 1) ↔
        (next.isObject && next.offset == o + 1) = true := by
      simp [objectOffset_eq_ok, hnext]
    simp only [hiff]

/-- The last field is the same from every field of a run. -/
theorem lastField_skip (hrun : ∀ i ≤ k, a.objectOffset (b + i) = .ok i) (hi : i ≤ k) :
    a.lastField (b + i) i = a.lastField (b + k) k := by
  induction k with
  | zero =>
    obtain rfl : i = 0 := by omega
    rfl
  | succ k ih =>
    by_cases hik : i = k + 1
    · rw [hik]
    · rw [ih (fun i hi => hrun i (by omega)) (by omega), lastField_step]
      exact if_pos (hrun (k + 1) (by omega))

theorem objectOffset_lastField (h : a.objectOffset (b + o) = .ok o) :
    a.objectOffset (b + a.lastField (b + o) o) = .ok (a.lastField (b + o) o) := by
  induction hk : a.size - (b + o) using Nat.strong_induction_on generalizing o with
  | _ k ih =>
    have hlt := lt_size_of_objectOffset h
    rw [lastField_step]
    split
    · rename_i hnext
      exact ih (a.size - (b + (o + 1))) (by omega) hnext rfl
    · exact h

theorem objectSize_of_objectOffset (h : a.objectOffset n = .ok o) :
    a.objectSize n = .ok (a.lastField n o + 1) := by
  obtain ⟨node, hn, hobj, rfl⟩ := objectOffset_eq_ok.mp h
  simp [objectSize, object_eq_ok.mpr ⟨hn, hobj⟩]

theorem objectBound_of_objectOffset (h : a.objectOffset n = .ok o) :
    a.objectBound n = .ok (n - o + (a.lastField n o + 1)) := by
  simp [objectBound, h, objectSize_of_objectOffset h, bind, Except.bind, pure, Except.pure]

/-- Further fields have no origin of their own. -/
def Anonymous (a : Arena) : Prop :=
  ∀ n node, a.get? n = some node → node.offset ≠ 0 → node.origin = none

theorem Contiguous.originOf (h : a.Contiguous) (han : a.Anonymous)
    (ho : a.objectOffset (b + i) = .ok i) :
    ∃ first, a.get? b = some first ∧ a.originOf (b + i) = .ok first.origin := by
  obtain ⟨first, hfirst, _, _⟩ := objectOffset_eq_ok.mp (h.first ho)
  obtain ⟨node, hn, _, rfl⟩ := objectOffset_eq_ok.mp ho
  refine ⟨first, hfirst, ?_⟩
  cases horigin : node.origin with
  | none => exact originOf_field hn horigin hfirst
  | some v =>
    -- only the first field has an origin
    have hzero : node.offset = 0 := by
      by_contra hne
      simp [han _ node hn hne] at horigin
    rw [hzero, Nat.add_zero, hfirst, Option.some.injEq] at hn
    rw [hzero, Nat.add_zero, hn, horigin]
    exact originOf_own (hn ▸ hfirst) horigin

theorem Contiguous.agree (h : a.Contiguous) (han : a.Anonymous)
    (hi : a.objectOffset (b + i) = .ok i) (hj : a.objectOffset (b + j) = .ok j) :
    a.objectSize (b + i) = a.objectSize (b + j) ∧ a.objectBound (b + i) = a.objectBound (b + j) ∧
      a.originOf (b + i) = a.originOf (b + j) := by
  have hlast : a.lastField (b + i) i = a.lastField (b + j) j := by
    rcases Nat.le_total i j with hij | hji
    · exact lastField_skip (fun _ hk => h.back hj hk) hij
    · exact (lastField_skip (fun _ hk => h.back hi hk) hji).symm
  obtain ⟨first, hfirst, hoi⟩ := h.originOf han hi
  obtain ⟨first', hfirst', hoj⟩ := h.originOf han hj
  obtain rfl := Option.some.inj (hfirst.symm.trans hfirst')
  refine ⟨?_, ?_, hoi.trans hoj.symm⟩
  · rw [objectSize_of_objectOffset hi, objectSize_of_objectOffset hj, hlast]
  · rw [objectBound_of_objectOffset hi, objectBound_of_objectOffset hj, hlast]
    simp

/-- The object that starts at `base` is the last one, so that it may get one more
field. -/
def Last (a : Arena) (base : Nat) : Prop :=
  a.objectOffset base = .ok 0 ∧ a.objectBound base = .ok a.size

/-- An object is last exactly if the last node is its last field. -/
theorem Contiguous.last_iff (h : a.Contiguous) (hsize : b + (o + 1) = a.size) :
    a.Last b ↔ a.objectOffset (b + o) = .ok o := by
  constructor
  · intro hends
    obtain ⟨hfirst, hbound⟩ := hends
    rw [objectBound_of_objectOffset hfirst, Except.ok.injEq] at hbound
    have hlast : a.objectOffset (b + a.lastField b 0) = .ok (a.lastField b 0) :=
      objectOffset_lastField (o := 0) hfirst
    have hend : a.lastField b 0 = o := by omega
    rwa [hend] at hlast
  · intro ho
    have hskip : a.lastField b 0 = a.lastField (b + o) o :=
      lastField_skip (fun _ hk => h.back ho hk) (Nat.zero_le o)
    have hend : a.lastField (b + o) o = o := by
      rw [lastField_step, if_neg]
      intro hnext
      have hlt := lt_size_of_objectOffset hnext
      omega
    refine ⟨h.first ho, ?_⟩
    rw [objectBound_of_objectOffset (h.first ho), Except.ok.injEq]
    omega

/-! ### What an operation does to contiguity -/

/-- All nodes stay up to their links, and each added one starts something new. -/
structure Opens (a a' : Arena) : Prop extends a.Extends a' where
  fresh : ∀ n node, a'.get? n = some node → a.size ≤ n → node.offset = 0

theorem Retains.opens (h : a.Retains a') : a.Opens a' :=
  ⟨h.toExtends, fun n node hn hle => (h.added n node hn hle).2⟩

theorem Appends.opens (h : a.Appends a') : a.Opens a' := by
  rcases h with hsame | ⟨node, hpush, _, hoff⟩
  · have hget : ∀ n, a'.get? n = a.get? n := fun n => by simp [get?, hsame]
    have hrefl := (Retains.refl a).opens
    exact ⟨⟨by simpa only [hget] using hrefl.keeps, by simpa only [hget] using hrefl.starts⟩,
      by simpa only [hget] using hrefl.fresh⟩
  · refine ⟨extends_push hpush hoff, ?_⟩
    intro n node' hn hle
    rw [get?_push hpush] at hn
    split at hn
    · rwa [← Option.some.inj hn]
    · simp [get?_eq_none.mpr hle] at hn

theorem Extends.objectOffset_iff (h : a.Extends a') (hn : n < a.size) :
    a'.objectOffset n = .ok o ↔ a.objectOffset n = .ok o := by
  obtain ⟨node, hnode⟩ := get?_of_lt hn
  obtain ⟨link, hnode'⟩ := h.keeps n node hnode
  simp [objectOffset_eq_ok, hnode, hnode', MemoryNode.isObject]

theorem Opens.contiguous_iff (h : a.Opens a') : a'.Contiguous ↔ a.Contiguous := by
  constructor
  · intro hc n o ho hpos
    have hlt := lt_size_of_objectOffset ho
    rw [← h.objectOffset_iff (by omega)]
    exact hc n o ((h.objectOffset_iff hlt).mpr ho) hpos
  · intro hc n o ho hpos
    by_cases hlt : n < a.size
    · rw [h.objectOffset_iff (by omega)]
      exact hc n o ((h.objectOffset_iff hlt).mp ho) hpos
    · obtain ⟨node, hn, _, rfl⟩ := objectOffset_eq_ok.mp ho
      have hzero := h.fresh n node hn (by omega)
      omega

theorem Opens.anonymous (h : a.Opens a') (han : a.Anonymous) : a'.Anonymous := by
  intro n node hn hoff
  by_cases hlt : n < a.size
  · obtain ⟨old, link, hold, rfl⟩ := h.get?_old hlt hn
    exact han n old hold hoff
  · exact absurd (h.fresh n node hn (by omega)) hoff

/-- The arena `a'` is `a` with one more field for the object at `base`. -/
structure Gets (a a' : Arena) (base offset : Nat) : Prop where
  pos : 0 < offset
  next : base + offset = a.size
  pushed : ∃ node, a'.nodes = a.nodes.push node ∧ node.isObject = true ∧
    node.offset = offset ∧ node.origin = none

theorem createField_gets (a : Arena) (base offset : Nat) (isUnion isHeap : Bool) :
    Meets (createField base offset isUnion isHeap) a (fun _ a' => a.Gets a' base offset)
      (a = ·) :=
  meets_createField (fun _ => rfl) fun hpos hnext => ⟨hpos, hnext, _, rfl, rfl, rfl, rfl⟩

theorem Gets.objectOffset {base offset : Nat} (h : a.Gets a' base offset) (n : Nat) :
    a'.objectOffset n = if n = a.size then .ok offset else a.objectOffset n := by
  obtain ⟨node, hnodes, hobj, rfl, _⟩ := h.pushed
  by_cases hn : n = a.size
  · simp [hn, Arena.objectOffset, object, get?_push hnodes, hobj, Except.map]
  · simp [hn, Arena.objectOffset, object, get?_push hnodes]

/-- A new field goes on with what is last in the arena, whatever it was made for. -/
theorem Gets.contiguous_iff {base offset : Nat} (h : a.Gets a' base offset) :
    a'.Contiguous ↔ a.Contiguous ∧ a.Last base := by
  have hpos := h.pos
  obtain ⟨o, rfl⟩ : ∃ o, offset = o + 1 := ⟨offset - 1, by omega⟩
  have hnext := h.next
  have hbefore : a.size - 1 = base + o := by omega
  constructor
  · intro hc
    have hold : a.Contiguous := by
      intro n k hk hpos
      have hlt := lt_size_of_objectOffset hk
      have hk' := hc n k (by rw [h.objectOffset, if_neg (by omega), hk]) hpos
      rwa [h.objectOffset, if_neg (by omega)] at hk'
    -- the node before the new one has to be the field before it
    have hend := hc a.size (o + 1) (by rw [h.objectOffset, if_pos rfl]) hpos
    rw [h.objectOffset, if_neg (by omega), hbefore] at hend
    exact ⟨hold, (hold.last_iff hnext).mpr hend⟩
  · intro hboth n k hk hpos
    obtain ⟨hc, hlast⟩ := hboth
    rw [h.objectOffset] at hk
    by_cases hn : n = a.size
    · rw [if_pos hn, Except.ok.injEq] at hk
      rw [h.objectOffset, if_neg (by omega), hn, hbefore, ← hk]
      exact (hc.last_iff hnext).mp hlast
    · rw [if_neg hn] at hk
      have hlt := lt_size_of_objectOffset hk
      rw [h.objectOffset, if_neg (by omega)]
      exact hc n k hk hpos

theorem Gets.anonymous {base offset : Nat} (h : a.Gets a' base offset) (han : a.Anonymous) :
    a'.Anonymous := by
  obtain ⟨node, hnodes, _, _, horigin⟩ := h.pushed
  intro n node' hn hoff
  rw [get?_push hnodes] at hn
  split at hn
  · rwa [← Option.some.inj hn]
  · exact han n node' hn hoff

theorem perform_opens (a : Arena) {op : Operation}
    (hop : ∀ base offset isUnion isHeap, op ≠ .createField base offset isUnion isHeap) :
    a.Opens (a.perform op) := by
  cases op with
  | createValue origin => exact (createValue_appends a origin).leaves.opens
  | createObject origin isUnion isHeap =>
    exact (createObject_appends a origin isUnion isHeap).leaves.opens
  | createField base offset isUnion isHeap => exact absurd rfl (hop base offset isUnion isHeap)
  | createReturn function => exact (createReturn_appends a function).leaves.opens
  | createVariadic function => exact (createVariadic_appends a function).leaves.opens
  | valueNode p c v => exact (valueNode_retains p c a v).leaves.opens
  | merge m n => exact (merge_retains a m n).leaves.opens
  | target n => exact (target_retains a n).leaves.opens
  | aliasObject v n => exact (aliasObject_appends a v n).leaves.opens
  | taint n => exact (taint_appends a n).leaves.opens
  | clearFieldPointers | removeValue | removeObject => exact Appends.opens (.inl rfl)

/-- A field is added to the last object or not at all. -/
def InTurn (a : Arena) : Operation → Prop
  | .createField base offset isUnion isHeap =>
    (∃ n, answers (createField base offset isUnion isHeap) a = .ok n) → a.Last base
  | _ => True

theorem perform_contiguous_iff (a : Arena) (op : Operation) :
    (a.perform op).Contiguous ↔ a.Contiguous ∧ a.InTurn op := by
  cases op with
  | createField base offset isUnion isHeap =>
    have hmeets := createField_gets a base offset isUnion isHeap
    cases hans : answers (createField base offset isUnion isHeap) a with
    | ok n =>
      rw [perform, (hmeets.of_answers_ok hans).contiguous_iff]
      simp [InTurn, hans]
    | error e =>
      rw [perform, ← hmeets.of_answers_error hans rfl]
      simp [InTurn, hans]
  | _ => exact (perform_opens a (by simp)).contiguous_iff.trans (and_iff_left trivial).symm

theorem perform_anonymous (han : a.Anonymous) (op : Operation) : (a.perform op).Anonymous := by
  cases op with
  | createField base offset isUnion isHeap =>
    have hmeets : Meets (createField base offset isUnion isHeap) a (fun _ => Anonymous)
        Anonymous := by
      apply (createField_gets a base offset isUnion isHeap).mono (fun _ _ h => h.anonymous han)
      intro a' heq
      rwa [← heq]
    exact hmeets.leaves
  | _ => exact (perform_opens a (by simp)).anonymous han

/-! ### Whole histories -/

/-- Every field was added to the object that was last at that time. -/
def FieldsInTurn (history : List Operation) : Prop :=
  ∀ before op later, history = before ++ op :: later → (reached before).InTurn op

theorem fieldsInTurn_append {history : List Operation} {op : Operation} :
    FieldsInTurn (history ++ [op]) ↔ FieldsInTurn history ∧ (reached history).InTurn op := by
  constructor
  · intro h
    refine ⟨fun before op' later hsplit => ?_, h history op [] rfl⟩
    exact h before op' (later ++ [op]) (by simp [hsplit])
  · rintro ⟨h, hlast⟩ before op' later heq
    rcases snoc_eq_append_cons.mp heq with ⟨rest, hsplit, _⟩ | ⟨rfl, rfl, _⟩
    · exact h before op' rest hsplit
    · exact hlast

theorem reached_contiguous_iff (history : List Operation) :
    (reached history).Contiguous ↔ FieldsInTurn history := by
  induction history using List.reverseRecOn with
  | nil =>
    have hstart : ({} : Arena).Contiguous := by decide
    refine iff_of_true hstart ?_
    intro before op later heq
    simp at heq
  | append_singleton history op ih =>
    rw [reached_append, perform_contiguous_iff, fieldsInTurn_append, ih]

theorem reached_anonymous (history : List Operation) : (reached history).Anonymous := by
  induction history using List.reverseRecOn with
  | nil =>
    intro n node hn _
    have hlt := lt_size_of_get? hn
    have hfive : n < 5 := hlt
    interval_cases n <;> exact Option.some.inj hn ▸ rfl
  | append_singleton history op ih =>
    rw [reached_append]
    exact perform_anonymous ih op

/-- After any history, the fields of all objects are contiguous exactly if each
of them was added to the object that was last in the arena. Then all fields of
an object agree on its size, its bound and its origin. -/
theorem contiguity_exact (history : List Operation) :
    ((reached history).Contiguous ↔ FieldsInTurn history) ∧
    (FieldsInTurn history → ∀ b i j, (reached history).objectOffset (b + i) = .ok i →
      (reached history).objectOffset (b + j) = .ok j →
        (reached history).objectSize (b + i) = (reached history).objectSize (b + j) ∧
        (reached history).objectBound (b + i) = (reached history).objectBound (b + j) ∧
        (reached history).originOf (b + i) = (reached history).originOf (b + j)) := by
  have hiff := reached_contiguous_iff history
  refine ⟨hiff, ?_⟩
  intro hturn b i j hi hj
  exact (hiff.mpr hturn).agree (reached_anonymous history) hi hj

/-- An object of three fields, of which one is merged with a sentinel, and a
second object. A field for the first comes too late and is refused. -/
def packed : List Operation := [
  .createObject (some 1) false false,
  .createField 5 1 false false,
  .createField 5 2 false true,
  .merge 0 6,
  .createObject (some 2) true false,
  .createField 5 3 false false]

theorem contiguity_exact_packed : FieldsInTurn packed ∧
    (reached packed).objectSize 6 = (reached packed).objectSize 7 ∧
    (reached packed).objectSize 7 = .ok 3 ∧ (reached packed).originOf 7 = .ok (some 1) := by
  obtain ⟨hiff, hagree⟩ := contiguity_exact packed
  have hturn : FieldsInTurn packed := hiff.mp (by decide +kernel)
  obtain ⟨hsize, _, _⟩ := hagree hturn 5 1 2 (by decide +kernel) (by decide +kernel)
  exact ⟨hturn, hsize, by decide +kernel, by decide +kernel⟩

/-- A second object follows the first, and then comes a field for the first. -/
def strayed : List Operation := [
  .createObject (some 1) false false,
  .createObject (some 2) false false,
  .createField 5 2 false false]

/-- The field that strayed is node 7. It takes the two objects before it for one
of three fields. -/
theorem strayed_not_contiguous : ¬ (reached strayed).Contiguous ∧
    (reached strayed).objectOffset 7 = .ok 2 ∧ (reached strayed).objectOffset 6 = .ok 0 ∧
    (reached strayed).objectSize 7 = .ok 3 ∧ (reached strayed).objectSize 5 = .ok 1 := by
  decide +kernel

end Arena

end AbstractMemory
