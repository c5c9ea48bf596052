import AbstractMemory.Proofs.Arranging
import Mathlib

/-! Merged nodes form a forest. The links from a node lead to a root, which is
its representative. Compressing a path leaves every node its root, and merging
moves the nodes of one root to another. -/

namespace AbstractMemory

open Steps

namespace Arena

variable {a a' a'' : Arena} {n r s x t k l : Nat}

/-- Following `k` links from `n` ends at the root `r`. -/
inductive Leads (a : Arena) : Nat → Nat → Nat → Prop
  | root {r : Nat} {node : MemoryNode} (h : a.get? r = some node) (hl : node.link = r) :
      Leads a r r 0
  | step {n r k : Nat} {node : MemoryNode} (h : a.get? n = some node) (hl : node.link ≠ n)
      (hnext : Leads a node.link r k) : Leads a n r (k + 1)

namespace Leads

theorem get? (h : a.Leads n r k) : ∃ node, a.get? n = some node := by
  cases h with
  | root h _ => exact ⟨_, h⟩
  | step h _ _ => exact ⟨_, h⟩

theorem lt_size (h : a.Leads n r k) : n < a.size := by
  obtain ⟨node, hn⟩ := h.get?
  exact lt_size_of_get? hn

theorem atRoot (h : a.Leads n r k) : a.Leads r r 0 := by
  induction h with
  | root h hl => exact .root h hl
  | step _ _ _ ih => exact ih

theorem unique (h : a.Leads n r k) (h' : a.Leads n s l) : r = s ∧ k = l := by
  induction h generalizing s l with
  | root h hl =>
    cases h' with
    | root _ _ => exact ⟨rfl, rfl⟩
    | step h₁ hl₁ _ =>
      rw [h] at h₁
      cases h₁
      exact absurd hl hl₁
  | step h hl _ ih =>
    cases h' with
    | root h₁ hl₁ =>
      rw [h] at h₁
      cases h₁
      exact absurd hl₁ hl
    | step h₁ _ hnext₁ =>
      rw [h] at h₁
      cases h₁
      have hrest := ih hnext₁
      omega

theorem ne_of_pos (h : a.Leads n r (k + 1)) (hs : a.Leads s s 0) : n ≠ s := by
  rintro rfl
  have hk := (h.unique hs).2
  omega

/-- The walk to the representative meets no node twice, since the number of
links that are left gets smaller. -/
theorem chase (h : a.Leads n r k) (seen : List Nat)
    (hseen : ∀ m ∈ seen, ∃ s j, k < j ∧ a.Leads m s j) :
    (a.chase seen n).2 = r ∧ ∀ m ∈ (a.chase seen n).1, ∃ j, a.Leads m r (j + 1) := by
  induction h generalizing seen with
  | root h hl =>
    rw [Arena.chase]
    split
    · simp
    · rename_i node hn
      rw [h] at hn
      cases hn
      simp [hl]
  | @step n r k node h hl hnext ih =>
    have hn : n ∉ seen := by
      intro hmem
      obtain ⟨s, j, hlt, hj⟩ := hseen n hmem
      have hk := ((Leads.step h hl hnext).unique hj).2
      omega
    have hrest : ∀ m ∈ n :: seen, ∃ s j, k < j ∧ a.Leads m s j := by
      intro m hm
      rcases List.mem_cons.mp hm with rfl | hm
      · exact ⟨r, k + 1, by omega, .step h hl hnext⟩
      · obtain ⟨s, j, hlt, hj⟩ := hseen m hm
        exact ⟨s, j, by omega, hj⟩
    obtain ⟨hroot, htrail⟩ := ih (n :: seen) hrest
    rw [Arena.chase]
    split
    · rename_i hnone
      rw [h] at hnone
      cases hnone
    · rename_i node' hn'
      rw [h] at hn'
      cases hn'
      rw [dif_neg (by simp [hl, hn])]
      refine ⟨hroot, ?_⟩
      intro m hm
      rcases List.mem_cons.mp hm with rfl | hm
      · exact ⟨k, .step h hl hnext⟩
      · exact htrail m hm

theorem representative (h : a.Leads n r k) : a.representative n = .ok r := by
  obtain ⟨node, hn⟩ := h.get?
  obtain ⟨hroot, _⟩ := h.chase [] (by simp)
  simp [Arena.representative, hn, hroot]

/-- Linking a node to its own root. -/
theorem compress (h : a.Leads n r k) (hx : a.Leads x t (l + 1)) :
    ∃ j, (a.setLink x t).Leads n r j := by
  have hroot : ∀ {s node}, a.get? s = some node → node.link = s →
      (a.setLink x t).Leads s s 0 := by
    intro s node hs hl
    have hne := hx.ne_of_pos (.root hs hl)
    have hkept : (a.setLink x t).get? s = some node := by simp [get?_setLink, hs, hne]
    exact .root hkept hl
  induction h with
  | root h hl => exact ⟨0, hroot h hl⟩
  | @step n r k node h hl hnext ih =>
    by_cases hnx : x = n
    · subst hnx
      obtain ⟨rfl, _⟩ := hx.unique (.step h hl hnext)
      have hne := hx.ne_of_pos hx.atRoot
      have hlinked : (a.setLink x t).get? x = some { node with link := t } := by
        simp [get?_setLink, h]
      cases hx.atRoot with
      | root ht hlt => exact ⟨1, .step hlinked hne.symm (hroot ht hlt)⟩
    · obtain ⟨j, hj⟩ := ih
      have hkept : (a.setLink x t).get? n = some node := by simp [get?_setLink, h, hnx]
      exact ⟨j + 1, .step hkept hl hj⟩

/-- Linking a root to another one. -/
theorem attach (h : a.Leads n r k) (hx : a.Leads x x 0) (ht : a.Leads t t 0) (hne : t ≠ x) :
    ∃ j, (a.setLink x t).Leads n (if r = x then t else r) j := by
  have hroot : ∀ {s node}, a.get? s = some node → node.link = s → x ≠ s →
      (a.setLink x t).Leads s s 0 := by
    intro s node hs hl hxs
    have hkept : (a.setLink x t).get? s = some node := by simp [get?_setLink, hs, hxs]
    exact .root hkept hl
  induction h with
  | @root r node h hl =>
    by_cases hrx : r = x
    · subst hrx
      have hlinked : (a.setLink r t).get? r = some { node with link := t } := by
        simp [get?_setLink, h]
      rw [if_pos rfl]
      cases ht with
      | root ht hlt => exact ⟨1, .step hlinked hne (hroot ht hlt hne.symm)⟩
    · rw [if_neg hrx]
      exact ⟨0, hroot h hl fun he => hrx he.symm⟩
  | @step n r k node h hl hnext ih =>
    have hnx : x ≠ n := ((Leads.step h hl hnext).ne_of_pos hx).symm
    obtain ⟨j, hj⟩ := ih
    have hkept : (a.setLink x t).get? n = some node := by simp [get?_setLink, h, hnx]
    exact ⟨j + 1, .step hkept hl hj⟩

end Leads

/-- From every node the links lead to a root, and the sentinels are roots. -/
structure Forest (a : Arena) : Prop where
  rooted : ∀ n, n < a.size → ∃ r k, a.Leads n r k
  sentinel : ∀ n, isSentinel n = true → a.Leads n n 0

theorem representative_of_size_le (h : a.size ≤ n) :
    a.representative n = .error (.unknownNode n) := by
  simp [representative, get?_eq_none.mpr h]

theorem Forest.representative_eq_ok (h : a.Forest) :
    a.representative n = .ok r ↔ ∃ k, a.Leads n r k := by
  constructor
  · intro hr
    rcases Nat.lt_or_ge n a.size with hlt | hge
    · obtain ⟨s, k, hs⟩ := h.rooted n hlt
      rw [hs.representative] at hr
      exact ⟨k, Except.ok.inj hr ▸ hs⟩
    · rw [representative_of_size_le hge] at hr
      cases hr
  · rintro ⟨k, hk⟩
    exact hk.representative

theorem Forest.exists_representative (h : a.Forest) (hn : n < a.size) :
    ∃ r, a.representative n = .ok r ∧ a.Leads r r 0 := by
  obtain ⟨r, k, hr⟩ := h.rooted n hn
  exact ⟨r, hr.representative, hr.atRoot⟩

/-- No node gets another root, and the nodes added are roots. -/
structure Upholds (a a' : Arena) : Prop where
  leads : ∀ n r k, a.Leads n r k → ∃ l, a'.Leads n r l
  added : ∀ n, a.size ≤ n → n < a'.size → a'.Leads n n 0

namespace Upholds

theorem refl (a : Arena) : a.Upholds a :=
  ⟨fun _ _ k h => ⟨k, h⟩, fun n hle hlt => by omega⟩

theorem atRoot (h : a.Upholds a') (hr : a.Leads r r 0) : a'.Leads r r 0 := by
  obtain ⟨l, hl⟩ := h.leads r r 0 hr
  exact hl.atRoot

theorem trans (h : a.Upholds a') (h' : a'.Upholds a'') : a.Upholds a'' where
  leads := by
    intro n r k hr
    obtain ⟨l, hl⟩ := h.leads n r k hr
    exact h'.leads n r l hl
  added := by
    intro n hle hlt
    rcases Nat.lt_or_ge n a'.size with hlt' | hge
    · exact h'.atRoot (h.added n hle hlt')
    · exact h'.added n hge hlt

theorem forest (h : a.Upholds a') (hf : a.Forest) : a'.Forest where
  rooted := by
    intro n hn
    rcases Nat.lt_or_ge n a.size with hlt | hge
    · obtain ⟨r, k, hr⟩ := hf.rooted n hlt
      obtain ⟨l, hl⟩ := h.leads n r k hr
      exact ⟨r, l, hl⟩
    · exact ⟨n, 0, h.added n hge hn⟩
  sentinel := fun n hn => h.atRoot (hf.sentinel n hn)

theorem representative_old (h : a.Upholds a') (hf : a.Forest) (hn : n < a.size) :
    a'.representative n = a.representative n := by
  obtain ⟨r, k, hr⟩ := hf.rooted n hn
  obtain ⟨l, hl⟩ := h.leads n r k hr
  rw [hl.representative, hr.representative]

theorem representative_eq (h : a.Upholds a') (hf : a.Forest) (hsize : a'.size = a.size) :
    a'.representative = a.representative := by
  funext n
  rcases Nat.lt_or_ge n a.size with hlt | hge
  · exact h.representative_old hf hlt
  · rw [representative_of_size_le hge, representative_of_size_le (hsize ▸ hge)]

theorem representative_added (h : a.Upholds a') (hn : a.size ≤ n) :
    a'.representative n = .ok n ∨ a'.representative n = .error (.unknownNode n) := by
  rcases Nat.lt_or_ge n a'.size with hlt | hge
  · exact .inl (h.added n hn hlt).representative
  · exact .inr (representative_of_size_le hge)

/-- Which nodes share a representative does not change. -/
theorem representative_eq_iff (h : a.Upholds a') (hf : a.Forest) (m n : Nat) :
    a'.representative m = a'.representative n ↔ a.representative m = a.representative n := by
  -- an old node shares nothing with a node that was not there
  have hapart : ∀ m n, m < a.size → a.size ≤ n →
      a'.representative m ≠ a'.representative n ∧ a.representative m ≠ a.representative n := by
    intro m n hm hn
    obtain ⟨r, hr, hroot⟩ := hf.exists_representative hm
    have hlt := hroot.lt_size
    rw [h.representative_old hf hm, hr, representative_of_size_le hn]
    refine ⟨?_, by simp⟩
    rcases h.representative_added hn with hn' | hn'
    · rw [hn', ne_eq, Except.ok.injEq]
      omega
    · simp [hn']
  rcases Nat.lt_or_ge m a.size with hm | hm <;> rcases Nat.lt_or_ge n a.size with hn | hn
  · rw [h.representative_old hf hm, h.representative_old hf hn]
  · obtain ⟨hne, hne'⟩ := hapart m n hm hn
    simp [hne, hne']
  · obtain ⟨hne, hne'⟩ := hapart n m hn hm
    simp [hne.symm, hne'.symm]
  · rw [representative_of_size_le hm, representative_of_size_le hn]
    by_cases hmn : m = n
    · simp [hmn]
    · rcases h.representative_added hm with hm' | hm' <;>
        rcases h.representative_added hn with hn' | hn' <;> simp [hm', hn', hmn]

end Upholds

theorem upholds_of_nodes (h : a'.nodes = a.nodes) : a.Upholds a' := by
  have hget : ∀ n, a'.get? n = a.get? n := fun n => by simp [get?, h]
  have hsize : a'.size = a.size := by simp [size, h]
  refine ⟨?_, fun n hle hlt => by omega⟩
  intro n r k hr
  refine ⟨k, ?_⟩
  induction hr with
  | root h hl => exact .root ((hget _).trans h) hl
  | step h hl _ ih => exact .step ((hget _).trans h) hl ih

theorem upholds_push {node : MemoryNode} (h : a'.nodes = a.nodes.push node)
    (hlink : node.link = a.size) : a.Upholds a' := by
  have hkept : ∀ n old, a.get? n = some old → a'.get? n = some old := by
    intro n old hn
    have hlt := lt_size_of_get? hn
    rw [get?_push h, if_neg (by omega), hn]
  constructor
  · intro n r k hr
    refine ⟨k, ?_⟩
    induction hr with
    | root h hl => exact .root (hkept _ _ h) hl
    | step h hl _ ih => exact .step (hkept _ _ h) hl ih
  · intro n hle hlt
    rw [size_push h] at hlt
    obtain rfl : n = a.size := by omega
    exact .root ((get?_push h _).trans (if_pos rfl)) hlink

/-! ### Steps that merge nothing -/

/-- At most one node is added. It is its own root and no further field. -/
def Appends (a a' : Arena) : Prop :=
  a'.nodes = a.nodes ∨
    ∃ node, a'.nodes = a.nodes.push node ∧ node.link = a.size ∧ node.offset = 0

theorem Appends.upholds (h : a.Appends a') : a.Upholds a' := by
  rcases h with hsame | ⟨node, hpush, hlink, _⟩
  · exact upholds_of_nodes hsame
  · exact upholds_push hpush hlink

theorem createValue_appends (a : Arena) (origin : Option Nat) :
    Meets (createValue origin) a (fun _ => a.Appends) a.Appends := by
  cases origin with
  | none => exact .inr ⟨_, rfl, rfl, rfl⟩
  | some v => exact meets_createValue (fun _ => .inl rfl) fun _ => .inr ⟨_, rfl, rfl, rfl⟩

theorem createObject_appends (a : Arena) (origin : Option Nat) (isUnion isHeap : Bool) :
    Meets (createObject origin isUnion isHeap) a (fun _ => a.Appends) a.Appends := by
  cases origin with
  | none => exact .inr ⟨_, rfl, rfl, rfl⟩
  | some v => exact meets_createObject (fun _ _ => .inl rfl) fun _ => .inr ⟨_, rfl, rfl, rfl⟩

theorem createReturn_appends (a : Arena) (function : Nat) :
    Meets (createReturn function) a (fun _ => a.Appends) a.Appends :=
  meets_createReturn (fun _ => .inl rfl) fun _ => .inr ⟨_, rfl, rfl, rfl⟩

theorem createVariadic_appends (a : Arena) (function : Nat) :
    Meets (createVariadic function) a (fun _ => a.Appends) a.Appends :=
  meets_createVariadic (fun _ => .inl rfl) fun _ => .inr ⟨_, rfl, rfl, rfl⟩

theorem aliasObject_appends (a : Arena) (v n : Nat) :
    Meets (aliasObject v n) a (fun _ => a.Appends) a.Appends :=
  meets_aliasObject (fun _ => .inl rfl) (.inl rfl)

theorem taint_appends (a : Arena) (n : Nat) :
    Meets (taint n) a (fun _ => a.Appends) a.Appends := by
  unfold taint
  refine Meets.bind (meets_ask (fun _ _ => rfl) (fun _ _ => .inl rfl)
    : Meets _ a (fun _ a₁ => a = a₁) a.Appends) ?_
  rintro node _ rfl
  split <;> exact .inl rfl

theorem createField_upholds (a : Arena) (base offset : Nat) (isUnion isHeap : Bool) :
    Meets (createField base offset isUnion isHeap) a (fun _ => a.Upholds) a.Upholds :=
  meets_createField (fun _ => Upholds.refl a) fun _ _ => upholds_push rfl rfl

theorem fieldPointer_upholds (a : Arena) (v base field : Nat) :
    Meets (fieldPointer v base field) a (fun _ => a.Upholds) a.Upholds :=
  meets_fieldPointer (fun _ _ => Upholds.refl a) (fun _ _ _ => upholds_of_nodes rfl)
    fun _ _ => upholds_push rfl rfl

theorem valueNode_upholds (p : Program) (c : Catalog) (a : Arena) (v : Nat) :
    Meets (valueNode p c v) a (fun _ => a.Upholds) a.Upholds :=
  valueNode_moves Upholds.refl (fun _ _ _ => Upholds.trans) fieldPointer_upholds p c a v

/-! ### Compressing and merging -/

theorem size_setLink (a : Arena) (n target : Nat) : (a.setLink n target).size = a.size := by
  simp [setLink, size]

theorem setLink_upholds (hx : a.Leads x t (l + 1)) : a.Upholds (a.setLink x t) := by
  refine ⟨fun n r k h => h.compress hx, ?_⟩
  intro n hle hlt
  rw [size_setLink] at hlt
  omega

/-- Compressing a path keeps the roots: no node on it is one, and all have the
same. -/
theorem compress_upholds {trail : List Nat} (htrail : ∀ m ∈ trail, ∃ j, a.Leads m r (j + 1)) :
    a.Upholds (trail.foldl (fun a m => a.setLink m r) a) ∧
      (trail.foldl (fun a m => a.setLink m r) a).size = a.size := by
  induction trail generalizing a with
  | nil => exact ⟨Upholds.refl a, rfl⟩
  | cons m rest ih =>
    obtain ⟨j, hm⟩ := htrail m (List.mem_cons_self ..)
    have hstep := setLink_upholds hm
    -- what still leads to the root does not become one
    have hrest : ∀ n ∈ rest, ∃ j, (a.setLink m r).Leads n r (j + 1) := by
      intro n hn
      obtain ⟨i, hi⟩ := htrail n (List.mem_cons_of_mem m hn)
      obtain ⟨l, hl⟩ := hstep.leads n r _ hi
      have hne := hi.ne_of_pos hi.atRoot
      cases hl with
      | root => exact absurd rfl hne
      | step h hlink hnext => exact ⟨_, .step h hlink hnext⟩
    obtain ⟨hup, hsize⟩ := ih hrest
    exact ⟨hstep.trans hup, hsize.trans (size_setLink a m r)⟩

theorem target_meets (hf : a.Forest) (n : Nat) :
    Meets (target n) a
      (fun r a' => a.representative n = .ok r ∧ a.Upholds a' ∧ a'.size = a.size)
      (fun a' => a' = a ∧ a.size ≤ n) := by
  unfold target
  rw [meets_get_bind]
  refine Meets.bind (meets_ask (fun r hr => ⟨hr, rfl⟩) ?_
    : Meets _ a (fun r a₁ => a.representative n = .ok r ∧ a = a₁) _) ?_
  · intro e he
    refine ⟨rfl, ?_⟩
    by_contra hlt
    obtain ⟨r, hr, _⟩ := hf.exists_representative (show n < a.size by omega)
    rw [hr] at he
    cases he
  · rintro r _ ⟨hr, rfl⟩
    obtain ⟨k, hk⟩ := hf.representative_eq_ok.mp hr
    obtain ⟨_, htrail⟩ := hk.chase [] (by simp)
    exact ⟨hr, compress_upholds htrail⟩

/-- Linking one root to another moves exactly the nodes of the first. -/
theorem attach_representative (hf : a.Forest) (hx : a.Leads x x 0) (ht : a.Leads t t 0)
    (hne : t ≠ x) (n : Nat) : (a.setLink x t).representative n =
      if a.representative n = .ok x then .ok t else a.representative n := by
  rcases Nat.lt_or_ge n a.size with hlt | hge
  · obtain ⟨r, k, hr⟩ := hf.rooted n hlt
    obtain ⟨j, hj⟩ := hr.attach hx ht hne
    rw [hj.representative, hr.representative]
    by_cases hrx : r = x <;> simp [hrx]
  · have hge' : (a.setLink x t).size ≤ n := (size_setLink a x t).trans_le hge
    rw [representative_of_size_le hge, representative_of_size_le hge']
    simp

theorem attach_forest (hf : a.Forest) (hx : a.Leads x x 0) (ht : a.Leads t t 0) (hne : t ≠ x)
    (hs : isSentinel x = false) : (a.setLink x t).Forest where
  rooted := by
    intro n hn
    rw [size_setLink] at hn
    obtain ⟨r, k, hr⟩ := hf.rooted n hn
    obtain ⟨j, hj⟩ := hr.attach hx ht hne
    exact ⟨_, j, hj⟩
  sentinel := by
    intro n hn
    have hnx : n ≠ x := by
      rintro rfl
      rw [hs] at hn
      cases hn
    obtain ⟨j, hj⟩ := (hf.sentinel n hn).attach hx ht hne
    rw [if_neg hnx] at hj
    exact hj.atRoot

/-- The classes of two nodes may be merged: they are one already, or the second
one has no sentinel. -/
def Mergeable (a : Arena) (m n : Nat) : Prop :=
  ∃ r s, a.representative m = .ok r ∧ a.representative n = .ok s ∧ (r = s ∨ isSentinel s = false)

theorem merge_meets (hf : a.Forest) (m n : Nat) :
    Meets (merge m n) a
      (fun _ a' => a.Mergeable m n ∧ a'.Forest ∧ a'.size = a.size ∧ ∀ x, a'.representative x =
        if a.representative x = a.representative n then a.representative m
        else a.representative x)
      (fun a' => ¬ a.Mergeable m n ∧ a'.Forest ∧ a'.size = a.size ∧
        a'.representative = a.representative) := by
  have hunknown : ∀ u, a.size ≤ u → u = m ∨ u = n → ¬ a.Mergeable m n := by
    rintro u hle hu ⟨r, s, hr, hs, _⟩
    rcases hu with rfl | rfl
    · simp [representative_of_size_le hle] at hr
    · simp [representative_of_size_le hle] at hs
  unfold merge
  refine Meets.bind ((target_meets hf m).mono (fun _ _ h => h) ?_) ?_
  · rintro _ ⟨rfl, hle⟩
    exact ⟨hunknown m hle (.inl rfl), hf, rfl, rfl⟩
  rintro r a₁ ⟨hr, hup₁, hsize₁⟩
  have hf₁ := hup₁.forest hf
  have hrep₁ := hup₁.representative_eq hf hsize₁
  refine Meets.bind ((target_meets hf₁ n).mono (fun _ _ h => h) ?_) ?_
  · rintro _ ⟨rfl, hle⟩
    exact ⟨hunknown n (hsize₁ ▸ hle) (.inr rfl), hf₁, hsize₁, hrep₁⟩
  rintro s a₂ ⟨hs, hup₂, hsize₂⟩
  have hf₂ := hup₂.forest hf₁
  have hrep₂ := (hup₂.representative_eq hf₁ hsize₂).trans hrep₁
  have hsize := hsize₂.trans hsize₁
  rw [hrep₁] at hs
  split
  · rename_i heq
    subst heq
    refine ⟨⟨r, r, hr, hs, .inl rfl⟩, hf₂, hsize, ?_⟩
    intro x
    rw [hrep₂, hr, hs]
    split
    · assumption
    · rfl
  · rename_i hne
    split
    · rename_i hsentinel
      refine ⟨?_, hf₂, hsize, hrep₂⟩
      rintro ⟨r', s', hr', hs', hor⟩
      obtain rfl := Except.ok.inj (hr.symm.trans hr')
      obtain rfl := Except.ok.inj (hs.symm.trans hs')
      rcases hor with heq | hplain
      · exact hne heq
      · simp [hsentinel] at hplain
    · rename_i hplain
      rw [Bool.not_eq_true] at hplain
      rw [← hrep₂] at hr hs
      obtain ⟨_, hk⟩ := hf₂.representative_eq_ok.mp hr
      obtain ⟨_, hl⟩ := hf₂.representative_eq_ok.mp hs
      have hmerged := attach_representative hf₂ hl.atRoot hk.atRoot hne
      rw [hrep₂] at hr hs hmerged
      refine ⟨⟨r, s, hr, hs, .inr hplain⟩, attach_forest hf₂ hl.atRoot hk.atRoot hne hplain,
        (size_setLink a₂ s r).trans hsize, ?_⟩
      intro x
      rw [hr, hs]
      exact hmerged x

end Arena

end AbstractMemory
