import AbstractMemory.Proofs.ByValue
import AbstractMemory.Proofs.Steps
import Mathlib

/-! Recursions over the types of a program. Those that remember the way down give up
on a type that they meet again on it. With nothing remembered they would not come
back from there: to whatever depth they are followed, they still ask below it. -/

namespace AbstractMemory

namespace Descent

variable {α : Type} {stuck : α} {n : Nat} {step : (Nat → α) → Nat → α}
  {guarded : List Nat → Nat → α}

/-- An answer that is not given up on is the other one too. -/
def Below (stuck x y : α) : Prop :=
  x = stuck ∨ x = y

theorem Below.eq {x y : α} (h : Below stuck x y) (hx : x ≠ stuck) : x = y :=
  h.resolve_left hx

/-- A recursion that remembers the way down, and the step that it repeats. Types from
`n` on have nothing below them. -/
structure Guards (stuck : α) (n : Nat) (step : (Nat → α) → Nat → α)
    (guarded : List Nat → Nat → α) : Prop where
  mono : ∀ g g' t, (∀ u, Below stuck (g u) (g' u)) → Below stuck (step g t) (step g' t)
  flat : ∀ g g' t, n ≤ t → step g t = step g' t
  first : ∀ path t, t ∉ path → guarded path t = step (guarded (t :: path)) t
  again : ∀ path t, t ∈ path → guarded path t = stuck ∨ ∀ g, guarded path t = step g t

/-- What is reached within a depth does not depend on what is below it. -/
theorem Guards.below_floor (h : Guards stuck n step guarded) (d : Nat) (g : Nat → α) (t : Nat) :
    Below stuck (step^[d] (fun _ => stuck) t) (step^[d] g t) := by
  induction d generalizing t with
  | zero => exact .inl rfl
  | succ d ih =>
    rw [Function.iterate_succ_apply', Function.iterate_succ_apply']
    exact h.mono _ _ t ih

theorem Guards.below_succ (h : Guards stuck n step guarded) (d t : Nat) :
    Below stuck (step^[d] (fun _ => stuck) t) (step^[d + 1] (fun _ => stuck) t) :=
  h.below_floor d (step fun _ => stuck) t

theorem Guards.below_unrolled (h : Guards stuck n step guarded) (g : Nat → α)
    {path : List Nat} {d : Nat} (hd : unseen n path < d) (t : Nat) :
    Below stuck (guarded path t) (step^[d] g t) := by
  induction d generalizing path t with
  | zero => omega
  | succ d ih =>
    rw [Function.iterate_succ_apply']
    by_cases hp : t ∈ path
    · exact (h.again path t hp).imp id fun hstep => hstep _
    · rw [h.first path t hp]
      by_cases ht : n ≤ t
      · exact .inr (h.flat _ _ t ht)
      · refine h.mono _ _ t (ih ?_)
        have := unseen_cons_lt (Nat.lt_of_not_le ht) hp
        omega

/-- What is reached within a depth is reached with the way down remembered, if all
that is remembered is deeper. -/
theorem Guards.unrolled_below (h : Guards stuck n step guarded) {path : List Nat} {d : Nat}
    (hpath : ∀ x ∈ path, step^[d] (fun _ => stuck) x = stuck) (t : Nat) :
    Below stuck (step^[d] (fun _ => stuck) t) (guarded path t) := by
  induction d generalizing path t with
  | zero => exact .inl rfl
  | succ d ih =>
    by_cases hdeep : step^[d + 1] (fun _ => stuck) t = stuck
    · exact .inl hdeep
    · have hfewer : ∀ x, step^[d + 1] (fun _ => stuck) x = stuck →
          step^[d] (fun _ => stuck) x = stuck :=
        fun x hx => (h.below_succ d x).elim id fun heq => heq.trans hx
      by_cases ht : step^[d] (fun _ => stuck) t = stuck
      · -- `t` needs its whole depth, so what it asks below comes back earlier
        have hp : t ∉ path := fun hp => hdeep (hpath t hp)
        rw [h.first path t hp, Function.iterate_succ_apply']
        refine h.mono _ _ t (ih (List.forall_mem_cons.mpr ⟨ht, fun x hx => ?_⟩))
        exact hfewer x (hpath x hx)
      · rw [← (h.below_succ d t).eq ht]
        exact ih (fun x hx => hfewer x (hpath x hx)) t

/-- Remembering the way down and following the recursion to a depth give the same. -/
theorem Guards.eq_unrolled (h : Guards stuck n step guarded) {d : Nat} (hd : n < d) (t : Nat) :
    guarded [] t = step^[d] (fun _ => stuck) t := by
  have hle : unseen n [] < d := by simpa [unseen] using hd
  rcases h.below_unrolled (fun _ => stuck) hle t with hstuck | heq
  · have hback : Below stuck (step^[d] (fun _ => stuck) t) (guarded [] t) :=
      h.unrolled_below (by simp) t
    exact hback.elim (fun hback => hstuck.trans hback.symm) Eq.symm
  · exact heq

/-- A type is given up on exactly if the recursion asks below every depth. -/
theorem Guards.eq_stuck_iff (h : Guards stuck n step guarded) {t : Nat} :
    guarded [] t = stuck ↔ ∀ d, step^[d] (fun _ => stuck) t = stuck := by
  refine ⟨fun hstuck d => ?_, fun hall => (h.eq_unrolled (Nat.lt_succ_self n) t).trans (hall _)⟩
  exact (h.unrolled_below (by simp) t).elim id fun heq => heq.trans hstuck

end Descent

open Descent Steps

theorem mapM_below {ε β γ : Type} {e : ε} {g g' : β → Except ε γ} {l : List β}
    (h : ∀ u, Below (.error e) (g u) (g' u)) : Below (.error e) (l.mapM g) (l.mapM g') := by
  induction l with
  | nil => exact .inr rfl
  | cons u rest ih =>
    rw [List.mapM_cons, List.mapM_cons]
    rcases h u with hu | hu
    · exact .inl (by rw [hu]; rfl)
    · rw [← hu]
      cases g u with
      | error e' => exact .inr rfl
      | ok b =>
        rcases ih with hrest | hrest
        · exact .inl (by rw [hrest]; rfl)
        · exact .inr (by rw [hrest])

namespace TypeTable

variable {types : TypeTable}

/-- One type written down, with the texts of its parts given. -/
def textStep (types : TypeTable) (inner : Nat → Except ProgramError String) (t : Nat) :
    Except ProgramError String :=
  match types.get? t with
  | none => .ok (typeText t)
  | some ty => (ty.writtenParts.mapM inner).map ty.text

theorem textFrom_eq (path : List Nat) (t : Nat) :
    types.textFrom path t =
      if t ∈ path ∧ (types.get? t).isSome then .error (.halted .endless)
      else types.textStep (types.textFrom (t :: path)) t := by
  rw [textFrom, textStep]
  split
  · rename_i hget
    simp [hget]
  · rename_i ty hget
    by_cases hp : t ∈ path
    · rw [dif_pos hp, if_pos ⟨hp, by simp [hget]⟩]
    · rw [dif_neg hp, if_neg fun hboth => hp hboth.1]
      simp only [hget]
      cases (ty.writtenParts.mapM fun u => types.textFrom (t :: path) u) <;> rfl

theorem text_guards (types : TypeTable) :
    Guards (.error (.halted .endless)) types.size types.textStep types.textFrom where
  mono := by
    intro g g' t h
    unfold textStep
    split
    · exact .inr rfl
    · rcases mapM_below h with hparts | hparts
      · exact .inl (by rw [hparts]; rfl)
      · exact .inr (by rw [hparts])
  flat := by
    intro g g' t ht
    have hget : types.get? t = none := by
      cases hget : types.get? t with
      | none => rfl
      | some ty => exact absurd (lt_size_of_get? hget) (Nat.not_lt.mpr ht)
    simp only [textStep, hget]
  first := by
    intro path t hp
    rw [textFrom_eq, if_neg fun hboth => hp hboth.1]
  again := by
    intro path t hp
    rw [textFrom_eq]
    cases hget : types.get? t with
    | none => exact .inr fun g => by simp [textStep, hget]
    | some ty => exact .inl (by simp [hp])

/-- What a text is written with. -/
def Writes (types : TypeTable) (t u : Nat) : Prop :=
  ∃ ty, types.get? t = some ty ∧ u ∈ ty.writtenParts

/-- The text of a type comes to a type that is written inside itself. -/
def Endless (types : TypeTable) (t : Nat) : Prop :=
  ∃ u, Relation.ReflTransGen types.Writes t u ∧ Relation.TransGen types.Writes u u

/-- A text fails only because it does not end. -/
theorem textFrom_eq_error {path : List Nat} {t : Nat} {e : ProgramError}
    (hpath : ∀ x ∈ path, Relation.TransGen types.Writes x t)
    (h : types.textFrom path t = .error e) : e = .halted .endless ∧ types.Endless t := by
  induction hn : unseen types.size path using Nat.strong_induction_on generalizing path t with
  | _ n ih =>
    rw [textFrom_eq] at h
    split at h
    · rename_i hboth
      cases h
      exact ⟨rfl, t, .refl, hpath t hboth.1⟩
    · rename_i hnot
      unfold textStep at h
      split at h
      · cases h
      · rename_i ty hget
        have hp : t ∉ path := fun hp => hnot ⟨hp, by simp [hget]⟩
        cases hparts : ty.writtenParts.mapM (types.textFrom (t :: path)) with
        | ok parts =>
          rw [hparts] at h
          cases h
        | error e' =>
          rw [hparts] at h
          cases h
          obtain ⟨v, hv, he⟩ := exists_mem_of_mapM_error hparts
          have hstep : types.Writes t v := ⟨ty, hget, hv⟩
          have hlt := unseen_cons_lt (lt_size_of_get? hget) hp
          obtain ⟨rfl, u, hvu, huu⟩ := ih _ (hn ▸ hlt) (List.forall_mem_cons.mpr
            ⟨.single hstep, fun x hx => (hpath x hx).tail hstep⟩) he rfl
          exact ⟨rfl, u, .head hstep hvu, huu⟩

theorem acc_of_textFrom {path : List Nat} {t : Nat} {text : String}
    (h : types.textFrom path t = .ok text) : Acc (fun u t => types.Writes t u) t := by
  induction hn : unseen types.size path using Nat.strong_induction_on
    generalizing path t text with
  | _ n ih =>
    refine Acc.intro t fun v hstep => ?_
    obtain ⟨ty, hget, hv⟩ := hstep
    rw [textFrom_eq] at h
    split at h
    · cases h
    · rename_i hnot
      have hp : t ∉ path := fun hp => hnot ⟨hp, by simp [hget]⟩
      simp only [textStep, hget] at h
      cases hparts : ty.writtenParts.mapM (types.textFrom (t :: path)) with
      | error e =>
        rw [hparts] at h
        cases h
      | ok parts =>
        obtain ⟨part, _, hpart⟩ := exists_mem_of_mapM hparts hv
        exact ih _ (hn ▸ unseen_cons_lt (lt_size_of_get? hget) hp) hpart rfl

theorem not_writes_itself {t : Nat} (h : Acc (fun u t => types.Writes t u) t) {u : Nat}
    (htu : Relation.ReflTransGen types.Writes t u) : ¬ Relation.TransGen types.Writes u u := by
  induction h with
  | intro t _ ih =>
    intro huu
    obtain ⟨v, hstep, hvu⟩ : ∃ v, types.Writes t v ∧ Relation.ReflTransGen types.Writes v u := by
      rcases htu.cases_head with rfl | hnext
      · exact Relation.TransGen.head'_iff.mp huu
      · exact hnext
    exact ih v hstep hvu huu

theorem text_eq_error {t : Nat} {e : ProgramError} (h : types.text t = .error e) :
    e = .halted .endless ∧ types.Endless t :=
  textFrom_eq_error (by simp) h

/-- There is a text for a type exactly if no type is written inside itself. -/
theorem exists_text_iff {t : Nat} : (∃ text, types.text t = .ok text) ↔ ¬ types.Endless t := by
  constructor
  · rintro ⟨text, h⟩ ⟨u, htu, huu⟩
    exact not_writes_itself (acc_of_textFrom h) htu huu
  · intro hends
    cases h : types.text t with
    | ok text => exact ⟨text, rfl⟩
    | error e => exact (hends (text_eq_error h).2).elim

end TypeTable

namespace DataLayout

variable {layout : DataLayout} {types : TypeTable}

/-- One type measured, with the extents of what it holds given. -/
def extentStep (layout : DataLayout) (types : TypeTable)
    (inner : Nat → Except ProgramError (Option Extent)) (t : Nat) :
    Except ProgramError (Option Extent) :=
  match types.get? t with
  | none => .error (.unknownType t)
  | some .void => .ok none
  | some (.function _) => .ok none
  | some (.integer bits) => .ok (some (layout.integerExtent bits))
  | some (.float bits) => .ok (some (floatExtent bits))
  | some (.pointer _) => .ok (some ⟨layout.pointerSize, layout.pointerAlign⟩)
  | some (.array element length) =>
    match inner element with
    | .error e => .error e
    | .ok none => .ok none
    | .ok (some e) => .ok (some ⟨cappedMul e.size length, e.align⟩)
  | some (.struct s) =>
    match s.body with
    | none => .ok none
    | some members =>
      (placeMembers layout.overflow s inner {} members).map
        (Option.map fun placed => ⟨placed.size, placed.align⟩)

theorem placeMembers_below {overflow : Overflow} {s : StructType} {e : ProgramError}
    {g g' : Nat → Except ProgramError (Option Extent)} (h : ∀ u, Below (.error e) (g u) (g' u))
    (placing : Placing) (members : List Nat) :
    Below (.error e) (placeMembers overflow s g placing members)
      (placeMembers overflow s g' placing members) := by
  induction members generalizing placing with
  | nil => exact .inr rfl
  | cons m rest ih =>
    unfold placeMembers
    rcases h m with hm | hm
    · rw [hm]
      exact .inl rfl
    · rw [← hm]
      rcases g m with _ | _ | e'
      · exact .inr rfl
      · exact .inr rfl
      · dsimp only
        cases placing.add overflow s e' with
        | error _ => exact .inr rfl
        | ok next => exact ih next

theorem extent_guards (layout : DataLayout) (types : TypeTable) :
    Guards (.error (.halted .endless)) types.size (layout.extentStep types)
      (layout.extentFrom types) where
  mono := by
    intro g g' t h
    unfold extentStep
    split <;> try exact .inr rfl
    · rename_i element length _
      rcases h element with he | he
      · exact .inl (by rw [he])
      · exact .inr (by rw [he])
    · rename_i s _
      cases s.body with
      | none => exact .inr rfl
      | some members =>
        dsimp only
        rcases placeMembers_below h {} members with hp | hp
        · exact .inl (by rw [hp]; rfl)
        · exact .inr (by rw [hp])
  flat := by
    intro g g' t ht
    have hget : types.get? t = none := by
      cases hget : types.get? t with
      | none => rfl
      | some ty => exact absurd (TypeTable.lt_size_of_get? hget) (Nat.not_lt.mpr ht)
    simp only [extentStep, hget]
  first := by
    intro path t hp
    rw [extentFrom, extentStep]
    split
    case h_7 element length hget =>
      rw [dif_neg hp]
      rcases hinner : layout.extentFrom types (t :: path) element with _ | _ | e <;>
        simp only [hget, hinner]
    case h_8 s hget =>
      rw [dif_neg hp]
      cases hbody : s.body <;> simp only [hget, hbody]
    all_goals simp_all
  again := by
    intro path t hp
    rw [extentFrom]
    unfold extentStep
    split <;> simp_all

/-- A type is measured without end only if it holds one that is inside itself. -/
theorem extentFrom_endless {path : List Nat} {t : Nat}
    (hpath : ∀ x ∈ path, Relation.TransGen types.Part x t)
    (h : layout.extentFrom types path t = .error (.halted .endless)) :
    ∃ u, types.ByValue t u ∧ Relation.TransGen types.Part u u := by
  induction hn : unseen types.size path using Nat.strong_induction_on generalizing path t with
  | _ n ih =>
    by_cases hp : t ∈ path
    · exact ⟨t, .refl, hpath t hp⟩
    have hpart : ∀ u, types.Part t u →
        layout.extentFrom types (t :: path) u = .error (.halted .endless) →
        ∃ v, types.ByValue t v ∧ Relation.TransGen types.Part v v := by
      intro u hu he
      obtain ⟨v, huv, hvv⟩ := ih _ (hn ▸ unseen_cons_lt hu.lt_size hp) (List.forall_mem_cons.mpr
        ⟨.single hu, fun x hx => (hpath x hx).tail hu⟩) he rfl
      exact ⟨v, .head hu huv, hvv⟩
    rw [(extent_guards layout types).first path t hp, extentStep] at h
    split at h <;> try cases h
    · rename_i element length ht
      split at h <;> cases h
      rename_i he
      exact hpart element (.element ht) he
    · rename_i s ht
      split at h
      · cases h
      · rename_i members hb
        cases hplaced : placeMembers layout.overflow s (layout.extentFrom types (t :: path)) {}
            members with
        | ok placed => simp [hplaced, Except.map] at h
        | error e =>
          obtain rfl : e = .halted .endless := by simpa [hplaced, Except.map] using h
          obtain ⟨m, hm, he⟩ | hlarge := placeMembers_eq_error hplaced
          · refine hpart m (.member (TypeTable.struct?_of_get? ht) ?_) he
            simpa [StructType.members, hb] using hm
          · cases hlarge

/-- Sizes are found within as many levels as there are types, except of a type that
holds one inside itself, and then at no level. -/
theorem extent_unrolled {depth : Nat} (hdepth : types.size < depth)
    (below : Nat → Except ProgramError (Option Extent)) (t : Nat) :
    (layout.extentStep types)^[depth] below t = layout.extent types t ∨
      (∃ u, types.ByValue t u ∧ Relation.TransGen types.Part u u) ∧
        ∀ levels, (layout.extentStep types)^[levels] (fun _ => .error (.halted .endless)) t =
          .error (.halted .endless) := by
  have hguards := extent_guards layout types
  have hle : unseen types.size [] < depth := by simpa [unseen] using hdepth
  rcases hguards.below_unrolled below hle t with hstuck | heq
  · exact .inr ⟨extentFrom_endless (by simp) hstuck, hguards.eq_stuck_iff.mp hstuck⟩
  · exact .inl heq.symm

end DataLayout

end AbstractMemory
