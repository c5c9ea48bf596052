import AbstractMemory.Model.Populate
import AbstractMemory.Proofs.Arranging
import AbstractMemory.Proofs.History
import Mathlib

/-! What an object of some type is made of. The plan is read off the record
that stands for the type, and it stays the same however the catalog grows. -/

namespace AbstractMemory

open Steps

namespace Catalog

variable {c c' : Catalog} {p : Program} {t : Nat}

/-- The plans for an object of a type. A struct whose own record has no body
stays without one, even if its scope name gets a body later. -/
inductive Plans (c : Catalog) (p : Program) (t : Nat) : Population.ObjectPlan → Prop
  | scalar (h : p.types.struct? t = none) : Plans c p t (.fields [false])
  | union (h : c.isUnion p t = true) : Plans c p t (.fields [true])
  | bodiless {r : FieldRecord} (hr : c.records[t]? = some r) (ho : r.isOpaque = true) :
      Plans c p t (.sentinel universalObject)
  | empty {s : StructType} {r : FieldRecord} (hs : p.types.struct? t = some s)
      (hr : c.records[c.standIn s t]? = some r) (ho : r.isOpaque = false) (hf : r.fields = []) :
      Plans c p t (.sentinel nullObject)
  | struct {s : StructType} {r : FieldRecord} (hs : p.types.struct? t = some s)
      (hu : c.isUnion p t = false) (hr : c.records[c.standIn s t]? = some r)
      (ho : r.isOpaque = false) (hf : r.fields ≠ []) :
      Plans c p t (.fields (r.fields.map Field.isUnion))

theorem Plans.mono {plan : Population.ObjectPlan} (h : c.Plans p t plan) (hc : c.Grounded p)
    (hg : c.Grows c') : c'.Plans p t plan := by
  cases h with
  | scalar h => exact .scalar h
  | union h => exact .union ((hg.isUnion p t).trans h)
  | bodiless hr ho =>
    obtain ⟨cs, hr', _⟩ := hg.records t _ hr
    exact .bodiless hr' ho
  | empty hs hr ho hf =>
    obtain ⟨cs, hr', _⟩ := hg.records _ _ hr
    rw [← hg.standIn (hc.settled hs hr ho)] at hr'
    exact .empty hs hr' ho hf
  | @struct s r hs hu hr ho hf =>
    obtain ⟨cs, hr', _⟩ := hg.records _ _ hr
    rw [← hg.standIn (hc.settled hs hr ho)] at hr'
    exact Plans.struct (r := { r with containers := cs }) hs ((hg.isUnion p t).trans hu) hr' ho hf

/-- The number of nodes of an object of some type. -/
def plannedFields (c : Catalog) (p : Program) (t : Nat) : Nat :=
  if !p.types.isStruct t || c.isUnion p t then 1
  else ((c.canonical? p t).bind (c.records[·]?)).elim 0 FieldRecord.fieldCount

theorem Plans.plannedFields_eq {flags : List Bool} (h : c.Plans p t (.fields flags)) :
    c.plannedFields p t = flags.length := by
  unfold plannedFields
  cases h with
  | scalar h => simp [TypeTable.isStruct, h]
  | union h => simp [h]
  | struct hs hu hr ho hf =>
    simp [TypeTable.isStruct, hs, hu, canonical?, hr, FieldRecord.fieldCount]

theorem Grounded.standIn_of_isOpaque (hc : c.Grounded p) {s : StructType} {r : FieldRecord}
    (hr : c.records[c.standIn s t]? = some r) (ho : r.isOpaque = true) : c.standIn s t = t := by
  refine (c.standIn_cases s t).resolve_right ?_
  rintro ⟨n, hscope⟩
  -- what is registered for a scope name has a body
  obtain ⟨shape, _, hshape, _, _, hbody⟩ := hc.scope n _ hscope
  obtain ⟨shape', hshape', hbodiless, _⟩ := (hc.record _ r hr).shape
  obtain rfl : shape = shape' := Option.some.inj (hshape.symm.trans hshape')
  rw [ho, eq_comm, Option.isNone_iff_eq_none] at hbodiless
  simp [hbodiless] at hbody

theorem Grounded.fields_of_isOpaque (hc : c.Grounded p) {r : FieldRecord}
    (hr : c.records[t]? = some r) (ho : r.isOpaque = true) : r.fields = [] := by
  obtain ⟨s, _, hbodiless, hfields, _⟩ := (hc.record t r hr).shape
  exact hfields (by simpa [ho] using hbodiless.symm)

/-- The record found for a struct is that of its stand-in, unless the struct was
recorded before its scope name got a body. -/
theorem Grounded.record?_cases (hc : c.Grounded p) {r : FieldRecord}
    (h : c.record? p t = some r) :
    (c.records[t]? = some r ∧ r.isOpaque = true) ∨
      ∃ s, p.types.struct? t = some s ∧ c.records[c.standIn s t]? = some r := by
  unfold record? at h
  cases hown : c.records[t]? with
  | some own =>
    obtain rfl : own = r := by simpa [hown, (hc.record t own hown).isFinal] using h
    cases ho : own.isOpaque with
    | true => exact .inl ⟨rfl, rfl⟩
    | false =>
      obtain ⟨s, hs, _⟩ := (hc.record t own hown).shape
      exact .inr ⟨s, hs, by rw [(hc.tabulates hs hown ho).standIn, hown]⟩
  | none =>
    cases hs : p.types.struct? t with
    | none => simp [hown, canonical?, hs] at h
    | some s =>
      refine .inr ⟨s, rfl, ?_⟩
      simp only [hown, canonical?, hs, Option.map_some, Option.bind_some] at h
      cases hr : c.records[c.standIn s t]? with
      | none => simp [hr] at h
      | some found => simpa [hr, (hc.record _ found hr).isFinal] using h

theorem Plans.of_record? {plan : Population.ObjectPlan} {r : FieldRecord} (h : c.Plans p t plan)
    (hc : c.Grounded p) (hr : c.record? p t = some r) (hu : c.isUnion p t = false)
    (hf : r.fields ≠ []) : plan = .fields (r.fields.map Field.isUnion) := by
  -- a record without a body would have no fields
  obtain ⟨s, hs, hr'⟩ := (hc.record?_cases hr).resolve_left fun hown =>
    hf (hc.fields_of_isOpaque hown.1 hown.2)
  cases h with
  | scalar h => simp [h] at hs
  | union h => simp [hu] at h
  | bodiless hown ho =>
    simp only [record?, hown, (hc.record t _ hown).isFinal, if_true, Option.some.injEq] at hr
    subst hr
    exact (hf (hc.fields_of_isOpaque hown ho)).elim
  | empty hs' hr'' _ hf' =>
    obtain rfl := Option.some.inj (hs.symm.trans hs')
    obtain rfl := Option.some.inj (hr'.symm.trans hr'')
    exact (hf hf').elim
  | struct hs' _ hr'' _ _ =>
    obtain rfl := Option.some.inj (hs.symm.trans hs')
    obtain rfl := Option.some.inj (hr'.symm.trans hr'')
    rfl

/-- All catalogs of a kind answer the structs that are `asked` for, and stay of
that kind. -/
structure Serves (p : Program) (asked : Nat → Prop) (inv : Catalog → Prop) : Prop where
  coherent : ∀ c, inv c → c.Coherent p
  layoutOf : ∀ t c, asked t → inv c → Meets (layoutOf p t) c
    (fun r c' => inv c' ∧ c.Grows c' ∧
      ∃ s, p.types.struct? t = some s ∧ c'.records[c'.standIn s t]? = some r) (fun _ => True)

theorem serves_coherent (p : Program) : Serves p (fun _ => True) (fun c => c.Coherent p) where
  coherent := fun _ h => h
  layoutOf := by
    intro t c _ hc
    have hin : InProgress p (fun _ => False) [] c :=
      ⟨hc, by simp, fun _ _ _ h => h.elim⟩
    exact (layoutOf_meets (flattenable_false p) t hin).mono
      (fun r c' h => ⟨h.1.coherent, h.1.grows, h.2⟩) (fun _ _ => trivial)

end Catalog

namespace Population

variable {p : Program} {s : Population}

theorem meets_onArena {α : Type} {step : Arranging α} {good : α → Population → Prop}
    {bad : Population → Prop}
    (h : Meets step s.arena (fun x a => good x { s with arena := a })
      (fun a => bad { s with arena := a })) : Meets (onArena step) s good bad := by
  unfold Meets at h ⊢
  unfold onArena
  split at h <;> simp_all

theorem meets_onCatalog {α : Type} {step : Cataloguing α} {good : α → Population → Prop}
    (h : Meets step s.catalog (fun x c => good x { s with catalog := c }) (fun _ => True)) :
    Meets (onCatalog step) s good (fun _ => True) := by
  cases hs : step s.catalog with
  | ok x c =>
    have hgood := h.of_ok hs
    simpa only [Meets, onCatalog, hs] using hgood
  | error e c =>
    have hstep : onCatalog step s = .error (.record e) { s with catalog := c } := by
      simp only [onCatalog, hs]
    exact meets_of_error hstep fun _ => trivial

theorem meets_ask {α : Type} {answer : Except ProgramError α} {good : α → Population → Prop}
    {bad : Population → Prop} (hok : ∀ x, answer = .ok x → good x s)
    (herr : ∀ e, answer = .error e → bad s) : Meets (ask answer) s good bad := by
  cases answer with
  | ok x => exact hok x rfl
  | error e => exact herr e rfl

variable {asked : Nat → Prop} {inv : Catalog → Prop}

theorem planFor_meets (hserves : Catalog.Serves p asked inv) {t : Nat} (ht : asked t)
    (hi : inv s.catalog) :
    Meets (planFor p t) s
      (fun plan s' => ∃ c, s' = { s with catalog := c } ∧ inv c ∧ s.catalog.Grows c ∧
        c.Plans p t plan) (fun _ => True) := by
  unfold planFor
  have hstay : ∀ plan, s.catalog.Plans p t plan → ∃ c, s = { s with catalog := c } ∧ inv c ∧
      s.catalog.Grows c ∧ c.Plans p t plan :=
    fun plan h => ⟨s.catalog, rfl, hi, Catalog.Grows.refl _, h⟩
  split
  · rename_i hst
    exact hstay _ (.scalar (by simpa [TypeTable.isStruct] using hst))
  · rw [meets_get_bind]
    split
    · rename_i hu
      exact hstay _ (.union hu)
    · rename_i hu
      refine Meets.bind (meets_onCatalog ((hserves.layoutOf t s.catalog ht hi).mono
        (fun r c h => (⟨rfl, h⟩ : _ ∧ _)) (fun _ _ => trivial))
        : Meets _ s (fun r s' => s' = { s with catalog := s'.catalog } ∧ inv s'.catalog ∧
            s.catalog.Grows s'.catalog ∧ ∃ st, p.types.struct? t = some st ∧
              s'.catalog.records[s'.catalog.standIn st t]? = some r) (fun _ => True)) ?_
      rintro r s' ⟨hs', hi', hg, st, hst, hr⟩
      have hc := (hserves.coherent _ hi').grounded
      split
      · rename_i ho
        have hself := hc.standIn_of_isOpaque hr ho
        exact ⟨_, hs', hi', hg, .bodiless (hself ▸ hr) ho⟩
      · rename_i ho
        split
        · rename_i hf
          exact ⟨_, hs', hi', hg, .empty hst hr (by simpa using ho) (by simpa using hf)⟩
        · rename_i hf
          exact ⟨_, hs', hi', hg, .struct hst (by rw [hg.isUnion]; simpa using hu) hr
            (by simpa using ho) (by simpa using hf)⟩

end Population

end AbstractMemory
