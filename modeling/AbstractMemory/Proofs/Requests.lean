import AbstractMemory.Proofs.Arranging
import AbstractMemory.Proofs.Symbols
import AbstractMemory.Proofs.Underlying
import Mathlib

/-! What a look-up comes down to. Most values have their node by the program
alone; a constant address may ask for the node of a field, and that is all a
look-up ever changes. -/

namespace AbstractMemory

open Steps

theorem Steps.bind_of_leaves {ε σ α β : Type} {step : EStateM ε σ α} {s : σ}
    (h : leaves step s = s) (next : α → EStateM ε σ β) : (step >>= next) s =
      match answers step s with
      | .ok x => next x s
      | .error e => .error e s := by
  unfold leaves at h
  unfold answers
  cases hs : step s <;> simp_all [bind, EStateM.bind]

theorem Steps.bind_congr_at {ε σ α β : Type} {step step' : EStateM ε σ α} {s : σ}
    (h : step s = step' s) (next : α → EStateM ε σ β) : (step >>= next) s = (step' >>= next) s := by
  simp [bind, EStateM.bind, h]

theorem Value.kind_of_function? {value : Value} {f : Function} (h : value.function? = some f) :
    value.kind = .function f := by
  unfold function? at h
  split at h
  · rename_i hk
    rw [hk, Option.some.inj h]
  · cases h

/-- No constant whose node is that of another value or of a field. -/
def Value.Plain (value : Value) (types : TypeTable) : Prop :=
  types.isPointer value.type = true → (∀ a, value.constantExpr? ≠ some (.elementAddress a)) ∧
    ∀ kind source, value.constantExpr? = some (.cast kind source) → kind.keepsPointer = false

theorem Value.IsLeaf.plain {value : Value} (h : value.IsLeaf) (types : TypeTable) :
    value.Plain types := by
  intro _
  constructor
  · intro a hexpr
    have hnone := h.address
    simp [elementAddress?, value.kind_of_constantExpr? hexpr] at hnone
  · intro kind source hexpr
    exact h.cast kind source (cast?_of_constantExpr? hexpr)

namespace Program

/-- A constant that is an element address. -/
def IsConstantAddress (p : Program) (v : Nat) : Prop :=
  ∃ value a, p.values.get? v = some value ∧ value.constantExpr? = some (.elementAddress a)

theorem IsConstantAddress.kind {p : Program} {v : Nat} {value : Value}
    (h : p.IsConstantAddress v) (hv : p.values.get? v = some value) :
    ∃ a, value.kind = .constant (.expr (.elementAddress a)) := by
  obtain ⟨value', a, hv', hexpr⟩ := h
  obtain rfl := Option.some.inj (hv.symm.trans hv')
  exact ⟨a, value.kind_of_constantExpr? hexpr⟩

/-- The constant address behind casts between pointers. -/
def addressBehind (p : Program) (v : Nat) : Option Nat :=
  match p.values.get? v with
  | none => none
  | some value =>
    if p.types.isPointer value.type then
      match value.constantExpr? with
      | some (.elementAddress _) => some v
      | some (.cast kind source) =>
        if kind.keepsPointer ∧ source < v then p.addressBehind source else none
      | _ => none
    else none
termination_by v

theorem addressBehind_of_cast {p : Program} {v source : Nat} {value : Value} {kind : CastKind}
    (hv : p.values.get? v = some value) (hexpr : value.constantExpr? = some (.cast kind source))
    (hpointer : p.types.isPointer value.type = true) (hk : kind.keepsPointer = true)
    (hlt : source < v) : p.addressBehind v = p.addressBehind source := by
  rw [addressBehind, hv]
  simp [hpointer, hexpr, hk, hlt]

theorem addressBehind_of_address {p : Program} {v : Nat} {value : Value} {e : ElementAddress}
    (hv : p.values.get? v = some value) (hexpr : value.constantExpr? = some (.elementAddress e))
    (hpointer : p.types.isPointer value.type = true) : p.addressBehind v = some v := by
  rw [addressBehind, hv]
  simp [hpointer, hexpr]

theorem isConstantAddress_of_addressBehind {p : Program} {v w : Nat}
    (h : p.addressBehind v = some w) : p.IsConstantAddress w := by
  fun_induction addressBehind p v with
  | case1 => cases h
  | case2 v value hv _ e hexpr => exact Option.some.inj h ▸ ⟨value, e, hv, hexpr⟩
  | case3 v value hv _ kind source hexpr hcond ih => exact ih h
  | case4 => cases h
  | case5 => cases h
  | case6 => cases h

theorem definitionOf_eq {p : Program} {v : Nat} {value : Value}
    (hv : p.values.get? v = some value) : p.definitionOf v =
      .ok (if value.isDeclaration then value.name.bind fun name => p.symbols[name]?
        else some v) := by
  simp only [definitionOf, ValueTable.get, hv, bind, Except.bind, pure, Except.pure]
  split <;> rfl

/-- A definition is no constant address. -/
theorem not_isConstantAddress_of_definitionOf {p : Program} (hwf : p.WellFormed) (hix : p.Indexed)
    {v d : Nat} {value : Value} (hv : p.values.get? v = some value)
    (hself : ¬ p.IsConstantAddress v) (hd : p.definitionOf v = .ok (some d)) :
    ¬ p.IsConstantAddress d := by
  rw [definitionOf_eq hv] at hd
  have hdef := Except.ok.inj hd
  split at hdef
  · obtain ⟨name, _, hsymbol⟩ := Option.bind_eq_some_iff.mp hdef
    obtain ⟨found, hfound, _, _, hlisted⟩ := hix.definition hwf hsymbol
    intro haddress
    obtain ⟨a, hk⟩ := haddress.kind hfound
    rcases hlisted with ⟨⟨other, g, hother, hg, _⟩, _⟩ | ⟨⟨other, f, hother, hf, _⟩, _⟩
    · obtain rfl := Option.some.inj (hfound.symm.trans hother)
      simp [found.kind_of_global? hg] at hk
    · obtain rfl := Option.some.inj (hfound.symm.trans hother)
      simp [found.kind_of_function? hf] at hk
  · rwa [← Option.some.inj hdef]

end Program

/-- A constant address that asks for the node of a field. -/
structure FieldRequest where
  address : Nat
  base : Nat
  field : Nat
deriving DecidableEq, Repr

def FieldRequest.key (r : FieldRequest) : Nat × Nat :=
  (r.base, r.field)

namespace Arena

variable {p : Program} {c : Catalog} {a a₀ : Arena} {v : Nat} {value : Value}

/-- The field that a constant address asks for, unless it starts from a sentinel
or is where its object starts. -/
def requestAt (a : Arena) (p : Program) (c : Catalog) (address : Nat) : Option FieldRequest :=
  match p.underlying address with
  | .error _ => none
  | .ok object =>
    match answers (valueNode p c object) a, c.constantField p address with
    | .ok (some base), .ok field =>
      if base = nullPointer ∨ base = universalPointer ∨ field.index = 0 then none
      else some ⟨address, base, field.index⟩
    | _, _ => none

def request (a : Arena) (p : Program) (c : Catalog) (v : Nat) : Option FieldRequest :=
  (p.addressBehind v).bind (a.requestAt p c)

/-- The arenas have the same nodes for all values that are no constant addresses. -/
def Agrees (p : Program) (a₀ a : Arena) : Prop :=
  ∀ u, ¬ p.IsConstantAddress u → a.valueNodes[u]? = a₀.valueNodes[u]?

/-- A look-up that changes nothing, with the answer it would have had before. -/
def Settled (a₀ a : Arena) (step : Arranging (Option Nat)) : Prop :=
  answers step a = answers step a₀ ∧ leaves step a = a

theorem Agrees.refl (p : Program) (a : Arena) : Agrees p a a :=
  fun _ _ => rfl

theorem Settled.bind {step : Arranging (Option Nat)} {next : Option Nat → Arranging (Option Nat)}
    (h₀ : Settled a₀ a₀ step) (h : Settled a₀ a step)
    (hnext : ∀ x, answers step a₀ = .ok x → Settled a₀ a (next x)) :
    Settled a₀ a (step >>= next) := by
  have hrun := bind_of_leaves h.2 next
  have hrun₀ := bind_of_leaves h₀.2 next
  rw [h.1] at hrun
  unfold Settled answers leaves
  rw [hrun, hrun₀]
  cases hx : answers step a₀ with
  | ok x => exact hnext x hx
  | error e => exact ⟨rfl, rfl⟩

theorem askProgram_ok {α : Type} (x : α) : askProgram (.ok x) = pure x :=
  rfl

theorem settled_definition (hwf : p.WellFormed) (hix : p.Indexed) (hagree : Agrees p a₀ a)
    (hv : p.values.get? v = some value) (hnot : ¬ p.IsConstantAddress v) :
    Settled a₀ a (do
      match ← askProgram (p.definitionOf v) with
      | some d => return (← get).valueNodes[d]?
      | none => return some universalPointer) := by
  cases hd : p.definitionOf v with
  | error e => exact ⟨rfl, rfl⟩
  | ok found =>
    cases found with
    | none => exact ⟨rfl, rfl⟩
    | some d =>
      have hnode := hagree d (Program.not_isConstantAddress_of_definitionOf hwf hix hv hnot hd)
      exact ⟨congrArg Except.ok hnode, rfl⟩

theorem valueNode_plain (hwf : p.WellFormed) (hix : p.Indexed) (hagree : Agrees p a₀ a)
    (hv : p.values.get? v = some value) (hplain : value.Plain p.types) :
    Settled a₀ a (valueNode p c v) := by
  have hnot : (∀ k, value.kind ≠ .constant k) → ¬ p.IsConstantAddress v := by
    intro hk haddress
    obtain ⟨e, he⟩ := haddress.kind hv
    exact hk _ he
  have hget : p.values.get v = .ok value := by simp [ValueTable.get, hv]
  rw [valueNode, hget]
  simp only [askProgram_ok, pure_bind]
  split
  · rename_i k hk
    split
    · exact ⟨rfl, rfl⟩
    · rename_i hpointer
      obtain ⟨haddress, hcast⟩ := hplain (by simpa using hpointer)
      split
      · exact ⟨rfl, rfl⟩
      · exact ⟨rfl, rfl⟩
      · exact ⟨rfl, rfl⟩
      · exact ⟨rfl, rfl⟩
      · rename_i e
        exact absurd (by simp [Value.constantExpr?, hk]) (haddress e)
      · rename_i kind source
        have hkeeps := hcast kind source (by simp [Value.constantExpr?, hk])
        rw [if_neg (by simp [hkeeps])]
        split <;> exact ⟨rfl, rfl⟩
      · exact ⟨rfl, rfl⟩
  · rename_i hk
    exact settled_definition hwf hix hagree hv (hnot (by simp [hk]))
  · rename_i hk
    exact settled_definition hwf hix hagree hv (hnot (by simp [hk]))
  · rename_i hk _ _
    exact ⟨congrArg Except.ok (hagree v (hnot hk)), rfl⟩

theorem valueNode_address {e : ElementAddress} (hv : p.values.get? v = some value)
    (hexpr : value.constantExpr? = some (.elementAddress e))
    (hpointer : p.types.isPointer value.type = true) {object : Nat}
    (hobject : p.underlying v = .ok object) (hlt : object < v) :
    valueNode p c v = (do
      match ← valueNode p c object with
      | none => throw (.missingBase v)
      | some base =>
        if base = nullPointer ∨ base = universalPointer then return some base
        let field ← askProgram (c.constantField p v)
        if field.index = 0 then return some base
        return some (← fieldPointer v base field.index)) := by
  have hget : p.values.get v = .ok value := by simp [ValueTable.get, hv]
  rw [valueNode, hget, hobject]
  simp only [askProgram_ok, pure_bind, value.kind_of_constantExpr? hexpr, hlt, if_true]
  exact if_neg (by simp [hpointer])

theorem valueNode_cast {kind : CastKind} {source : Nat} (hv : p.values.get? v = some value)
    (hexpr : value.constantExpr? = some (.cast kind source))
    (hpointer : p.types.isPointer value.type = true) (hk : kind.keepsPointer = true)
    (hlt : source < v) :
    valueNode p c v = (do
      match ← valueNode p c source with
      | none => throw (.missingBase v)
      | some n => return some n) := by
  have hget : p.values.get v = .ok value := by simp [ValueTable.get, hv]
  rw [valueNode, hget]
  simp only [askProgram_ok, pure_bind, value.kind_of_constantExpr? hexpr, hk, hlt, if_true]
  exact if_neg (by simp [hpointer])

theorem request_of_plain (hv : p.values.get? v = some value) (hplain : value.Plain p.types) :
    a₀.request p c v = none := by
  suffices h : p.addressBehind v = none by simp [request, h]
  rw [Program.addressBehind, hv]
  dsimp only
  split
  · rename_i hpointer
    obtain ⟨haddress, hcast⟩ := hplain hpointer
    split
    · rename_i hexpr
      exact absurd hexpr (haddress _)
    · rename_i kind source hexpr
      simp [hcast kind source hexpr]
    · rfl
  · rfl

theorem request_of_cast {kind : CastKind} {source : Nat} (hv : p.values.get? v = some value)
    (hexpr : value.constantExpr? = some (.cast kind source))
    (hpointer : p.types.isPointer value.type = true) (hk : kind.keepsPointer = true)
    (hlt : source < v) : a₀.request p c v = a₀.request p c source := by
  rw [request, Program.addressBehind_of_cast hv hexpr hpointer hk hlt, request]

theorem request_of_address {e : ElementAddress} (hv : p.values.get? v = some value)
    (hexpr : value.constantExpr? = some (.elementAddress e))
    (hpointer : p.types.isPointer value.type = true) :
    a₀.request p c v = a₀.requestAt p c v := by
  rw [request, Program.addressBehind_of_address hv hexpr hpointer, Option.bind_some]

/-- What a look-up does is to settle, or to ask for a field. -/
def LooksUp (c : Catalog) (p : Program) (a₀ a : Arena) (v : Nat) : Prop :=
  match a₀.request p c v with
  | none => Settled a₀ a (valueNode p c v)
  | some r => valueNode p c v a = (some <$> fieldPointer r.address r.base r.field) a

theorem looksUp_address {e : ElementAddress} (hwf : p.WellFormed) (hix : p.Indexed)
    (hagree : Agrees p a₀ a) (hv : p.values.get? v = some value)
    (hexpr : value.constantExpr? = some (.elementAddress e))
    (hpointer : p.types.isPointer value.type = true) : LooksUp c p a₀ a v := by
  obtain ⟨object, found, hobject, hfound, hleaf⟩ := hwf.exists_underlying hv
  have hlt : object < v := by
    refine Nat.lt_of_le_of_ne (Program.underlying_le hobject) ?_
    rintro rfl
    obtain rfl := Option.some.inj (hv.symm.trans hfound)
    exact (hleaf.plain p.types hpointer).1 e hexpr
  have hplain := hleaf.plain p.types
  have hbase₀ : Settled a₀ a₀ (valueNode p c object) :=
    valueNode_plain hwf hix (Agrees.refl p a₀) hfound hplain
  have hbase : Settled a₀ a (valueNode p c object) := valueNode_plain hwf hix hagree hfound hplain
  unfold LooksUp
  rw [request_of_address hv hexpr hpointer, valueNode_address hv hexpr hpointer hobject hlt,
    requestAt, hobject]
  dsimp only
  cases hanswer : answers (valueNode p c object) a₀ with
  | error e => exact hbase₀.bind hbase fun x hx => by simp [hanswer] at hx
  | ok x =>
    have hone : ∀ y, answers (valueNode p c object) a₀ = .ok y → y = x :=
      fun y hy => (Except.ok.inj (hanswer.symm.trans hy)).symm
    cases x with
    | none =>
      refine hbase₀.bind hbase fun y hy => ?_
      rw [hone y hy]
      exact ⟨rfl, rfl⟩
    | some base =>
      cases hfield : c.constantField p v with
      | error e =>
        refine hbase₀.bind hbase fun y hy => ?_
        rw [hone y hy]
        dsimp only
        split <;> exact ⟨rfl, rfl⟩
      | ok field =>
        dsimp only
        by_cases hstays : base = nullPointer ∨ base = universalPointer ∨ field.index = 0
        · rw [if_pos hstays]
          refine hbase₀.bind hbase fun y hy => ?_
          rw [hone y hy, askProgram_ok]
          dsimp only
          split
          · exact ⟨rfl, rfl⟩
          · rename_i hreal
            have hzero : field.index = 0 := by tauto
            rw [pure_bind, if_pos hzero]
            exact ⟨rfl, rfl⟩
        · rw [if_neg hstays]
          obtain ⟨hnull, huniversal, hzero⟩ := by simpa only [not_or] using hstays
          rw [bind_of_leaves hbase.2, hbase.1, hanswer]
          simp [hnull, huniversal, hzero, askProgram_ok]

theorem looksUp_cast {kind : CastKind} {source : Nat} (hv : p.values.get? v = some value)
    (hexpr : value.constantExpr? = some (.cast kind source))
    (hpointer : p.types.isPointer value.type = true) (hk : kind.keepsPointer = true)
    (hlt : source < v) (h₀ : LooksUp c p a₀ a₀ source) (h : LooksUp c p a₀ a source) :
    LooksUp c p a₀ a v := by
  unfold LooksUp at h₀ h ⊢
  rw [request_of_cast hv hexpr hpointer hk hlt, valueNode_cast hv hexpr hpointer hk hlt]
  cases hr : a₀.request p c source with
  | none =>
    rw [hr] at h₀ h
    refine Settled.bind h₀ h fun x _ => ?_
    cases x <;> exact ⟨rfl, rfl⟩
  | some r =>
    rw [hr] at h
    dsimp only at h
    rw [bind_congr_at h]
    simp

/-- A look-up either changes nothing, or it is the request of a constant address
for the node of a field. -/
theorem looksUp (hwf : p.WellFormed) (hix : p.Indexed) (hagree : Agrees p a₀ a) (v : Nat) :
    LooksUp c p a₀ a v := by
  induction v using Nat.strong_induction_on generalizing a with
  | _ v ih =>
    cases hv : p.values.get? v with
    | none =>
      have hrequest : a₀.request p c v = none := by
        rw [request, Program.addressBehind, hv]
        rfl
      unfold LooksUp
      rw [hrequest, valueNode, ValueTable.get, hv]
      exact ⟨rfl, rfl⟩
    | some value =>
      by_cases hplain : value.Plain p.types
      · unfold LooksUp
        rw [request_of_plain hv hplain]
        exact valueNode_plain hwf hix hagree hv hplain
      · have hpointer : p.types.isPointer value.type = true := by
          by_contra hno
          exact hplain fun h => absurd h hno
        cases hexpr : value.constantExpr? with
        | none => exact absurd (fun _ => by simp [hexpr]) hplain
        | some expr =>
          cases expr with
          | elementAddress e => exact looksUp_address hwf hix hagree hv hexpr hpointer
          | other opcode operands => exact absurd (fun _ => by simp [hexpr]) hplain
          | cast kind source =>
            have hk : kind.keepsPointer = true := by
              by_contra hno
              exact hplain fun _ => by simpa [hexpr] using hno
            have hlt := hwf.operands v value hv source
              (Value.mem_operands_of_cast? (Value.cast?_of_constantExpr? hexpr))
            exact looksUp_cast hv hexpr hpointer hk hlt (ih source hlt (Agrees.refl p a₀))
              (ih source hlt hagree)

end Arena

end AbstractMemory
