import AbstractMemory.Proofs.Modelled
import AbstractMemory.Proofs.Requests
import Mathlib

/-! What constants are written over. Through casts between pointers and element
addresses, a constant comes down to a number, a null or unknown address, or a
symbol, which has a definition or not. -/

namespace AbstractMemory

open Steps

theorem Value.kind_of_constant? {value : Value} {k : Constant} (h : value.constant? = some k) :
    value.kind = .constant k := by
  unfold constant? at h
  split at h
  · rename_i hk
    rw [hk, Option.some.inj h]
  · cases h

/-- A search that has found something, or finds it on the way, has found it in
the end. -/
theorem found_of_foldlM {α ε : Type} {look : Bool → α → Except ε Bool} {l : List α}
    {found result : Bool} (hkeeps : ∀ x, look true x = .ok true)
    (hfinds : found = true ∨ ∃ x ∈ l, ∀ before after, look before x = .ok after → after = true)
    (h : l.foldlM look found = .ok result) : result = true := by
  induction l generalizing found with
  | nil =>
    obtain rfl : found = result := Except.ok.inj h
    simpa using hfinds
  | cons x rest ih =>
    rw [List.foldlM_cons] at h
    obtain ⟨next, hnext, h⟩ := bind_eq_ok.mp h
    refine ih ?_ h
    rcases hfinds with rfl | ⟨y, hy, hfinds⟩
    · exact .inl (Except.ok.inj (hnext.symm.trans (hkeeps x)))
    · rcases List.mem_cons.mp hy with rfl | hy
      · exact .inl (hfinds found next hnext)
      · exact .inr ⟨y, hy, hfinds⟩

theorem ValueTable.addressTaken_of_user {values : ValueTable} {v user : Nat} {value other : Value}
    {taken : Bool} (h : values.addressTaken v = .ok taken) (hv : values.get? v = some value)
    (hmem : user ∈ value.users) (hother : values.get? user = some other)
    (htakes : takesAddress v other = true) : taken = true := by
  unfold addressTaken at h
  rw [hv] at h
  refine found_of_foldlM (fun _ => rfl) (.inr ⟨user, hmem, ?_⟩) h
  intro before after hstep
  split at hstep
  · exact (Except.ok.inj hstep).symm
  · rw [hother] at hstep
    exact (Except.ok.inj hstep).symm.trans htakes

namespace Program

variable {p : Program} {u v d : Nat} {value : Value}

/-- A global or function of some module, which points to a type that is used. -/
def IsSymbol (p : Program) (u t : Nat) : Prop :=
  p.Reaches t ∧ ∃ value, p.values.get? u = some value ∧ p.types.pointee? value.type = some t ∧
    (value.global?.isSome = true ∨ value.function?.isSome = true)

/-- A definition that a model has nodes for. -/
inductive Provides (p : Program) (d : Nat) : Prop
  | global {m : Module} {value : Value} (hm : m ∈ p.modules) (hd : d ∈ m.globals)
      (hv : p.values.get? d = some value) (hdef : value.isDeclaration = false)
  | function {m : Module} {f : Function} (hm : m ∈ p.modules) (hd : d ∈ m.functions)
      (hdef : p.Defines d f)

/-- A constant pointer that is written without another pointer. -/
def IsFixed (p : Program) (u : Nat) : Prop :=
  ∃ value k, p.values.get? u = some value ∧ value.constant? = some k ∧
    (∀ e, k = .expr e → ∃ source, e = .cast .intToPointer source) ∧
    p.types.isPointer value.type = true

/-- What a constant may be written over: a constant without another pointer, or a
symbol that does not stand for an intrinsic function. -/
inductive Anchor (p : Program) (u : Nat) : Prop
  | fixed (h : p.IsFixed u)
  | global {m : Module} (hm : m ∈ p.modules) (hu : u ∈ m.globals)
      (hown : ∀ d value, p.definitionOf u = .ok (some d) → p.values.get? d = some value →
        value.isIntrinsic = false)
  | function {m : Module} {value : Value} (hm : m ∈ p.modules) (hu : u ∈ m.functions)
      (hvalue : p.values.get? u = some value) (hown : value.isIntrinsic = false)

/-- The constant `v` comes down to `u` through casts between pointers and element
addresses at known offsets. -/
inductive RestsOn (p : Program) : Nat → Nat → Prop
  | anchor {u : Nat} (h : p.Anchor u) : RestsOn p u u
  | cast {v u source : Nat} {kind : CastKind} {value : Value} (hv : p.values.get? v = some value)
      (hexpr : value.constantExpr? = some (.cast kind source)) (hk : kind.keepsPointer = true)
      (hpointer : p.types.isPointer value.type = true) (h : RestsOn p source u) : RestsOn p v u
  | address {v u : Nat} {a : ElementAddress} {offset : Int} {value : Value}
      (hv : p.values.get? v = some value) (hexpr : value.constantExpr? = some (.elementAddress a))
      (hoffset : p.byteOffset v = .ok offset) (h : RestsOn p a.base u) : RestsOn p v u

theorem isSymbol_of_global (hwf : p.WellFormed) {m : Module} (hm : m ∈ p.modules)
    (hu : u ∈ m.globals) : ∃ t, p.IsSymbol u t := by
  obtain ⟨value, g, hvalue, hg, hpointer⟩ := hwf.globals m hm u hu
  have ht := TypeTable.pointee?_of_get? hpointer
  refine ⟨_, Reaches.follows ?_ (TypeTable.follows_pointee ht), value, hvalue, ht, by simp [hg]⟩
  exact reaches_of_global hm hu hvalue (List.mem_cons_self ..)

theorem isSymbol_of_function (hix : p.Indexed) {m : Module} (hm : m ∈ p.modules)
    (hu : u ∈ m.functions) : ∃ t, p.IsSymbol u t := by
  obtain ⟨value, f, hvalue, hf, hpointer⟩ := hix.functions m hm u hu
  have ht := TypeTable.pointee?_of_get? hpointer
  refine ⟨_, Reaches.follows ?_ (TypeTable.follows_pointee ht), value, hvalue, ht, by simp [hf]⟩
  exact reaches_of_function hm hu hvalue (List.mem_cons_self ..)

/-- What a name stands for is provided, unless it is an intrinsic function. -/
theorem Indexed.provides (hix : p.Indexed) (hwf : p.WellFormed) {name : String}
    (hd : p.symbols[name]? = some d)
    (hown : ∀ value, p.values.get? d = some value → value.name = some name →
      value.isIntrinsic = false) : p.Provides d := by
  obtain ⟨found, hfound, hname, hdef, hlist⟩ := hix.definition hwf hd
  rcases hlist with ⟨_, m, hm, hd⟩ | ⟨⟨other, f, hother, hf, _⟩, m, hm, hd⟩
  · exact .global hm hd hfound hdef
  · obtain rfl := Option.some.inj (hfound.symm.trans hother)
    exact .function hm hd ⟨found, hfound, hf, hdef, hown found hfound hname⟩

/-- The definition of a symbol is provided, if it has one. -/
theorem Anchor.fixed_or_symbol (hwf : p.WellFormed) (hix : p.Indexed) (h : p.Anchor u) :
    p.IsFixed u ∨
      (∃ t, p.IsSymbol u t) ∧ ∀ d, p.definitionOf u = .ok (some d) → p.Provides d := by
  cases h with
  | fixed h => exact .inl h
  | global hm hu hown =>
    refine .inr ⟨isSymbol_of_global hwf hm hu, fun d hd => ?_⟩
    obtain ⟨value, _, hvalue, _⟩ := hwf.globals _ hm u hu
    have hdef := hd
    rw [definitionOf_eq hvalue, Except.ok.injEq] at hdef
    split at hdef
    · obtain ⟨name, _, hentry⟩ := Option.bind_eq_some_iff.mp hdef
      exact hix.provides hwf hentry fun found hfound _ => hown d found hd hfound
    · rename_i hdecl
      obtain rfl := Option.some.inj hdef
      exact .global hm hu hvalue (by simpa using hdecl)
  | @function _ value hm hu hvalue hown =>
    refine .inr ⟨isSymbol_of_function hix hm hu, fun d hd => ?_⟩
    obtain ⟨other, f, hother, hf, _⟩ := hix.functions _ hm u hu
    obtain rfl := Option.some.inj (hvalue.symm.trans hother)
    rw [definitionOf_eq hvalue, Except.ok.injEq] at hd
    split at hd
    · obtain ⟨name, hname, hentry⟩ := Option.bind_eq_some_iff.mp hd
      refine hix.provides hwf hentry fun found _ hfound => ?_
      -- the two have the same name, which is not reserved
      rw [Value.isIntrinsic, hfound, ← hname]
      simp only [Value.isIntrinsic, hf, Option.isSome_some, Bool.true_and] at hown
      simp [hown]
    · rename_i hdecl
      obtain rfl := Option.some.inj hd
      exact .function hm hu ⟨value, hvalue, hf, by simpa using hdecl, hown⟩

theorem IsSymbol.exists_definition {t : Nat} (h : p.IsSymbol u t) :
    ∃ found, p.definitionOf u = .ok found := by
  obtain ⟨_, value, hu, _⟩ := h
  exact ⟨_, definitionOf_eq hu⟩

theorem IsSymbol.isLeaf {t : Nat} (h : p.IsSymbol u t) (hu : p.values.get? u = some value) :
    value.IsLeaf := by
  obtain ⟨_, found, hfound, _, hkind⟩ := h
  obtain rfl := Option.some.inj (hu.symm.trans hfound)
  rcases hkind with hg | hf
  · obtain ⟨g, hg⟩ := Option.isSome_iff_exists.mp hg
    have hk := value.kind_of_global? hg
    exact ⟨by simp [Value.elementAddress?, hk], by simp [Value.cast?, hk]⟩
  · obtain ⟨f, hf⟩ := Option.isSome_iff_exists.mp hf
    have hk := value.kind_of_function? hf
    exact ⟨by simp [Value.elementAddress?, hk], by simp [Value.cast?, hk]⟩

theorem IsSymbol.constant?_eq_none {t : Nat} (h : p.IsSymbol u t)
    (hu : p.values.get? u = some value) : value.constant? = none := by
  obtain ⟨_, found, hfound, _, hkind⟩ := h
  obtain rfl := Option.some.inj (hu.symm.trans hfound)
  cases hk : value.constant? with
  | none => rfl
  | some k => simp [Value.global?, Value.function?, value.kind_of_constant? hk] at hkind

/-- A constant stands for itself, and is no function. -/
theorem IsFixed.not_isFunction (h : p.IsFixed u) (hd : p.definitionOf u = .ok (some d)) :
    ¬ p.IsFunction d := by
  obtain ⟨value, k, hu, hk, _⟩ := h
  have hkind := value.kind_of_constant? hk
  obtain rfl : u = d := by simpa [definitionOf_eq hu, Value.isDeclaration, hkind] using hd
  rintro ⟨other, f, hother, hf, _⟩
  obtain rfl := Option.some.inj (hu.symm.trans hother)
  simp [Value.function?, hkind] at hf

theorem IsFixed.isLeaf (h : p.IsFixed u) (hu : p.values.get? u = some value) :
    value.IsLeaf := by
  obtain ⟨found, k, hfound, hk, hfixed, _⟩ := h
  obtain rfl := Option.some.inj (hu.symm.trans hfound)
  have hkind := value.kind_of_constant? hk
  cases k with
  | expr e =>
    obtain ⟨source, rfl⟩ := hfixed e rfl
    refine ⟨by simp [Value.elementAddress?, hkind], fun kind source' hcast => ?_⟩
    obtain ⟨rfl, _⟩ : CastKind.intToPointer = kind ∧ source = source' := by
      simpa [Value.cast?, hkind] using hcast
    rfl
  | _ => exact ⟨by simp [Value.elementAddress?, hkind], by simp [Value.cast?, hkind]⟩

theorem Anchor.underlying (hwf : p.WellFormed) (hix : p.Indexed) (h : p.Anchor u) :
    p.underlying u = .ok u := by
  rcases h.fixed_or_symbol hwf hix with hfixed | ⟨⟨t, hsymbol⟩, _⟩
  · obtain ⟨value, _, hu, _⟩ := id hfixed
    exact underlying_self hu (hfixed.isLeaf hu)
  · obtain ⟨_, value, hu, _⟩ := id hsymbol
    exact underlying_self hu (hsymbol.isLeaf hu)

theorem RestsOn.anchored (h : p.RestsOn v u) : p.Anchor u := by
  induction h with
  | anchor h => exact h
  | cast _ _ _ _ _ ih => exact ih
  | address _ _ _ _ ih => exact ih

theorem RestsOn.underlying (hwf : p.WellFormed) (hix : p.Indexed) (h : p.RestsOn v u) :
    p.underlying v = .ok u := by
  induction h with
  | anchor h => exact h.underlying hwf hix
  | @cast v u source kind value hv hexpr hk _ _ ih =>
    rw [hwf.underlying_cast hv (Value.cast?_of_constantExpr? hexpr) hk, ih]
  | @address v u a offset value hv hexpr _ _ ih =>
    rw [hwf.underlying_address hv (Value.elementAddress?_of_constantExpr? hexpr), ih]

/-- What a constant rests on is used by a constant, if that is not the constant
itself. -/
theorem RestsOn.exists_user (h : p.RestsOn v u) : v = u ∨
    ∃ w other, p.values.get? w = some other ∧ other.constantExpr?.isSome = true ∧
      u ∈ other.operands := by
  induction h with
  | anchor => exact .inl rfl
  | @cast v u source kind value hv hexpr _ _ _ ih =>
    rcases ih with rfl | hlater
    · exact .inr ⟨v, value, hv, by simp [hexpr],
        Value.mem_operands_of_cast? (Value.cast?_of_constantExpr? hexpr)⟩
    · exact .inr hlater
  | @address v u a offset value hv hexpr _ _ ih =>
    rcases ih with rfl | hlater
    · exact .inr ⟨v, value, hv, by simp [hexpr],
        Value.mem_operands_of_elementAddress? (Value.elementAddress?_of_constantExpr? hexpr)⟩
    · exact .inr hlater

/-- The address of a function is taken by the constants that rest on it. -/
theorem RestsOn.addressTaken (hix : p.Indexed) (h : p.RestsOn v u) (hne : v ≠ u) {taken : Bool}
    (htaken : p.values.addressTaken u = .ok taken) : taken = true := by
  obtain ⟨w, other, hother, hexpr, hmem⟩ := h.exists_user.resolve_left hne
  obtain ⟨value, hvalue, huser⟩ := hix.users w other hother u hmem
  obtain ⟨e, he⟩ := Option.isSome_iff_exists.mp hexpr
  refine ValueTable.addressTaken_of_user htaken hvalue huser hother ?_
  simp [ValueTable.takesAddress, other.kind_of_constantExpr? he]

end Program

end AbstractMemory
