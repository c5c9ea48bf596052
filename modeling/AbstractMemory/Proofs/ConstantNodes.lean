import AbstractMemory.Proofs.Anchors
import AbstractMemory.Proofs.FieldPointers
import Mathlib

/-! Constants resolve. A constant over a null or unknown address, a number or a
symbol has a node for its value, and an object wherever the definition of the
symbol has one that is laid out as the symbol says. -/

namespace AbstractMemory

open Steps

namespace Arena

variable {p : Program} {c : Catalog} {a : Arena} {u v d : Nat} {value : Value}

theorem valueNode_fixed (h : p.IsFixed u) :
    ∃ n, valueNode p c u a = .ok (some n) a ∧ (n = nullPointer ∨ n = universalPointer) := by
  obtain ⟨value, k, hu, hk, hfixed, hpointer⟩ := h
  have hget : p.values.get u = .ok value := by simp [ValueTable.get, hu]
  rw [valueNode, hget]
  simp only [askProgram_ok, pure_bind, value.kind_of_constant? hk, hpointer, Bool.not_true,
    Bool.false_eq_true, if_false]
  cases k with
  | null => exact ⟨_, rfl, .inl rfl⟩
  | undefined => exact ⟨_, rfl, .inl rfl⟩
  | blockAddress => exact ⟨_, rfl, .inl rfl⟩
  | integer i =>
    refine ⟨_, rfl, ?_⟩
    split
    · exact .inl rfl
    · exact .inr rfl
  | expr e =>
    obtain ⟨source, rfl⟩ := hfixed e rfl
    exact ⟨_, rfl, .inr rfl⟩

theorem objectNode_fixed (h : p.IsFixed u) :
    ∃ b, a.objectNode p c u = .ok (some b) ∧ (b = nullObject ∨ b = universalObject) := by
  obtain ⟨value, k, hu, hk, hfixed, hpointer⟩ := h
  have hget : p.values.get u = .ok value := by simp [ValueTable.get, hu]
  rw [objectNode, hget]
  simp only [Except.mapError, bind, Except.bind, value.kind_of_constant? hk, hpointer,
    Bool.not_true, Bool.false_eq_true, if_false]
  cases k with
  | null => exact ⟨_, rfl, .inl rfl⟩
  | undefined => exact ⟨_, rfl, .inl rfl⟩
  | blockAddress => exact ⟨_, rfl, .inl rfl⟩
  | integer i =>
    refine ⟨_, rfl, ?_⟩
    split
    · exact .inl rfl
    · exact .inr rfl
  | expr e =>
    obtain ⟨source, rfl⟩ := hfixed e rfl
    exact ⟨_, rfl, .inr rfl⟩

theorem valueNode_symbol {t : Nat} (h : p.IsSymbol u t) {found : Option Nat}
    (hd : p.definitionOf u = .ok found) :
    valueNode p c u a = .ok (found.elim (some universalPointer) (a.valueNodes[·]?)) a := by
  obtain ⟨_, value, hu, _, hkind⟩ := h
  have hget : p.values.get u = .ok value := by simp [ValueTable.get, hu]
  rw [valueNode, hget, hd]
  simp only [askProgram_ok, pure_bind]
  rcases hkind with hg | hf
  · obtain ⟨g, hg⟩ := Option.isSome_iff_exists.mp hg
    rw [value.kind_of_global? hg]
    cases found <;> rfl
  · obtain ⟨f, hf⟩ := Option.isSome_iff_exists.mp hf
    rw [value.kind_of_function? hf]
    cases found <;> rfl

theorem objectNode_symbol {t : Nat} (h : p.IsSymbol u t) {found : Option Nat}
    (hd : p.definitionOf u = .ok found) :
    a.objectNode p c u = .ok (found.elim (some universalObject) (a.objectNodes[·]?)) := by
  obtain ⟨_, value, hu, _, hkind⟩ := h
  have hget : p.values.get u = .ok value := by simp [ValueTable.get, hu]
  rw [objectNode, hget, hd]
  simp only [Except.mapError, bind, Except.bind]
  rcases hkind with hg | hf
  · obtain ⟨g, hg⟩ := Option.isSome_iff_exists.mp hg
    rw [value.kind_of_global? hg]
    cases found <;> rfl
  · obtain ⟨f, hf⟩ := Option.isSome_iff_exists.mp hf
    rw [value.kind_of_function? hf]
    cases found <;> rfl

theorem objectNode_cast {kind : CastKind} {source : Nat} (hv : p.values.get? v = some value)
    (hexpr : value.constantExpr? = some (.cast kind source))
    (hpointer : p.types.isPointer value.type = true) (hk : kind.keepsPointer = true)
    (hlt : source < v) :
    a.objectNode p c v =
      match a.objectNode p c source with
      | .error e => .error e
      | .ok none => .error (.missingBase v)
      | .ok (some n) => .ok (some n) := by
  have hget : p.values.get v = .ok value := by simp [ValueTable.get, hv]
  rw [objectNode, hget]
  simp only [Except.mapError, value.kind_of_constantExpr? hexpr, hpointer, hk, hlt, bind,
    Except.bind, Bool.not_true, Bool.false_eq_true, if_true, if_false]
  cases a.objectNode p c source with
  | error e => rfl
  | ok found => cases found <;> rfl

/-- Asking for the node of a field does not fail. -/
theorem exists_fieldPointer (a : Arena) (v base field : Nat) :
    ∃ n a', fieldPointer v base field a = .ok n a' := by
  have hok : Meets (fieldPointer v base field) a (fun _ _ => True) (fun _ => False) :=
    meets_fieldPointer (fun _ _ => trivial) (fun _ _ _ => trivial) fun _ _ => trivial
  cases hrun : fieldPointer v base field a with
  | ok n a' => exact ⟨n, a', rfl⟩
  | error e a' => exact (hok.of_error hrun rfl).elim

/-- The object at `b` has a node for each field of `t`. -/
def Spans (a : Arena) (p : Program) (c : Catalog) (t b : Nat) : Prop :=
  ∃ owner flags, c.Plans p (p.types.stripArrays t) (.fields flags) ∧ a.Block owner b flags

theorem spans_of_realizes {t b : Nat} {plan : Population.ObjectPlan}
    (hplan : c.Plans p (p.types.stripArrays t) plan) (h : a.Realizes d b plan) :
    (b = nullObject ∨ b = universalObject) ∨ a.Spans p c t b := by
  cases plan with
  | fields flags => exact .inr ⟨d, flags, hplan, h⟩
  | sentinel n =>
    obtain rfl : b = n := h
    cases hplan with
    | bodiless => exact .inl (.inr rfl)
    | empty => exact .inl (.inl rfl)

end Arena

theorem Program.Typed.isPointer_address {p : Program} (h : p.Typed) {v : Nat} {value : Value}
    {e : ElementAddress} (hv : p.values.get? v = some value)
    (hexpr : value.constantExpr? = some (.elementAddress e)) :
    p.types.isPointer value.type = true := by
  have hpointer := h v value hv
  simpa only [Value.Typed, value.kind_of_constantExpr? hexpr] using hpointer

/-- An anchor is looked up as it is, and has a sentinel if it is no symbol. -/
theorem Program.Anchor.exists_valueNode {p : Program} {c : Catalog} {a : Arena} {u : Nat}
    (hwf : p.WellFormed) (hix : p.Indexed) (hnodes : ∀ d, p.Provides d → d ∈ a.valueNodes)
    (h : p.Anchor u) : ∃ n, Arena.valueNode p c u a = .ok (some n) a ∧
      ((n = nullPointer ∨ n = universalPointer) ∨ ∃ t, p.IsSymbol u t) := by
  rcases h.fixed_or_symbol hwf hix with hfixed | ⟨⟨t, hsymbol⟩, hprovides⟩
  · obtain ⟨n, hn, hsentinel⟩ := Arena.valueNode_fixed hfixed
    exact ⟨n, hn, .inl hsentinel⟩
  · obtain ⟨found, hdef⟩ := hsymbol.exists_definition
    have hnode := Arena.valueNode_symbol (c := c) (a := a) hsymbol hdef
    cases found with
    | none => exact ⟨_, hnode, .inr ⟨t, hsymbol⟩⟩
    | some d =>
      have hmem := hnodes d (hprovides d hdef)
      rw [← Std.TreeMap.isSome_getElem?_iff_mem, Option.isSome_iff_exists] at hmem
      obtain ⟨n, hn⟩ := hmem
      rw [Option.elim_some, hn] at hnode
      exact ⟨n, hnode, .inr ⟨t, hsymbol⟩⟩

namespace Program.RestsOn

variable {p : Program} {c : Catalog} {a : Arena} {u v : Nat}

theorem lt_of_cast (hwf : p.WellFormed) {value : Value} {kind : CastKind} {source : Nat}
    (hv : p.values.get? v = some value) (hexpr : value.constantExpr? = some (.cast kind source)) :
    source < v :=
  hwf.operands v value hv source (Value.mem_operands_of_cast? (Value.cast?_of_constantExpr? hexpr))

variable (hwf : p.WellFormed) (hix : p.Indexed)
include hwf hix

theorem lt_of_address {value : Value} {e : ElementAddress} (hv : p.values.get? v = some value)
    (hexpr : value.constantExpr? = some (.elementAddress e)) (h : p.RestsOn e.base u) : u < v := by
  have hbase : e.base < v := hwf.operands v value hv e.base
    (Value.mem_operands_of_elementAddress? (Value.elementAddress?_of_constantExpr? hexpr))
  exact Nat.lt_of_le_of_lt (underlying_le (h.underlying hwf hix)) hbase

/-- The field that an element address over a symbol leads to is one of the type
that the symbol points to. -/
theorem exists_constantField (hc : c.Grounded p)
    (hmeasured : ∀ t, p.IsSymbol u t → Catalog.Measured p t) (h : p.RestsOn v u) {offset : Int}
    (hoffset : p.byteOffset v = .ok offset) {t : Nat} (hsymbol : p.IsSymbol u t) :
    ∃ f, c.constantField p v = .ok f ∧ f.index < max 1 (c.partOf p t).length := by
  obtain ⟨f, hf, hindex⟩ := Catalog.fieldInType_range hc (hmeasured t hsymbol) offset
  obtain ⟨_, value, hvalue, ht, _⟩ := hsymbol
  refine ⟨f, ?_, hindex⟩
  simp [Catalog.constantField, hoffset, h.underlying hwf hix, Catalog.fieldOf, ValueTable.get,
    hvalue, ht, hf, bind, Except.bind]

variable (htyped : p.Typed)
include htyped

/-- Without an object for what a constant rests on, the constant has none. -/
theorem objectNode_missing (h : p.RestsOn v u) (hne : v ≠ u)
    (hnone : a.objectNode p c u = .ok none) :
    ∃ w, a.objectNode p c v = .error (.missingBase w) := by
  induction h with
  | anchor => exact absurd rfl hne
  | @cast v u source kind value hv hexpr hk hpointer _ ih =>
    rw [Arena.objectNode_cast hv hexpr hpointer hk (lt_of_cast hwf hv hexpr)]
    by_cases hsource : source = u
    · subst hsource
      exact ⟨v, by rw [hnone]⟩
    · obtain ⟨w, hw⟩ := ih hsource hnone
      exact ⟨w, by rw [hw]⟩
  | @address v u e offset value hv hexpr hoffset h _ =>
    have hrests : p.RestsOn v u := .address hv hexpr hoffset h
    exact ⟨v, by rw [Arena.objectNode_elementAddress hv hexpr (htyped.isPointer_address hv hexpr)
      (hrests.underlying hwf hix) (lt_of_address hwf hix hv hexpr h), hnone]⟩

variable (hc : c.Grounded p) (hmeasured : ∀ t, p.IsSymbol u t → Catalog.Measured p t)
include hc hmeasured

/-- A look-up of a constant answers what it rests on, or a field of it. -/
theorem exists_valueNode (hnodes : ∀ d, p.Provides d → d ∈ a.valueNodes) (h : p.RestsOn v u) :
    ∃ n a', Arena.valueNode p c v a = .ok (some n) a' := by
  obtain ⟨base, hbase, hkind⟩ := h.anchored.exists_valueNode (c := c) hwf hix hnodes
  induction h with
  | anchor => exact ⟨base, a, hbase⟩
  | cast hv hexpr hk hpointer _ ih =>
    obtain ⟨n, a', hn⟩ := ih hmeasured hbase hkind
    rw [Arena.valueNode_cast hv hexpr hpointer hk (lt_of_cast hwf hv hexpr)]
    exact ⟨n, a', by simp [bind, EStateM.bind, hn, pure, EStateM.pure]⟩
  | @address v u e offset value hv hexpr hoffset h _ =>
    have hrests : p.RestsOn v u := .address hv hexpr hoffset h
    rw [Arena.valueNode_address hv hexpr (htyped.isPointer_address hv hexpr)
      (hrests.underlying hwf hix) (lt_of_address hwf hix hv hexpr h)]
    simp only [bind, EStateM.bind, hbase]
    by_cases hsentinel : base = nullPointer ∨ base = universalPointer
    · exact ⟨base, a, by simp [hsentinel, pure, EStateM.pure]⟩
    · obtain ⟨t, hsymbol⟩ := hkind.resolve_left hsentinel
      obtain ⟨f, hf, _⟩ := hrests.exists_constantField hwf hix hc hmeasured hoffset hsymbol
      rw [if_neg hsentinel, hf, Arena.askProgram_ok]
      by_cases hzero : f.index = 0
      · exact ⟨base, a, by simp [EStateM.bind, hzero, pure, EStateM.pure]⟩
      · obtain ⟨n, a', hn⟩ := Arena.exists_fieldPointer a v base f.index
        exact ⟨n, a', by simp [EStateM.bind, hzero, hn, pure, EStateM.pure]⟩

/-- With an object for what a constant rests on, the constant has one, if the
object is as large as needed for an address in it. -/
theorem exists_objectNode (h : p.RestsOn v u) {base : Nat}
    (hbase : a.objectNode p c u = .ok (some base))
    (hspans : p.addressBehind v = none ∨ (base = nullObject ∨ base = universalObject) ∨
      ∃ t, p.IsSymbol u t ∧ a.Spans p c t base) :
    ∃ n, a.objectNode p c v = .ok (some n) := by
  induction h with
  | anchor => exact ⟨base, hbase⟩
  | cast hv hexpr hk hpointer _ ih =>
    have hlt := lt_of_cast hwf hv hexpr
    rw [addressBehind_of_cast hv hexpr hpointer hk hlt] at hspans
    obtain ⟨n, hn⟩ := ih hmeasured hbase hspans
    exact ⟨n, by rw [Arena.objectNode_cast hv hexpr hpointer hk hlt, hn]⟩
  | @address v u e offset value hv hexpr hoffset h _ =>
    have hrests : p.RestsOn v u := .address hv hexpr hoffset h
    have hpointer := htyped.isPointer_address hv hexpr
    rw [addressBehind_of_address hv hexpr hpointer] at hspans
    rw [Arena.objectNode_elementAddress hv hexpr hpointer (hrests.underlying hwf hix)
      (lt_of_address hwf hix hv hexpr h), hbase]
    dsimp only
    by_cases hsentinel : base = nullObject ∨ base = universalObject
    · exact ⟨base, if_pos hsentinel⟩
    · obtain ⟨t, hsymbol, owner, flags, hplan, hblock⟩ :=
        (hspans.resolve_left (by simp)).resolve_left hsentinel
      obtain ⟨f, hf, hindex⟩ := hrests.exists_constantField hwf hix hc hmeasured hoffset hsymbol
      obtain ⟨n, hn, _⟩ := hplan.exists_fieldNode hblock hindex
      rw [if_neg hsentinel, hf]
      exact ⟨n, congrArg (Except.map some) hn⟩

end Program.RestsOn

/-- What `u` stands for, if anything, has an object if it is a function, and the
type of `u` if the constant `v` is an address in it. -/
def Program.Backed (p : Program) (functionObjects : Bool) (v u : Nat) : Prop :=
  ∀ d, p.definitionOf u = .ok (some d) →
    (p.IsFunction d → functionObjects = true ∧ (d = u ∨ p.values.addressTaken d = .ok true)) ∧
      (p.addressBehind v = none ∨
        (p.values.get? d).map Value.type = (p.values.get? u).map Value.type)

/-- A function type is neither a struct nor an array, also without its arrays. -/
theorem TypeTable.flat_of_function {types : TypeTable} {t : Nat} {shape : FunctionType}
    (h : types.get? t = some (.function shape)) : types.struct? (types.stripArrays t) = none ∧
      types.isArray (types.stripArrays t) = false := by
  have hself : types.stripArrays t = t := stripArraysFrom_self [] (by simp [h])
  rw [hself]
  exact ⟨by rw [struct?, h]; rfl, by rw [isArray, h]; rfl⟩

namespace MemoryModel

variable {p : Program} {config : Config} {m : MemoryModel} {u v d : Nat}

theorem mem_valueNodes_of_provides (h : build p config = .ok m) (hd : p.Provides d) :
    d ∈ m.arena.valueNodes := by
  cases hd with
  | global hm hd hv hdef => exact (build_hasSymbols h hm).globals d hd _ hv hdef
  | function hm hd hdef => exact ((build_hasSymbols h hm).functions d hd _ hdef).node

/-- A definition has the object planned for it. If it is a function, its address
has to be taken. -/
theorem exists_plan_of_provides (hwf : p.WellFormed) (hix : p.Indexed)
    (h : build p config = .ok m) (hd : p.Provides d)
    (htaken : p.IsFunction d → config.functionObjects = true ∧
      ∀ taken, p.values.addressTaken d = .ok taken → taken = true) :
    ∃ value t b plan, p.values.get? d = some value ∧ p.types.pointee? value.type = some t ∧
      m.arena.objectNodes[d]? = some b ∧ m.catalog.Plans p (p.types.stripArrays t) plan ∧
      m.arena.Realizes d b plan := by
  cases hd with
  | @global listing value hm hd hvalue hdef =>
    obtain ⟨other, g, hother, hg, hpointer⟩ := hwf.globals listing hm d hd
    obtain rfl := Option.some.inj (hvalue.symm.trans hother)
    have ht := TypeTable.pointee?_of_get? hpointer
    rw [Value.isDeclaration_of_global? hg] at hdef
    obtain ⟨b, plan, hb, hplan, hreal, _⟩ :=
      exists_plan h ⟨listing, hm, .global hd hvalue hg hdef⟩ hvalue ht
    exact ⟨value, _, b, plan, hvalue, ht, hb, hplan, hreal⟩
  | @function listing f hm hd hdef =>
    have hmodelled := (build_hasSymbols h hm).functions d hd f hdef
    have hfunction := hix.functions listing hm d hd
    obtain ⟨hon, hall⟩ := htaken hfunction
    obtain ⟨taken, hanswer, hmem⟩ := hmodelled.object hon
    obtain ⟨shape, hshape⟩ := hmodelled.signature
    obtain ⟨value, f', hvalue, hf', hpointer⟩ := hfunction
    obtain ⟨other, hother, hf, _⟩ := hdef
    obtain rfl := Option.some.inj (hvalue.symm.trans hother)
    obtain rfl := Option.some.inj (hf.symm.trans hf')
    have ht := TypeTable.pointee?_of_get? hpointer
    have hcall : ∀ callee args, value.instruction? ≠ some (.call callee args) := by
      simp [Value.instruction?, value.kind_of_function? hf]
    obtain ⟨b, plan, hb, hplan, hreal, _⟩ := exists_plan_of_mem h (hmem (hall taken hanswer))
      hvalue ht (fun _ => (TypeTable.flat_of_function hshape).1) hcall
    exact ⟨value, _, b, plan, hvalue, ht, hb, hplan, hreal⟩

/-- The arrays of a definition come to an end, or it would have no object. -/
theorem isArray_of_provides (hwf : p.WellFormed) (hix : p.Indexed) (h : build p config = .ok m)
    (hd : p.Provides d) {t : Nat} (hsymbol : p.IsSymbol d t) :
    p.types.isArray (p.types.stripArrays t) = false := by
  obtain ⟨_, value, hvalue, ht, _⟩ := hsymbol
  cases hd with
  | @global listing found hm hd hfound hdef =>
    obtain rfl := Option.some.inj (hvalue.symm.trans hfound)
    obtain ⟨other, g, hother, hg, _⟩ := hwf.globals listing hm d hd
    obtain rfl := Option.some.inj (hvalue.symm.trans hother)
    rw [Value.isDeclaration_of_global? hg] at hdef
    obtain ⟨_, _, _, _, _, hend⟩ :=
      exists_plan h ⟨listing, hm, .global hd hvalue hg hdef⟩ hvalue ht
    exact hend
  | @function listing f hm hd hdef =>
    obtain ⟨shape, hshape⟩ := ((build_hasSymbols h hm).functions d hd f hdef).signature
    obtain ⟨found, f', hfound, hf', hpointer⟩ := hix.functions listing hm d hd
    obtain ⟨other, hother, hf, _⟩ := hdef
    obtain rfl := Option.some.inj (hvalue.symm.trans hfound)
    obtain rfl := Option.some.inj (hvalue.symm.trans hother)
    obtain rfl := Option.some.inj (hf.symm.trans hf')
    obtain rfl := Option.some.inj (ht.symm.trans (TypeTable.pointee?_of_get? hpointer))
    exact (TypeTable.flat_of_function hshape).2

theorem measured_of_symbol (hwf : p.WellFormed) (hix : p.Indexed) (h : build p config = .ok m)
    (hrests : p.RestsOn v u)
    (hend : p.definitionOf u = .ok (some u) ∨
      ∀ t, p.IsSymbol u t → ∃ stripped, p.types.strip t = .ok stripped) {t : Nat}
    (hsymbol : p.IsSymbol u t) : Catalog.Measured p t := by
  obtain ⟨_, _, hknown, _⟩ := build_covered h
  refine hknown.measured hsymbol.1 ?_
  rcases hend with hown | hend
  · rcases hrests.anchored.fixed_or_symbol hwf hix with hfixed | ⟨_, hprovides⟩
    · obtain ⟨value, k, hvalue, hk, _⟩ := hfixed
      simp [hsymbol.constant?_eq_none hvalue] at hk
    · exact isArray_of_provides hwf hix h (hprovides u hown) hsymbol
  · obtain ⟨stripped, hstrip⟩ := hend t hsymbol
    exact (TypeTable.strip_eq_ok.mp hstrip).1

/-- A constant over a symbol has an object if the definition of the symbol has
one as large as the symbol says. -/
theorem exists_objectNode_of_backed (hwf : p.WellFormed) (hix : p.Indexed) (htyped : p.Typed)
    (h : build p config = .ok m) {a : Arena} (hr : m.arena.Retains a) (hrests : p.RestsOn v u)
    (hmeasured : ∀ t, p.IsSymbol u t → Catalog.Measured p t)
    (hne : ∀ t, p.IsSymbol u t → v ≠ u) (hbacked : p.Backed config.functionObjects v u) :
    ∃ n, a.objectNode p m.catalog v = .ok (some n) := by
  have hc : m.catalog.Grounded p := (build_sound h).1.catalog.grounded
  have hresolve : ∀ base, a.objectNode p m.catalog u = .ok (some base) →
      (p.addressBehind v = none ∨ (base = nullObject ∨ base = universalObject) ∨
        ∃ t, p.IsSymbol u t ∧ a.Spans p m.catalog t base) → _ :=
    fun base => hrests.exists_objectNode hwf hix htyped hc hmeasured
  rcases hrests.anchored.fixed_or_symbol hwf hix with hfixed | ⟨⟨t, hsymbol⟩, hprovides⟩
  · obtain ⟨base, hbase, hsentinel⟩ := Arena.objectNode_fixed hfixed
    exact hresolve base hbase (.inr (.inl hsentinel))
  obtain ⟨found, hdef⟩ := hsymbol.exists_definition
  have hnode := Arena.objectNode_symbol (c := m.catalog) (a := a) hsymbol hdef
  cases found with
  | none => exact hresolve _ hnode (.inr (.inl (.inr rfl)))
  | some d =>
    obtain ⟨htaken, hsame⟩ := hbacked d hdef
    have hobject : p.IsFunction d → config.functionObjects = true ∧
        ∀ taken, p.values.addressTaken d = .ok taken → taken = true := by
      intro hfunction
      obtain ⟨hon, huser⟩ := htaken hfunction
      refine ⟨hon, fun taken hanswer => ?_⟩
      rcases huser with rfl | huser
      · exact hrests.addressTaken hix (hne t hsymbol) hanswer
      · exact Except.ok.inj (hanswer.symm.trans huser)
    obtain ⟨other, t', b, plan, hother, ht', hb, hplan, hreal⟩ :=
      exists_plan_of_provides hwf hix h (hprovides d hdef) hobject
    rw [Option.elim_some, hr.objectNodes, hb] at hnode
    refine hresolve b hnode (hsame.imp id fun hsame => ?_)
    obtain ⟨_, value, hu, ht, _⟩ := id hsymbol
    obtain rfl : t' = t := by
      rw [hother, hu, Option.map_some, Option.map_some, Option.some.injEq] at hsame
      rw [hsame, ht] at ht'
      exact (Option.some.inj ht').symm
    refine (Arena.spans_of_realizes hplan (hreal.mono hr.toExtends)).imp id ?_
    exact fun hspans => ⟨t', hsymbol, hspans⟩

/-- In a program written without raw commands, a constant that comes down to a
null or unknown address, a number or a symbol has a node for its value, whatever
was asked before. It has an object if the definition of the symbol has one as
large as the symbol says. Without objects for functions, a constant over a
function has none. A symbol that only stands for its definition must not point to
arrays inside themselves. -/
theorem constant_resolves {layout : DataLayout} {commands : List Command}
    (hp : ((Draft.start layout).runScript commands).2.program = p)
    (hraw : ∀ c ∈ commands, c.isRaw = false) (h : build p config = .ok m) (uses : List Use)
    {value : Value} (hv : p.values.get? v = some value) (hconstant : value.constant?.isSome = true)
    (hrests : p.RestsOn v u)
    (hend : p.definitionOf u = .ok (some u) ∨
      ∀ t, p.IsSymbol u t → ∃ stripped, p.types.strip t = .ok stripped) :
    (∃ n, (m.after uses).nodeOf v = .ok (some n)) ∧
      (p.Backed config.functionObjects v u →
        ∃ n, (m.after uses).arena.objectNode p m.catalog v = .ok (some n)) ∧
      (config.functionObjects = false → ∀ d, p.definitionOf u = .ok (some d) → p.IsFunction d →
        ∃ w, (m.after uses).arena.objectNode p m.catalog v = .error (.missingBase w)) := by
  have hwf : p.WellFormed := hp ▸ Draft.runScript_wellFormed layout commands
  have hix : p.Indexed := hp ▸ Draft.runScript_indexed layout commands
  have htyped : p.Typed := hp ▸ Draft.runScript_typed layout hraw
  have hprogram : m.program = p := (build_population h).1
  have hr := (m.after_retains uses).1
  -- the constant is no symbol, so it is not what it rests on if that is one
  have hne : ∀ t, p.IsSymbol u t → v ≠ u := by
    rintro t hsymbol rfl
    simp [hsymbol.constant?_eq_none hv] at hconstant
  have hmeasured : ∀ t, p.IsSymbol u t → Catalog.Measured p t :=
    fun _ => measured_of_symbol hwf hix h hrests hend
  refine ⟨?_, exists_objectNode_of_backed hwf hix htyped h hr hrests hmeasured hne, ?_⟩
  · obtain ⟨_, hkeeps, hprogram', hcatalog⟩ :=
      after_caching (hprogram ▸ hwf) (hprogram ▸ hix) rfl rfl (build_caching h) uses
    have hc : m.catalog.Grounded p := (build_sound h).1.catalog.grounded
    have hnodes : ∀ d, p.Provides d → d ∈ (m.after uses).arena.valueNodes := by
      intro d hd
      have hmem := mem_valueNodes_of_provides h hd
      rw [← Std.TreeMap.isSome_getElem?_iff_mem, Option.isSome_iff_exists] at hmem
      obtain ⟨n, hn⟩ := hmem
      exact Std.TreeMap.isSome_getElem?_iff_mem.mp (by simp [hkeeps d n hn])
    obtain ⟨n, a, hn⟩ := hrests.exists_valueNode hwf hix htyped hc hmeasured hnodes
    refine ⟨n, ?_⟩
    rw [nodeOf_eq, hprogram', hprogram, hcatalog, answers, hn]
  · intro hoff d hdef hfunction
    rcases hrests.anchored.fixed_or_symbol hwf hix with hfixed | ⟨⟨t, hsymbol⟩, _⟩
    · exact absurd hfunction (hfixed.not_isFunction hdef)
    · obtain ⟨other, f, hother, hf, _⟩ := hfunction
      have hnone := not_mem_objectNodes_of_function hwf h hoff hother (by simp [hf])
      rw [← hr.objectNodes] at hnone
      refine hrests.objectNode_missing hwf hix htyped (hne t hsymbol) ?_
      rw [Arena.objectNode_symbol hsymbol hdef, Option.elim_some,
        Std.TreeMap.getElem?_eq_none hnone]

/-- A table that is defined in another module, and a function, both addressed as
bytes. -/
def linking : List Command := [
  .int 32,
  .defineStruct "pair" [0, 0],
  .int 8,
  .pointerTo 2,
  .void,
  .functionOf 4 [] false,
  .addModule "a.o",
  .global "table" 1 true,
  .function "handler" 5 false,
  .constantCast .bit 1 3,
  .constantAddress 1 0 [0, 1],
  .constantCast .bit 5 3,
  .addModule "b.o",
  .enterModule 1,
  .global "table" 1 false]

def linked : Program :=
  ((Draft.start {}).runScript linking).2.program

theorem constant_resolves_linked :
    (∃ m n b, build linked {} = .ok m ∧ (m.after [.valueNode 5]).nodeOf 6 = .ok (some n) ∧
      (m.after [.valueNode 5]).arena.objectNode linked m.catalog 6 = .ok (some b)) ∧
    ∃ m w, build linked { functionObjects := false } = .ok m ∧
      m.arena.objectNode linked m.catalog 2 = .error (.missingBase w) := by
  have hp : ((Draft.start {}).runScript linking).2.program = linked := rfl
  have hraw : ∀ c ∈ linking, c.isRaw = false := by decide
  have hdeclared : linked.definitionOf 0 = .ok (some 7) := by decide +kernel
  have hsymbol : linked.values.get? 0 =
      some ⟨6, some "table", .global ⟨1, true, 0⟩, [5]⟩ := by decide +kernel
  have htable : linked.values.get? 7 =
      some ⟨6, some "table", .global ⟨1, false, 1⟩, []⟩ := by decide +kernel
  have hhandler : linked.values.get? 1 =
      some ⟨7, some "handler", .function ⟨5, false, [], [], 0⟩, [2]⟩ := by decide +kernel
  have hbytes : linked.values.get? 2 =
      some ⟨3, none, .constant (.expr (.cast .bit 1)), []⟩ := by decide +kernel
  have haddress : linked.values.get? 5 =
      some ⟨9, none, .constant (.expr (.elementAddress ⟨1, 0, [3, 4]⟩)), [6]⟩ := by decide +kernel
  have hcast : linked.values.get? 6 =
      some ⟨3, none, .constant (.expr (.cast .bit 5)), []⟩ := by decide +kernel
  have hone : ∀ d, linked.definitionOf 0 = .ok (some d) → d = 7 := by
    intro d hd
    simpa [hdeclared] using hd.symm
  have htables : linked.RestsOn 6 0 := by
    have hoffset : linked.byteOffset 5 = .ok 4 := by decide +kernel
    refine .cast hcast rfl rfl (by decide +kernel) (.address haddress rfl hoffset
      (.anchor (.global (m := ⟨"a.o", [0], [1]⟩) (by decide +kernel) (by simp) ?_)))
    intro d value hd hvalue
    rw [hone d hd, htable] at hvalue
    rw [← Option.some.inj hvalue]
    rfl
  have hhandlers : linked.RestsOn 2 1 :=
    .cast hbytes rfl rfl (by decide +kernel) (.anchor (.function (m := ⟨"a.o", [0], [1]⟩)
      (by decide +kernel) (by simp) hhandler (by decide +kernel)))
  have hbacked : linked.Backed true 6 0 := by
    intro d hd
    rw [hone d hd]
    refine ⟨?_, .inr (by decide +kernel)⟩
    rintro ⟨value, f, hvalue, hf, _⟩
    rw [htable] at hvalue
    rw [← Option.some.inj hvalue] at hf
    cases hf
  have hstrip : ∀ t, linked.IsSymbol 0 t → ∃ stripped, linked.types.strip t = .ok stripped := by
    have hpair : linked.types.pointee? 6 = some 1 := by decide +kernel
    have hends : linked.types.strip 1 = .ok 1 := by decide +kernel
    rintro t ⟨_, value, hvalue, ht, _⟩
    rw [hsymbol] at hvalue
    rw [← Option.some.inj hvalue, hpair] at ht
    obtain rfl := Option.some.inj ht
    exact ⟨1, hends⟩
  constructor
  · obtain ⟨m, hb, _⟩ := exists_built linked {} (fun _ => true) (by decide +kernel)
    obtain ⟨⟨n, hn⟩, hobject, _⟩ :=
      constant_resolves hp hraw hb [.valueNode 5] hcast rfl htables (.inr hstrip)
    obtain ⟨b, hnode⟩ := hobject hbacked
    exact ⟨m, n, b, hb, hn, hnode⟩
  · obtain ⟨m, hb, _⟩ := exists_built linked { functionObjects := false } (fun _ => true)
      (by decide +kernel)
    obtain ⟨_, _, hmissing⟩ :=
      constant_resolves hp hraw hb [] hbytes rfl hhandlers (.inl (by decide +kernel))
    obtain ⟨w, hw⟩ := hmissing rfl 1 (by decide +kernel)
      ⟨_, _, hhandler, rfl, by decide +kernel⟩
    exact ⟨m, w, hb, hw⟩

/-- A function of its own, a function and a table that another module defines,
and a byte that is an intrinsic function elsewhere, each with a constant over
it, and an address that starts from a number. -/
def straying : List Command := [
  .int 64,
  .defineStruct "pair" [0, 0],
  .int 8,
  .pointerTo 2,
  .void,
  .functionOf 4 [] false,
  .addModule "a.o",
  .function "own" 5 false,
  .constantCast .bit 0 3,
  .function "other" 5 true,
  .constantCast .bit 2 3,
  .global "llvm.hook" 2 true,
  .constantCast .bit 4 3,
  .integer 0 0,
  .constantAddress 0 6 [0],
  .global "table" 1 true,
  .constantAddress 1 9 [0, 1],
  .addModule "b.o",
  .enterModule 1,
  .function "other" 5 false,
  .function "llvm.hook" 5 false,
  .global "table" 0 false]

def stray : Program :=
  ((Draft.start {}).runScript straying).2.program

/-- Without objects for functions, a cast of one has no object. Even with them, a
cast of a function has none if the function is not addressed where it is defined.
There is no node for a cast of what stands for an intrinsic function, nor for an
address that starts from a number. An address may lie outside the definition. -/
theorem constant_unresolved_stray : ∃ off m, build stray { functionObjects := false } = .ok off ∧
    build stray {} = .ok m ∧
    off.arena.objectNode stray off.catalog 1 = .error (.missingBase 1) ∧
    m.arena.objectNode stray m.catalog 3 = .error (.missingBase 3) ∧
    m.nodeOf 5 = .error (.missingBase 5) ∧
    m.nodeOf 8 = .error (.program (.wrongType .pointer 0)) ∧
    m.arena.objectNode stray m.catalog 12 = .error (.notContiguous 8 1) := by
  obtain ⟨off, hoff, hmissing⟩ := exists_built stray { functionObjects := false } (fun off =>
    decide (off.arena.objectNode stray off.catalog 1 = .error (.missingBase 1)))
    (by decide +kernel)
  obtain ⟨m, hon, hfacts⟩ := exists_built stray {} (fun m =>
    decide (m.arena.objectNode stray m.catalog 3 = .error (.missingBase 3) ∧
      m.nodeOf 5 = .error (.missingBase 5) ∧
      m.nodeOf 8 = .error (.program (.wrongType .pointer 0)) ∧
      m.arena.objectNode stray m.catalog 12 = .error (.notContiguous 8 1))) (by decide +kernel)
  exact ⟨off, m, hoff, hon, of_decide_eq_true hmissing, of_decide_eq_true hfacts⟩

end MemoryModel

end AbstractMemory
