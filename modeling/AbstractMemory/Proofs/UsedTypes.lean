import AbstractMemory.Proofs.Anchors
import AbstractMemory.Proofs.ConstantAddress
import AbstractMemory.Proofs.Placement
import AbstractMemory.Proofs.Usage
import Mathlib

/-! The struct types that a module uses are those it is written with and those
they refer to, each of them once. -/

namespace AbstractMemory

open Steps

/-- A type is written with another. -/
inductive TypeTable.Refers (types : TypeTable) (t : Nat) : Nat → Prop
  | pointee {u : Nat} (h : types.get? t = some (.pointer u)) : Refers types t u
  | element {u n : Nat} (h : types.get? t = some (.array u n)) : Refers types t u
  | result {f : FunctionType} (h : types.get? t = some (.function f)) : Refers types t f.result
  | param {f : FunctionType} {u : Nat} (h : types.get? t = some (.function f))
      (hu : u ∈ f.params) : Refers types t u
  | member {s : StructType} {u : Nat} (h : types.get? t = some (.struct s))
      (hu : u ∈ s.members) : Refers types t u

theorem TypeTable.follows_iff_refers {types : TypeTable} {t u : Nat} :
    Follows types.size types.mentions t u ↔ types.Refers t u := by
  constructor
  · rintro ⟨_, hu⟩
    unfold mentions at hu
    cases ht : types.get? t with
    | none => simp [ht] at hu
    | some ty =>
      simp only [ht, Option.elim_some] at hu
      cases ty with
      | void | integer | float => simp [Ty.mentions] at hu
      | pointer v =>
        obtain rfl : u = v := by simpa [Ty.mentions] using hu
        exact .pointee ht
      | array v n =>
        obtain rfl : u = v := by simpa [Ty.mentions] using hu
        exact .element ht
      | struct s => exact .member ht hu
      | function f =>
        rcases List.mem_append.mp hu with hu | hu
        · exact .param ht hu
        · obtain rfl : u = f.result := by simpa using hu
          exact .result ht
  · intro h
    cases h with
    | pointee h => exact ⟨lt_size_of_get? h, by simp [mentions, h, Ty.mentions]⟩
    | element h => exact ⟨lt_size_of_get? h, by simp [mentions, h, Ty.mentions]⟩
    | result h => exact ⟨lt_size_of_get? h, by simp [mentions, h, Ty.mentions]⟩
    | param h hu => exact ⟨lt_size_of_get? h, by simp [mentions, h, Ty.mentions, hu]⟩
    | member h hu => exact ⟨lt_size_of_get? h, by simpa [mentions, h, Ty.mentions] using hu⟩

/-- If every step of a list answers, so do all, and the answers are those of the steps. -/
theorem exists_mapM {α β ε : Type} {f : α → Except ε β} {l : List α}
    (h : ∀ a ∈ l, ∃ b, f a = .ok b) :
    ∃ bs, l.mapM f = .ok bs ∧ ∀ b, b ∈ bs ↔ ∃ a ∈ l, f a = .ok b := by
  induction l with
  | nil => exact ⟨[], rfl, by simp⟩
  | cons a rest ih =>
    obtain ⟨b, hb⟩ := h a (by simp)
    obtain ⟨bs, hbs, hmem⟩ := ih fun x hx => h x (by simp [hx])
    refine ⟨b :: bs, by rw [List.mapM_cons, hb, hbs]; rfl, fun b' => ?_⟩
    simp only [List.mem_cons, hmem, or_and_right, exists_or, exists_eq_left, hb,
      Except.ok.injEq, @eq_comm _ b']

theorem exists_mapM_flatten {α β ε : Type} {f : α → Except ε (List β)} {l : List α}
    {holds : α → β → Prop} (h : ∀ a ∈ l, ∃ bs, f a = .ok bs ∧ ∀ b, b ∈ bs ↔ holds a b) :
    ∃ bss, l.mapM f = .ok bss ∧ ∀ b, b ∈ bss.flatten ↔ ∃ a ∈ l, holds a b := by
  obtain ⟨bss, hbss, hmem⟩ := exists_mapM fun a ha => (h a ha).imp fun _ hbs => hbs.1
  refine ⟨bss, hbss, fun b => ?_⟩
  rw [List.mem_flatten]
  constructor
  · rintro ⟨bs, hbs, hb⟩
    obtain ⟨a, ha, hfa⟩ := (hmem bs).mp hbs
    obtain ⟨bs', hfa', hholds⟩ := h a ha
    obtain rfl := Except.ok.inj (hfa.symm.trans hfa')
    exact ⟨a, ha, (hholds b).mp hb⟩
  · rintro ⟨a, ha, hb⟩
    obtain ⟨bs, hfa, hholds⟩ := h a ha
    exact ⟨bs, (hmem bs).mpr ⟨a, ha, hfa⟩, (hholds b).mpr hb⟩

namespace Value

variable {value : Value} {t : Nat}

theorem mem_mentions_global {gl : Global} (hk : value.kind = .global gl) :
    t ∈ value.mentions ↔ t = value.type ∨ t = gl.valueType := by
  simp [mentions, hk]

theorem mem_mentions_function {f : Function} (hk : value.kind = .function f) :
    t ∈ value.mentions ↔ t = value.type ∨ t = f.signature := by
  simp [mentions, hk]

theorem mem_mentions_instruction {parent : Nat} {op : Instruction}
    (hk : value.kind = .instruction parent op) : t ∈ value.mentions ↔
      t = value.type ∨ op = .alloca t ∨ ∃ a, op = .elementAddress a ∧ t = a.source := by
  cases op <;> simp [mentions, hk, eq_comm]

theorem mem_mentions_constant {k : Constant} (hk : value.kind = .constant k) :
    t ∈ value.mentions ↔
      t = value.type ∨ ∃ a, k = .expr (.elementAddress a) ∧ t = a.source := by
  cases k with
  | expr e => cases e <;> simp [mentions, hk]
  | _ => simp [mentions, hk]

end Value

namespace Program

variable {p : Program} {m : Module} {i t u v w : Nat} {op : Instruction}

/-- The values an instruction is written with, itself or in the constants that are
operands. -/
inductive WrittenWith (p : Program) (op : Instruction) : Nat → Prop
  | operand {w : Nat} (h : w ∈ op.operands) : WrittenWith p op w
  | inner {w u : Nat} {value : Value} {e : ConstantExpr} (h : WrittenWith p op w)
      (hw : p.values.get? w = some value) (hk : value.kind = .constant (.expr e))
      (hu : u ∈ e.operands) : WrittenWith p op u

/-- The types of an instruction and of the constants in it. -/
inductive InInstruction (p : Program) (i : Nat) : Nat → Prop
  | type {value : Value} (hi : p.values.get? i = some value) : InInstruction p i value.type
  | allocated {value : Value} {parent t : Nat} (hi : p.values.get? i = some value)
      (hk : value.kind = .instruction parent (.alloca t)) : InInstruction p i t
  | source {value : Value} {parent : Nat} {a : ElementAddress}
      (hi : p.values.get? i = some value)
      (hk : value.kind = .instruction parent (.elementAddress a)) : InInstruction p i a.source
  | constant {value inner : Value} {parent w : Nat} {op : Instruction} {k : Constant}
      (hi : p.values.get? i = some value) (hk : value.kind = .instruction parent op)
      (h : p.WrittenWith op w) (hw : p.values.get? w = some inner)
      (hinner : inner.kind = .constant k) : InInstruction p i inner.type
  | constantSource {value inner : Value} {parent w : Nat} {op : Instruction} {a : ElementAddress}
      (hi : p.values.get? i = some value) (hk : value.kind = .instruction parent op)
      (h : p.WrittenWith op w) (hw : p.values.get? w = some inner)
      (hinner : inner.kind = .constant (.expr (.elementAddress a))) : InInstruction p i a.source

/-- The types of a function, its arguments and its instructions. -/
inductive InFunction (p : Program) (v : Nat) : Nat → Prop
  | type {value : Value} (hv : p.values.get? v = some value) : InFunction p v value.type
  | signature {value : Value} {f : Function} (hv : p.values.get? v = some value)
      (hk : value.kind = .function f) : InFunction p v f.signature
  | argument {value arg : Value} {f : Function} {a : Nat} (hv : p.values.get? v = some value)
      (hk : value.kind = .function f) (ha : a ∈ f.args) (harg : p.values.get? a = some arg) :
      InFunction p v arg.type
  | instruction {value : Value} {f : Function} {i t : Nat} (hv : p.values.get? v = some value)
      (hk : value.kind = .function f) (hi : i ∈ f.body) (ht : p.InInstruction i t) :
      InFunction p v t

/-- The types of the globals and functions of a module. -/
inductive InModule (p : Program) (m : Module) : Nat → Prop
  | global {g : Nat} {value : Value} (hg : g ∈ m.globals) (hv : p.values.get? g = some value) :
      InModule p m value.type
  | content {g : Nat} {value : Value} {gl : Global} (hg : g ∈ m.globals)
      (hv : p.values.get? g = some value) (hk : value.kind = .global gl) :
      InModule p m gl.valueType
  | function {v t : Nat} (hv : v ∈ m.functions) (ht : p.InFunction v t) : InModule p m t

/-- A module is written with a type, or with one that leads to it. -/
def Uses (p : Program) (m : Module) (t : Nat) : Prop :=
  ∃ u, p.InModule m u ∧ Relation.ReflTransGen p.types.Refers u t

/-! ### The types found are those written -/

theorem follows_constantOperands : Follows p.values.size p.constantOperands w u ↔
    ∃ value e, p.values.get? w = some value ∧ value.kind = .constant (.expr e) ∧
      u ∈ e.operands := by
  constructor
  · rintro ⟨_, hu⟩
    unfold constantOperands at hu
    cases he : (p.values.get? w).bind Value.constantExpr? with
    | none => simp [he] at hu
    | some e =>
      obtain ⟨value, hw, hk⟩ := Option.bind_eq_some_iff.mp he
      exact ⟨value, e, hw, value.kind_of_constantExpr? hk, by simpa [he] using hu⟩
  · rintro ⟨value, e, hw, hk, hu⟩
    refine ⟨ValueTable.lt_size_of_get? hw, ?_⟩
    simpa [constantOperands, hw, Value.constantExpr?, hk] using hu

theorem writtenWith_iff : p.WrittenWith op w ↔
    w ∈ visited p.values.size p.constantOperands op.operands := by
  rw [mem_visited_iff]
  constructor
  · intro h
    induction h with
    | operand h => exact ⟨_, h, .refl⟩
    | inner _ hw hk hu ih =>
      obtain ⟨start, hstart, hreach⟩ := ih
      exact ⟨start, hstart, hreach.tail (follows_constantOperands.mpr ⟨_, _, hw, hk, hu⟩)⟩
  · rintro ⟨start, hstart, hreach⟩
    induction hreach with
    | refl => exact .operand hstart
    | tail _ hstep ih =>
      obtain ⟨value, e, hw, hk, hu⟩ := follows_constantOperands.mp hstep
      exact .inner ih hw hk hu

theorem WellFormed.writtenWith_lt (hp : p.WellFormed) {value : Value} {parent : Nat}
    (hi : p.values.get? i = some value) (hk : value.kind = .instruction parent op)
    (h : p.WrittenWith op w) : w < i := by
  induction h with
  | operand h => exact hp.operands i value hi _ (by simpa [Value.operands, hk] using h)
  | inner _ hw hk' hu ih =>
    exact (hp.operands _ _ hw _ (by simpa [Value.operands, hk'] using hu)).trans ih

theorem exists_get (h : w < p.values.size) : ∃ value, p.values.get w = .ok value :=
  ⟨_, ValueTable.get_eq_ok.mpr (Array.getElem?_eq_getElem h)⟩

theorem exists_constantTypes (operands : List Nat)
    (h : ∀ w ∈ visited p.values.size p.constantOperands operands, w < p.values.size) :
    ∃ types, p.constantTypes operands = .ok types ∧ ∀ t, t ∈ types ↔
      ∃ w ∈ visited p.values.size p.constantOperands operands, ∃ value k,
        p.values.get? w = some value ∧ value.kind = .constant k ∧ t ∈ value.mentions := by
  obtain ⟨values, hvalues, hmem⟩ := exists_mapM fun w hw => exists_get (h w hw)
  refine ⟨_, bind_eq_ok.mpr ⟨values, hvalues, rfl⟩, fun t => ?_⟩
  simp only [List.mem_flatMap, List.mem_filter, hmem, ValueTable.get_eq_ok]
  constructor
  · rintro ⟨value, ⟨⟨w, hw, hget⟩, hconstant⟩, ht⟩
    obtain ⟨k, hk⟩ := Option.isSome_iff_exists.mp hconstant
    exact ⟨w, hw, value, k, hget, value.kind_of_constant? hk, ht⟩
  · rintro ⟨w, hw, value, k, hget, hk, ht⟩
    exact ⟨value, ⟨⟨w, hw, hget⟩, by simp [Value.constant?, hk]⟩, ht⟩

theorem inInstruction_iff {value : Value} {parent : Nat} (hi : p.values.get? i = some value)
    (hk : value.kind = .instruction parent op) : p.InInstruction i t ↔ t ∈ value.mentions ∨
      ∃ w, p.WrittenWith op w ∧ ∃ inner k,
        p.values.get? w = some inner ∧ inner.kind = .constant k ∧ t ∈ inner.mentions := by
  constructor
  · intro h
    cases h with
    | type hi' =>
      obtain rfl := Option.some.inj (hi.symm.trans hi')
      exact .inl (by simp [Value.mentions])
    | allocated hi' hk' =>
      obtain rfl := Option.some.inj (hi.symm.trans hi')
      exact .inl ((Value.mem_mentions_instruction hk').mpr (.inr (.inl rfl)))
    | source hi' hk' =>
      obtain rfl := Option.some.inj (hi.symm.trans hi')
      exact .inl ((Value.mem_mentions_instruction hk').mpr (.inr (.inr ⟨_, rfl, rfl⟩)))
    | constant hi' hk' h hw hinner =>
      obtain rfl := Option.some.inj (hi.symm.trans hi')
      obtain ⟨rfl, rfl⟩ := ValueKind.instruction.inj (hk.symm.trans hk')
      exact .inr ⟨_, h, _, _, hw, hinner, by simp [Value.mentions]⟩
    | constantSource hi' hk' h hw hinner =>
      obtain rfl := Option.some.inj (hi.symm.trans hi')
      obtain ⟨rfl, rfl⟩ := ValueKind.instruction.inj (hk.symm.trans hk')
      exact .inr ⟨_, h, _, _, hw, hinner,
        (Value.mem_mentions_constant hinner).mpr (.inr ⟨_, rfl, rfl⟩)⟩
  · rintro (ht | ⟨w, hw, inner, k, hget, hinner, ht⟩)
    · rcases (Value.mem_mentions_instruction hk).mp ht with rfl | rfl | ⟨a, rfl, rfl⟩
      · exact .type hi
      · exact .allocated hi hk
      · exact .source hi hk
    · rcases (Value.mem_mentions_constant hinner).mp ht with rfl | ⟨a, rfl, rfl⟩
      · exact .constant hi hk hw hget hinner
      · exact .constantSource hi hk hw hget hinner

theorem exists_instructionTypes (hp : p.WellFormed) (hi : p.IsInstruction v i) :
    ∃ types, p.instructionTypes i = .ok types ∧ ∀ t, t ∈ types ↔ p.InInstruction i t := by
  obtain ⟨value, op, hi, hk, _⟩ := hi
  have hops : value.operands = op.operands := by simp [Value.operands, hk]
  have hknown : ∀ w ∈ visited p.values.size p.constantOperands value.operands,
      w < p.values.size := by
    intro w hw
    rw [hops, ← writtenWith_iff] at hw
    exact (hp.writtenWith_lt hi hk hw).trans (ValueTable.lt_size_of_get? hi)
  obtain ⟨types, htypes, hmem⟩ := exists_constantTypes value.operands hknown
  refine ⟨_, bind_eq_ok.mpr ⟨value, ValueTable.get_eq_ok.mpr hi,
    bind_eq_ok.mpr ⟨types, htypes, rfl⟩⟩, fun t => ?_⟩
  simp only [List.mem_append, hmem, hops, ← writtenWith_iff, inInstruction_iff hi hk]

theorem inFunction_iff {value : Value} {f : Function} (hv : p.values.get? v = some value)
    (hk : value.kind = .function f) : p.InFunction v t ↔ t ∈ value.mentions ∨
      (∃ a ∈ f.args, ∃ arg, p.values.get? a = some arg ∧ t = arg.type) ∨
      ∃ i ∈ f.body, p.InInstruction i t := by
  rw [Value.mem_mentions_function hk]
  constructor
  · intro h
    cases h with
    | type hv' =>
      obtain rfl := Option.some.inj (hv.symm.trans hv')
      exact .inl (.inl rfl)
    | signature hv' hk' =>
      obtain rfl := Option.some.inj (hv.symm.trans hv')
      obtain rfl := ValueKind.function.inj (hk.symm.trans hk')
      exact .inl (.inr rfl)
    | argument hv' hk' ha harg =>
      obtain rfl := Option.some.inj (hv.symm.trans hv')
      obtain rfl := ValueKind.function.inj (hk.symm.trans hk')
      exact .inr (.inl ⟨_, ha, _, harg, rfl⟩)
    | instruction hv' hk' hi ht =>
      obtain rfl := Option.some.inj (hv.symm.trans hv')
      obtain rfl := ValueKind.function.inj (hk.symm.trans hk')
      exact .inr (.inr ⟨_, hi, ht⟩)
  · rintro ((rfl | rfl) | ⟨a, ha, arg, harg, rfl⟩ | ⟨i, hi, ht⟩)
    · exact .type hv
    · exact .signature hv hk
    · exact .argument hv hk ha harg
    · exact .instruction hv hk hi ht

theorem exists_functionTypes (hp : p.WellFormed) (hv : p.FunctionAt i v) :
    ∃ types, p.functionTypes v = .ok types ∧ ∀ t, t ∈ types ↔ p.InFunction v t := by
  obtain ⟨value, f, hv, hk, harranged⟩ := hv
  have hf : value.function? = some f := by simp [Value.function?, hk]
  obtain ⟨args, hargs, hmemArgs⟩ := exists_mapM (f := p.values.get) fun a ha => by
    obtain ⟨arg, _, hget, _⟩ := harranged.args.2 a ha
    exact ⟨arg, ValueTable.get_eq_ok.mpr hget⟩
  obtain ⟨body, hbody, hmemBody⟩ := exists_mapM_flatten fun u hu =>
    exists_instructionTypes hp (harranged.body.2 u hu)
  refine ⟨_, bind_eq_ok.mpr ⟨value, ValueTable.get_eq_ok.mpr hv, bind_eq_ok.mpr ⟨args, ?_,
    bind_eq_ok.mpr ⟨body, ?_, rfl⟩⟩⟩, fun t => ?_⟩
  · simpa [hf] using hargs
  · simpa [hf] using hbody
  · rw [inFunction_iff hv hk, List.mem_append, List.mem_append, hmemBody, List.mem_map, or_assoc]
    refine or_congr_right (or_congr_left ?_)
    constructor
    · rintro ⟨arg, harg, rfl⟩
      obtain ⟨a, ha, hget⟩ := (hmemArgs arg).mp harg
      exact ⟨a, ha, arg, ValueTable.get_eq_ok.mp hget, rfl⟩
    · rintro ⟨a, ha, arg, hget, rfl⟩
      exact ⟨arg, (hmemArgs arg).mpr ⟨a, ha, ValueTable.get_eq_ok.mpr hget⟩, rfl⟩

theorem exists_moduleTypes (hp : p.WellFormed) (hplace : p.InPlace)
    (hm : p.modules[i]? = some m) :
    ∃ types, p.moduleTypes m = .ok types ∧ ∀ t, t ∈ types ↔ p.InModule m t := by
  have hglobal := (hplace.globals i m hm).2
  obtain ⟨globals, hglobals, hmemGlobals⟩ := exists_mapM (f := p.values.get) fun g hg => by
    obtain ⟨value, _, hget, _⟩ := hglobal g hg
    exact ⟨value, ValueTable.get_eq_ok.mpr hget⟩
  obtain ⟨functions, hfunctions, hmemFunctions⟩ := exists_mapM_flatten fun v hv =>
    exists_functionTypes hp ((hplace.functions i m hm).2 v hv)
  refine ⟨_, bind_eq_ok.mpr ⟨globals, hglobals, bind_eq_ok.mpr ⟨functions, hfunctions, rfl⟩⟩,
    fun t => ?_⟩
  rw [List.mem_append, hmemFunctions, List.mem_flatMap]
  constructor
  · rintro (⟨value, hvalue, ht⟩ | ⟨v, hv, ht⟩)
    · obtain ⟨g, hg, hget⟩ := (hmemGlobals value).mp hvalue
      have hvalue := ValueTable.get_eq_ok.mp hget
      obtain ⟨value', gl, hvalue', hk, _⟩ := hglobal g hg
      obtain rfl := Option.some.inj (hvalue.symm.trans hvalue')
      rcases (Value.mem_mentions_global hk).mp ht with rfl | rfl
      · exact .global hg hvalue
      · exact .content hg hvalue hk
    · exact .function hv ht
  · intro h
    cases h with
    | global hg hv =>
      exact .inl ⟨_, (hmemGlobals _).mpr ⟨_, hg, ValueTable.get_eq_ok.mpr hv⟩,
        by simp [Value.mentions]⟩
    | content hg hv hk =>
      exact .inl ⟨_, (hmemGlobals _).mpr ⟨_, hg, ValueTable.get_eq_ok.mpr hv⟩,
        (Value.mem_mentions_global hk).mpr (.inr rfl)⟩
    | function hv ht => exact .inr ⟨_, hv, ht⟩

/-- All types that a module uses are found, and one that is not there is an error. -/
theorem usedStructs_cases (hp : p.WellFormed) (hplace : p.InPlace)
    (hm : p.modules[i]? = some m) :
    ∃ found : List Nat, found.Nodup ∧ (∀ t, t ∈ found ↔ p.Uses m t) ∧
      ((∃ t ∈ found, p.types.get? t = none ∧ p.usedStructs i = .error (.unknownType t)) ∨
        (∀ t ∈ found, (p.types.get? t).isSome = true) ∧
          p.usedStructs i = .ok (found.filter p.types.isStruct)) := by
  obtain ⟨types, htypes, hmem⟩ := exists_moduleTypes hp hplace hm
  refine ⟨visited p.types.size p.types.mentions types, nodup_visited _, fun t => ?_, ?_⟩
  · have hsame : Follows p.types.size p.types.mentions = p.types.Refers := by
      funext a b
      exact propext TypeTable.follows_iff_refers
    simp only [mem_visited_iff, hmem, hsame, Uses]
  · cases hfind : (visited p.types.size p.types.mentions types).find?
        fun t => decide (p.types.size ≤ t) with
    | some t =>
      refine .inl ⟨t, List.mem_of_find?_eq_some hfind, ?_, ?_⟩
      · have hle : p.types.size ≤ t := by simpa using List.find?_some hfind
        exact Array.getElem?_eq_none hle
      · simp [usedStructs, getModule, hm, htypes, hfind, bind, Except.bind, throw, throwThe,
          MonadExceptOf.throw]
    | none =>
      refine .inr ⟨fun t ht => ?_, ?_⟩
      · have hlt : t < p.types.size := by simpa using List.find?_eq_none.mp hfind t ht
        exact Option.isSome_iff_exists.mpr ⟨_, Array.getElem?_eq_getElem hlt⟩
      · simp [usedStructs, getModule, hm, htypes, hfind, bind, Except.bind, pure, Except.pure]

/-- In a program written by a script, a module uses just the structs that its types
lead to, each listed once, unless they lead to a type that is not there. -/
theorem usedStructs_exact (layout : DataLayout) (commands : List Command) {index : Nat}
    {m : Module} :
    let p := ((Draft.start layout).runScript commands).2.program
    p.modules[index]? = some m →
      (∀ used, p.usedStructs index = .ok used →
        used.Nodup ∧ ∀ t, t ∈ used ↔ p.types.isStruct t = true ∧ p.Uses m t) ∧
      (∀ e, p.usedStructs index = .error e →
        ∃ t, e = .unknownType t ∧ p.Uses m t ∧ p.types.get? t = none) ∧
      ((∃ used, p.usedStructs index = .ok used) ↔
        ∀ t, p.Uses m t → (p.types.get? t).isSome = true) := by
  intro p hm
  obtain ⟨found, hnodup, hmem, ⟨t, ht, hunknown, hused⟩ | ⟨hknown, hused⟩⟩ := usedStructs_cases
    (p := p) (Draft.runScript_wellFormed layout commands)
    (Draft.runScript_inPlace layout commands) hm
  · refine ⟨fun used h => by simp [hused] at h, fun e h => ?_, ?_⟩
    · exact ⟨t, Except.error.inj (h.symm.trans hused), (hmem t).mp ht, hunknown⟩
    · constructor
      · rintro ⟨used, h⟩
        simp [hused] at h
      · intro hall
        simpa [hunknown] using hall t ((hmem t).mp ht)
  · refine ⟨fun used h => ?_, fun e h => by simp [hused] at h, ?_⟩
    · obtain rfl := Except.ok.inj (hused.symm.trans h)
      refine ⟨hnodup.filter _, fun t => ?_⟩
      rw [List.mem_filter, hmem, and_comm]
    · exact ⟨fun _ t ht => hknown t ((hmem t).mpr ht), fun _ => ⟨_, hused⟩⟩

/-- The one use of the second struct is in a constant under a cast, and nothing uses the
third. -/
theorem usedStructs_exact_cast :
    let p := ((Draft.start {}).runScript [.int 32, .namedStruct "struct.node", .pointerTo 1,
      .setBody 1 [0, 2] false, .defineStruct "struct.tail" [1],
      .defineStruct "struct.unused" [1], .addModule "m", .global "g" 0 false,
      .functionOf 0 [] false, .function "f" 6 false, .insertInto 1, .constantAddress 3 0 [0, 0],
      .constantCast .bit 4 2, .load 5]).2.program
    let m : Module := { name := "m", globals := [0], functions := [1] }
    p.modules[0]? = some m ∧ p.usedStructs 0 = .ok [1, 3] ∧ p.Uses m 3 ∧
      p.types.isStruct 4 = true ∧ ¬ p.Uses m 4 := by
  intro p m
  have hm : p.modules[0]? = some m := by decide +kernel
  have hused : p.usedStructs 0 = .ok [1, 3] := by decide +kernel
  have hstruct : p.types.isStruct 4 = true := by decide +kernel
  obtain ⟨hexact, _, _⟩ := usedStructs_exact {} [.int 32, .namedStruct "struct.node",
    .pointerTo 1, .setBody 1 [0, 2] false, .defineStruct "struct.tail" [1],
    .defineStruct "struct.unused" [1], .addModule "m", .global "g" 0 false,
    .functionOf 0 [] false, .function "f" 6 false, .insertInto 1, .constantAddress 3 0 [0, 0],
    .constantCast .bit 4 2, .load 5] hm
  obtain ⟨_, hmem⟩ := hexact [1, 3] hused
  refine ⟨hm, hused, ((hmem 3).mp (by simp)).2, hstruct, fun h => ?_⟩
  exact absurd ((hmem 4).mpr ⟨hstruct, h⟩) (by simp)

end Program

end AbstractMemory
