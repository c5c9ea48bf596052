import AbstractMemory.Node.Lookup
import AbstractMemory.Proofs.Underlying
import Mathlib

/-! Recursions along operands that never compare two values. Each is unrolled to a
depth, and what it would do below that depth is left open: an answer that does not
depend on it was reached within the depth. -/

namespace AbstractMemory

/-- How far recursions along operands are unrolled, and what they do below. -/
structure OperandFloor where
  depth : Nat
  stripCasts : Nat → Except ProgramError Nat
  byteOffset : Nat → Except ProgramError Int
  underlying : Nat → Except ProgramError Nat
  valueNode : Nat → Arranging (Option Nat)
  objectNode : Nat → Except NodeError (Option Nat)

namespace Unrolled

def stripCastsStep (values : ValueTable) (inner : Nat → Except ProgramError Nat) (v : Nat) :
    Except ProgramError Nat :=
  match values.get? v with
  | none => .error (.unknownValue v)
  | some value =>
    match values.passedOn? value with
    | none => .ok v
    | some source => inner source

variable (f : OperandFloor) (p : Program)

def stripCasts : Nat → Except ProgramError Nat :=
  (stripCastsStep p.values)^[f.depth] f.stripCasts

def byteOffsetStep (inner : Nat → Except ProgramError Int) (v : Nat) : Except ProgramError Int :=
  match p.values.get? v with
  | none => .error (.unknownValue v)
  | some value =>
    match value.elementAddress? with
    | none => .error (.wrongType .elementAddress value.type)
    | some a => do
      let base ← stripCasts f p a.base
      let below ← match (← p.values.get base).constantExpr? with
        | some (.elementAddress _) => inner base
        | _ => .ok 0
      return wrap64 (below + (← p.ownOffset a))

def byteOffset : Nat → Except ProgramError Int :=
  (byteOffsetStep f p)^[f.depth] f.byteOffset

def underlyingStep (inner : Nat → Except ProgramError Nat) (v : Nat) : Except ProgramError Nat := do
  let stripped ← stripCasts f p v
  match (← p.values.get stripped).elementAddress? with
  | none => return stripped
  | some a => inner a.base

def underlying : Nat → Except ProgramError Nat :=
  (underlyingStep f p)^[f.depth] f.underlying

variable (c : Catalog)

def constantField (v : Nat) : Except ProgramError ResolvedField := do
  let offset ← byteOffset f p v
  let object ← underlying f p v
  c.fieldOf p object offset

open Arena

def valueNodeStep (inner : Nat → Arranging (Option Nat)) (v : Nat) : Arranging (Option Nat) := do
  let value ← askProgram (p.values.get v)
  match value.kind with
  | .constant k =>
    if !p.types.isPointer value.type then return some constantInteger
    match k with
    | .null | .undefined | .blockAddress => return some nullPointer
    | .integer i => return some (if i = 0 then nullPointer else universalPointer)
    | .expr (.elementAddress _) =>
      let object ← askProgram (underlying f p v)
      match ← inner object with
      | none => throw (.missingBase v)
      | some base =>
        if base = nullPointer ∨ base = universalPointer then return some base
        let field ← askProgram (constantField f p c v)
        if field.index = 0 then return some base
        return some (← fieldPointer v base field.index)
    | .expr (.cast kind source) =>
      if kind.keepsPointer then
        match ← inner source with
        | none => throw (.missingBase v)
        | some n => return some n
      else if kind = .intToPointer then return some universalPointer
      else throw (.unhandledConstant v kind.opcode)
    | .expr (.other opcode _) => throw (.unhandledConstant v opcode)
  | .global _ | .function _ =>
    match ← askProgram (p.definitionOf v) with
    | some d => return (← get).valueNodes[d]?
    | none => return some universalPointer
  | _ => return (← get).valueNodes[v]?

def valueNode : Nat → Arranging (Option Nat) :=
  (valueNodeStep f p c)^[f.depth] f.valueNode

def objectNodeStep (a : Arena) (inner : Nat → Except NodeError (Option Nat)) (v : Nat) :
    Except NodeError (Option Nat) := do
  let value ← (p.values.get v).mapError .program
  match value.kind with
  | .constant k =>
    if !p.types.isPointer value.type then return some universalObject
    match k with
    | .null | .undefined | .blockAddress => return some nullObject
    | .integer i => return some (if i = 0 then nullObject else universalObject)
    | .expr (.elementAddress _) =>
      let object ← (underlying f p v).mapError .program
      match ← inner object with
      | none => throw (.missingBase v)
      | some base =>
        if base = nullObject ∨ base = universalObject then return some base
        let field ← (constantField f p c v).mapError .program
        return some (← a.fieldNode base field.index)
    | .expr (.cast kind source) =>
      if kind.keepsPointer then
        match ← inner source with
        | none => throw (.missingBase v)
        | some n => return some n
      else if kind = .intToPointer then return some universalObject
      else throw (.unhandledConstant v kind.opcode)
    | .expr (.other opcode _) => throw (.unhandledConstant v opcode)
  | .global _ | .function _ =>
    match ← (p.definitionOf v).mapError .program with
    | some d => return a.objectNodes[d]?
    | none => return some universalObject
  | _ => return a.objectNodes[v]?

def objectNode (a : Arena) : Nat → Except NodeError (Option Nat) :=
  (objectNodeStep f p c a)^[f.depth] f.objectNode

variable {f p c} {v : Nat}

theorem bind_congr_ok {ε α β : Type} {x : Except ε α} {g h : α → Except ε β}
    (heq : ∀ a, x = .ok a → g a = h a) : (x >>= g) = (x >>= h) := by
  cases x with
  | error e => rfl
  | ok a => exact heq a rfl

theorem askProgram_bind_congr {α β : Type} {x : Except ProgramError α} {g h : α → Arranging β}
    (heq : ∀ a, x = .ok a → g a = h a) : (askProgram x >>= g) = (askProgram x >>= h) := by
  cases x with
  | error e => rfl
  | ok a => exact heq a rfl

theorem mapError_bind_congr {ε ε' α β : Type} {x : Except ε α} {lift : ε → ε'}
    {g h : α → Except ε' β} (heq : ∀ a, x = .ok a → g a = h a) :
    (x.mapError lift >>= g) = (x.mapError lift >>= h) := by
  cases x with
  | error e => rfl
  | ok a => exact heq a rfl

section Eq

variable (hwf : p.WellFormed)
include hwf

theorem iterate_stripCastsStep {n : Nat} (hn : min v p.values.size < n)
    (bottom : Nat → Except ProgramError Nat) :
    (stripCastsStep p.values)^[n] bottom v = p.values.stripCasts v := by
  induction n generalizing v with
  | zero => omega
  | succ n ih =>
    rw [Function.iterate_succ_apply', stripCastsStep, ValueTable.stripCasts]
    cases hv : p.values.get? v with
    | none => rfl
    | some value =>
      have hsize := ValueTable.lt_size_of_get? hv
      dsimp only
      cases hs : p.values.passedOn? value with
      | none => rfl
      | some source =>
        have hlt := hwf.operands v value hv source (ValueTable.mem_operands_of_passedOn? hs)
        dsimp only
        rw [if_pos hlt]
        exact ih (by omega)

/-- The object behind a constant address is older than the address. -/
theorem lt_of_underlying {value : Value} {a : ElementAddress} {object : Nat}
    (hv : p.values.get? v = some value) (hkind : value.kind = .constant (.expr (.elementAddress a)))
    (hobject : p.underlying v = .ok object) : object < v := by
  have ha : value.elementAddress? = some a := by simp [Value.elementAddress?, hkind]
  have hbase := hwf.operands v value hv a.base (Value.mem_operands_of_elementAddress? ha)
  rw [hwf.underlying_address hv ha] at hobject
  exact Nat.lt_of_le_of_lt (Program.underlying_le hobject) hbase

theorem lt_of_cast {value : Value} {kind : CastKind} {source : Nat}
    (hv : p.values.get? v = some value)
    (hkind : value.kind = .constant (.expr (.cast kind source))) : source < v :=
  hwf.operands v value hv source (by simp [Value.operands, hkind, ConstantExpr.operands])

variable (hf : p.values.size < f.depth)
include hf

theorem stripCasts_eq (v : Nat) : stripCasts f p v = p.values.stripCasts v :=
  iterate_stripCastsStep hwf (by omega) f.stripCasts

theorem iterate_byteOffsetStep {n : Nat} (hn : min v p.values.size < n)
    (bottom : Nat → Except ProgramError Int) :
    (byteOffsetStep f p)^[n] bottom v = p.byteOffset v := by
  induction n generalizing v with
  | zero => omega
  | succ n ih =>
    rw [Function.iterate_succ_apply', byteOffsetStep, Program.byteOffset]
    cases hv : p.values.get? v with
    | none => rfl
    | some value =>
      dsimp only
      cases ha : value.elementAddress? with
      | none => rfl
      | some a =>
        have hsize := ValueTable.lt_size_of_get? hv
        have hbase := hwf.operands v value hv a.base (Value.mem_operands_of_elementAddress? ha)
        dsimp only
        rw [stripCasts_eq hwf hf]
        apply bind_congr_ok
        intro s hs
        have hle := ValueTable.stripCasts_le hs
        apply bind_congr_ok
        intro found _
        cases found.constantExpr? with
        | none => rfl
        | some e =>
          cases e with
          | elementAddress b =>
            dsimp only
            rw [if_pos (show s < v by omega), ih (show min s p.values.size < n by omega)]
          | _ => rfl

theorem byteOffset_eq (v : Nat) : byteOffset f p v = p.byteOffset v :=
  iterate_byteOffsetStep hwf hf (by omega) f.byteOffset

theorem iterate_underlyingStep {n : Nat} (hn : min v p.values.size < n)
    (bottom : Nat → Except ProgramError Nat) :
    (underlyingStep f p)^[n] bottom v = p.underlying v := by
  induction n generalizing v with
  | zero => omega
  | succ n ih =>
    rw [Function.iterate_succ_apply', underlyingStep, Program.underlying, stripCasts_eq hwf hf]
    apply bind_congr_ok
    intro s hs
    have hle := ValueTable.stripCasts_le hs
    apply bind_congr_ok
    intro found hget
    have hfound := ValueTable.get_eq_ok.mp hget
    cases ha : found.elementAddress? with
    | none => rfl
    | some a =>
      have hsize := ValueTable.lt_size_of_get? hfound
      have hbase := hwf.operands s found hfound a.base (Value.mem_operands_of_elementAddress? ha)
      dsimp only
      rw [if_pos (show a.base < v by omega)]
      exact ih (by omega)

theorem underlying_eq (v : Nat) : underlying f p v = p.underlying v :=
  iterate_underlyingStep hwf hf (by omega) f.underlying

theorem constantField_eq (c : Catalog) (v : Nat) :
    constantField f p c v = c.constantField p v := by
  rw [constantField, byteOffset_eq hwf hf, underlying_eq hwf hf]
  rfl

theorem iterate_valueNodeStep {n : Nat} (hn : min v p.values.size < n)
    (bottom : Nat → Arranging (Option Nat)) :
    (valueNodeStep f p c)^[n] bottom v = Arena.valueNode p c v := by
  induction n generalizing v with
  | zero => omega
  | succ n ih =>
    rw [Function.iterate_succ_apply', valueNodeStep, Arena.valueNode]
    apply askProgram_bind_congr
    intro value hget
    have hv := ValueTable.get_eq_ok.mp hget
    have hsize := ValueTable.lt_size_of_get? hv
    cases hkind : value.kind with
    | constant k =>
      apply ite_congr rfl fun _ => rfl
      intro _
      cases k with
      | expr e =>
        cases e with
        | elementAddress a =>
          dsimp only
          rw [underlying_eq hwf hf, constantField_eq hwf hf]
          apply askProgram_bind_congr
          intro object hobject
          have hlt := lt_of_underlying hwf hv hkind hobject
          rewrite [if_pos hlt, ih (by omega)]
          exact bind_congr fun found => by cases found <;> rfl
        | cast kind source =>
          have hlt := lt_of_cast hwf hv hkind
          apply ite_congr rfl _ fun _ => rfl
          intro _
          rewrite [if_pos hlt, ih (by omega)]
          exact bind_congr fun found => by cases found <;> rfl
        | other opcode vs => rfl
      | _ => rfl
    | _ => rfl

theorem valueNode_eq (c : Catalog) (v : Nat) : valueNode f p c v = Arena.valueNode p c v :=
  iterate_valueNodeStep hwf hf (by omega) f.valueNode

theorem iterate_objectNodeStep {n : Nat} (hn : min v p.values.size < n) (a : Arena)
    (bottom : Nat → Except NodeError (Option Nat)) :
    (objectNodeStep f p c a)^[n] bottom v = a.objectNode p c v := by
  induction n generalizing v with
  | zero => omega
  | succ n ih =>
    rw [Function.iterate_succ_apply', objectNodeStep, Arena.objectNode]
    apply mapError_bind_congr
    intro value hget
    have hv := ValueTable.get_eq_ok.mp hget
    have hsize := ValueTable.lt_size_of_get? hv
    cases hkind : value.kind with
    | constant k =>
      apply ite_congr rfl fun _ => rfl
      intro _
      cases k with
      | expr e =>
        cases e with
        | elementAddress b =>
          dsimp only
          rw [underlying_eq hwf hf, constantField_eq hwf hf]
          apply mapError_bind_congr
          intro object hobject
          have hlt := lt_of_underlying hwf hv hkind hobject
          rewrite [if_pos hlt, ih (by omega)]
          exact bind_congr fun found => by cases found <;> rfl
        | cast kind source =>
          have hlt := lt_of_cast hwf hv hkind
          apply ite_congr rfl _ fun _ => rfl
          intro _
          rewrite [if_pos hlt, ih (by omega)]
          exact bind_congr fun found => by cases found <;> rfl
        | other opcode vs => rfl
      | _ => rfl
    | _ => rfl

theorem objectNode_eq (c : Catalog) (a : Arena) (v : Nat) :
    objectNode f p c a v = a.objectNode p c v :=
  iterate_objectNodeStep hwf hf (by omega) a f.objectNode

end Eq

end Unrolled

end AbstractMemory
