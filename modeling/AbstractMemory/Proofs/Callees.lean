import AbstractMemory.Proofs.Anchors
import AbstractMemory.Proofs.Placement
import Mathlib

/-! How functions are used. A call reaches a function through values that pass on
its address. A use that is more than the callee of a call takes the address. -/

namespace AbstractMemory

open Steps

/-- A search that finds nothing until it does finds it in one of the entries. -/
theorem exists_of_foldlM {α ε : Type} {look : Bool → α → Except ε Bool} {l : List α} {found : Bool}
    (h : l.foldlM look found = .ok true) : found = true ∨ ∃ x ∈ l, look false x = .ok true := by
  induction l generalizing found with
  | nil => exact .inl (Except.ok.inj h)
  | cons x rest ih =>
    rw [List.foldlM_cons] at h
    obtain ⟨next, hnext, hrest⟩ := bind_eq_ok.mp h
    cases found with
    | true => exact .inl rfl
    | false =>
      rcases ih hrest with rfl | ⟨y, hy, hfinds⟩
      · exact .inr ⟨x, by simp, hnext⟩
      · exact .inr ⟨y, by simp [hy], hfinds⟩

/-- All the value does with the function is to call it. -/
def Value.OnlyCalls (user : Value) (function : Nat) : Prop :=
  ∃ args, user.instruction? = some (.call function args) ∧ function ∉ args

theorem ValueTable.takesAddress_iff {user : Value} {v : Nat} :
    takesAddress v user = true ↔ ¬ user.OnlyCalls v := by
  unfold takesAddress Value.OnlyCalls Value.instruction?
  split
  · rename_i hkind
    simp only [hkind, Option.some.injEq, Instruction.call.injEq]
    grind
  · rename_i hkind
    split
    · rename_i op hop
      simp only [Option.some.injEq, true_iff]
      rintro ⟨args, rfl, _⟩
      exact hkind _ _ _ hop
    · simp

namespace Program

variable {p : Program} {u v w : Nat} {value : Value}

/-- The address of a function is known to more than direct calls. -/
def AddressTaken (p : Program) (v : Nat) : Prop :=
  ∃ u user, p.values.get? u = some user ∧ v ∈ user.operands ∧ ¬ user.OnlyCalls v

theorem addressTaken_iff (hix : p.Indexed) (hp : p.InPlace) {taken : Bool}
    (h : p.values.addressTaken v = .ok taken) : taken = true ↔ p.AddressTaken v := by
  constructor
  · rintro rfl
    unfold ValueTable.addressTaken at h
    split at h
    · cases h
    · rename_i value hvalue
      obtain hfalse | ⟨u, hu, hlook⟩ := exists_of_foldlM h
      · cases hfalse
      · obtain ⟨user, huser, hmem⟩ := hp.users v value hvalue u hu
        simp only [Bool.false_eq_true, if_false, huser, Except.ok.injEq] at hlook
        exact ⟨u, user, huser, hmem, ValueTable.takesAddress_iff.mp hlook⟩
  · rintro ⟨u, user, huser, hmem, htakes⟩
    obtain ⟨value, hvalue, hu⟩ := hix.users u user huser v hmem
    exact ValueTable.addressTaken_of_user h hvalue hu huser (ValueTable.takesAddress_iff.mpr htakes)

/-- The value has the address of another: it casts it to another pointer, or it
is where its first element starts. -/
inductive PassesOn (p : Program) (v : Nat) : Nat → Prop
  | cast {value : Value} {kind : CastKind} {source : Nat} (hv : p.values.get? v = some value)
      (hcast : value.cast? = some (kind, source)) (hkeeps : kind.keepsPointer = true) :
      PassesOn p v source
  | start {value : Value} {a : ElementAddress} (hv : p.values.get? v = some value)
      (ha : value.elementAddress? = some a)
      (hzero : ∀ i ∈ a.indices, p.values.constInt? i = some 0) : PassesOn p v a.base

theorem passesOn_iff :
    p.PassesOn v w ↔ ∃ value, p.values.get? v = some value ∧ p.values.passedOn? value = some w := by
  constructor
  · intro h
    cases h with
    | cast hv hcast hkeeps => exact ⟨_, hv, by simp [ValueTable.passedOn?, hcast, hkeeps]⟩
    | @start value a hv ha hzero =>
      have hnone := Value.cast?_of_elementAddress? ha
      have hall : p.values.allZero a.indices = true :=
        List.all_eq_true.mpr fun i hi => by simp [hzero i hi]
      exact ⟨value, hv, by simp [ValueTable.passedOn?, hnone, ha, hall]⟩
  · rintro ⟨value, hv, hpassed⟩
    unfold ValueTable.passedOn? at hpassed
    split at hpassed
    · rename_i hcast
      split at hpassed
      · rename_i hkeeps
        obtain rfl := Option.some.inj hpassed
        exact .cast hv hcast hkeeps
      · cases hpassed
    · rename_i ha
      split at hpassed
      · rename_i hall
        obtain rfl := Option.some.inj hpassed
        refine .start hv ha fun i hi => ?_
        simpa using List.all_eq_true.mp hall i hi
      · cases hpassed
    · cases hpassed

theorem WellFormed.stripCasts_eq (hwf : p.WellFormed) (h : Relation.ReflTransGen p.PassesOn v w) :
    p.values.stripCasts v = p.values.stripCasts w := by
  induction h with
  | refl => rfl
  | tail _ hstep ih =>
    obtain ⟨value, hvalue, hpassed⟩ := passesOn_iff.mp hstep
    exact ih.trans (hwf.stripCasts_of_passedOn? hvalue hpassed)

theorem reaches_of_stripCasts (h : p.values.stripCasts v = .ok w) :
    Relation.ReflTransGen p.PassesOn v w := by
  induction v using Nat.strong_induction_on with
  | _ v ih =>
    rw [ValueTable.stripCasts] at h
    split at h
    · cases h
    · rename_i value hvalue
      split at h
      · obtain rfl := Except.ok.inj h
        exact .refl
      · rename_i source hpassed
        split at h
        · rename_i hlt
          exact .head (passesOn_iff.mpr ⟨value, hvalue, hpassed⟩) (ih source hlt h)
        · obtain rfl := Except.ok.inj h
          exact .refl

/-- The instruction `u` calls the function `callee`, perhaps by a pointer that
passes on its address. -/
def Calls (p : Program) (u callee : Nat) : Prop :=
  ∃ value target args found, p.values.get? u = some value ∧
    value.instruction? = some (.call target args) ∧ Relation.ReflTransGen p.PassesOn target callee ∧
    p.values.get? callee = some found ∧ found.function?.isSome = true

theorem stripCasts_function {found : Value} (hv : p.values.get? v = some found)
    (hf : found.function?.isSome = true) : p.values.stripCasts v = .ok v := by
  obtain ⟨f, hf⟩ := Option.isSome_iff_exists.mp hf
  refine stripCasts_self hv ?_
  simp [ValueTable.passedOn?, Value.cast?, Value.elementAddress?, found.kind_of_function? hf]

theorem calledFunction_iff (hwf : p.WellFormed) {answer : Option Nat}
    (h : p.values.calledFunction u = .ok answer) (callee : Nat) :
    answer = some callee ↔ p.Calls u callee := by
  unfold ValueTable.calledFunction at h
  obtain ⟨value, hvalue, h⟩ := bind_eq_ok.mp h
  have hvalue := ValueTable.get_eq_ok.mp hvalue
  split at h
  · rename_i target args hop
    obtain ⟨reached, hstrip, h⟩ := bind_eq_ok.mp h
    obtain ⟨found, hfound, h⟩ := bind_eq_ok.mp h
    have hfound := ValueTable.get_eq_ok.mp hfound
    obtain rfl : (if found.function?.isSome then some reached else none) = answer :=
      Except.ok.inj h
    constructor
    · intro hanswer
      split at hanswer
      · rename_i hf
        obtain rfl := Option.some.inj hanswer
        exact ⟨value, target, args, found, hvalue, hop, reaches_of_stripCasts hstrip, hfound, hf⟩
      · cases hanswer
    · rintro ⟨value', target', args', found', hvalue', hop', hreach, hfound', hf'⟩
      obtain rfl := Option.some.inj (hvalue.symm.trans hvalue')
      obtain ⟨rfl, rfl⟩ : target = target' ∧ args = args' := by simpa using hop.symm.trans hop'
      have hself := stripCasts_function hfound' hf'
      rw [← hwf.stripCasts_eq hreach, hstrip] at hself
      obtain rfl := Except.ok.inj hself
      obtain rfl := Option.some.inj (hfound.symm.trans hfound')
      rw [if_pos hf']
  · rename_i hop
    obtain rfl := Except.ok.inj h
    simp only [reduceCtorEq, false_iff]
    rintro ⟨value', target, args, _, hvalue', hop', _⟩
    obtain rfl := Option.some.inj (hvalue.symm.trans hvalue')
    exact hop target args hop'

end Program

end AbstractMemory
