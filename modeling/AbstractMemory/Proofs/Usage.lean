import AbstractMemory.Program.Usage
import AbstractMemory.Proofs.ByValue
import AbstractMemory.Proofs.Steps
import Mathlib

/-! What a module uses. A walk visits just what is reached from where it starts,
so the structs that a global holds by value are used by its module, and so are
those that its globals and instructions point to. -/

namespace AbstractMemory

open Steps

/-- One step of a walk. -/
def Follows (n : Nat) (next : Nat → List Nat) (i j : Nat) : Prop :=
  i < n ∧ j ∈ next i

variable {n : Nat} {next : Nat → List Nat}

theorem mem_walk_of_mem {seen work : List Nat} {i : Nat} (h : i ∈ seen ∨ i ∈ work) :
    i ∈ walk n next seen work := by
  fun_induction walk n next seen work with
  | case1 => simpa using h
  | case2 seen j rest hs ih => exact ih (by grind)
  | case3 seen j rest _ _ ih => exact ih (by grind)
  | case4 seen j rest _ _ ih => exact ih (by grind)

/-- What follows a visited id is visited too, if that holds of the ids seen
before or is still to be done. -/
theorem mem_walk_of_follows {seen work : List Nat}
    (hseen : ∀ i ∈ seen, ∀ j, Follows n next i j → j ∈ seen ∨ j ∈ work) {i j : Nat}
    (hi : i ∈ walk n next seen work) (hij : Follows n next i j) : j ∈ walk n next seen work := by
  fun_induction walk n next seen work with
  | case1 => simpa using hseen i hi j hij
  | case2 seen k rest hs ih =>
    refine ih ?_ hi
    intro a ha b hab
    grind
  | case3 seen k rest hs hk ih =>
    refine ih ?_ hi
    intro a ha b hab
    rcases List.mem_cons.mp ha with rfl | ha
    · exact .inr (List.mem_append_left _ hab.2)
    · grind
  | case4 seen k rest hs hk ih =>
    refine ih ?_ hi
    intro a ha b hab
    rcases List.mem_cons.mp ha with rfl | ha
    · exact absurd hab.1 hk
    · grind

theorem mem_visited_of_reached {start : List Nat} {i j : Nat} (hi : i ∈ start)
    (h : Relation.ReflTransGen (Follows n next) i j) : j ∈ visited n next start := by
  rw [visited, List.mem_reverse]
  induction h with
  | refl => exact mem_walk_of_mem (.inr hi)
  | tail _ hab ih => exact mem_walk_of_follows (by simp) ih hab

/-- A walk visits nothing that is not reached. -/
theorem walk_ind {holds : Nat → Prop} (hfollows : ∀ i j, holds i → Follows n next i j → holds j)
    {seen work : List Nat} (hseen : ∀ i ∈ seen, holds i) (hwork : ∀ i ∈ work, holds i) :
    ∀ i ∈ walk n next seen work, holds i := by
  fun_induction walk n next seen work with
  | case1 => exact hseen
  | case2 seen j rest hs ih => exact ih hseen (by grind)
  | case3 seen j rest hs hj ih =>
    refine ih (by grind) fun i hi => ?_
    rcases List.mem_append.mp hi with hi | hi
    · exact hfollows j i (hwork j (by simp)) ⟨hj, hi⟩
    · exact hwork i (by simp [hi])
  | case4 seen j rest hs hj ih => exact ih (by grind) (by grind)

theorem nodup_walk {seen work : List Nat} (h : seen.Nodup) : (walk n next seen work).Nodup := by
  fun_induction walk n next seen work with
  | case1 => exact h
  | case2 seen j rest hs ih => exact ih h
  | case3 seen j rest hs _ ih => exact ih (List.nodup_cons.mpr ⟨hs, h⟩)
  | case4 seen j rest hs _ ih => exact ih (List.nodup_cons.mpr ⟨hs, h⟩)

theorem nodup_visited (start : List Nat) : (visited n next start).Nodup :=
  List.nodup_reverse.mpr (nodup_walk List.nodup_nil)

theorem mem_visited_iff {start : List Nat} {j : Nat} : j ∈ visited n next start ↔
    ∃ i ∈ start, Relation.ReflTransGen (Follows n next) i j := by
  constructor
  · have hreached : ∀ j ∈ walk n next [] start,
        ∃ i ∈ start, Relation.ReflTransGen (Follows n next) i j := by
      refine walk_ind ?_ (by simp) fun i hi => ⟨i, hi, .refl⟩
      rintro a b ⟨i, hi, hia⟩ hab
      exact ⟨i, hi, hia.tail hab⟩
    exact fun hj => hreached j (List.mem_reverse.mp hj)
  · rintro ⟨i, hi, hij⟩
    exact mem_visited_of_reached hi hij

theorem TypeTable.Part.follows {types : TypeTable} {t u : Nat} (h : types.Part t u) :
    Follows types.size types.mentions t u := by
  cases h with
  | element ht => exact ⟨lt_size_of_get? ht, by simp [mentions, ht, Ty.mentions]⟩
  | member hs hm =>
    have ht := get?_of_struct? hs
    exact ⟨lt_size_of_get? ht, by simpa [mentions, ht, Ty.mentions] using hm⟩

theorem TypeTable.follows_pointee {types : TypeTable} {t u : Nat} (h : types.pointee? t = some u) :
    Follows types.size types.mentions t u := by
  have ht := get?_of_pointee? h
  exact ⟨lt_size_of_get? ht, by simp [mentions, ht, Ty.mentions]⟩

theorem Value.kind_of_global? {value : Value} {gl : Global} (h : value.global? = some gl) :
    value.kind = .global gl := by
  unfold global? at h
  split at h
  · rename_i hk
    rw [hk, Option.some.inj h]
  · cases h

theorem Value.kind_of_instruction? {value : Value} {op : Instruction}
    (h : value.instruction? = some op) : ∃ parent, value.kind = .instruction parent op := by
  unfold instruction? at h
  split at h
  · rename_i parent op' hk
    exact ⟨parent, by rw [hk, Option.some.inj h]⟩
  · cases h

theorem ValueTable.get_eq_error {values : ValueTable} {v : Nat} {e : ProgramError}
    (h : values.get v = .error e) : e = .unknownValue v := by
  unfold get at h
  split at h <;> cases h
  rfl

namespace Program

/-- Some module is written with a type that leads to `t`. -/
def Reaches (p : Program) (t : Nat) : Prop :=
  ∃ m ∈ p.modules, ∀ types, p.moduleTypes m = .ok types →
    ∃ u ∈ types, Relation.ReflTransGen (Follows p.types.size p.types.mentions) u t

theorem Reaches.follows {p : Program} {t u : Nat} (h : p.Reaches t)
    (hu : Follows p.types.size p.types.mentions t u) : p.Reaches u := by
  obtain ⟨m, hm, h⟩ := h
  refine ⟨m, hm, fun types htypes => ?_⟩
  obtain ⟨start, hstart, hreach⟩ := h types htypes
  exact ⟨start, hstart, hreach.tail hu⟩

theorem Reaches.byValue {p : Program} {t u : Nat} (h : p.Reaches t)
    (hu : p.types.ByValue t u) : p.Reaches u := by
  induction hu with
  | refl => exact h
  | tail _ hpart ih => exact ih.follows hpart.follows

theorem reaches_of_global {p : Program} {m : Module} (hm : m ∈ p.modules) {v t : Nat}
    (hv : v ∈ m.globals) {value : Value} (hvalue : p.values.get? v = some value)
    (ht : t ∈ value.mentions) : p.Reaches t := by
  refine ⟨m, hm, fun types h => ⟨t, ?_, .refl⟩⟩
  obtain ⟨values, hglobals, h⟩ := bind_eq_ok.mp h
  obtain ⟨functions, _, h⟩ := bind_eq_ok.mp h
  obtain rfl : values.flatMap Value.mentions ++ functions.flatten = types := Except.ok.inj h
  obtain ⟨value', hmem, hget⟩ := exists_mem_of_mapM hglobals hv
  obtain rfl : value = value' := by simpa [ValueTable.get, hvalue] using hget
  exact List.mem_append_left _ (List.mem_flatMap.mpr ⟨value, hmem, ht⟩)

theorem reaches_of_functionTypes {p : Program} {m : Module} (hm : m ∈ p.modules) {g t : Nat}
    (hg : g ∈ m.functions) (ht : ∀ written, p.functionTypes g = .ok written → t ∈ written) :
    p.Reaches t := by
  refine ⟨m, hm, fun types h => ⟨t, ?_, .refl⟩⟩
  obtain ⟨values, _, h⟩ := bind_eq_ok.mp h
  obtain ⟨functions, hfunctions, h⟩ := bind_eq_ok.mp h
  obtain rfl : values.flatMap Value.mentions ++ functions.flatten = types := Except.ok.inj h
  obtain ⟨written, hmem, h⟩ := exists_mem_of_mapM hfunctions hg
  exact List.mem_append_right _ (List.mem_flatten.mpr ⟨_, hmem, ht written h⟩)

theorem reaches_of_function {p : Program} {m : Module} (hm : m ∈ p.modules) {g t : Nat}
    (hg : g ∈ m.functions) {owner : Value} (howner : p.values.get? g = some owner)
    (ht : t ∈ owner.mentions) : p.Reaches t := by
  refine reaches_of_functionTypes hm hg fun written h => ?_
  obtain ⟨owner', hget, h⟩ := bind_eq_ok.mp h
  obtain rfl : owner = owner' := by simpa [ValueTable.get, howner] using hget
  obtain ⟨args, _, h⟩ := bind_eq_ok.mp h
  obtain ⟨body, _, h⟩ := bind_eq_ok.mp h
  obtain rfl : owner.mentions ++ args.map Value.type ++ body.flatten = written := Except.ok.inj h
  exact List.mem_append_left _ (List.mem_append_left _ ht)

theorem reaches_of_instruction {p : Program} {m : Module} (hm : m ∈ p.modules) {g v t : Nat}
    (hg : g ∈ m.functions) {owner value : Value} {f : Function}
    (howner : p.values.get? g = some owner) (hf : owner.function? = some f) (hv : v ∈ f.body)
    (hvalue : p.values.get? v = some value) (ht : t ∈ value.mentions) : p.Reaches t := by
  refine reaches_of_functionTypes hm hg fun written h => ?_
  obtain ⟨owner', hget, h⟩ := bind_eq_ok.mp h
  obtain rfl : owner = owner' := by simpa [ValueTable.get, howner] using hget
  obtain ⟨args, _, h⟩ := bind_eq_ok.mp h
  obtain ⟨body, hbody, h⟩ := bind_eq_ok.mp h
  obtain rfl : owner.mentions ++ args.map Value.type ++ body.flatten = written := Except.ok.inj h
  rw [hf, Option.elim_some] at hbody
  obtain ⟨own, hown, h⟩ := exists_mem_of_mapM hbody hv
  obtain ⟨value', hget, h⟩ := bind_eq_ok.mp h
  obtain rfl : value = value' := by simpa [ValueTable.get, hvalue] using hget
  obtain ⟨constants, _, h⟩ := bind_eq_ok.mp h
  obtain rfl : value.mentions ++ constants = own := Except.ok.inj h
  exact List.mem_append_right _ (List.mem_flatten.mpr ⟨_, hown, List.mem_append_left _ ht⟩)

theorem constantTypes_eq_error {p : Program} {operands : List Nat} {e : ProgramError}
    (h : p.constantTypes operands = .error e) : ∃ v, e = .unknownValue v := by
  rcases bind_eq_error.mp h with h | ⟨_, _, h⟩
  · obtain ⟨v, _, h⟩ := exists_mem_of_mapM_error h
    exact ⟨v, ValueTable.get_eq_error h⟩
  · cases h

theorem instructionTypes_eq_error {p : Program} {v : Nat} {e : ProgramError}
    (h : p.instructionTypes v = .error e) : ∃ v, e = .unknownValue v := by
  rcases bind_eq_error.mp h with h | ⟨_, _, h⟩
  · exact ⟨v, ValueTable.get_eq_error h⟩
  · rcases bind_eq_error.mp h with h | ⟨_, _, h⟩
    · exact constantTypes_eq_error h
    · cases h

theorem functionTypes_eq_error {p : Program} {v : Nat} {e : ProgramError}
    (h : p.functionTypes v = .error e) : ∃ v, e = .unknownValue v := by
  rcases bind_eq_error.mp h with h | ⟨_, _, h⟩
  · exact ⟨v, ValueTable.get_eq_error h⟩
  · rcases bind_eq_error.mp h with h | ⟨_, _, h⟩
    · obtain ⟨a, _, h⟩ := exists_mem_of_mapM_error h
      exact ⟨a, ValueTable.get_eq_error h⟩
    · rcases bind_eq_error.mp h with h | ⟨_, _, h⟩
      · obtain ⟨i, _, h⟩ := exists_mem_of_mapM_error h
        exact instructionTypes_eq_error h
      · cases h

theorem moduleTypes_eq_error {p : Program} {m : Module} {e : ProgramError}
    (h : p.moduleTypes m = .error e) : ∃ v, e = .unknownValue v := by
  rcases bind_eq_error.mp h with h | ⟨_, _, h⟩
  · obtain ⟨g, _, h⟩ := exists_mem_of_mapM_error h
    exact ⟨g, ValueTable.get_eq_error h⟩
  · rcases bind_eq_error.mp h with h | ⟨_, _, h⟩
    · obtain ⟨f, _, h⟩ := exists_mem_of_mapM_error h
      exact functionTypes_eq_error h
    · cases h

/-- What a module uses is not found only if something is not there. -/
theorem usedStructs_eq_error {p : Program} {index : Nat} {e : ProgramError}
    (h : p.usedStructs index = .error e) :
    ∃ i, e = .unknownModule i ∨ e = .unknownValue i ∨ e = .unknownType i := by
  rcases bind_eq_error.mp h with h | ⟨m, _, h⟩
  · unfold getModule at h
    split at h <;> cases h
    exact ⟨index, .inl rfl⟩
  · rcases bind_eq_error.mp h with h | ⟨types, _, h⟩
    · obtain ⟨v, rfl⟩ := moduleTypes_eq_error h
      exact ⟨v, .inr (.inl rfl)⟩
    · dsimp only at h
      split at h <;> cases h
      exact ⟨_, .inr (.inr rfl)⟩

/-- The module that reaches a type knows it, and uses it if it is a struct. -/
theorem Reaches.used {p : Program} {t : Nat} (h : p.Reaches t) :
    ∃ index < p.modules.size, ∀ used, p.usedStructs index = .ok used →
      t < p.types.size ∧ (p.types.isStruct t = true → t ∈ used) := by
  obtain ⟨m, hm, hreach⟩ := h
  obtain ⟨index, hindex, hm⟩ := Array.getElem_of_mem hm
  refine ⟨index, hindex, fun used h => ?_⟩
  obtain ⟨m', hm', h⟩ := bind_eq_ok.mp h
  obtain rfl : m = m' := by simpa [getModule, hindex, hm] using hm'
  obtain ⟨types, htypes, h⟩ := bind_eq_ok.mp h
  obtain ⟨u, hu, hut⟩ := hreach types htypes
  have hvisited := mem_visited_of_reached hu hut
  dsimp only at h
  split at h
  · cases h
  · rename_i hknown
    obtain rfl := Except.ok.inj h
    rw [List.find?_eq_none] at hknown
    exact ⟨by simpa using hknown t hvisited, fun hs => List.mem_filter.mpr ⟨hvisited, hs⟩⟩

/-- A global that some module lists. -/
def ListsGlobal (p : Program) (g : Nat) (gl : Global) : Prop :=
  (∃ m ∈ p.modules, g ∈ m.globals) ∧ ∃ value, p.values.get? g = some value ∧ value.global? = some gl

theorem ListsGlobal.mem_usedStructs {p : Program} {g t : Nat} {gl : Global}
    (hg : p.ListsGlobal g gl) (ht : p.types.ByValue gl.valueType t)
    (hs : p.types.isStruct t = true) :
    ∃ index < p.modules.size, ∀ used, p.usedStructs index = .ok used → t ∈ used := by
  obtain ⟨⟨m, hm, hlist⟩, value, hv, hgl⟩ := hg
  have hmentions : gl.valueType ∈ value.mentions := by
    simp [Value.mentions, value.kind_of_global? hgl]
  obtain ⟨index, hindex, hused⟩ :=
    ((reaches_of_global hm hlist hv hmentions).byValue ht).used
  exact ⟨index, hindex, fun used h => (hused used h).2 hs⟩

end Program

end AbstractMemory
