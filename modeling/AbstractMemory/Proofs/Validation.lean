import AbstractMemory.Config.Basic
import AbstractMemory.Proofs.Steps
import Mathlib

/-! Which settings are accepted, and what their table of allocators holds. An accepted
list names no allocator twice, so that none is replaced when the table is filled. -/

namespace AbstractMemory

open Steps

/-- The allocator has a name, the arguments it speaks of may be there, and each of them
has one role. -/
structure Allocator.IsPlain (a : Allocator) : Prop where
  named : a.name ≠ ""
  size_le : ∀ n, a.sizeArg = some n → n ≤ maxArgument
  flags_le : ∀ n, a.flagsArg = some n → n ≤ maxArgument
  apart : ∀ n, ¬ (a.sizeArg = some n ∧ a.flagsArg = some n)

namespace Config

variable {names : List String} {index : Nat} {a : Allocator} {as : List Allocator}

theorem guard_eq_ok {ε α : Type} {refused : Prop} [Decidable refused] {e : ε}
    {next : Unit → Except ε α} {x : α} :
    (if refused then throw e >>= next else next ()) = .ok x ↔ ¬ refused ∧ next () = .ok x := by
  by_cases h : refused
  · rw [if_pos h]
    constructor
    · intro herror
      cases herror
    · exact fun hok => absurd h hok.1
  · simp [h]

theorem checkArgument_eq_ok {role : ArgumentRole} {position : Option Nat} {x : Unit} :
    checkArgument index role position = .ok x ↔ ∀ n, position = some n → n ≤ maxArgument := by
  cases position with
  | none => simp [checkArgument]
  | some n =>
    by_cases h : maxArgument < n
    · simp [checkArgument, h]
    · simp [checkArgument, h, Nat.le_of_not_lt h]

theorem shared_iff : (a.sizeArg.isSome = true ∧ a.sizeArg = a.flagsArg) ↔
    ∃ n, a.sizeArg = some n ∧ a.flagsArg = some n := by
  cases h : a.sizeArg with
  | none => simp
  | some n => simp [eq_comm]

/-- One allocator is checked on its own and against the names before it. -/
theorem checkAllocators_cons : checkAllocators index names (a :: as) = .ok () ↔
    a.IsPlain ∧ a.name ∉ names ∧ checkAllocators (index + 1) (a.name :: names) as = .ok () := by
  rw [checkAllocators, guard_eq_ok, guard_eq_ok, bind_eq_ok]
  simp only [bind_eq_ok, guard_eq_ok, checkArgument_eq_ok, shared_iff, String.isEmpty_iff]
  constructor
  · rintro ⟨hname, hnew, _, hsize, _, hflags, hshared, hrest⟩
    exact ⟨⟨hname, hsize, hflags, fun n hn => hshared ⟨n, hn⟩⟩, hnew, hrest⟩
  · rintro ⟨h, hnew, hrest⟩
    exact ⟨h.named, hnew, (), h.size_le, (), h.flags_le, fun hex => hex.elim h.apart, hrest⟩

theorem checkAllocators_eq_ok : checkAllocators index names as = .ok () ↔
    (∀ a ∈ as, a.IsPlain) ∧ (as.map Allocator.name).Nodup ∧ ∀ a ∈ as, a.name ∉ names := by
  induction as generalizing index names with
  | nil => simp [checkAllocators]
  | cons a as ih =>
    rw [checkAllocators_cons, ih]
    simp only [forall_eq_or_imp, List.map_cons, List.nodup_cons, List.mem_map, List.mem_cons,
      not_or, not_exists, not_and]
    constructor
    · rintro ⟨ha, hnew, has, hnodup, hrest⟩
      exact ⟨⟨ha, has⟩, ⟨fun b hb => (hrest b hb).1, hnodup⟩, hnew, fun b hb => (hrest b hb).2⟩
    · rintro ⟨⟨ha, has⟩, ⟨hne, hnodup⟩, hnew, hrest⟩
      exact ⟨ha, hnew, has, hnodup, fun b hb => ⟨hne b hb, hrest b hb⟩⟩

theorem validate_eq_ok (c : Config) : c.validate = .ok () ↔
    c.unionName ≠ "" ∧ (∀ a ∈ c.allocators, a.IsPlain) ∧
      (c.allocators.map Allocator.name).Nodup := by
  rw [validate, guard_eq_ok, checkAllocators_eq_ok, String.isEmpty_iff]
  simp

end Config

namespace AllocatorTable

variable {table : AllocatorTable} {a : Allocator} {as : List Allocator}

theorem lookup_insert (table : AllocatorTable) (a : Allocator) (name : String) :
    (table.insert a).lookup name = if a.name = name then some a else table.lookup name := by
  simp only [lookup, insert, Std.TreeMap.getElem?_insert]
  by_cases h : a.name = name
  · simp [h]
  · have hne : compare a.name name ≠ .eq := fun heq => h (Std.LawfulEqCmp.eq_of_compare heq)
    simp [h, hne]

theorem size_insert (h : table.lookup a.name = none) :
    (table.insert a).size = table.size + 1 := by
  have hnew : a.name ∉ table.entries := by
    rwa [← Std.TreeMap.isSome_getElem?_iff_mem, Bool.not_eq_true, Option.isSome_eq_false_iff,
      Option.isNone_iff_eq_none]
  simp [insert, size, Std.TreeMap.size_insert, hnew]

/-- Allocators of different names, none of which is in the table yet, are all added to it. -/
theorem foldl_insert (hnodup : (as.map Allocator.name).Nodup)
    (hnew : ∀ a ∈ as, table.lookup a.name = none) :
    (as.foldl insert table).size = table.size + as.length ∧
      ∀ name a, (as.foldl insert table).lookup name = some a ↔
        (a ∈ as ∧ a.name = name) ∨ table.lookup name = some a := by
  induction as generalizing table with
  | nil => simp
  | cons b as ih =>
    obtain ⟨hb, hnodup⟩ := List.nodup_cons.mp hnodup
    obtain ⟨hfirst, hlater⟩ := List.forall_mem_cons.mp hnew
    have hne : ∀ a ∈ as, b.name ≠ a.name :=
      fun a ha heq => hb (List.mem_map.mpr ⟨a, ha, heq.symm⟩)
    have hnew' : ∀ a ∈ as, (table.insert b).lookup a.name = none := by
      intro a ha
      rw [lookup_insert, if_neg (hne a ha)]
      exact hlater a ha
    obtain ⟨hsize, hlookup⟩ := ih hnodup hnew'
    rw [List.foldl_cons]
    constructor
    · rw [hsize, size_insert hfirst, List.length_cons]
      omega
    · intro name a
      rw [hlookup, lookup_insert]
      by_cases hname : b.name = name
      · subst hname
        rw [if_pos rfl, hfirst]
        constructor
        · rintro (⟨ha, heq⟩ | heq)
          · exact (hne a ha heq.symm).elim
          · obtain rfl := Option.some.inj heq
            exact .inl ⟨List.mem_cons_self, rfl⟩
        · rintro (⟨ha, heq⟩ | hnone)
          · rcases List.mem_cons.mp ha with rfl | ha
            · exact .inr rfl
            · exact .inl ⟨ha, heq⟩
          · cases hnone
      · have hold : a ∈ b :: as ∧ a.name = name ↔ a ∈ as ∧ a.name = name := by
          constructor
          · rintro ⟨ha, heq⟩
            rcases List.mem_cons.mp ha with rfl | ha
            · exact (hname heq).elim
            · exact ⟨ha, heq⟩
          · exact fun h => ⟨List.mem_cons_of_mem b h.1, h.2⟩
        rw [if_neg hname, hold]

theorem ofList_exact (hnodup : (as.map Allocator.name).Nodup) :
    (ofList as).size = as.length ∧
      ∀ name a, (ofList as).lookup name = some a ↔ a ∈ as ∧ a.name = name := by
  have hempty : ∀ name, ({} : AllocatorTable).lookup name = none := by simp [lookup]
  obtain ⟨hsize, hlookup⟩ := foldl_insert hnodup fun a _ => hempty a.name
  constructor
  · rw [ofList, hsize]
    simp [size]
  · intro name a
    rw [ofList, hlookup, hempty]
    simp

end AllocatorTable

/-- Settings are accepted if and only if unions have a name to go by, and the allocators
have names, each another one, and arguments below 16, each in one role. The table of
accepted settings has an entry for every allocator, which is found by its name. -/
theorem Config.validate_exact (c : Config) :
    (c.validate = .ok () ↔
      c.unionName ≠ "" ∧ (∀ a ∈ c.allocators, a.name ≠ "") ∧
      c.allocators.Pairwise (fun a b => a.name ≠ b.name) ∧
      (∀ a ∈ c.allocators, ∀ n, a.sizeArg = some n ∨ a.flagsArg = some n → n ≤ 15) ∧
      ∀ a ∈ c.allocators, ∀ n, ¬ (a.sizeArg = some n ∧ a.flagsArg = some n)) ∧
    (c.validate = .ok () →
      c.allocatorTable.size = c.allocators.length ∧
      ∀ name a, c.allocatorTable.lookup name = some a ↔ a ∈ c.allocators ∧ a.name = name) := by
  have hnodup : (c.allocators.map Allocator.name).Nodup ↔
      c.allocators.Pairwise (fun a b => a.name ≠ b.name) := List.pairwise_map
  constructor
  · rw [validate_eq_ok, hnodup]
    constructor
    · rintro ⟨hunion, hplain, hpairwise⟩
      refine ⟨hunion, fun a ha => (hplain a ha).named, hpairwise, fun a ha n hn => ?_,
        fun a ha => (hplain a ha).apart⟩
      exact hn.elim ((hplain a ha).size_le n) ((hplain a ha).flags_le n)
    · rintro ⟨hunion, hnamed, hpairwise, hle, hapart⟩
      refine ⟨hunion, fun a ha => ⟨hnamed a ha, ?_, ?_, hapart a ha⟩, hpairwise⟩
      · exact fun n hn => hle a ha n (.inl hn)
      · exact fun n hn => hle a ha n (.inr hn)
  · intro hvalid
    obtain ⟨_, _, hdistinct⟩ := (validate_eq_ok c).mp hvalid
    exact AllocatorTable.ofList_exact hdistinct

/-- An allocator whose size is its last possible argument, and one with both roles. -/
def pooling : Config where
  allocators := [⟨"pool_alloc", some 15, none⟩, ⟨"pool_calloc", some 1, some 0⟩]

theorem Config.validate_exact_pooled :
    pooling.validate = .ok () ∧ pooling.allocatorTable.size = 2 ∧
      pooling.allocatorTable.lookup "pool_calloc" = some ⟨"pool_calloc", some 1, some 0⟩ ∧
      { pooling with allocators := [⟨"pool_alloc", some 16, none⟩] }.validate ≠ .ok () := by
  have hvalid : pooling.validate = .ok () := by decide +kernel
  obtain ⟨hsize, hlookup⟩ := (Config.validate_exact pooling).2 hvalid
  refine ⟨hvalid, hsize, (hlookup _ _).mpr ⟨by simp [pooling], rfl⟩, fun hfar => ?_⟩
  obtain ⟨_, _, _, hle, _⟩ := (Config.validate_exact _).1.mp hfar
  have hlast := hle ⟨"pool_alloc", some 16, none⟩ (by simp) 16 (.inl rfl)
  omega

end AbstractMemory
