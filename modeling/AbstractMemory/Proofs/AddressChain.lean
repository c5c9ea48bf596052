import AbstractMemory.Proofs.Underlying
import Mathlib

/-! Element addresses that are based on one another. Their object is found by
one walk and their offset by another, which passes over addresses that stay
where their base is. Still the offset is what all of them add up to, and an
address in two steps is the same as one in a single step. -/

namespace AbstractMemory

theorem wrap64_add_wrap64 (x y : Int) : wrap64 (x + wrap64 y) = wrap64 (x + y) :=
  Int.add_bmod_bmod

theorem wrap64_wrap64_add (x y : Int) : wrap64 (wrap64 x + y) = wrap64 (x + y) :=
  Int.bmod_add_bmod

theorem wrap64_wrap64 (x : Int) : wrap64 (wrap64 x) = wrap64 x :=
  Int.bmod_bmod

theorem wrap64_zero : wrap64 0 = 0 := rfl

namespace DataLayout

variable {layout : DataLayout} {types : TypeTable} {t u : Nat}

/-! ### Indices that follow other indices -/

theorem sizeOf_eq_ok {n : Nat} : layout.sizeOf types t = .ok n ↔
    ∃ align, layout.extent types t = .ok (some ⟨n, align⟩) := by
  rw [← size?_eq_ok, sizeOf]
  split <;> simp_all

theorem part_of_indexStep {index : Option Int} (h : types.indexStep t index = .ok u) :
    types.Part t u := by
  unfold TypeTable.indexStep at h
  split at h
  · cases h
  · rename_i s ht
    split at h
    · cases h
    · split at h
      · rename_i member hm
        cases h
        unfold TypeTable.atIndex? at hm
        split at hm
        · cases hm
        · exact .member (TypeTable.struct?_of_get? ht) (List.mem_of_getElem? hm)
      · cases h
  · rename_i ht
    cases h
    exact .element ht
  · cases h

theorem byValue_of_indexedType {path : List (Option Int)}
    (h : types.indexedType t path = .ok u) : types.ByValue t u := by
  induction path generalizing t with
  | nil =>
    cases h
    exact .refl
  | cons index rest ih =>
    rw [TypeTable.indexedType, List.foldlM_cons] at h
    cases hstep : types.indexStep t index with
    | error e => simp [hstep, bind, Except.bind] at h
    | ok next =>
      rw [hstep] at h
      exact .head (part_of_indexStep hstep) (ih h)

/-- What one index of an offset adds. -/
theorem offsetStep_cases {index bytes : Int} {next : Nat}
    (h : layout.offsetStep types t index = .ok (bytes, next)) :
    (∃ (s : StructType) (placed : StructLayout) (offset : Nat), types.struct? t = some s ∧
      layout.structLayout types t = .ok (some placed) ∧
      TypeTable.atIndex? placed.offsets index = some offset ∧ bytes = offset ∧
      TypeTable.atIndex? s.members index = some next) ∨
    ∃ length n : Nat, types.get? t = some (.array next length) ∧
      bytes = wrap64 (index * wrap64 n) := by
  unfold offsetStep at h
  split at h
  · cases h
  · rename_i s ht
    split at h
    · cases h
    · cases h
    · rename_i placed hplaced
      split at h
      · rename_i offset member hoffset hmember
        cases h
        exact .inl ⟨s, placed, offset, TypeTable.struct?_of_get? ht, hplaced, hoffset, rfl, hmember⟩
      · cases h
  · rename_i element length ht
    split at h
    · cases h
    · rename_i n hn
      cases h
      exact .inr ⟨length, n, ht, rfl⟩
  · cases h

theorem indexStep_of_offsetStep {index bytes : Int} {next : Nat}
    (h : layout.offsetStep types t index = .ok (bytes, next)) :
    types.indexStep t (some index) = .ok next := by
  rcases offsetStep_cases h with ⟨s, _, _, hs, _, _, _, hm⟩ | ⟨length, n, ht, _⟩
  · simp [TypeTable.indexStep, TypeTable.get?_of_struct? hs, hm]
  · simp [TypeTable.indexStep, ht]

theorem offsetAlong_add (start offset : Int) (t : Nat) (path : List Int) :
    layout.offsetAlong types (wrap64 (start + offset)) t path =
      (layout.offsetAlong types offset t path).map fun bytes => wrap64 (start + bytes) := by
  induction path generalizing offset t with
  | nil => rfl
  | cons index rest ih =>
    rw [offsetAlong, offsetAlong]
    cases hstep : layout.offsetStep types t index with
    | error e => rfl
    | ok found =>
      obtain ⟨bytes, next⟩ := found
      have hsum : wrap64 (wrap64 (start + offset) + bytes) =
          wrap64 (start + wrap64 (offset + bytes)) := by
        rw [wrap64_wrap64_add, wrap64_add_wrap64, Int.add_assoc]
      simp only [hsum]
      exact ih (wrap64 (offset + bytes)) next

theorem offsetAlong_append {path : List Int} (h : types.indexedType t (path.map some) = .ok u)
    (offset : Int) (rest : List Int) : layout.offsetAlong types offset t (path ++ rest) =
      (layout.offsetAlong types offset t path).bind fun bytes =>
        layout.offsetAlong types bytes u rest := by
  induction path generalizing t offset with
  | nil =>
    cases h
    rfl
  | cons index tail ih =>
    rw [List.cons_append, offsetAlong, offsetAlong]
    cases hstep : layout.offsetStep types t index with
    | error e => rfl
    | ok found =>
      obtain ⟨bytes, next⟩ := found
      rw [List.map_cons, TypeTable.indexedType, List.foldlM_cons,
        indexStep_of_offsetStep hstep] at h
      exact ih h (wrap64 (offset + bytes))

theorem wrap64_offsetAlong {offset bytes : Int} {path : List Int} (hoffset : wrap64 offset = offset)
    (h : layout.offsetAlong types offset t path = .ok bytes) : wrap64 bytes = bytes := by
  induction path generalizing t offset with
  | nil =>
    cases h
    exact hoffset
  | cons index rest ih =>
    rw [offsetAlong] at h
    cases hstep : layout.offsetStep types t index with
    | error e => simp [hstep] at h
    | ok found =>
      simp only [hstep] at h
      exact ih (wrap64_wrap64 _) h

theorem indexedOffset_of_sizeOf {n : Nat} (h : layout.sizeOf types t = .ok n) (first : Int)
    (rest : List Int) : layout.indexedOffset types t (first :: rest) =
      layout.offsetAlong types (wrap64 (first * wrap64 n)) t rest := by
  simp only [indexedOffset, h]

/-- Indices that go on from where others lead count from there. -/
theorem indexedOffset_append {source target : Nat} {path : List Int}
    (h : types.indexedType source (path.map some) = .ok target) (first : Int) (rest : List Int) :
    layout.indexedOffset types source (first :: (path ++ rest)) =
      (layout.indexedOffset types source (first :: path)).bind fun outer =>
        (layout.indexedOffset types target (0 :: rest)).map fun inner => wrap64 (outer + inner) := by
  cases hsize : layout.sizeOf types source with
  | error e => simp only [indexedOffset, hsize, Except.bind]
  | ok n =>
    obtain ⟨align, hextent⟩ := sizeOf_eq_ok.mp hsize
    obtain ⟨e, he⟩ := extent_byValue hextent (byValue_of_indexedType h)
    have htarget : layout.sizeOf types target = .ok e.size := sizeOf_eq_ok.mpr ⟨e.align, he⟩
    rw [indexedOffset_of_sizeOf hsize, indexedOffset_of_sizeOf hsize,
      indexedOffset_of_sizeOf htarget, offsetAlong_append h, Int.zero_mul, wrap64_zero]
    cases houter : layout.offsetAlong types (wrap64 (first * wrap64 n)) source path with
    | error e => rfl
    | ok outer =>
      have hwrapped := wrap64_offsetAlong (wrap64_wrap64 _) houter
      have hshift : layout.offsetAlong types (wrap64 (outer + 0)) target rest = _ :=
        offsetAlong_add outer 0 target rest
      rw [Int.add_zero, hwrapped] at hshift
      exact hshift

/-! ### Indices that are all zero -/

theorem offsetStep_zero {bytes : Int} {next : Nat}
    (h : layout.offsetStep types t 0 = .ok (bytes, next)) : bytes = 0 := by
  rcases offsetStep_cases h with ⟨s, placed, offset, hs, hplaced, hoffset, hbytes, _⟩ |
    ⟨_, n, _, hbytes⟩
  · obtain ⟨_, extents, _, hplace⟩ := extents_of_structLayout hs hplaced
    have hget : placed.offsets[0]? = some offset := hoffset
    cases extents with
    | nil =>
      have hlen := StructLayout.length_of_place hplace
      simp [List.length_eq_zero_iff.mp hlen] at hget
    | cons e rest =>
      rw [StructLayout.place_first hplace] at hget
      rw [hbytes, ← Option.some.inj hget, Nat.cast_zero]
  · rw [hbytes, Int.zero_mul, wrap64_zero]

theorem offsetAlong_zero {bytes : Int} {path : List Int} (hzero : ∀ index ∈ path, index = 0)
    (h : layout.offsetAlong types 0 t path = .ok bytes) : bytes = 0 := by
  induction path generalizing t with
  | nil =>
    cases h
    rfl
  | cons index rest ih =>
    obtain ⟨rfl, hrest⟩ := List.forall_mem_cons.mp hzero
    rw [offsetAlong] at h
    cases hstep : layout.offsetStep types t 0 with
    | error e => simp [hstep] at h
    | ok found =>
      obtain ⟨step, next⟩ := found
      obtain rfl := offsetStep_zero hstep
      simp only [hstep, Int.add_zero, wrap64_zero] at h
      exact ih hrest h

theorem indexedOffset_zero {bytes : Int} {indices : List Int}
    (hzero : ∀ index ∈ indices, index = 0)
    (h : layout.indexedOffset types t indices = .ok bytes) : bytes = 0 := by
  cases indices with
  | nil =>
    cases h
    rfl
  | cons first rest =>
    obtain ⟨rfl, hrest⟩ := List.forall_mem_cons.mp hzero
    cases hsize : layout.sizeOf types t with
    | error e => simp [indexedOffset, hsize] at h
    | ok n =>
      rw [indexedOffset_of_sizeOf hsize, Int.zero_mul, wrap64_zero] at h
      exact offsetAlong_zero hrest h

end DataLayout

namespace Program

variable {p : Program} {v object : Nat} {value : Value} {a : ElementAddress}

theorem ownOffset_zero {bytes : Int} (hzero : p.values.allZero a.indices = true)
    (h : p.ownOffset a = .ok bytes) : bytes = 0 := by
  refine DataLayout.indexedOffset_zero ?_ h
  intro index hindex
  obtain ⟨i, hi, rfl⟩ := List.mem_map.mp hindex
  have hint : p.values.constInt? i = some 0 := by
    simpa using List.all_eq_true.mp hzero i hi
  rw [hint, Option.getD_some]

/-! ### What lies between an address and its object -/

/-- The offset of the constant address behind casts, or zero where something
else is behind them. -/
def offsetBehind (p : Program) (v : Nat) : Except ProgramError Int := do
  let s ← p.values.stripCasts v
  match (← p.values.get s).constantExpr? with
  | some (.elementAddress _) => p.byteOffset s
  | _ => .ok 0

theorem WellFormed.byteOffset_eq (hwf : p.WellFormed) (hv : p.values.get? v = some value)
    (ha : value.elementAddress? = some a) : p.byteOffset v =
      (p.offsetBehind a.base).bind fun below =>
        (p.ownOffset a).map fun own => wrap64 (below + own) := by
  obtain ⟨hlt, other, hother⟩ := hwf.exists_get? hv (Value.mem_operands_of_elementAddress? ha)
  obtain ⟨s, found, hstrip, hfound, _⟩ := hwf.exists_stripCasts hother
  have hle := ValueTable.stripCasts_le hstrip
  have hsv : s < v := by omega
  rw [byteOffset, offsetBehind]
  simp only [hv, ha, hstrip, ValueTable.get, hfound, bind, Except.bind]
  cases found.constantExpr? with
  | none => cases p.ownOffset a <;> rfl
  | some e =>
    cases e with
    | elementAddress b =>
      rw [if_pos hsv]
      cases p.byteOffset s <;> cases p.ownOffset a <;> rfl
    | _ => cases p.ownOffset a <;> rfl

theorem WellFormed.offsetBehind_of_passedOn? (hwf : p.WellFormed)
    (hv : p.values.get? v = some value) {source : Nat}
    (hs : p.values.passedOn? value = some source) : p.offsetBehind v = p.offsetBehind source := by
  rw [offsetBehind, offsetBehind, hwf.stripCasts_of_passedOn? hv hs]

theorem offsetBehind_leaf (hv : p.values.get? v = some value) (hleaf : value.IsLeaf) :
    p.offsetBehind v = .ok 0 := by
  have hs := stripCasts_self hv (ValueTable.passedOn?_of_isLeaf hleaf)
  have hno : ∀ a, value.constantExpr? ≠ some (.elementAddress a) := by
    intro a hexpr
    have haddress := Value.elementAddress?_of_constantExpr? hexpr
    rw [hleaf.address] at haddress
    cases haddress
  simp only [offsetBehind, hs, ValueTable.get, hv, bind, Except.bind]

theorem offsetBehind_address (hv : p.values.get? v = some value)
    (hexpr : value.constantExpr? = some (.elementAddress a))
    (hnonzero : p.values.allZero a.indices = false) : p.offsetBehind v = p.byteOffset v := by
  have haddress := Value.elementAddress?_of_constantExpr? hexpr
  have hs : p.values.passedOn? value = none := by
    simp [ValueTable.passedOn?, Value.cast?_of_elementAddress? haddress, haddress, hnonzero]
  simp only [offsetBehind, stripCasts_self hv hs, ValueTable.get, hv, hexpr, bind, Except.bind]

/-! ### Chains of addresses -/

/-- A cast that keeps the address of its source. -/
def CastOf (p : Program) (v source : Nat) : Prop :=
  ∃ value kind, p.values.get? v = some value ∧ value.cast? = some (kind, source) ∧
    kind.keepsPointer = true

/-- Constant element addresses up to `v`, each based on the one before it and
the first on an object, all through any number of casts that keep an address.
Each has an offset of its own. -/
inductive AddressChain (p : Program) (object : Nat) : Nat → List Int → Prop
  | first {v : Nat} {value : Value} {a : ElementAddress} {own : Int}
      (hv : p.values.get? v = some value)
      (hexpr : value.constantExpr? = some (.elementAddress a))
      (hbase : Relation.ReflTransGen p.CastOf a.base object)
      (hown : p.ownOffset a = .ok own) : AddressChain p object v [own]
  | next {v w : Nat} {value : Value} {a : ElementAddress} {own : Int} {offsets : List Int}
      (hw : AddressChain p object w offsets) (hv : p.values.get? v = some value)
      (hexpr : value.constantExpr? = some (.elementAddress a))
      (hbase : Relation.ReflTransGen p.CastOf a.base w)
      (hown : p.ownOffset a = .ok own) : AddressChain p object v (offsets ++ [own])

theorem WellFormed.behind_casts (hwf : p.WellFormed) {source : Nat}
    (h : Relation.ReflTransGen p.CastOf v source) :
    p.underlying v = p.underlying source ∧ p.offsetBehind v = p.offsetBehind source := by
  induction h with
  | refl => exact ⟨rfl, rfl⟩
  | @tail w source _ hcast ih =>
    obtain ⟨value, kind, hv, hc, hk⟩ := hcast
    have hs : p.values.passedOn? value = some source := by simp [ValueTable.passedOn?, hc, hk]
    exact ⟨ih.1.trans (hwf.underlying_of_passedOn? hv hs),
      ih.2.trans (hwf.offsetBehind_of_passedOn? hv hs)⟩

/-- One more address on a chain adds its own offset, also if the walk along the
casts passes over it. -/
theorem WellFormed.address_on_chain (hwf : p.WellFormed) {w : Nat} {own sum : Int}
    (hv : p.values.get? v = some value) (hexpr : value.constantExpr? = some (.elementAddress a))
    (hbase : Relation.ReflTransGen p.CastOf a.base w) (hown : p.ownOffset a = .ok own)
    (hw : p.underlying w = .ok object) (hsum : p.offsetBehind w = .ok (wrap64 sum)) :
    p.underlying v = .ok object ∧ p.byteOffset v = .ok (wrap64 (sum + own)) ∧
      p.offsetBehind v = .ok (wrap64 (sum + own)) := by
  have haddress := Value.elementAddress?_of_constantExpr? hexpr
  obtain ⟨hunder, hbehind⟩ := hwf.behind_casts hbase
  have hoffset : p.byteOffset v = .ok (wrap64 (sum + own)) := by
    rw [hwf.byteOffset_eq hv haddress, hbehind, hsum, hown]
    exact congrArg Except.ok (wrap64_wrap64_add sum own)
  refine ⟨((hwf.underlying_address hv haddress).trans hunder).trans hw, hoffset, ?_⟩
  by_cases hzero : p.values.allZero a.indices = true
  · have hs : p.values.passedOn? value = some a.base := by
      simp [ValueTable.passedOn?, Value.cast?_of_elementAddress? haddress, haddress, hzero]
    rw [hwf.offsetBehind_of_passedOn? hv hs, hbehind, hsum, ownOffset_zero hzero hown, Int.add_zero]
  · rw [offsetBehind_address hv hexpr (Bool.eq_false_iff.mpr hzero), hoffset]

theorem WellFormed.chain_offset (hwf : p.WellFormed) (hobject : p.values.get? object = some value)
    (hleaf : value.IsLeaf) {offsets : List Int} (h : p.AddressChain object v offsets) :
    p.underlying v = .ok object ∧ p.byteOffset v = .ok (wrap64 offsets.sum) ∧
      p.offsetBehind v = .ok (wrap64 offsets.sum) := by
  induction h with
  | first hv hexpr hbase hown =>
    rw [List.sum_singleton]
    have hzero : p.offsetBehind object = .ok (wrap64 0) := offsetBehind_leaf hobject hleaf
    simpa using hwf.address_on_chain hv hexpr hbase hown (underlying_self hobject hleaf) hzero
  | next _ hv hexpr hbase hown ih =>
    rw [List.sum_append, List.sum_singleton]
    exact hwf.address_on_chain hv hexpr hbase hown ih.1 ih.2.2

/-- However a program was written, a chain of constant addresses leads to the
object at its start, at the sum of all their own offsets. And indices that
go on from where others lead add what they are worth from there. -/
theorem chained_addresses {layout : DataLayout} {commands : List Command}
    (hp : ((Draft.start layout).runScript commands).2.program = p) :
    (∀ (object v : Nat) (value : Value) (offsets : List Int),
      p.values.get? object = some value → value.IsLeaf → p.AddressChain object v offsets →
      p.underlying v = .ok object ∧ p.byteOffset v = .ok (wrap64 offsets.sum)) ∧
    ∀ (source target : Nat) (first : Int) (path rest : List Int),
      p.types.indexedType source (path.map some) = .ok target →
      p.dataLayout.indexedOffset p.types source (first :: (path ++ rest)) = do
        let outer ← p.dataLayout.indexedOffset p.types source (first :: path)
        let inner ← p.dataLayout.indexedOffset p.types target (0 :: rest)
        return wrap64 (outer + inner) := by
  have hwf : p.WellFormed := hp ▸ Draft.runScript_wellFormed layout commands
  constructor
  · intro object v value offsets hobject hleaf hchain
    obtain ⟨hunder, hoffset, _⟩ := hwf.chain_offset hobject hleaf hchain
    exact ⟨hunder, hoffset⟩
  · intro source target first path rest hpath
    exact DataLayout.indexedOffset_append hpath first rest

/-- An address that adds nothing and a cast stand between two others, and the
last one goes so far that it wraps around. -/
def chaining : List Command := [
  .int 32,
  .defineStruct "pair" [0, 0],
  .arrayOf 1 4,
  .pointerTo 1,
  .addModule "main",
  .global "table" 2 false,
  .constantAddress 2 0 [0, 3],
  .constantAddress 1 3 [0, 0],
  .constantCast .bit 6 3,
  .constantAddress 1 7 [0, 1],
  .constantAddress 0 10 [9223372036854775807]]

def chained : Program :=
  ((Draft.start {}).runScript chaining).2.program

theorem chained_addresses_wrapped : chained.AddressChain 0 12 [24, 0, 4, -4] ∧
    chained.underlying 12 = .ok 0 ∧ chained.byteOffset 12 = .ok 24 ∧
    chained.dataLayout.indexedOffset chained.types 2 [0, 3, 1] = .ok 28 := by
  have hp : ((Draft.start {}).runScript chaining).2.program = chained := rfl
  have htable : chained.values.get? 0 = some ⟨4, some "table", .global ⟨2, false, 0⟩, [3]⟩ := by
    decide +kernel
  have hleaf : Value.IsLeaf ⟨4, some "table", .global ⟨2, false, 0⟩, [3]⟩ := ⟨rfl, nofun⟩
  have hcast : chained.CastOf 7 6 :=
    ⟨⟨3, none, .constant (.expr (.cast .bit 6)), [10]⟩, .bit, by decide +kernel, rfl, rfl⟩
  have h3 : chained.values.get? 3 =
      some ⟨3, none, .constant (.expr (.elementAddress ⟨2, 0, [1, 2]⟩)), [6]⟩ := by decide +kernel
  have h6 : chained.values.get? 6 =
      some ⟨6, none, .constant (.expr (.elementAddress ⟨1, 3, [4, 5]⟩)), [7]⟩ := by decide +kernel
  have h10 : chained.values.get? 10 =
      some ⟨6, none, .constant (.expr (.elementAddress ⟨1, 7, [8, 9]⟩)), [12]⟩ := by decide +kernel
  have h12 : chained.values.get? 12 =
      some ⟨6, none, .constant (.expr (.elementAddress ⟨0, 10, [11]⟩)), []⟩ := by decide +kernel
  have hfirst : chained.AddressChain 0 3 [24] := .first h3 rfl .refl (by decide +kernel)
  have hsecond : chained.AddressChain 0 6 [24, 0] :=
    .next hfirst h6 rfl .refl (by decide +kernel)
  have hthird : chained.AddressChain 0 10 [24, 0, 4] :=
    .next hsecond h10 rfl (.single hcast) (by decide +kernel)
  have hlast : chained.AddressChain 0 12 [24, 0, 4, -4] :=
    .next hthird h12 rfl .refl (by decide +kernel)
  obtain ⟨hwalks, hindices⟩ := chained_addresses hp
  obtain ⟨hunder, hoffset⟩ := hwalks 0 12 _ _ htable hleaf hlast
  refine ⟨hlast, hunder, hoffset, (hindices 2 1 0 [3] [1] (by decide +kernel)).trans ?_⟩
  decide +kernel

end Program

end AbstractMemory
