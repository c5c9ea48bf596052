import AbstractMemory.Proofs.ConstantAddress
import AbstractMemory.Proofs.FieldRange
import AbstractMemory.Proofs.Geometry
import Mathlib

/-! Constant addresses and objects. The field that an offset leads to and the
nodes that an object is made of come from the same record, so an address never
leaves the object it starts from, wherever in it or beside it the address lies. -/

namespace AbstractMemory

open Steps

theorem ValueTable.stripCasts_le {values : ValueTable} {v u : Nat}
    (h : values.stripCasts v = .ok u) : u ≤ v := by
  fun_induction stripCasts values v with
  | case1 => cases h
  | case2 => exact (Except.ok.inj h).symm.le
  | case3 v value _ source _ hlt ih => exact (ih h).trans hlt.le
  | case4 => exact (Except.ok.inj h).symm.le

theorem Program.underlying_le {p : Program} {v u : Nat} (h : p.underlying v = .ok u) : u ≤ v := by
  induction v using Nat.strong_induction_on with
  | _ v ih =>
    rw [underlying] at h
    obtain ⟨stripped, hstrip, h⟩ := bind_eq_ok.mp h
    have hle := ValueTable.stripCasts_le hstrip
    obtain ⟨value, _, h⟩ := bind_eq_ok.mp h
    split at h
    · exact (Except.ok.inj h) ▸ hle
    · split at h
      · rename_i hlt
        exact (ih _ hlt h).trans hlt.le
      · exact (Except.ok.inj h) ▸ hle

theorem Program.Stores.constantExpr?_eq_none {p : Program} {allocators : AllocatorTable} {v : Nat}
    {value : Value} (h : p.Stores allocators v) (hv : p.values.get? v = some value) :
    value.constantExpr? = none := by
  obtain ⟨m, _, h⟩ := h
  cases h with
  | global _ hvalue hg _ =>
    obtain rfl := Option.some.inj (hv.symm.trans hvalue)
    simp [Value.constantExpr?, value.kind_of_global? hg]
  | alloca _ _ _ hvalue hop =>
    obtain rfl := Option.some.inj (hv.symm.trans hvalue)
    obtain ⟨parent, hk⟩ := value.kind_of_instruction? hop
    simp [Value.constantExpr?, hk]

namespace Arena

variable {a : Arena} {p : Program} {c : Catalog}

theorem Block.fieldNode_union {v b : Nat} {flags : List Bool} (h : a.Block v b flags)
    (hu : flags.head? = some true) (i : Nat) : a.fieldNode b i = .ok b := by
  obtain ⟨node, hn, hobj, _, _, hunion⟩ := h.base
  rw [hu, Option.some.injEq] at hunion
  simp [Arena.fieldNode, object_eq_ok.mpr ⟨hn, hobj⟩, hunion]

theorem objectNode_of_stores {allocators : AllocatorTable} {v : Nat}
    (h : p.Stores allocators v) : a.objectNode p c v = .ok a.objectNodes[v]? := by
  obtain ⟨m, _, h⟩ := h
  rw [objectNode]
  cases h with
  | @global value g _ hvalue hg hdef =>
    have hk := value.kind_of_global? hg
    simp [ValueTable.get, hvalue, hk, Program.definitionOf, value.isDeclaration_of_global? hg, hdef,
      Except.mapError, bind, Except.bind, pure, Except.pure]
  | @alloca _ _ value allocated _ _ _ hvalue hop =>
    obtain ⟨parent, hk⟩ := value.kind_of_instruction? hop
    simp [ValueTable.get, hvalue, hk, Except.mapError, bind, Except.bind, pure, Except.pure]

/-- A constant address is looked up in the object it starts from. -/
theorem objectNode_elementAddress {v g : Nat} {address : Value} {e : ElementAddress}
    (hv : p.values.get? v = some address)
    (hexpr : address.constantExpr? = some (.elementAddress e))
    (hpointer : p.types.isPointer address.type = true) (hg : p.underlying v = .ok g)
    (hlt : g < v) :
    a.objectNode p c v =
      match a.objectNode p c g with
      | .error e => .error e
      | .ok none => .error (.missingBase v)
      | .ok (some b) =>
        if b = nullObject ∨ b = universalObject then .ok (some b)
        else
          match c.constantField p v with
          | .error e => .error (.program e)
          | .ok f => (a.fieldNode b f.index).map some := by
  rw [objectNode]
  simp only [ValueTable.get, hv, address.kind_of_constantExpr? hexpr, hpointer, hg, hlt,
    Except.mapError, bind, Except.bind, pure, Except.pure, Bool.not_true, Bool.false_eq_true,
    if_true, if_false]
  cases a.objectNode p c g with
  | error e => rfl
  | ok found =>
    cases found with
    | none => rfl
    | some b =>
      dsimp only
      split
      · rfl
      · cases c.constantField p v with
        | error e => rfl
        | ok f => cases a.fieldNode b f.index <;> rfl

theorem objectNode_address {v g b : Nat} {address : Value} {e : ElementAddress}
    {f : ResolvedField} (hv : p.values.get? v = some address)
    (hexpr : address.constantExpr? = some (.elementAddress e))
    (hpointer : p.types.isPointer address.type = true) (hg : p.underlying v = .ok g)
    (hlt : g < v) (hb : a.objectNode p c g = .ok (some b)) (hf : c.constantField p v = .ok f) :
    a.objectNode p c v =
      if b = nullObject ∨ b = universalObject then .ok (some b)
      else (a.fieldNode b f.index).map some := by
  rw [objectNode_elementAddress hv hexpr hpointer hg hlt, hb, hf]

end Arena

namespace Catalog

variable {c : Catalog} {p : Program} {t : Nat}

theorem KnowsUsed.measured (h : c.KnowsUsed p) (ht : p.Reaches t)
    (hend : p.types.isArray (p.types.stripArrays t) = false) : Measured p t := by
  intro hno
  obtain ⟨index, hindex, hused⟩ := (ht.byValue (p.types.byValue_stripArrays t)).used
  obtain ⟨used, hok, _⟩ := h index hindex
  obtain ⟨answer, ha⟩ :
      ∃ answer, p.dataLayout.extent p.types (p.types.stripArrays t) = .ok answer :=
    DataLayout.exists_extent_of_scalar (hused used hok).1 hend hno
  exact ⟨_, by rw [DataLayout.size?, ha]; rfl⟩

/-- An object has a node for each field of its type. -/
theorem Plans.exists_fieldNode {a : Arena} {v b index : Nat} {flags : List Bool}
    (h : c.Plans p (p.types.stripArrays t) (.fields flags)) (hb : a.Block v b flags)
    (hindex : index < max 1 (c.partOf p t).length) :
    ∃ n, a.fieldNode b index = .ok n ∧ b ≤ n ∧ n < b + flags.length := by
  have hinside : index < flags.length →
      ∃ n, a.fieldNode b index = .ok n ∧ b ≤ n ∧ n < b + flags.length := by
    intro hlt
    refine ⟨_, hb.fieldNode hlt, ?_⟩
    split <;> omega
  cases h with
  | scalar hs =>
    refine hinside ?_
    simpa [partOf, canonical?, hs] using hindex
  | union _ =>
    exact ⟨b, hb.fieldNode_union rfl index, Nat.le_refl b, by simp⟩
  | struct hs _ hr _ hf =>
    refine hinside ?_
    have hpos := List.length_pos_iff.mpr hf
    rw [partOf_of_record hs hr] at hindex
    rw [List.length_map]
    omega

end Catalog

namespace MemoryModel

variable {p : Program} {config : Config} {m : MemoryModel} {v : Nat}

theorem exists_pointee (hwf : p.WellFormed) (htyped : p.Typed) {allocators : AllocatorTable}
    (h : p.Stores allocators v) :
    ∃ value t, p.values.get? v = some value ∧ p.types.pointee? value.type = some t ∧
      p.Reaches t := by
  obtain ⟨m, hm, h⟩ := h
  cases h with
  | @global value _ hv hvalue _ _ =>
    obtain ⟨value', gl, hvalue', _, hpointer⟩ := hwf.globals m hm v hv
    obtain rfl := Option.some.inj (hvalue.symm.trans hvalue')
    have ht := TypeTable.pointee?_of_get? hpointer
    refine ⟨_, _, hvalue, ht, Program.Reaches.follows ?_ (TypeTable.follows_pointee ht)⟩
    exact Program.reaches_of_global hm hv hvalue (List.mem_cons_self ..)
  | @alloca _ f value allocated hf hmodels hv hvalue hop =>
    obtain ⟨owner, howner, hfunction, _⟩ := hmodels.body
    obtain ⟨parent, hk⟩ := value.kind_of_instruction? hop
    have hpointer := htyped v value hvalue
    simp only [Value.Typed, hk] at hpointer
    obtain ⟨t, ht⟩ := Option.isSome_iff_exists.mp hpointer
    refine ⟨_, _, hvalue, ht, Program.Reaches.follows ?_ (TypeTable.follows_pointee ht)⟩
    exact Program.reaches_of_instruction hm hf howner hfunction hv hvalue (List.mem_cons_self ..)

/-- In a program written without raw commands, a constant address into a stored
value resolves to a node of its object, whatever its offset is. If the value has
a sentinel for an object, so has the address. -/
theorem constant_address_inside {layout : DataLayout} {commands : List Command}
    (hp : ((Draft.start layout).runScript commands).2.program = p)
    (hraw : ∀ c ∈ commands, c.isRaw = false) (h : build p config = .ok m) {g : Nat}
    {address : Value} {a : ElementAddress} {offset : Int}
    (hv : p.values.get? v = some address)
    (hexpr : address.constantExpr? = some (.elementAddress a))
    (hunderlying : p.underlying v = .ok g) (hg : p.Stores config.allocatorTable g)
    (hoffset : p.byteOffset v = .ok offset) :
    ∃ b n, m.arena.objectNodes[g]? = some b ∧
      m.arena.objectNode p m.catalog v = .ok (some n) ∧
      ((isSentinel b = true ∧ n = b) ∨
        ∃ size, m.arena.objectSize b = .ok size ∧ b ≤ n ∧ n < b + size) := by
  have hwf : p.WellFormed := hp ▸ Draft.runScript_wellFormed layout commands
  have htyped : p.Typed := hp ▸ Draft.runScript_typed layout hraw
  obtain ⟨value, t, hvalue, ht, hreach⟩ := exists_pointee hwf htyped hg
  obtain ⟨b, plan, hb, hplan, hreal, hend⟩ := exists_plan h hg hvalue ht
  have hc : m.catalog.Grounded p := (build_sound h).1.catalog.grounded
  obtain ⟨_, _, hknown, _⟩ := build_covered h
  obtain ⟨f, hf, hindex⟩ := Catalog.fieldInType_range hc (hknown.measured hreach hend) offset
  have hfield : m.catalog.constantField p v = .ok f := by
    simp [Catalog.constantField, hoffset, hunderlying, Catalog.fieldOf, ValueTable.get, hvalue, ht,
      hf, bind, Except.bind]
  have hpointer := htyped v address hv
  simp only [Value.Typed, address.kind_of_constantExpr? hexpr] at hpointer
  -- what is stored is not a constant, so it was written before the address
  have hlt : g < v := by
    refine Nat.lt_of_le_of_ne (Program.underlying_le hunderlying) ?_
    rintro rfl
    simp [hg.constantExpr?_eq_none hv] at hexpr
  have hnode := Arena.objectNode_address hv hexpr hpointer hunderlying hlt
    ((Arena.objectNode_of_stores hg).trans (congrArg _ hb)) hfield
  cases plan with
  | sentinel n =>
    obtain rfl : b = n := hreal
    have hsentinel : b = nullObject ∨ b = universalObject := by
      cases hplan with
      | bodiless => exact .inr rfl
      | empty => exact .inl rfl
    rw [if_pos hsentinel] at hnode
    refine ⟨b, b, hb, hnode, .inl ⟨?_, rfl⟩⟩
    rcases hsentinel with rfl | rfl <;> rfl
  | fields flags =>
    have hblock : m.arena.Block g b flags := hreal
    have hsize := hblock.objectSize hblock.pos
    obtain ⟨n, hn, hle, hlt⟩ := hplan.exists_fieldNode hblock hindex
    rw [hn] at hnode
    split at hnode
    · exact ⟨b, b, hb, hnode, .inr ⟨_, hsize, Nat.le_refl b, by omega⟩⟩
    · exact ⟨b, n, hb, hnode, .inr ⟨_, hsize, hle, hlt⟩⟩

/-- A global pair of numbers, and the address of the byte four bytes after it. -/
def overrunning : List Command := [
  .int 32,
  .defineStruct "pair" [0, 0],
  .int 8,
  .pointerTo 2,
  .addModule "main",
  .global "table" 1 false,
  .constantCast .bit 0 3,
  .constantAddress 2 1 [12]]

def overrun : Program :=
  ((Draft.start {}).runScript overrunning).2.program

theorem constant_address_inside_overrun : ∃ m n, build overrun {} = .ok m ∧
    overrun.byteOffset 3 = .ok 12 ∧ m.arena.objectNodes[0]? = some 6 ∧
    m.arena.objectNode overrun m.catalog 3 = .ok (some n) ∧ 6 ≤ n ∧ n < 8 := by
  obtain ⟨m, hb, hfacts⟩ := exists_built overrun {} (fun m =>
    decide (m.arena.objectNodes[0]? = some 6 ∧ m.arena.objectSize 6 = .ok 2)) (by decide +kernel)
  obtain ⟨hmapped, hsize⟩ := of_decide_eq_true hfacts
  have hp : ((Draft.start {}).runScript overrunning).2.program = overrun := rfl
  have hraw : ∀ c ∈ overrunning, c.isRaw = false := by decide
  have hv : overrun.values.get? 3 =
      some ⟨3, none, .constant (.expr (.elementAddress ⟨2, 1, [2]⟩)), []⟩ := by
    decide +kernel
  have hunderlying : overrun.underlying 3 = .ok 0 := by decide +kernel
  have hoffset : overrun.byteOffset 3 = .ok 12 := by decide +kernel
  have hg : overrun.Stores ({} : Config).allocatorTable 0 := by
    refine ⟨⟨"main", [0], []⟩, by decide +kernel, .global (g := ⟨1, false, 0⟩) (by simp)
      (?_ : _ = some ⟨4, some "table", .global ⟨1, false, 0⟩, [1]⟩) rfl rfl⟩
    decide +kernel
  obtain ⟨b, n, hmapped', hnode, hrange⟩ :=
    constant_address_inside hp hraw hb hv rfl hunderlying hg hoffset
  obtain rfl : 6 = b := Option.some.inj (hmapped.symm.trans hmapped')
  refine ⟨m, n, hb, hoffset, hmapped, hnode, ?_⟩
  obtain ⟨hsentinel, _⟩ | ⟨size, hok, hle, hlt⟩ := hrange
  · cases hsentinel
  · obtain rfl : 2 = size := Except.ok.inj (hsize.symm.trans hok)
    exact ⟨hle, hlt⟩

end MemoryModel

end AbstractMemory
