import AbstractMemory.Proofs.Coverage
import AbstractMemory.Proofs.Drafting
import Mathlib

/-! Constant addresses into globals. Their indices are counted in bytes, and
the bytes are followed back to the field that the indices lead to. -/

namespace AbstractMemory

theorem wrap64_natCast {n : Nat} (h : n < 2 ^ 63) : wrap64 n = n := by
  apply Int.bmod_eq_of_le <;> omega

/-- A product that is small is not wrapped, even if one factor is. -/
theorem wrap64_mul {i n : Nat} (h : i * n < 2 ^ 63) : wrap64 (i * wrap64 n) = (i * n : Nat) := by
  rcases Nat.eq_zero_or_pos i with rfl | hi
  · simp [wrap64]
  · have hn : n ≤ i * n := Nat.le_mul_of_pos_left n hi
    rw [wrap64_natCast (show n < 2 ^ 63 by omega), ← Nat.cast_mul, wrap64_natCast h]

theorem TypeTable.atIndex?_natCast {α : Type} (l : List α) (i : Nat) : atIndex? l i = l[i]? := by
  rw [atIndex?, if_neg (by omega), Int.toNat_natCast]

namespace DataLayout

variable {p : Program} {path : List Nat} {t : Nat} {e : Extent}

theorem sizeOf_of_extent (h : p.dataLayout.extentFrom p.types path t = .ok (some e)) :
    p.dataLayout.sizeOf p.types t = .ok (p.byteCount t) := by
  have hsize : p.dataLayout.size? p.types t = .ok (some e.size) :=
    size?_eq_ok.mpr ⟨e.align, extentFrom_of_subset (List.nil_subset _) h⟩
  simp [sizeOf, hsize, p.byteCount_of_extent h]

theorem offsetStep_element {i u : Nat}
    (h : p.dataLayout.extentFrom p.types path t = .ok (some e)) (hu : p.element? t i = some u)
    (hlt : p.elementStart t i < 2 ^ 63) :
    p.dataLayout.offsetStep p.types t i = .ok ((p.elementStart t i : Nat), u) := by
  rcases Program.element?_cases hu with ⟨length, ht, _⟩ | ⟨s, hs, hm⟩
  · obtain ⟨_, e', he'⟩ := extentFrom_part h (.element ht)
    simp only [Program.elementStart, ht] at hlt
    simp only [offsetStep, ht, sizeOf_of_extent he', wrap64_mul hlt, Program.elementStart]
  · obtain ⟨placed, o, hlayout, _, ho⟩ := Program.exists_member_offset hs hm h
    simp [offsetStep, TypeTable.get?_of_struct? hs, hlayout, TypeTable.atIndex?_natCast, ho, hm,
      Program.elementStart]

theorem offsetAlong_path {indices : List Nat} (start : Nat)
    (h : p.dataLayout.extentFrom p.types path t = .ok (some e)) (hin : p.InBounds t indices)
    (hlt : start + p.pathBytes t indices < 2 ^ 63) :
    p.dataLayout.offsetAlong p.types start t (indices.map Nat.cast) =
      .ok (start + p.pathBytes t indices : Nat) := by
  induction indices generalizing path t e start with
  | nil => rfl
  | cons i rest ih =>
    obtain ⟨u, hu, hin⟩ := hin
    simp only [Program.pathBytes, hu, Option.getD_some] at hlt ⊢
    obtain ⟨_, e', he'⟩ := extentFrom_part h (Program.part_of_element? hu)
    have hstep := offsetStep_element h hu (by omega)
    have hnext := ih (start + p.elementStart t i) he' hin (by omega)
    simp only [List.map_cons, offsetAlong, hstep]
    rw [← Nat.cast_add, wrap64_natCast (by omega), hnext, Nat.add_assoc]

theorem indexedOffset_path {k : Nat} {indices : List Nat}
    (h : p.dataLayout.extent p.types t = .ok (some e)) (hin : p.InBounds t indices)
    (hlt : k * p.byteCount t + p.pathBytes t indices < 2 ^ 63) :
    p.dataLayout.indexedOffset p.types t ((k :: indices).map Nat.cast) =
      .ok (k * p.byteCount t + p.pathBytes t indices : Nat) := by
  simp only [List.map_cons, indexedOffset, sizeOf_of_extent h]
  rw [wrap64_mul (by omega)]
  exact offsetAlong_path _ h hin hlt

end DataLayout

theorem Value.kind_of_constantExpr? {value : Value} {e : ConstantExpr}
    (h : value.constantExpr? = some e) : value.kind = .constant (.expr e) := by
  unfold constantExpr? at h
  split at h
  · rename_i hk
    rw [hk, Option.some.inj h]
  · cases h

namespace Program

variable {p : Program} {g : Nat} {value : Value} {gl : Global}

theorem stripCasts_global (hv : p.values.get? g = some value) (hgl : value.global? = some gl) :
    p.values.stripCasts g = .ok g := by
  have hk := value.kind_of_global? hgl
  rw [ValueTable.stripCasts]
  simp [hv, ValueTable.passedOn?, Value.cast?, Value.elementAddress?, hk]

theorem underlying_global (hv : p.values.get? g = some value) (hgl : value.global? = some gl) :
    p.underlying g = .ok g := by
  have hk := value.kind_of_global? hgl
  rw [underlying, stripCasts_global hv hgl]
  simp [ValueTable.get, hv, Value.elementAddress?, hk, bind, Except.bind, pure, Except.pure]

variable {v : Nat} {address : Value} {a : ElementAddress}

theorem byteOffset_global (hv : p.values.get? a.base = some value) (hgl : value.global? = some gl)
    (ha : p.values.get? v = some address)
    (hexpr : address.constantExpr? = some (.elementAddress a)) {n : Nat}
    (hn : p.ownOffset a = .ok (n : Int)) (hlt : n < 2 ^ 63) : p.byteOffset v = .ok (n : Int) := by
  have hk := address.kind_of_constantExpr? hexpr
  have hkg := value.kind_of_global? hgl
  rw [byteOffset]
  simp [ha, Value.elementAddress?, hk, stripCasts_global hv hgl, ValueTable.get, hv,
    Value.constantExpr?, hkg, hn, bind, Except.bind, pure, Except.pure, wrap64_natCast hlt]

theorem underlying_address (hwf : p.WellFormed) (hv : p.values.get? a.base = some value)
    (hgl : value.global? = some gl) (ha : p.values.get? v = some address)
    (hexpr : address.constantExpr? = some (.elementAddress a)) : p.underlying v = .ok a.base := by
  have hk := address.kind_of_constantExpr? hexpr
  have hlt : a.base < v := by
    refine hwf.operands v address ha a.base ?_
    simp [Value.operands, hk, ConstantExpr.operands, ElementAddress.operands]
  have hpassed : p.values.stripCasts v =
      if p.values.allZero a.indices then p.values.stripCasts a.base else .ok v := by
    rw [ValueTable.stripCasts]
    cases hz : p.values.allZero a.indices <;>
      simp [ha, ValueTable.passedOn?, Value.cast?, Value.elementAddress?, hk, hz, hlt]
  rw [underlying, hpassed]
  split
  · have hkg := value.kind_of_global? hgl
    simp [stripCasts_global hv hgl, ValueTable.get, hv, Value.elementAddress?, hkg, bind,
      Except.bind, pure, Except.pure]
  · simp [ValueTable.get, ha, Value.elementAddress?, hk, hlt, underlying_global hv hgl, bind,
      Except.bind]

theorem ownOffset_path {k : Nat} {indices : List Nat} {e : Extent}
    (h : p.dataLayout.extent p.types a.source = .ok (some e))
    (hin : p.InBounds a.source indices)
    (hops : a.indices.map p.values.constInt? = (k :: indices).map fun i : Nat => some (i : Int))
    (hlt : k * p.byteCount a.source + p.pathBytes a.source indices < 2 ^ 63) :
    p.ownOffset a = .ok (k * p.byteCount a.source + p.pathBytes a.source indices : Nat) := by
  have hcast : a.indices.map (fun i => (p.values.constInt? i).getD 0) =
      (k :: indices).map Nat.cast := by
    have hh := congrArg (List.map fun i : Option Int => i.getD 0) hops
    simpa only [List.map_map, Function.comp_def, Option.getD_some] using hh
  rw [ownOffset, hcast]
  exact DataLayout.indexedOffset_path h hin hlt

/-- A value is the constant address that these indices reach from a base. -/
def IsAddress (p : Program) (v source base : Nat) (indices : List Nat) : Prop :=
  ∃ address operands, p.values.get? v = some address ∧
    address.constantExpr? = some (.elementAddress ⟨source, base, operands⟩) ∧
    operands.map p.values.constInt? = indices.map fun i : Nat => some (i : Int)

end Program

namespace Catalog

variable {c : Catalog} {p : Program}

theorem constantField_eq {g v k n : Nat} {gl : Global} {indices : List Nat} (hwf : p.WellFormed)
    (hg : p.ListsGlobal g gl) (ha : p.IsAddress v gl.valueType g (k :: indices))
    (hsized : p.dataLayout.size? p.types gl.valueType = .ok (some n))
    (hin : p.InBounds gl.valueType indices)
    (hlt : k * n + p.pathBytes gl.valueType indices < 2 ^ 63) :
    c.constantField p v =
      c.fieldInType p gl.valueType (k * n + p.pathBytes gl.valueType indices : Nat) := by
  obtain ⟨⟨m, hm, hlist⟩, value, hv, hgl⟩ := hg
  obtain ⟨address, operands, haddress, hexpr, hops⟩ := ha
  obtain ⟨value', gl', hv', hgl', ht⟩ := hwf.globals m hm g hlist
  obtain rfl : value = value' := Option.some.inj (hv.symm.trans hv')
  obtain rfl : gl = gl' := Option.some.inj (hgl.symm.trans hgl')
  obtain ⟨align, he⟩ := DataLayout.size?_eq_ok.mp hsized
  obtain rfl : p.byteCount gl.valueType = n := p.byteCount_of_extent he
  have hoffset := Program.byteOffset_global hv hgl haddress hexpr
    (Program.ownOffset_path he hin hops hlt) hlt
  have hbase := Program.underlying_address hwf hv hgl haddress hexpr
  simp [constantField, hoffset, hbase, fieldOf, ValueTable.get, hv, TypeTable.pointee?, ht,
    Ty.pointee?, bind, Except.bind]

theorem fieldInType_indexed (hd : p.DistinctScopes) (hc : c.Grounded p)
    (hptr : 1 ≤ p.dataLayout.pointerSize) {indices : List Nat} {t n : Nat} (hsolid : p.Solid t)
    (hpart : c.HasPart p t) (hsized : p.dataLayout.size? p.types t = .ok (some n))
    (hin : p.InBounds t indices) :
    ∃ field, c.pathField? p t indices = some field ∧ ∀ k,
      c.fieldInType p t (k * n + p.pathBytes t indices : Nat) = .ok ⟨field, true⟩ := by
  obtain ⟨align, he⟩ := DataLayout.size?_eq_ok.mp hsized
  obtain rfl : p.byteCount t = n := p.byteCount_of_extent he
  obtain ⟨count, hcount⟩ := hsolid.exists_byteCount_eq_mul he
  obtain ⟨field, hpath, hfind⟩ := fieldInType_path hd hc hptr hsolid hpart he hin
  refine ⟨field, hpath, fun k => ?_⟩
  have hsum : k * p.byteCount t + p.pathBytes t indices =
      p.pathBytes t indices + k * count * p.byteCount (p.types.stripArrays t) := by
    rw [hcount]
    ring
  rw [hsum]
  exact hfind (k * count)

/-- Once a catalog has covered a program, a constant address into a listed
global reaches the field that its indices lead to. -/
theorem constantField_path {layout : DataLayout} {commands : List Command} {p : Program}
    (hp : ((Draft.start layout).runScript commands).2.program = p) (hd : p.DistinctScopes)
    (hptr : 1 ≤ p.dataLayout.pointerSize) {unionName : String} {before : List Request}
    {c : Catalog} (hrun : coverProgram p (after { unionName := unionName } p before) = .ok () c)
    (later : List Request) {g v k n : Nat} {gl : Global} {indices : List Nat}
    (hg : p.ListsGlobal g gl) (ha : p.IsAddress v gl.valueType g (k :: indices))
    (hsolid : p.Solid gl.valueType)
    (hsized : p.dataLayout.size? p.types gl.valueType = .ok (some n))
    (hin : p.InBounds gl.valueType indices)
    (hlt : k * n + p.pathBytes gl.valueType indices < 2 ^ 63) :
    ∃ field, (c.after p later).pathField? p gl.valueType indices = some field ∧
      (c.after p later).constantField p v = .ok ⟨field, true⟩ := by
  have hwf : p.WellFormed := hp ▸ Draft.runScript_wellFormed layout commands
  have hok := flattenable_storable hd
  have hstart := (after_advances hok (inProgress_empty p _ unionName) before).toInProgress
  obtain ⟨hadv, hcov⟩ := (coverProgram_meets hok hstart).of_ok hrun
  have hlast := after_advances hok hadv.toInProgress later
  have hpart := hadv.coherent.grounded.hasPart_global hd hcov hg hsolid hsized
  obtain ⟨field, hpath, hfind⟩ := fieldInType_indexed hd hlast.coherent.grounded hptr hsolid
    (hlast.grows.hasPart hpart) hsized hin
  exact ⟨field, hpath, (constantField_eq hwf hg ha hsized hin hlt).trans (hfind k)⟩

/-- A global that is an array of structs, and an address into it. -/
def addressing : List Command := [
  .int 32,
  .defineStruct "inner" [0, 0],
  .arrayOf 1 2,
  .defineUnion "either" [0, 1],
  .defineStruct "outer" [3, 2, 0],
  .arrayOf 4 3,
  .addModule "main",
  .global "table" 5 false,
  .constantAddress 5 0 [1, 2, 1, 1, 1]]

def addressed : Program :=
  ((Draft.start {}).runScript addressing).2.program

theorem constantField_path_addressed : ∃ c,
    coverProgram addressed (after { unionName := "union." } addressed [.layout 4]) = .ok () c ∧
      c.pathField? addressed 5 [2, 1, 1, 1] = some 2 ∧
      c.constantField addressed 6 = .ok ⟨2, true⟩ := by
  have hfield : (match coverProgram addressed
      (after { unionName := "union." } addressed [.layout 4]) with
      | .ok _ c => c.pathField? addressed 5 [2, 1, 1, 1]
      | .error _ _ => none) = some 2 := by
    decide +kernel
  have hp : ((Draft.start {}).runScript addressing).2.program = addressed := rfl
  have hd : addressed.DistinctScopes := by decide +kernel
  have hptr : 1 ≤ addressed.dataLayout.pointerSize := by decide +kernel
  have hsolid : addressed.Solid 5 := Program.solid_of_isFilled (by decide +kernel) 5
  have hsized : addressed.dataLayout.size? addressed.types 5 = .ok (some 84) := by decide +kernel
  have hg : addressed.ListsGlobal 0 ⟨5, false, 0⟩ :=
    ⟨⟨⟨"main", [0], []⟩, by decide +kernel, List.mem_singleton_self 0⟩,
      ⟨6, some "table", .global ⟨5, false, 0⟩, [6]⟩, by decide +kernel, rfl⟩
  have ha : addressed.IsAddress 6 5 0 [1, 2, 1, 1, 1] :=
    ⟨⟨8, none, .constant (.expr (.elementAddress ⟨5, 0, [1, 2, 3, 4, 5]⟩)), []⟩,
      [1, 2, 3, 4, 5], by decide +kernel, rfl, by decide +kernel⟩
  have hin : addressed.InBounds 5 [2, 1, 1, 1] :=
    ⟨4, by decide +kernel, 2, by decide +kernel, 1, by decide +kernel, 0, by decide +kernel,
      trivial⟩
  cases hrun : coverProgram addressed
      (after { unionName := "union." } addressed [.layout 4]) with
  | error e c => simp [hrun] at hfield
  | ok _ c =>
    rw [hrun] at hfield
    obtain ⟨field, hpath, hconst⟩ := constantField_path hp hd hptr hrun [] hg ha hsolid hsized hin
      (by decide +kernel)
    obtain rfl : field = 2 := Option.some.inj (hpath.symm.trans hfield)
    exact ⟨c, rfl, hfield, hconst⟩

end Catalog

end AbstractMemory
