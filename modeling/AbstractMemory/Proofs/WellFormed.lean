import AbstractMemory.Proofs.Descent
import AbstractMemory.Proofs.Reasons
import AbstractMemory.Proofs.Solid

/-! Structs that are well formed, and which of them get a record. A well-formed
type has a size unless it is too large, so what is left to go wrong is a last member
without fields, a name that does not end and an offset that does not fit. -/

namespace AbstractMemory

open Steps

/-- Whether all is known that a type by itself needs for a size. -/
def Ty.isComplete : Ty → Bool
  | .void => false
  | .function _ => false
  | .struct s => s.body.isSome
  | _ => true

/-- The types that a type holds directly. -/
def TypeTable.parts (types : TypeTable) (t : Nat) : List Nat :=
  match types.get? t with
  | some (.array element _) => [element]
  | some (.struct s) => s.members
  | _ => []

theorem TypeTable.mem_parts {types : TypeTable} {t u : Nat} (h : types.Part t u) :
    u ∈ types.parts t := by
  cases h with
  | element ht => simp [parts, ht]
  | member hs hm => simpa [parts, get?_of_struct? hs] using hm

/-- All that a type holds by value is known and complete, and nothing of it is
inside itself. -/
structure TypeTable.WellFormed (types : TypeTable) (t : Nat) : Prop where
  complete : ∀ u, types.ByValue t u → (types.get? u).any Ty.isComplete = true
  acyclic : ∀ u, types.ByValue t u → ¬ Relation.TransGen types.Part u u

theorem TypeTable.WellFormed.inside {types : TypeTable} {t u : Nat} (h : types.WellFormed t)
    (hu : types.ByValue t u) : types.WellFormed u :=
  ⟨fun v hv => h.complete v (hu.trans hv), fun v hv => h.acyclic v (hu.trans hv)⟩

/-- Induction over what a well-formed type holds. Nothing on the way down is met again,
so each step leaves fewer types to see. -/
theorem TypeTable.WellFormed.ind {types : TypeTable} {motive : List Nat → Nat → Prop}
    (step : ∀ path t, types.WellFormed t → t ∉ path →
      (∀ u, types.Part t u → motive (t :: path) u) → motive path t)
    {path : List Nat} {t : Nat} (h : types.WellFormed t)
    (hpath : ∀ x ∈ path, Relation.TransGen types.Part x t) : motive path t := by
  induction hn : unseen types.size path using Nat.strong_induction_on generalizing path t with
  | _ n ih =>
    subst hn
    have hp : t ∉ path := fun hm => h.acyclic t .refl (hpath t hm)
    refine step path t h hp fun u hu => ?_
    obtain ⟨ty, ht, _⟩ := (Option.any_eq_true _ _).mp (h.complete t .refl)
    refine ih _ (unseen_cons_lt (lt_size_of_get? ht) hp) (h.inside (.single hu)) ?_ rfl
    intro x hx
    rcases List.mem_cons.mp hx with rfl | hx
    · exact .single hu
    · exact (hpath x hx).tail hu

/-- Where types hold only earlier ones, nothing is inside itself. -/
theorem TypeTable.wellFormed_of_lt {types : TypeTable}
    (h : ∀ u < types.size, (types.get? u).any Ty.isComplete = true ∧
      ∀ v ∈ types.parts u, v < u) {t : Nat} (ht : t < types.size) : types.WellFormed t := by
  have hpart : ∀ u < types.size, ∀ v, types.Part u v → v < u :=
    fun u hu v hv => (h u hu).2 v (TypeTable.mem_parts hv)
  have hle : ∀ u, types.ByValue t u → u < types.size := by
    intro u hu
    induction hu with
    | refl => exact ht
    | tail _ hv ih => exact (hpart _ ih _ hv).trans ih
  refine ⟨fun u hu => (h u (hle u hu)).1, fun u hu hcycle => ?_⟩
  have hdown : ∀ v, Relation.TransGen types.Part u v → v < u := by
    intro v hv
    induction hv with
    | single hv => exact hpart u (hle u hu) _ hv
    | tail _ hv ih => exact (hpart _ (ih.trans (hle u hu)) _ hv).trans ih
  exact Nat.lt_irrefl u (hdown u hcycle)

theorem settles_placeMembers {overflow : Overflow} {s : StructType}
    {extent : Nat → Except ProgramError (Option Extent)} {members : List Nat}
    (h : ∀ m ∈ members, (∃ e, extent m = .ok (some e)) ∨
      overflow = .stops ∧ extent m = .error (.halted .overflow)) (placing : Placing) :
    (∃ placed, placeMembers overflow s extent placing members = .ok (some placed)) ∨
      overflow = .stops ∧
        placeMembers overflow s extent placing members = .error (.halted .overflow) := by
  induction members generalizing placing with
  | nil =>
    unfold placeMembers
    rcases placing.settles_close overflow with ⟨placed, hplaced⟩ | ⟨hstops, hplaced⟩
    · exact .inl ⟨placed, by rw [hplaced]; rfl⟩
    · exact .inr ⟨hstops, by rw [hplaced]; rfl⟩
  | cons m rest ih =>
    unfold placeMembers
    rcases h m (by simp) with ⟨e, he⟩ | ⟨hstops, he⟩
    · rw [he]
      rcases placing.settles_add overflow s e with ⟨next, hnext⟩ | ⟨hstops, hnext⟩
      · simp only [hnext]
        exact ih (fun m hm => h m (by simp [hm])) next
      · exact .inr ⟨hstops, by simp only [hnext]⟩
    · exact .inr ⟨hstops, by rw [he]⟩

namespace DataLayout

variable {p : Program} {path : List Nat} {t : Nat}

theorem extentFrom_of_wellFormed (h : p.types.WellFormed t)
    (hpath : ∀ x ∈ path, Relation.TransGen p.types.Part x t) :
    (∃ e, p.dataLayout.extentFrom p.types path t = .ok (some e)) ∨
      p.dataLayout.overflow = .stops ∧
        p.dataLayout.extentFrom p.types path t = .error (.halted .overflow) := by
  refine TypeTable.WellFormed.ind (motive := fun path t =>
    (∃ e, p.dataLayout.extentFrom p.types path t = .ok (some e)) ∨
      p.dataLayout.overflow = .stops ∧
        p.dataLayout.extentFrom p.types path t = .error (.halted .overflow)) ?_ h hpath
  intro path t h hp hpart
  obtain ⟨ty, ht, hcomplete⟩ := (Option.any_eq_true _ _).mp (h.complete t .refl)
  rw [(extent_guards p.dataLayout p.types).first path t hp, extentStep, ht]
  cases ty with
  | void => cases hcomplete
  | function => cases hcomplete
  | array element length =>
    dsimp only
    rcases hpart element (.element ht) with ⟨e, he⟩ | ⟨hstops, he⟩
    · exact .inl ⟨_, by rw [he]⟩
    · exact .inr ⟨hstops, by rw [he]⟩
  | struct s =>
    obtain ⟨members, hb⟩ := Option.isSome_iff_exists.mp hcomplete
    have hs := TypeTable.struct?_of_get? ht
    have hmembers : ∀ m ∈ members, m ∈ s.members := by simp [StructType.members, hb]
    simp only [hb]
    rcases settles_placeMembers (fun m hm => hpart m (.member hs (hmembers m hm))) {} with
      ⟨placed, hplaced⟩ | ⟨hstops, hplaced⟩
    · exact .inl ⟨_, by rw [hplaced]; rfl⟩
    · exact .inr ⟨hstops, by rw [hplaced]; rfl⟩
  | _ => exact .inl ⟨_, rfl⟩

theorem extent_of_wellFormed (h : p.types.WellFormed t) :
    (∃ e, p.dataLayout.extent p.types t = .ok (some e)) ∨
      p.dataLayout.overflow = .stops ∧
        p.dataLayout.extent p.types t = .error (.halted .overflow) :=
  extentFrom_of_wellFormed h (by simp)

/-- If the members of all structs in a well-formed type fit, it has a size. -/
theorem exists_extent_of_fits (h : p.types.WellFormed t)
    (hfits : ∀ u s, p.types.ByValue t u → p.types.struct? u = some s →
      p.exactSize s ≤ maxByteCount) : ∃ e, p.dataLayout.extent p.types t = .ok (some e) := by
  refine TypeTable.WellFormed.ind (motive := fun path t =>
    (∀ u s, p.types.ByValue t u → p.types.struct? u = some s → p.exactSize s ≤ maxByteCount) →
      ∃ e, p.dataLayout.extentFrom p.types path t = .ok (some e)) ?_ h (by simp) hfits
  intro path t h hp hpart hfits
  have hinside : ∀ u, p.types.Part t u →
      ∃ e, p.dataLayout.extentFrom p.types (t :: path) u = .ok (some e) :=
    fun u hu => hpart u hu fun v s hv => hfits v s (.head hu hv)
  obtain ⟨ty, ht, hcomplete⟩ := (Option.any_eq_true _ _).mp (h.complete t .refl)
  cases ty with
  | void => cases hcomplete
  | function => cases hcomplete
  | array element length =>
    obtain ⟨e, he⟩ := hinside element (.element ht)
    exact ⟨_, (extentFrom_array ht).mpr ⟨hp, e, he, rfl⟩⟩
  | struct s =>
    obtain ⟨members, hb⟩ := Option.isSome_iff_exists.mp hcomplete
    have hs := TypeTable.struct?_of_get? ht
    obtain rfl : s.members = members := by simp [StructType.members, hb]
    have hall : List.Forall₂ (fun m e =>
        p.dataLayout.extentFrom p.types (t :: path) m = .ok (some e)) s.members
        (s.members.map p.extentOf) := by
      refine List.forall₂_map_right_iff.mpr (List.forall₂_same.mpr fun m hm => ?_)
      obtain ⟨e, he⟩ := hinside m (.member hs hm)
      rw [he, Program.extentOf_eq he]
    exact ⟨_, (extentFrom_struct ht).mpr
      ⟨hp, _, _, _, hb, hall, StructLayout.place_of_le (hfits t s .refl hs), rfl⟩⟩
  | _ =>
    rw [(extent_guards p.dataLayout p.types).first path t hp, extentStep, ht]
    exact ⟨_, rfl⟩

/-- If it is stopped by sizes that do not fit, a well-formed type has a size if and only
if the members of all structs in it fit. -/
theorem exists_extent_iff (h : p.types.WellFormed t) (hstops : p.dataLayout.overflow = .stops) :
    (∃ e, p.dataLayout.extent p.types t = .ok (some e)) ↔
      ∀ u s, p.types.ByValue t u → p.types.struct? u = some s →
        p.exactSize s ≤ maxByteCount := by
  refine ⟨?_, exists_extent_of_fits h⟩
  rintro ⟨e, he⟩ u s hu hs
  obtain ⟨e', he'⟩ := extent_byValue he hu
  obtain ⟨_, _, _, _, hb, hall, hplace, _⟩ := structLayout_of_extent hs he'
  rw [hstops] at hplace
  rw [Program.exactSize, StructType.members, hb, Option.getD_some, Program.map_extentOf hall]
  exact StructLayout.le_of_place_stops hplace

end DataLayout

namespace Catalog

variable {p : Program} {t k : Nat}

theorem byValue_of_contains (h : p.Contains t k) : p.types.ByValue t k := by
  induction h with
  | refl => exact .refl
  | tail _ hstep ih => exact ih.trans hstep.inside.to_reflTransGen

/-- Either byte counts start again from zero where they do not fit, or the members of a
struct and of all structs in it fit, and all offsets do. -/
def InRange (c : Catalog) (p : Program) (k : Nat) : Prop :=
  p.dataLayout.overflow = .stops →
    (∀ u s, p.types.ByValue k u → p.types.struct? u = some s →
      p.exactSize s ≤ maxByteCount) ∧ ¬ c.OutOfReach p k

/-- A recorded struct has nothing out of reach. -/
theorem Coherent.not_outOfReach {c : Catalog} (hc : c.Coherent p) {r : FieldRecord}
    (hr : c.records[k]? = some r) (ho : r.isOpaque = false)
    (hstops : p.dataLayout.overflow = .stops) : ¬ c.OutOfReach p k := by
  intro hfar
  cases hfar with
  | struct h hlarge =>
    obtain ⟨o, hcount, _⟩ := hc.linked.complete _ _ _ (mem_records_iff.mpr ⟨r, hr⟩) h
    exact Nat.not_le.mpr hlarge ((Overflow.count_eq_ok.mp hcount).2 hstops)
  | field hu hm hsub htable hf hlarge =>
    obtain ⟨s, i, hs, hi, hoffset⟩ := hm
    obtain ⟨sub, hss, rfl⟩ := canonical?_eq_some.mp hsub
    have htab := hc.grounded.tabulates hs hr ho
    obtain ⟨_, inner, hinner, hbody⟩ := htab.parts _ (List.mem_of_getElem? hi) sub hss
    obtain rfl := Option.some.inj ((hc.grounded.table?_eq hinner hbody).symm.trans htable)
    refine Nat.not_le.mpr hlarge (htab.fits hstops ?_ i _ _ hi hoffset _ ?_)
    · simpa [isUnion, hs] using hu
    · rw [partOf_of_record hss hinner]
      exact hf

/-- What can be wrong with a well-formed struct. -/
theorem Reason.of_wellFormed {c : Catalog} {e : RecordError} (h : c.Reason p t e)
    (hw : p.types.WellFormed t) : ∃ k, p.Contains t k ∧
      ((∃ name field, c.EndsHollow p k ∧ p.types.text k = .ok name ∧
          e = .inconsistent name (.memberAtMissingField field)) ∨
        (p.types.Endless k ∧ e = .program (.halted .endless)) ∨
        ¬ c.InRange p k ∧ e = .program (.halted .overflow)) := by
  cases h with
  | bodiless hk hb hs hbody =>
    have hin := (byValue_of_contains hk).trans (byValue_of_contains (.single hb))
    have hcomplete := hw.complete _ hin
    simp [TypeTable.get?_of_struct? hs, Ty.isComplete, hbody] at hcomplete
  | recursive hk hcycle => exact (hw.acyclic _ (byValue_of_contains hk) hcycle.byValue).elim
  | unsized hk hsize =>
    rcases DataLayout.extent_of_wellFormed (hw.inside (byValue_of_contains hk)) with
      ⟨e, he⟩ | ⟨_, he⟩
    · simp [hsize] at he
    · simp [hsize] at he
  | unmeasured hk _ _ _ hsize =>
    rcases DataLayout.extent_of_wellFormed (hw.inside (byValue_of_contains hk)) with
      ⟨e, he⟩ | ⟨hstops, he⟩
    · simp [hsize] at he
    · obtain rfl := Except.error.inj (hsize.symm.trans he)
      refine ⟨_, hk, .inr (.inr ⟨fun hin => ?_, rfl⟩)⟩
      obtain ⟨e, hok⟩ := DataLayout.exists_extent_of_fits
        (hw.inside (byValue_of_contains hk)) (hin hstops).1
      simp [hsize] at hok
  | hollow hk hends hname => exact ⟨_, hk, .inl ⟨_, _, hends, hname, rfl⟩⟩
  | unwritten hk hname =>
    obtain ⟨rfl, hendless⟩ := TypeTable.text_eq_error hname
    exact ⟨_, hk, .inr (.inl ⟨hendless, rfl⟩)⟩
  | far hk hstops hfar =>
    exact ⟨_, hk, .inr (.inr ⟨fun hin => (hin hstops).2 hfar, rfl⟩)⟩

/-- Whatever was asked before, a well-formed struct gets a record unless a struct
in it ends with a member without fields, has a name that does not end or is too
large, and then that is what the error says. -/
theorem layoutOf_ok_iff (unionName : String) (requests : List Request) {s : StructType}
    (hd : p.DistinctScopes) (hs : p.types.struct? t = some s) (hw : p.types.WellFormed t) :
    let c := after { unionName := unionName } p requests
    ((∃ r c', layoutOf p t c = .ok r c') ↔ ∀ k, p.Contains t k →
        ¬ c.EndsHollow p k ∧ ¬ p.types.Endless k ∧ c.InRange p k) ∧
      ∀ e c', layoutOf p t c = .error e c' → ∃ k, p.Contains t k ∧
        ((∃ name field, c.EndsHollow p k ∧ p.types.text k = .ok name ∧
            e = .inconsistent name (.memberAtMissingField field)) ∨
          (p.types.Endless k ∧ e = .program (.halted .endless)) ∨
          ¬ c.InRange p k ∧ e = .program (.halted .overflow)) := by
  intro c
  have hin := (after_advances (flattenable_false p)
    (inProgress_empty p _ unionName) requests).toInProgress
  have hc : c.Grounded p := hin.coherent.grounded
  have herror : ∀ e c', layoutOf p t c = .error e c' → c.Reason p t e := by
    intro e c' he
    rcases layoutOf_blames hd hc hin.coherent rfl e c' he with ⟨hnone, _⟩ | hreason
    · simp [hs] at hnone
    · exact hreason
  refine ⟨⟨?_, ?_⟩, fun e c' he => (herror e c' he).of_wellFormed hw⟩
  · rintro ⟨r, c', hr⟩ k hk
    obtain ⟨hadv, s', hs', hrec⟩ := (layoutOf_meets (flattenable_false p) t hin).of_ok hr
    have hc' := hadv.coherent.grounded
    rw [hc'.standIn_self hd hs'] at hrec
    have hmem := hc'.mem_of_contains hd (mem_records_iff.mpr ⟨r, hrec⟩) hk
    obtain ⟨rk, hrk⟩ := mem_records_iff.mp hmem
    obtain ⟨sk, hsk, hshape, _⟩ := (hc'.record k rk hrk).shape
    have hbody : rk.isOpaque = false := by
      have hcomplete := hw.complete k (byValue_of_contains hk)
      simp only [TypeTable.get?_of_struct? hsk, Option.any_some, Ty.isComplete] at hcomplete
      rw [hshape, Option.isNone_eq_false_iff, hcomplete]
    refine ⟨fun hends => ?_, TypeTable.exists_text_iff.mp ⟨_, (hc'.record k rk hrk).name⟩, ?_⟩
    · exact hc'.not_endsHollow hd hrk (hends.congr hadv.grows.unionName)
    · refine fun hstops => ⟨?_, fun hfar => ?_⟩
      · obtain ⟨size, hsize⟩ := (hc'.tabulates hsk hrk hbody).measured
        have hwk := hw.inside (byValue_of_contains hk)
        refine (DataLayout.exists_extent_iff hwk hstops).mp
          ((DataLayout.extent_of_wellFormed hwk).resolve_right ?_)
        rintro ⟨_, he⟩
        simp [DataLayout.size?_eq_error.mpr he] at hsize
      · refine hadv.coherent.not_outOfReach hrk hbody hstops
          (hfar.congr hadv.grows.unionName fun u => ?_)
        rw [hc.canonical?_eq hd, hc'.canonical?_eq hd]
  · intro hall
    cases hr : layoutOf p t c with
    | ok r c' => exact ⟨r, c', rfl⟩
    | error e c' =>
      obtain ⟨k, hk, hwrong⟩ := (herror e c' hr).of_wellFormed hw
      obtain ⟨hends, htext, hrange⟩ := hall k hk
      rcases hwrong with ⟨_, _, hhollow, _⟩ | ⟨hendless, _⟩ | ⟨hfar, _⟩
      · exact (hends hhollow).elim
      · exact (htext hendless).elim
      · exact (hfar hrange).elim

/-- Two arrays that together are one byte too large for a byte count. -/
def crowded (overflow : Overflow) : Program where
  dataLayout := { overflow }
  types := {
    entries := #[
      .integer 8,
      .array 0 0x8000000000000000,
      .struct ⟨some "halves", some [1, 1], false, false⟩] }

example : answers (layoutOf (crowded .stops) 2) {} = .error (.program (.halted .overflow)) ∧
    (answers (layoutOf (crowded .wraps) 2) {}).toOption.map FieldRecord.size = some 0 := by
  decide +kernel

/-- Structs with a member without fields, which is the last one or not. -/
def trailing : Program where
  types := {
    entries := #[
      .integer 32,
      .struct ⟨some "empty", some [], false, false⟩,
      .struct ⟨some "behind", some [0, 1], false, false⟩,
      .struct ⟨some "ahead", some [1, 0], false, false⟩,
      .array 3 2,
      .pointer 6,
      .struct ⟨some "list", some [4, 1, 5], false, false⟩,
      .struct ⟨some "outer", some [6, 2], false, false⟩] }

theorem trailing_wellFormed {t : Nat} (ht : t < 8) : trailing.types.WellFormed t :=
  TypeTable.wellFormed_of_lt (by decide +kernel) ht

theorem layoutOf_ok_iff_trailing :
    let c := after { unionName := "union." } trailing [.layout 2]
    (∀ k, trailing.Contains 6 k →
        ¬ c.EndsHollow trailing k ∧ ¬ trailing.types.Endless k ∧ c.InRange trailing k) ∧
      ∃ k name field c', trailing.Contains 7 k ∧ c.EndsHollow trailing k ∧
        trailing.types.text k = .ok name ∧
        layoutOf trailing 7 c = .error (.inconsistent name (.memberAtMissingField field)) c' := by
  intro c
  have hd : trailing.DistinctScopes := by decide +kernel
  constructor
  · refine (layoutOf_ok_iff "union." [.layout 2] hd rfl (trailing_wellFormed (by decide))).1.mp ?_
    have hok : (answers (layoutOf trailing 6) c).isOk = true := by decide +kernel
    unfold answers at hok
    split at hok
    · exact ⟨_, _, by assumption⟩
    · cases hok
  · have hfail : answers (layoutOf trailing 7) c =
        .error (.inconsistent "%behind" (.memberAtMissingField 1)) := by decide +kernel
    obtain ⟨c', he⟩ := answers_eq_error.mp hfail
    obtain ⟨k, hk, ⟨name, field, hends, hname, herror⟩ | ⟨_, herror⟩ | ⟨_, herror⟩⟩ :=
      (layoutOf_ok_iff "union." [.layout 2] hd rfl (trailing_wellFormed (by decide))).2 _ c' he
    · exact ⟨k, name, field, c', hk, hends, hname, by rw [he, herror]⟩
    · cases herror
    · cases herror

/-- A well-formed struct that gets no record. -/
theorem layoutOf_trailing_fails : trailing.DistinctScopes ∧ trailing.types.WellFormed 2 ∧
    trailing.types.isStruct 2 = true ∧ answers (layoutOf trailing 2) {} =
      .error (.inconsistent "%behind" (.memberAtMissingField 1)) :=
  ⟨by decide +kernel, trailing_wellFormed (by decide), rfl, by decide +kernel⟩

end Catalog

end AbstractMemory
