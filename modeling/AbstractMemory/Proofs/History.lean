import AbstractMemory.Proofs.Recording
import Mathlib

/-! A catalog that has answered any requests, of which some may have failed.
It is coherent, and what it has answered once it answers again. -/

namespace AbstractMemory

open Steps

/-- What a catalog may be asked for. -/
inductive Request where
  | layout (t : Nat)
  | module (index : Nat)
  | program
deriving DecidableEq, Repr

/-- The catalog after a request. -/
def Request.perform (p : Program) (c : Catalog) : Request → Catalog
  | .layout t => leaves (Catalog.layoutOf p t) c
  | .module index => leaves (Catalog.coverModule p index) c
  | .program => leaves (Catalog.coverProgram p) c

namespace Catalog

def after (c : Catalog) (p : Program) (requests : List Request) : Catalog :=
  requests.foldl (Request.perform p) c

variable {p : Program} {ok : Nat → Prop}

theorem ensure_top_meets (hok : Flattenable p ok) {t : Nat} {c : Catalog} (hc : c.Coherent p)
    (hacc : c.Accounts ok [t]) :
    Meets (ensure p [] t) c
      (fun key c' => Advances p ok [] c c' ∧ c'.canonical? p t = some key ∧ key ∈ c'.records)
      (fun c' => Advances p ok [] c c' ∧ ¬ ok t) :=
  ensure_meets hok hc (by simp) hacc (fun _ hx => by simp at hx)

theorem meets_layoutOf {good : FieldRecord → Catalog → Prop} {bad : Catalog → Prop} {t : Nat}
    {c : Catalog} (h : Meets (ensure p [] t) c (fun key c' =>
      (∀ r, c'.records[key]? = some r → good r c') ∧ (c'.records[key]? = none → bad c')) bad) :
    Meets (layoutOf p t) c good bad := by
  unfold layoutOf
  refine h.bind ?_
  rintro key c' ⟨hfound, hmissing⟩
  rw [meets_get_bind]
  cases hr : c'.records[key]? with
  | some r => exact hfound r hr
  | none => exact hmissing hr

theorem layoutOf_keeps_of_ensure {good : Catalog → Prop} {t : Nat} {c : Catalog}
    (h : Meets (ensure p [] t) c (fun _ => good) fun _ => True) :
    Meets (layoutOf p t) c (fun _ => good) fun _ => True :=
  meets_layoutOf (h.mono (fun _ _ hgood => ⟨fun _ _ => hgood, fun _ => trivial⟩) fun _ h => h)

theorem layoutOf_meets (hok : Flattenable p ok) (t : Nat) {c : Catalog}
    (hin : InProgress p ok [] c) :
    Meets (layoutOf p t) c
      (fun r c' => Advances p ok [] c c' ∧
        ∃ s, p.types.struct? t = some s ∧ c'.records[c'.standIn s t]? = some r)
      (Advances p ok [] c) := by
  have hens := ensure_top_meets hok (t := t) hin.coherent
    (fun n u hn hu => (hin.registered n u hn hu).imp id (List.mem_cons_of_mem _))
  refine meets_layoutOf (hens.mono ?_ fun _ h => h.1)
  rintro key c' ⟨hadv, hcan, _⟩
  obtain ⟨s, hs, rfl⟩ := canonical?_eq_some.mp hcan
  exact ⟨fun r hr => ⟨hadv, s, hs, hr⟩, fun _ => hadv⟩

/-- A struct that takes its scope name first stands for itself. -/
theorem standIn_register_first {c : Catalog} {s : StructType} {t : Nat}
    (h : ∀ name, s.name = some name → s.body.isSome = true ∧ scopeName name ∉ c.scopes) :
    (c.register s t).standIn s t = t := by
  cases hn : s.name with
  | none => simp [standIn, hn]
  | some name =>
    obtain ⟨hb, hfree⟩ := h name hn
    obtain ⟨members, hb⟩ := Option.isSome_iff_exists.mp hb
    simp [standIn, register, hn, hb, getElem?_insert_scope, hfree]

/-- Covering a struct, case by case: it is recorded if it is unnamed or the first of its
scope name, and passed over if its scope name is taken or it has no body. -/
theorem meets_coverStruct {good bad : Catalog → Prop} {t : Nat} {c : Catalog}
    (hmissing : p.types.struct? t = none → bad c)
    (hrecord : ∀ s, p.types.struct? t = some s →
      (∀ name, s.name = some name → s.body.isSome = true ∧ scopeName name ∉ c.scopes) →
      Meets (ensure p [] t) (c.register s t) (fun _ => good) bad)
    (htaken : ∀ s name u, p.types.struct? t = some s → s.name = some name →
      c.scopes[scopeName name]? = some u → good c)
    (hbodiless : ∀ s, p.types.struct? t = some s → s.body = none → good c) :
    Meets (coverStruct p t) c (fun _ => good) bad := by
  unfold coverStruct
  cases hs : p.types.struct? t with
  | none => exact hmissing hs
  | some s =>
    dsimp only
    split
    · rename_i hn
      have hreg : c.register s t = c := by simp [register, hn]
      have hens := hrecord s hs (by simp [hn])
      rw [hreg] at hens
      exact hens.bind fun _ _ h => h
    · rename_i name members hn hb
      rw [meets_get_bind]
      split
      · rename_i hcon
        rw [Std.TreeMap.contains_eq_isSome_getElem?, Option.isSome_iff_exists] at hcon
        obtain ⟨u, hu⟩ := hcon
        exact htaken s name u hs hn hu
      · rename_i hfree
        have hfirst : ∀ name', s.name = some name' →
            s.body.isSome = true ∧ scopeName name' ∉ c.scopes := by
          intro name' hn'
          obtain rfl := Option.some.inj (hn.symm.trans hn')
          exact ⟨by simp [hb], by simpa using hfree⟩
        exact (hrecord s hs hfirst).bind fun _ _ h => h
    · rename_i hb
      exact hbodiless s hs hb

theorem coverStruct_meets (hok : Flattenable p ok) (t : Nat) {c : Catalog}
    (hin : InProgress p ok [] c) :
    Meets (coverStruct p t) c
      (fun _ c' => Advances p ok [] c c' ∧ (ok t → t ∈ c'.records))
      (Advances p ok [] c) := by
  have hself : c.Accounts ok [t] :=
    fun n u hn hu => (hin.registered n u hn hu).imp id (List.mem_cons_of_mem _)
  refine meets_coverStruct (fun _ => hin.advances) ?_ ?_ ?_
  · intro s hs hfirst
    have hg := register_grows c s t
    have hacc := accounts_register hok hin.coherent hs hself
    rw [standIn_register_first hfirst] at hacc
    refine (ensure_top_meets hok (register_coherent hin.coherent hs) hacc).mono ?_ ?_
    · rintro key c' ⟨hadv, hcan, hmem⟩
      refine ⟨⟨hadv.toInProgress, hg.trans hadv.grows⟩, fun ht => ?_⟩
      obtain ⟨s', hs', rfl⟩ := canonical?_eq_some.mp hcan
      rwa [hok.standIn_eq hadv.coherent.grounded ht hs'] at hmem
    · rintro c' ⟨hadv, _⟩
      exact ⟨hadv.toInProgress, hg.trans hadv.grows⟩
  · intro s name u hs hn hu
    refine ⟨hin.advances, fun ht => ?_⟩
    -- the scope name of a flattenable struct can only be its own
    obtain rfl := hok.alone t s name u ht hs hn (hin.coherent.grounded.scope _ u hu)
    exact (hin.registered _ u hu ht).resolve_right (by simp)
  · intro s hs hb
    refine ⟨hin.advances, fun ht => ?_⟩
    obtain ⟨s', members, hs', hb', _⟩ := hok.body t ht
    obtain rfl : s = s' := Option.some.inj (hs.symm.trans hs')
    simp [hb] at hb'

/-- Steps one after another, each of which achieves something that lasts. -/
theorem forM_advances {α : Type} {f : α → Cataloguing Unit} {done : α → Catalog → Prop}
    (hlast : ∀ x c c', c.Grows c' → done x c → done x c')
    (hstep : ∀ x c, InProgress p ok [] c →
      Meets (f x) c (fun _ c' => Advances p ok [] c c' ∧ done x c') (Advances p ok [] c))
    {c : Catalog} (hin : InProgress p ok [] c) (l : List α) :
    Meets (l.forM f) c (fun _ c' => Advances p ok [] c c' ∧ ∀ x ∈ l, done x c')
      (Advances p ok [] c) := by
  refine Meets.forM (fun l c' => Advances p ok [] c c' ∧ ∀ x ∈ l, done x c') ?_
    ⟨hin.advances, by simp⟩
  rintro l x rest c₁ _ ⟨hadv, hdone⟩
  refine (hstep x c₁ hadv.toInProgress).mono ?_ (fun _ h => hadv.trans h)
  rintro _ c' ⟨hadv', hx⟩
  refine ⟨hadv.trans hadv', ?_⟩
  intro y hy
  rcases List.mem_append.mp hy with hy | hy
  · exact hlast y c₁ c' hadv'.grows (hdone y hy)
  · obtain rfl := List.mem_singleton.mp hy
    exact hx

/-- The structs that a module uses have records, as far as they can have some. -/
def Covers (c : Catalog) (p : Program) (ok : Nat → Prop) (index : Nat) : Prop :=
  ∃ used, p.usedStructs index = .ok used ∧ ∀ t ∈ used, ok t → t ∈ c.records

theorem coverModule_meets (hok : Flattenable p ok) (index : Nat) {c : Catalog}
    (hin : InProgress p ok [] c) :
    Meets (coverModule p index) c
      (fun _ c' => Advances p ok [] c c' ∧ c'.Covers p ok index) (Advances p ok [] c) := by
  unfold coverModule
  cases hused : p.usedStructs index with
  | error e => exact meets_of_error rfl fun _ => hin.advances
  | ok used =>
    have hlast : ∀ (t : Nat) (c c' : Catalog), c.Grows c' → (ok t → t ∈ c.records) →
        ok t → t ∈ c'.records := fun t c c' hg ht htok => hg.mem (ht htok)
    have hrun := forM_advances hlast (fun t c hin => coverStruct_meets hok t hin) hin used
    exact hrun.mono (fun _ _ h => ⟨h.1, used, hused, h.2⟩) (fun _ h => h)

theorem coverProgram_meets (hok : Flattenable p ok) {c : Catalog} (hin : InProgress p ok [] c) :
    Meets (coverProgram p) c
      (fun _ c' => Advances p ok [] c c' ∧ ∀ index < p.modules.size, c'.Covers p ok index)
      (Advances p ok [] c) := by
  have hlast : ∀ (index : Nat) (c c' : Catalog), c.Grows c' → c.Covers p ok index →
      c'.Covers p ok index := by
    rintro index c c' hg ⟨used, hused, hall⟩
    exact ⟨used, hused, fun t ht htok => hg.mem (hall t ht htok)⟩
  have hrun := forM_advances hlast (fun index c hin => coverModule_meets hok index hin) hin
    (List.range p.modules.size)
  exact hrun.mono (fun _ _ h => ⟨h.1, fun index hi => h.2 index (List.mem_range.mpr hi)⟩)
    (fun _ h => h)

theorem perform_advances (hok : Flattenable p ok) {c : Catalog} (hin : InProgress p ok [] c)
    (request : Request) : Advances p ok [] c (request.perform p c) := by
  cases request with
  | layout t =>
    exact ((layoutOf_meets hok t hin).mono (fun _ _ h => h.1) (fun _ h => h)).stays hin.advances
  | module index =>
    exact ((coverModule_meets hok index hin).mono (fun _ _ h => h.1)
      (fun _ h => h)).stays hin.advances
  | program =>
    exact ((coverProgram_meets hok hin).mono (fun _ _ h => h.1) (fun _ h => h)).stays hin.advances

theorem after_advances (hok : Flattenable p ok) {c : Catalog} (hin : InProgress p ok [] c)
    (requests : List Request) : Advances p ok [] c (c.after p requests) := by
  induction requests generalizing c with
  | nil => exact hin.advances
  | cons request rest ih =>
    have hadv := perform_advances hok hin request
    exact hadv.trans (ih hadv.toInProgress)

theorem inProgress_empty (p : Program) (ok : Nat → Prop) (unionName : String) :
    InProgress p ok [] { unionName := unionName } := by
  refine ⟨⟨⟨?_, ?_, 0, ?_⟩, ?_, ?_⟩, by simp, ?_⟩
  · intro n t hn
    simp at hn
  · intro k r hk
    simp at hk
  · intro a b ha
    simp at ha
  · rintro a b o ⟨r, hr, _⟩
    simp at hr
  · intro a b o ha
    simp at ha
  · intro n t hn
    simp at hn

theorem flattenable_false (p : Program) : Flattenable p fun _ => False :=
  ⟨fun _ h => h.elim, fun _ _ _ _ h => h.elim, fun _ _ _ h => h.elim, fun _ h => h.elim,
    fun _ h => h.elim⟩

theorem after_coherent (p : Program) (unionName : String) (requests : List Request) :
    (after { unionName := unionName } p requests).Coherent p :=
  (after_advances (flattenable_false p) (inProgress_empty p _ unionName) requests).coherent

/-- After any requests, the containers of a record are real: each is the byte count
for the sum of the offsets along some members. And all members of recorded structs are
found there. -/
theorem containers_exact (p : Program) (unionName : String) (requests : List Request) :
    let c := after { unionName := unionName } p requests
    (∀ outer inner offset, c.Edge outer inner offset →
      ∃ sum, Embedded (c.Holds p) outer inner sum ∧
        p.dataLayout.overflow.count sum = .ok offset) ∧
    ∀ (outer : Nat) (r : FieldRecord), c.records[outer]? = some r → r.isFinal = true →
      ∀ inner sum, Embedded (c.Holds p) outer inner sum →
        ∃ offset, p.dataLayout.overflow.count sum = .ok offset ∧ c.Edge outer inner offset := by
  intro c
  have hc : c.Coherent p := after_coherent p unionName requests
  constructor
  · intro outer inner offset he
    obtain ⟨sum, hsum, hcount⟩ := hc.linked.sound outer inner offset he
    exact ⟨sum, hsum.mono fun _ _ _ hh => hh.1, hcount⟩
  · intro outer r hr _ inner sum he
    exact hc.linked.complete outer inner sum (mem_records_iff.mpr ⟨r, hr⟩) he

/-- A struct inside two others, each of which has half of all bytes before it. -/
def farInside : Program where
  types := {
    entries := #[
      .integer 8,
      .array 0 0x8000000000000000,
      .struct ⟨some "inner", some [0], false, false⟩,
      .struct ⟨some "middle", some [1, 2], false, false⟩,
      .struct ⟨some "outer", some [1, 3], false, false⟩] }

theorem containers_exact_farInside :
    let c := after { unionName := "union." } farInside [.layout 0, .layout 4]
    (∃ sum, Embedded (c.Holds farInside) 4 3 sum ∧
      farInside.dataLayout.overflow.count sum = .ok 0x8000000000000000) ∧
    Embedded (c.Holds farInside) 4 2 0x10000000000000000 ∧ c.Edge 4 2 0 := by
  intro c
  obtain ⟨hsound, hcomplete⟩ := containers_exact farInside "union." [.layout 0, .layout 4]
  have hmiddle : c.Holds farInside 4 3 0x8000000000000000 :=
    ⟨3, ⟨_, 1, rfl, rfl, by decide +kernel⟩, by decide +kernel⟩
  have hinner : c.Holds farInside 3 2 0x8000000000000000 :=
    ⟨2, ⟨_, 1, rfl, rfl, by decide +kernel⟩, by decide +kernel⟩
  have htwice : Embedded (c.Holds farInside) 4 2 0x10000000000000000 :=
    ⟨3, _, _, hmiddle, .cons hinner (.nil 2), rfl⟩
  refine ⟨?_, htwice, ?_⟩
  · have hedge : c.records[3]?.any (fun r => r.containers.contains (4, 0x8000000000000000)) =
        true := by decide +kernel
    obtain ⟨r, hr, hm⟩ := (Option.any_eq_true _ _).mp hedge
    exact hsound 4 3 _ ⟨r, hr, by simpa using hm⟩
  · have hfinal : c.records[4]?.any FieldRecord.isFinal = true := by decide +kernel
    obtain ⟨r, hr, hf⟩ := (Option.any_eq_true _ _).mp hfinal
    obtain ⟨offset, hoffset, hedge⟩ := hcomplete 4 r hr hf 2 _ htwice
    obtain rfl : 0 = offset := Except.ok.inj hoffset
    exact hedge

theorem layoutOf_of_recorded {t : Nat} {s : StructType} {c : Catalog} {r : FieldRecord}
    (hs : p.types.struct? t = some s) (hset : c.Settled s)
    (hr : c.records[c.standIn s t]? = some r) : layoutOf p t c = .ok r (c.register s t) := by
  have hkey := (register_grows c s t).standIn hset t
  have hmem : (c.register s t).records.contains ((c.register s t).standIn s t) = true := by
    rw [hkey, register_records, Std.TreeMap.contains_eq_isSome_getElem?, hr]
    rfl
  have hens : ensure p [] t c = .ok (c.standIn s t) (c.register s t) := by
    rw [ensure, ← hkey]
    simp only [hs, bind, EStateM.bind, modify, modifyGet, MonadStateOf.modifyGet,
      EStateM.modifyGet, get, getThe, MonadStateOf.get, EStateM.get, hmem, if_true]
    rfl
  simp only [layoutOf, bind, EStateM.bind, hens, get, getThe, MonadStateOf.get, EStateM.get,
    register_records, hr]
  rfl

theorem Grounded.isOpaque_standIn {c : Catalog} (hc : c.Grounded p) {t : Nat} {s : StructType}
    {members : List Nat} {r : FieldRecord} (hs : p.types.struct? t = some s)
    (hb : s.body = some members) (hr : c.records[c.standIn s t]? = some r) :
    r.isOpaque = false := by
  obtain ⟨shape, hshape, hbodiless, _⟩ := (hc.record _ r hr).shape
  have hbody : shape.body.isSome = true := by
    unfold standIn at hshape
    cases hu : s.name.bind fun name => c.scopes[scopeName name]? with
    | none =>
      rw [hu] at hshape
      obtain rfl : s = shape := Option.some.inj (hs.symm.trans hshape)
      simp [hb]
    | some u =>
      rw [hu] at hshape
      obtain ⟨name, _, hu⟩ := Option.bind_eq_some_iff.mp hu
      obtain ⟨shape', _, hshape', _, _, hbody⟩ := hc.scope _ u hu
      obtain rfl : shape' = shape := Option.some.inj (hshape'.symm.trans hshape)
      exact hbody
  rw [hbodiless, Option.isNone_eq_false_iff]
  exact hbody

/-- Whatever was asked before, a struct with a body is answered with the table
of its stand-in. Whatever is asked later, it is answered so again, with no
container lost. -/
theorem layoutOf_stable {p : Program} {unionName : String} {before : List Request} {t : Nat}
    {s : StructType} {members : List Nat} {r : FieldRecord} {c : Catalog}
    (hs : p.types.struct? t = some s) (hb : s.body = some members)
    (h : layoutOf p t (after { unionName := unionName } p before) = .ok r c) :
    (∃ k, c.canonical? p t = some k ∧ c.table? p k = some r.table) ∧
      ∀ later, ∃ containers c', r.containers ⊆ containers ∧
        layoutOf p t (c.after p later) = .ok { r with containers := containers } c' := by
  have hin := (after_advances (flattenable_false p)
    (inProgress_empty p _ unionName) before).toInProgress
  obtain ⟨hadv, s', hs', hr⟩ := (layoutOf_meets (flattenable_false p) t hin).of_ok h
  obtain rfl : s = s' := Option.some.inj (hs.symm.trans hs')
  have ho := hadv.coherent.grounded.isOpaque_standIn hs hb hr
  constructor
  · exact ⟨_, canonical?_eq_some.mpr ⟨s, hs, rfl⟩, hadv.coherent.grounded.table?_eq hr ho⟩
  · intro later
    have hset := hadv.coherent.grounded.settled hs hr ho
    have hg := (after_advances (flattenable_false p) hadv.toInProgress later).grows
    obtain ⟨containers, hr', hsub⟩ := hg.records _ r hr
    refine ⟨containers, _, hsub, layoutOf_of_recorded hs (hg.settled hset) ?_⟩
    rw [hg.standIn hset]
    exact hr'

/-- A struct that holds another one directly and inside a third. -/
def nested : Program where
  types := {
    entries := #[
      .integer 32,
      .struct ⟨some "inner", some [0, 0], false, false⟩,
      .array 1 2,
      .struct ⟨some "middle", some [0, 2], false, false⟩,
      .struct ⟨some "outer", some [0, 3, 1], false, false⟩] }

theorem layoutOf_stable_nested : ∃ r c,
    layoutOf nested 4 (after { unionName := "union." } nested [.layout 0, .layout 3]) = .ok r c ∧
      r.fields.map Field.offset = [0, 4, 8, 12, 24, 28] ∧
      (∃ k, c.canonical? nested 4 = some k ∧ c.table? nested k = some r.table) ∧
      ∀ later, ∃ containers c', r.containers ⊆ containers ∧
        layoutOf nested 4 (c.after nested later) = .ok { r with containers := containers } c' := by
  have hfields : (match layoutOf nested 4
      (after { unionName := "union." } nested [.layout 0, .layout 3]) with
      | .ok r _ => r.fields.map Field.offset
      | .error _ _ => []) = [0, 4, 8, 12, 24, 28] := by
    decide +kernel
  cases h : layoutOf nested 4 (after { unionName := "union." } nested [.layout 0, .layout 3]) with
  | ok r c =>
    rw [h] at hfields
    exact ⟨r, c, rfl, hfields, layoutOf_stable rfl rfl h⟩
  | error e c => simp [h] at hfields

end Catalog

end AbstractMemory
