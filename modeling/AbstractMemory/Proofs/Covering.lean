import AbstractMemory.Program.Script
import AbstractMemory.Proofs.Filling
import Mathlib

/-! What covering a program achieves. A scope name that is registered is passed
over. While nothing fails it has a record, but once a struct has failed, its scope
name stays registered and no later run looks at it again. -/

namespace AbstractMemory

open Steps

/-- Whether a request is answered. -/
def Request.succeeds (p : Program) (c : Catalog) : Request → Bool
  | .layout t => (answers (Catalog.layoutOf p t) c).isOk
  | .module index => (answers (Catalog.coverModule p index) c).isOk
  | .program => (answers (Catalog.coverProgram p) c).isOk

theorem Steps.Meets.of_isOk {ε σ α : Type} [Halting ε] {step : EStateM ε σ α} {s : σ}
    {good bad : σ → Prop} (h : Meets step s (fun _ => good) bad)
    (hok : (answers step s).isOk = true) :
    good (Steps.leaves step s) := by
  cases ha : answers step s with
  | ok a => exact h.of_answers_ok ha
  | error e =>
    rw [ha] at hok
    cases hok

namespace Catalog

variable {c c' c₀ : Catalog} {p : Program} {pending keys : List Nat} {k t : Nat} {s : StructType}

/-- Whether requests one after another are all answered. -/
def allSucceed (c : Catalog) (p : Program) : List Request → Bool
  | [] => true
  | request :: rest => request.succeeds p c && (request.perform p c).allSucceed p rest

theorem coverModule_intact (h : c.Intact p) (index : Nat) :
    Meets (coverModule p index) c (fun _ c' => c'.Intact p) (fun _ => True) := by
  unfold coverModule
  cases hused : p.usedStructs index with
  | error e => exact meets_of_error rfl fun _ => trivial
  | ok used =>
    exact Meets.forM (fun _ c => c.Intact p)
      (fun _ t _ c _ hc => (coverStruct_intact hc t).mono (fun _ _ h => h.1) fun _ h => h) h

theorem perform_intact (h : c.Intact p) {request : Request}
    (hok : request.succeeds p c = true) : (request.perform p c).Intact p := by
  cases request with
  | layout t =>
    have hin : InProgress p (fun _ => False) [] c := ⟨h.coherent, by simp, fun _ _ _ h => h.elim⟩
    have hintact : Meets (layoutOf p t) c (fun _ c' => c'.Intact p) (fun _ => True) :=
      ((layoutOf_meets (flattenable_false p) t hin).and (layoutOf_complete h t)).mono
        (fun _ _ h => ⟨h.1.1.coherent, h.2⟩) (fun _ _ => trivial)
    exact hintact.of_isOk hok
  | module index => exact (coverModule_intact h index).of_isOk hok
  | program => exact ((coverProgram_intact h).mono (fun _ _ h => h.1) (fun _ h => h)).of_isOk hok

theorem after_intact (h : c.Intact p) {requests : List Request}
    (hok : c.allSucceed p requests = true) : (c.after p requests).Intact p := by
  induction requests generalizing c with
  | nil => exact h
  | cons request rest ih =>
    rw [allSucceed, Bool.and_eq_true] at hok
    exact ih (perform_intact h hok.1) hok.2

/-- What was registered since `c₀` has a record, or is one of `keys`. -/
def Repays (c₀ c : Catalog) (keys : List Nat) : Prop :=
  ∀ (n : String) (u : Nat), c.scopes[n]? = some u →
    c₀.scopes[n]? = some u ∨ u ∈ c.records ∨ u ∈ keys

theorem Repays.register (h : c₀.Repays c (c.standIn s t :: pending)) :
    c₀.Repays (c.register s t) ((c.register s t).standIn s t :: pending) := by
  intro n u hn
  rw [register_records, standIn_register_eq]
  rcases eq_standIn_of_register hn with hold | rfl
  · exact h n u hold
  · exact .inr (.inr (by simp [standIn_register_eq]))

theorem Repays.drop (h : c₀.Repays c (k :: pending)) (hk : k ∈ c.records) :
    c₀.Repays c pending := by
  intro n u hn
  rcases h n u hn with hold | hrec | hmem
  · exact .inl hold
  · exact .inr (.inl hrec)
  · rcases List.mem_cons.mp hmem with rfl | hmem
    · exact .inr (.inl hk)
    · exact .inr (.inr hmem)

theorem Repays.mono (h : c₀.Repays c keys) (hscopes : c'.scopes = c.scopes)
    (hrecords : ∀ u ∈ c.records, u ∈ c'.records) : c₀.Repays c' keys := by
  intro n u hn
  exact (h n u (hscopes ▸ hn)).imp id (Or.imp (hrecords u) id)

theorem Repays.keep {r : FieldRecord} (h : c₀.Repays c (k :: pending)) (hscopes : c'.scopes = c.scopes)
    (hrecords : c'.records = c.records.insert k r) : c₀.Repays c' pending := by
  have hall : c₀.Repays c' (k :: pending) :=
    h.mono hscopes fun u hu => by simp [hrecords, Std.TreeMap.mem_insert, hu]
  exact hall.drop (by simp [hrecords])

theorem ensure_repays (h : ∀ s, p.types.struct? t = some s → c₀.Repays c (c.standIn s t :: pending)) :
    Meets (ensure p pending t) c (fun _ c' => c₀.Repays c' pending) (fun _ => True) := by
  induction hn : unseen p.types.size pending using Nat.strong_induction_on
    generalizing pending t c with
  | _ n ih =>
    subst hn
    cases hs : p.types.struct? t with
    | none =>
      rw [ensure, hs]
      trivial
    | some s =>
      have h₁ := (h s hs).register
      refine meets_ensure hs rfl rfl (fun hrec => h₁.drop hrec) (fun _ _ => trivial)
        (fun _ => trivial) (fun _ _ _ _ _ _ _ => h₁.keep rfl rfl) ?_
      generalize c.register s t = c₁ at h₁ ⊢
      generalize c₁.standIn s t = key at h₁ ⊢
      intro shape name members _ _ _ _ _ hlt
      have hmembers : ∀ m ∈ members, ∀ c, c₀.Repays c (key :: pending) →
          Meets (ensure p (key :: pending) (p.types.stripArrays m)) c
            (fun _ c' => c₀.Repays c' (key :: pending)) (fun _ => True) := by
        intro m _ c₂ h₂
        refine ih _ hlt ?_ rfl
        exact fun _ _ n u hn => (h₂ n u hn).imp id (Or.imp id (List.mem_cons_of_mem _))
      have hembed : ∀ outer inner offset c c', embed p outer [] inner offset c = .ok c' →
          c₀.Repays c (key :: pending) → c₀.Repays c' (key :: pending) := by
        intro outer inner offset c₂ c₃ hc₃ h₂
        obtain ⟨hrel, _⟩ := embed_relinks hc₃
        exact h₂.mono hrel.scopes_eq fun u hu => hrel.toGrows.mem hu
      refine (flatten_keeps hmembers hembed (fun _ _ => trivial) _ _ h₁).mono ?_ (fun _ h => h)
      intro r c₂ h₂
      refine h₂.keep (r := r) ?_ ?_
      · unfold Catalog.keep
        dsimp only
        split <;> rfl
      · unfold Catalog.keep
        dsimp only
        split <;> rfl

/-- A struct with a body has a record, or its scope name was registered before. -/
def Visited (c₀ c : Catalog) (p : Program) (t : Nat) : Prop :=
  ∀ s, p.types.struct? t = some s → s.body.isSome = true → c.Settled s ∧
    (c.standIn s t ∈ c.records ∨
      ∃ name, s.name = some name ∧ c₀.scopes[scopeName name]? = some (c.standIn s t))

theorem Visited.mono (h : c₀.Visited c p t) (hg : c.Grows c') : c₀.Visited c' p t := by
  intro s hs hb
  obtain ⟨hset, hknown⟩ := h s hs hb
  rw [hg.standIn hset]
  exact ⟨hg.settled hset, hknown.imp hg.mem id⟩

theorem coverStruct_visits (hc : c.Coherent p) (h : c₀.Repays c []) (t : Nat) :
    Meets (coverStruct p t) c
      (fun _ c' => (c'.Coherent p ∧ c₀.Repays c' []) ∧ c.Grows c' ∧ c₀.Visited c' p t)
      (fun _ => True) := by
  refine meets_coverStruct (fun _ => trivial) ?_ ?_ ?_
  · intro s hs _
    have hone : c₀.Repays c [c.standIn s t] :=
      fun n u hn => (h n u hn).imp id (Or.imp id (List.mem_cons_of_mem _))
    have hrepays : ∀ s', p.types.struct? t = some s' →
        c₀.Repays (c.register s t) [(c.register s t).standIn s' t] := by
      intro s' hs'
      obtain rfl := Option.some.inj (hs.symm.trans hs')
      exact hone.register
    have hens := ensure_top_meets (flattenable_false p) (t := t) (register_coherent hc hs)
      (fun _ _ _ h => h.elim)
    refine (hens.and (ensure_repays hrepays)).mono ?_ (fun _ _ => trivial)
    rintro key c' ⟨⟨hadv, hcan, hmem⟩, h'⟩
    have hknows := knows_of_canonical? hadv.coherent.grounded hcan hmem
    exact ⟨⟨hadv.coherent, h'⟩, (register_grows c s t).trans hadv.grows,
      fun s hs hb => ⟨(hknows s hs hb).1, .inl (hknows s hs hb).2⟩⟩
  · intro s name u hs hn hu
    refine ⟨⟨hc, h⟩, Grows.refl c, ?_⟩
    intro s' hs' _
    obtain rfl := Option.some.inj (hs.symm.trans hs')
    have hkey : c.standIn s t = u := by simp [standIn, hn, hu]
    refine ⟨?_, ?_⟩
    · intro name' hn'
      obtain rfl := Option.some.inj (hn.symm.trans hn')
      exact Std.TreeMap.isSome_getElem?_iff_mem.mp (by simp [hu])
    -- passed over: whether there is a record is a matter of what was registered before
    · rw [hkey]
      rcases h _ u hu with hold | hmem | hmem
      · exact .inr ⟨name, hn, hold⟩
      · exact .inl hmem
      · cases hmem
  · intro s hs hb
    refine ⟨⟨hc, h⟩, Grows.refl c, ?_⟩
    intro s' hs' hbody
    obtain rfl := Option.some.inj (hs.symm.trans hs')
    simp [hb] at hbody

theorem coverProgram_visits (hc : c.Coherent p) :
    Meets (coverProgram p) c
      (fun _ c' => c'.Coherent p ∧ c.Grows c' ∧ ∀ index < p.modules.size,
        ∃ used, p.usedStructs index = .ok used ∧ ∀ t ∈ used, c.Visited c' p t)
      (fun _ => True) := by
  have hmodule : ∀ index c₁, c₁.Coherent p ∧ c.Repays c₁ [] → Meets (coverModule p index) c₁
      (fun _ c' => (c'.Coherent p ∧ c.Repays c' []) ∧ c₁.Grows c' ∧
        ∃ used, p.usedStructs index = .ok used ∧ ∀ t ∈ used, c.Visited c' p t)
      (fun _ => True) := by
    intro index c₁ h₁
    unfold coverModule
    cases hused : p.usedStructs index with
    | error e => exact meets_of_error rfl fun _ => trivial
    | ok used =>
      refine Meets.mono (Meets.forM_lasting Grows.refl (fun _ _ _ => Grows.trans)
        (fun t c' => c.Visited c' p t) (fun _ _ _ hg hv => hv.mono hg)
        (fun t _ c₂ h₂ => coverStruct_visits h₂.1 h₂.2 t) h₁) ?_ (fun _ h => h)
      rintro _ c' ⟨h', hg, hall⟩
      exact ⟨h', hg, used, rfl, hall⟩
  refine Meets.mono (Meets.forM_lasting Grows.refl (fun _ _ _ => Grows.trans)
    (fun index c' => ∃ used, p.usedStructs index = .ok used ∧ ∀ t ∈ used, c.Visited c' p t) ?_
    (fun index _ c₁ h₁ => hmodule index c₁ h₁) ⟨hc, fun _ _ hn => .inl hn⟩) ?_ (fun _ h => h)
  · rintro index c₁ c' hg ⟨used, hused, hall⟩
    exact ⟨used, hused, fun t ht => (hall t ht).mono hg⟩
  · rintro _ c' ⟨⟨h', _⟩, hg, hall⟩
    exact ⟨h', hg, fun index hi => hall index (List.mem_range.mpr hi)⟩

/-- A struct with a body has a record exactly if its stand-in has one. -/
theorem Grounded.record?_eq_none_iff (hc : c.Grounded p) (hs : p.types.struct? t = some s)
    (hb : s.body.isSome = true) : c.record? p t = none ↔ c.standIn s t ∉ c.records := by
  obtain ⟨members, hb⟩ := Option.isSome_iff_exists.mp hb
  have hfinal : ∀ (k : Nat) (r : FieldRecord), c.records[k]? = some r → r.isFinal = true :=
    fun k r hr => (hc.record k r hr).isFinal
  have hcan : c.canonical? p t = some (c.standIn s t) := canonical?_eq_some.mpr ⟨s, hs, rfl⟩
  unfold record?
  cases hr : c.records[t]? with
  | some r =>
    obtain ⟨s', hs', _, _, htab⟩ := (hc.record t r hr).shape
    obtain rfl := Option.some.inj (hs.symm.trans hs')
    rw [(htab members hb).standIn]
    simp [hfinal t r hr, mem_records_iff, hr]
  | none =>
    rw [hcan]
    cases hk : c.records[c.standIn s t]? with
    | some r =>
      simp only [Option.bind_some, hk, hfinal _ r hk, if_true, reduceCtorEq, false_iff, not_not]
      exact mem_records_iff.mpr ⟨r, hk⟩
    | none => simp [hk, mem_records_iff]

theorem isFinal_of_record? {r : FieldRecord} (h : c.record? p t = some r) :
    r.isFinal = true := by
  unfold record? at h
  split at h
  · split at h
    · rename_i hfinal
      exact Option.some.inj h ▸ hfinal
    · cases h
  · split at h
    · split at h
      · rename_i hfinal
        exact Option.some.inj h ▸ hfinal
      · cases h
    · cases h

/-- After a run that succeeds, a struct with a body that some module uses has no
record exactly if its scope name was registered before for a struct that has none.
So it has one if no request has failed before. -/
theorem used_structs_recorded {unionName : String} {requests : List Request}
    (h : coverProgram p (after { unionName := unionName } p requests) = .ok () c')
    {index : Nat} (hi : index < p.modules.size) :
    ∃ used, p.usedStructs index = .ok used ∧ ∀ t ∈ used, ∀ s, p.types.struct? t = some s →
      s.body.isSome = true →
        (c'.record? p t = none ↔ ∃ name u, s.name = some name ∧
          (after { unionName := unionName } p requests).scopes[scopeName name]? = some u ∧
          u ∉ c'.records) ∧
        (∀ r, c'.record? p t = some r → r.isFinal = true) ∧
        (allSucceed { unionName := unionName } p requests = true →
          ∃ r, c'.record? p t = some r) := by
  have hc := after_coherent p unionName requests
  obtain ⟨hc', hg, hall⟩ := (coverProgram_visits hc).of_ok h
  obtain ⟨used, hused, hvisited⟩ := hall index hi
  refine ⟨used, hused, fun t ht s hs hb => ?_⟩
  obtain ⟨_, hknown⟩ := hvisited t ht s hs hb
  have hiff : c'.record? p t = none ↔ ∃ name u, s.name = some name ∧
      (after { unionName := unionName } p requests).scopes[scopeName name]? = some u ∧
      u ∉ c'.records := by
    rw [hc'.grounded.record?_eq_none_iff hs hb]
    constructor
    · intro hnone
      obtain ⟨name, hn, hscope⟩ := hknown.resolve_left hnone
      exact ⟨name, _, hn, hscope, hnone⟩
    · rintro ⟨name, u, hn, hscope, hnone⟩
      have hkey : c'.standIn s t = u := by simp [standIn, hn, hg.scopes _ u hscope]
      rwa [hkey]
  refine ⟨hiff, fun r hr => isFinal_of_record? hr, fun hok => ?_⟩
  rw [← Option.isSome_iff_exists, Option.isSome_iff_ne_none]
  intro hnone
  obtain ⟨name, u, _, hscope, hmissing⟩ := hiff.mp hnone
  have hintact := after_intact (intact_empty p unionName) hok
  have hrecorded := (hintact.complete.filled _ u hscope).resolve_right (by simp)
  exact hmissing (hg.mem hrecorded)

/-- A struct that holds one without a body, and a pair, both used by a module. -/
def straying : List Command := [
  .addModule "a.o",
  .int 32,
  .namedStruct "struct.file",
  .defineStruct "struct.holder" [0, 1],
  .defineStruct "struct.pair" [0, 0],
  .global "g" 2 false,
  .global "h" 3 false]

def strayed : Program :=
  ((Draft.start {}).runScript straying).2.program

/-- The holder was asked for and failed, so the run passes it over. The pair gets
its record. -/
theorem used_structs_recorded_strayed : ∃ c',
    coverProgram strayed (after { unionName := "union." } strayed [.layout 2]) = .ok () c' ∧
      c'.record? strayed 2 = none ∧ c'.record? strayed 3 ≠ none := by
  have hrun : (match coverProgram strayed
      (after { unionName := "union." } strayed [.layout 2]) with
      | .ok _ c' => decide (2 ∉ c'.records)
      | .error _ _ => false) = true := by
    decide +kernel
  have hused : strayed.usedStructs 0 = .ok [2, 1, 3] := by decide +kernel
  have hholder : strayed.types.struct? 2 =
      some ⟨some "struct.holder", some [0, 1], false, false⟩ := by decide +kernel
  have hpair : strayed.types.struct? 3 =
      some ⟨some "struct.pair", some [0, 0], false, false⟩ := by decide +kernel
  have hscopes : (after { unionName := "union." } strayed
      [.layout 2]).scopes.toList = [("struct.holder", 2)] := by decide +kernel
  have hscope : ∀ (n : String) (u : Nat),
      (after { unionName := "union." } strayed [.layout 2]).scopes[n]? = some u ↔
        n = "struct.holder" ∧ u = 2 := by
    intro n u
    rw [← Std.TreeMap.mem_toList_iff_getElem?_eq_some, hscopes]
    simp
  cases h : coverProgram strayed (after { unionName := "union." } strayed [.layout 2]) with
  | error e c' => simp [h] at hrun
  | ok _ c' =>
    have hmissing : 2 ∉ c'.records := by simpa [h] using hrun
    obtain ⟨used, hused', hall⟩ := used_structs_recorded h (show 0 < strayed.modules.size by decide)
    obtain rfl := Except.ok.inj (hused.symm.trans hused')
    refine ⟨c', rfl, (hall 2 (by simp) _ hholder rfl).1.mpr ?_, ?_⟩
    · exact ⟨"struct.holder", 2, rfl, (hscope _ _).mpr ⟨by decide +kernel, rfl⟩, hmissing⟩
    · intro hnone
      obtain ⟨name, u, hname, hu, _⟩ := (hall 3 (by simp) _ hpair rfl).1.mp hnone
      obtain rfl := Option.some.inj hname
      exact absurd ((hscope _ _).mp hu).1 (by decide +kernel)

/-- A run succeeds and leaves a struct with a body that a module uses without a
record. -/
theorem used_struct_missed_strayed : ∃ c',
    coverProgram strayed (after { unionName := "union." } strayed [.layout 2]) = .ok () c' ∧
      strayed.usedStructs 0 = .ok [2, 1, 3] ∧
      (strayed.types.struct? 2).bind StructType.body = some [0, 1] ∧
      (c'.record? strayed 2).isNone = true := by
  have hrun : (match coverProgram strayed
      (after { unionName := "union." } strayed [.layout 2]) with
      | .ok _ c' => (c'.record? strayed 2).isNone
      | .error _ _ => false) = true := by
    decide +kernel
  cases h : coverProgram strayed (after { unionName := "union." } strayed [.layout 2]) with
  | error e c' => simp [h] at hrun
  | ok _ c' => exact ⟨c', rfl, by decide +kernel, by decide +kernel, by simpa [h] using hrun⟩

end Catalog

end AbstractMemory
