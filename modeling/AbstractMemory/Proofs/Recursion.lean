import AbstractMemory.Proofs.Placeholders
import AbstractMemory.Proofs.Usage

/-! Recursion by value. A struct that holds itself never gets a record, and nothing
else is refused for it. No recursion goes deeper than there are types, whether a
catalog is filled or an offset is followed down, with one exception: the name of a
struct may be written without end. -/

namespace AbstractMemory

open Steps

/-- What a request is answered with: a record, if it asks for one. -/
def Request.answer (p : Program) (c : Catalog) : Request → Except RecordError (Option FieldRecord)
  | .layout t => (answers (Catalog.layoutOf p t) c).map some
  | .module index => (answers (Catalog.coverModule p index) c).map fun _ => none
  | .program => (answers (Catalog.coverProgram p) c).map fun _ => none

/-- Whether a request comes to an end. -/
def Request.ends (p : Program) (c : Catalog) (request : Request) : Bool :=
  decide (request.answer p c ≠ .error (.program (.halted .endless)))

/-- Whether requests one after another all come to an end. -/
def Catalog.allEnd (c : Catalog) (p : Program) : List Request → Bool
  | [] => true
  | request :: rest => request.ends p c && (request.perform p c).allEnd p rest

namespace Unrolled

def perform (f : Floor) (p : Program) (c : Catalog) : Request → Catalog
  | .layout t => leaves (layoutOf f p t) c
  | .module index => leaves (coverModule f p index) c
  | .program => leaves (coverProgram f p) c

def after (f : Floor) (p : Program) (c : Catalog) (requests : List Request) : Catalog :=
  requests.foldl (perform f p) c

def answer (f : Floor) (p : Program) (c : Catalog) : Request → Except RecordError (Option FieldRecord)
  | .layout t => (answers (layoutOf f p t) c).map some
  | .module index => (answers (coverModule f p index) c).map fun _ => none
  | .program => (answers (coverProgram f p) c).map fun _ => none

end Unrolled

namespace Catalog

variable {c c' : Catalog} {p : Program} {k t : Nat} {s : StructType} {f : Floor}

theorem Shadows.getElem? (h : Shadows p [] c c') (k : Nat) : c'.records[k]? = c.records[k]? :=
  h.others k List.not_mem_nil

theorem Shadows.record? (h : Shadows p [] c c') (t : Nat) : c'.record? p t = c.record? p t := by
  simp only [Catalog.record?, canonical?, h.standIn, h.getElem?]

section Requests

variable (hd : p.DistinctScopes) (ha : p.types.ArraysEnd) (hf : p.types.size < f.depth)
include hd ha hf

theorem ensure_agrees (hc : c.Coherent p) (hsh : Shadows p [] c c') (t : Nat) :
    Agree (Shadows p []) f.reword (ensure p [] t) (Unrolled.ensure f p t) c c' :=
  ensureStep_agrees hd ha hf hc (by simp) hsh ((unseen_le _ _).trans_lt hf)

theorem layoutOf_agrees (hc : c.Coherent p) (hsh : Shadows p [] c c') (t : Nat) :
    Agree (Shadows p []) f.reword (layoutOf p t) (Unrolled.layoutOf f p t) c c' := by
  refine (ensure_agrees hd ha hf hc hsh t).bind
    (ensure_top_meets (flattenable_false p) hc fun _ _ _ h => h.elim) ?_
  rintro key c₁ c₁' _ hsh₁
  rw [agree_get_bind, hsh₁.getElem?]
  cases c₁.records[key]? with
  | none => exact agree_throw rfl hsh₁
  | some r => exact agree_pure r hsh₁

theorem coverStruct_agrees (hc : c.Coherent p) (hsh : Shadows p [] c c') (t : Nat) :
    Agree (Shadows p []) f.reword (coverStruct p t) (Unrolled.coverStruct f p t) c c' := by
  have hens : ∀ c₁ c₁', c₁.Coherent p → Shadows p [] c₁ c₁' → Agree (Shadows p []) f.reword
      (do let _ ← ensure p [] t) (do let _ ← Unrolled.ensure f p t) c₁ c₁' := by
    intro c₁ c₁' hc₁ hsh₁
    refine (ensure_agrees hd ha hf hc₁ hsh₁ t).bind
      (ensure_top_meets (flattenable_false p) hc₁ fun _ _ _ h => h.elim) ?_
    exact fun _ _ _ _ hsh₂ => agree_pure _ hsh₂
  unfold coverStruct Unrolled.coverStruct
  cases hs : p.types.struct? t with
  | none => exact agree_throw rfl hsh
  | some s =>
    dsimp only
    cases hn : s.name with
    | none => exact hens c c' hc hsh
    | some name =>
      cases hb : s.body with
      | none => exact agree_pure _ hsh
      | some members =>
        simp only [agree_get_bind, hsh.scopes]
        split
        · exact agree_pure _ hsh
        · exact hens _ _ (register_coherent hc hs) (hsh.register s t)

theorem coverModule_agrees (hin : InProgress p (fun _ => False) [] c) (hsh : Shadows p [] c c')
    (index : Nat) :
    Agree (Shadows p []) f.reword (coverModule p index) (Unrolled.coverModule f p index) c c' := by
  unfold coverModule Unrolled.coverModule
  cases hused : p.usedStructs index with
  | error e =>
    refine agree_throw (f.reword_eq ?_) hsh
    obtain ⟨i, rfl | rfl | rfl⟩ := Program.usedStructs_eq_error hused <;> simp
  | ok used =>
    refine Agree.forM (InProgress p (fun _ => False) []) ?_ hin hsh
    intro t _ c₁ c₁' hin₁ hsh₁
    exact ⟨(coverStruct_meets (flattenable_false p) t hin₁).mono (fun _ _ h => h.1.toInProgress)
      (fun _ _ => trivial), coverStruct_agrees hd ha hf hin₁.coherent hsh₁ t⟩

theorem coverProgram_agrees (hin : InProgress p (fun _ => False) [] c)
    (hsh : Shadows p [] c c') :
    Agree (Shadows p []) f.reword (coverProgram p) (Unrolled.coverProgram f p) c c' := by
  refine Agree.forM (InProgress p (fun _ => False) []) ?_ hin hsh
  intro index _ c₁ c₁' hin₁ hsh₁
  exact ⟨(coverModule_meets (flattenable_false p) index hin₁).mono
    (fun _ _ h => h.1.toInProgress) (fun _ _ => trivial),
    coverModule_agrees hd ha hf hin₁ hsh₁ index⟩

theorem answer_eq (hin : InProgress p (fun _ => False) [] c) (hsh : Shadows p [] c c')
    (request : Request) :
    Unrolled.answer f p c' request = (request.answer p c).mapError f.reword := by
  have hmap : ∀ {α β : Type} (x : Except RecordError α) (g : α → β),
      (x.mapError f.reword).map g = (x.map g).mapError f.reword := by
    intro α β x g
    cases x <;> rfl
  cases request with
  | layout t =>
    rw [Unrolled.answer, Request.answer, (layoutOf_agrees hd ha hf hin.coherent hsh t).answers,
      hmap]
  | module index =>
    rw [Unrolled.answer, Request.answer, (coverModule_agrees hd ha hf hin hsh index).answers, hmap]
  | program =>
    rw [Unrolled.answer, Request.answer, (coverProgram_agrees hd ha hf hin hsh).answers, hmap]

theorem perform_shadows (hin : InProgress p (fun _ => False) [] c) (hsh : Shadows p [] c c')
    {request : Request} (hends : request.ends p c = true) :
    Shadows p [] (request.perform p c) (Unrolled.perform f p c' request) := by
  have hne : request.answer p c ≠ .error (.program (.halted .endless)) := by
    simpa [Request.ends] using hends
  have hhalts : ∀ {α β : Type} {step : Cataloguing α} {g : α → β},
      (answers step c).map g ≠ .error (.program (.halted .endless)) → ∀ e,
        answers step c = .error e → Halting.halts (f.reword e) = Halting.halts e := by
    intro α β step g hne e he
    rw [f.reword_eq]
    rintro rfl
    exact hne (by rw [he]; rfl)
  cases request with
  | layout t => exact (layoutOf_agrees hd ha hf hin.coherent hsh t).leaves hsh (hhalts hne)
  | module index => exact (coverModule_agrees hd ha hf hin hsh index).leaves hsh (hhalts hne)
  | program => exact (coverProgram_agrees hd ha hf hin hsh).leaves hsh (hhalts hne)

theorem after_shadows (hin : InProgress p (fun _ => False) [] c) (hsh : Shadows p [] c c')
    {requests : List Request} (hends : c.allEnd p requests = true) :
    Shadows p [] (c.after p requests) (Unrolled.after f p c' requests) := by
  induction requests generalizing c c' with
  | nil => exact hsh
  | cons request rest ih =>
    rw [allEnd, Bool.and_eq_true] at hends
    exact ih (perform_advances (flattenable_false p) hin request).toInProgress
      (perform_shadows hd ha hf hin hsh hends.1) hends.2

end Requests

/-- An offset into a struct that takes up room falls on a member. -/
theorem Grounded.exists_member (hc : c.Grounded p) {r : FieldRecord} {placed : StructLayout}
    (hs : p.types.struct? k = some s) (hr : c.records[k]? = some r) (ho : r.isOpaque = false)
    (hu : r.isUnion = false) (hsize : r.size ≠ 0)
    (hlayout : p.dataLayout.structLayout p.types k = .ok (some placed)) (offset : Nat) :
    ∃ m, s.members[placed.memberAt offset]? = some m := by
  have hlen := DataLayout.length_of_structLayout hs hlayout
  have htab := hc.tabulates hs hr ho
  have htable := congrArg FieldTable.size (htab.sequential (htab.isUnion.symm.trans hu) hlayout)
  have hpos : 0 < s.members.length := by
    by_contra hnone
    have hnil : s.members = [] := List.length_eq_zero_iff.mp (by omega)
    obtain ⟨_, extents, hall, hplace⟩ := DataLayout.extents_of_structLayout hs hlayout
    obtain rfl : extents = [] := by
      rw [hnil] at hall
      exact List.forall₂_nil_left_iff.mp hall
    refine hsize ?_
    rw [show r.size = _ from htable]
    exact StructLayout.size_of_place_nil hplace
  have hle := (placed.offsets.takeWhile_sublist fun start => decide (start ≤ offset)).length_le
  have hlt : placed.memberAt offset < s.members.length := by
    unfold StructLayout.memberAt
    omega
  exact ⟨_, List.getElem?_eq_getElem hlt⟩

theorem descendStep_eq (hc : c.Grounded p) (hd : p.DistinctScopes) (ha : p.types.ArraysEnd)
    (hf : p.types.size < f.depth) (hsh : Shadows p [] c c') {path : List Nat}
    {t index outer offset depth : Nat} (hpath : ∀ x ∈ path, Relation.TransGen p.types.Part x t)
    (hdepth : unseen p.types.size path < depth) :
    (Unrolled.descendStep f p c')^[depth] f.field t index outer offset =
      c.descend p path t index outer offset := by
  -- each struct on the way down is inside the one before it, so none is met twice
  induction depth generalizing path t index outer offset with
  | zero => omega
  | succ depth ih =>
    rw [Function.iterate_succ_apply', Unrolled.descendStep, descend]
    by_cases hzero : offset = 0
    · rw [if_pos hzero, if_pos hzero]
    rw [if_neg hzero, if_neg hzero]
    dsimp only
    by_cases hst : p.types.isStruct (p.types.stripArrays t) = true
    · rw [if_pos hst, if_pos hst, hsh.record?, hc.record?_eq hd]
      cases hr : c.records[p.types.stripArrays t]? with
      | none => rfl
      | some r =>
        dsimp only
        split
        · rfl
        rename_i hroom
        split
        · rfl
        rename_i hu
        have ho : r.isOpaque = false := by simp_all
        have hu : r.isUnion = false := by simpa using hu
        have hfounded := hc.founded hd ha (mem_records_iff.mpr ⟨r, hr⟩)
        obtain ⟨s, hs, _⟩ := (hc.record _ r hr).shape
        obtain ⟨placed, hlayout⟩ := hc.exists_placed hr ho hu
        obtain ⟨m, hm⟩ := hc.exists_member hs hr ho hu (by simp_all) hlayout (offset % r.size)
        have hget := TypeTable.get?_of_struct? hs
        have hpart : p.types.Part (p.types.stripArrays t) m :=
          .member hs (List.mem_of_getElem? hm)
        have hp : p.types.stripArrays t ∉ path := fun hmem =>
          hfounded.not_inside_self ((hpath _ hmem).trans_left (p.types.byValue_stripArrays t))
        have hless := unseen_cons_lt (TypeTable.lt_size_of_get? hget) hp
        have hinside : ∀ x ∈ p.types.stripArrays t :: path, Relation.TransGen p.types.Part x m := by
          intro x hx
          rcases List.mem_cons.mp hx with rfl | hx
          · exact .single hpart
          · exact ((hpath x hx).trans_left (p.types.byValue_stripArrays t)).tail hpart
        rw [(hc.record _ r hr).type, Unrolled.structLayout_eq hfounded hf, hlayout]
        simp only [hget, hm, hp, dite_false, Option.getD_some]
        rw [ih hinside (by omega)]
        split
        · rename_i s' hget'
          obtain rfl : s = s' := by simpa [hget] using hget'
          rw [hm]
          rfl
        · rename_i hno
          exact (hno s hget).elim
    · rw [if_neg hst, Unrolled.size?_eq (founded_of_not_struct ha hst) hf]
      exact (if_neg hst).symm

theorem fieldInType_eq (hc : c.Grounded p) (hd : p.DistinctScopes) (ha : p.types.ArraysEnd)
    (hf : p.types.size < f.depth) (hsh : Shadows p [] c c') (t : Nat) (offset : Int) :
    Unrolled.fieldInType f p c' t offset = c.fieldInType p t offset := by
  have hdescend : Unrolled.descend f p c' t 0 0 offset.toNat =
      c.descend p [] t 0 0 offset.toNat :=
    descendStep_eq hc hd ha hf hsh (by simp) ((unseen_le _ _).trans_lt hf)
  unfold Unrolled.fieldInType fieldInType
  rw [hdescend]
  cases p.types.struct? t with
  | none => rfl
  | some s => simp only [hsh.treatsAsUnion, hsh.record?]

theorem Grounded.record?_of_inside (hc : c.Grounded p) (hd : p.DistinctScopes)
    (ha : p.types.ArraysEnd) (hk : p.Contains t k) (hcycle : p.Inside k k) :
    c.record? p t = none := by
  rw [hc.record?_eq hd]
  by_contra hrec
  obtain ⟨r, hr⟩ := Option.ne_none_iff_exists'.mp hrec
  have hmem := hc.mem_of_contains hd (mem_records_iff.mpr ⟨r, hr⟩) hk
  exact (hc.founded hd ha hmem).not_inside_self hcycle.byValue

theorem Grounded.record?_of_endless (hc : c.Grounded p) (hd : p.DistinctScopes)
    (hk : p.Contains t k) (hendless : p.types.Endless k) : c.record? p t = none := by
  rw [hc.record?_eq hd]
  by_contra hrec
  obtain ⟨r, hr⟩ := Option.ne_none_iff_exists'.mp hrec
  obtain ⟨rk, hrk⟩ := mem_records_iff.mp
    (hc.mem_of_contains hd (mem_records_iff.mpr ⟨r, hr⟩) hk)
  exact TypeTable.exists_text_iff.mp ⟨_, (hc.record k rk hrk).name⟩ hendless

/-- Whatever was asked before and came to an end, every request is answered, and every
offset followed down, without a recursion that is deeper than there are types, and
unfinished records are gone when a request is answered. The one exception are names
that are written without end: there every depth is too small. A struct is refused as
one that contains itself, or its name written without end, only if one inside it is of
that kind, and then it has no record. -/
theorem recursion_by_value (unionName : String) (requests : List Request)
    (hd : p.DistinctScopes) (ha : p.types.ArraysEnd)
    (hends : allEnd { unionName := unionName } p requests = true) :
    let c := after { unionName := unionName } p requests
    (∀ f : Floor, p.types.size < f.depth →
      let c' := Unrolled.after f p { unionName := unionName } requests
      (∀ t, Unrolled.strip f p t = p.types.stripArrays t) ∧
      (∀ request, Unrolled.answer f p c' request = (request.answer p c).mapError f.reword) ∧
      (∀ k : Nat, c'.records[k]? = c.records[k]?) ∧
      ∀ t offset, Unrolled.fieldInType f p c' t offset = c.fieldInType p t offset) ∧
    (∀ (k : Nat) (r : FieldRecord), c.records[k]? = some r → r.isFinal = true) ∧
    (∀ t name, answers (layoutOf p t) c = .error (.containsItself name) →
      ∃ k, p.Contains t k ∧ p.Inside k k ∧ p.types.text k = .ok name) ∧
    (∀ t, answers (layoutOf p t) c = .error (.program (.halted .endless)) →
      ∃ k, p.Contains t k ∧ p.types.Endless k) ∧
    ∀ t k, p.Contains t k → p.Inside k k ∨ p.types.Endless k →
      c.record? p t = none ∧ ∀ r, answers (layoutOf p t) c ≠ .ok r := by
  intro c
  have hin₀ := inProgress_empty p (fun _ => False) unionName
  have hin := (after_advances (flattenable_false p) hin₀ requests).toInProgress
  have hground := hin.coherent.grounded
  have hblames : ∀ t, Blames (layoutOf p t) c _ :=
    fun t => layoutOf_blames hd hground hin.coherent rfl
  have hnone : ∀ (c₁ : Catalog) t k, c₁.Grounded p → p.Contains t k →
      p.Inside k k ∨ p.types.Endless k → c₁.record? p t = none := by
    rintro c₁ t k hc₁ hk (hcycle | hendless)
    · exact hc₁.record?_of_inside hd ha hk hcycle
    · exact hc₁.record?_of_endless hd hk hendless
  refine ⟨fun f hf => ?_, fun k r hr => (hground.record k r hr).isFinal, ?_, ?_, ?_⟩
  · have hsh := after_shadows hd ha hf hin₀ (Shadows.refl p _) hends
    exact ⟨Unrolled.strip_eq ha hf, answer_eq hd ha hf hin hsh, hsh.getElem?,
      fieldInType_eq hground hd ha hf hsh⟩
  · intro t name h
    rcases (hblames t).of_answers h with ⟨_, he⟩ | hreason
    · cases he
    · cases hreason with
      | recursive hk hcycle hname => exact ⟨_, hk, hcycle, hname⟩
  · intro t h
    rcases (hblames t).of_answers h with ⟨_, he⟩ | hreason
    · cases he
    · cases hreason with
      | unmeasured _ hs hc' hparts hsize =>
        -- a size is asked for when all members are recorded, and then it has an end
        have hfounded := founded_of_hasPart hs hparts hc' hd ha
        exact (Unrolled.extent_ne_endless hfounded hsize).elim
      | unwritten hk hname => exact ⟨_, hk, (TypeTable.text_eq_error hname).2⟩
  · intro t k hk hwrong
    refine ⟨hnone c t k hground hk hwrong, fun r hr => ?_⟩
    obtain ⟨hadv, s, hs, hrec⟩ :=
      (layoutOf_meets (flattenable_false p) t hin).of_answers_ok hr
    have hground' := hadv.coherent.grounded
    rw [hground'.standIn_self hd hs, ← hground'.record?_eq hd,
      hnone _ t k hground' hk hwrong] at hrec
    cases hrec

/-- A list that goes on through pointers, a ring that goes on through an array, a
struct of both, and a struct without a name that goes on through pointers. -/
def looped : Program where
  types := {
    entries := #[
      .integer 32,
      .struct ⟨some "list", some [2, 0], false, false⟩,
      .pointer 1,
      .struct ⟨some "ring", some [0, 5], false, false⟩,
      .struct ⟨some "link", some [1, 3], false, false⟩,
      .array 4 3,
      .struct ⟨some "outer", some [1, 4], false, false⟩,
      .pointer 8,
      .struct ⟨none, some [7], false, false⟩] }

theorem recursion_by_value_looped :
    let requests := [Request.layout 6, .layout 4]
    let c := after { unionName := "union." } looped requests
    (∃ k, looped.Contains 6 k ∧ looped.Inside k k) ∧ c.record? looped 4 = none ∧
      (∃ k, looped.Contains 8 k ∧ looped.types.Endless k) ∧
      ∀ f : Floor, 9 < f.depth →
        let c' := Unrolled.after f looped { unionName := "union." } requests
        (∃ r, Unrolled.answer f looped c' (.layout 1) = .ok (some r)) ∧
          Unrolled.answer f looped c' (.layout 8) = .error (.program f.text) ∧
          Unrolled.fieldInType f looped c' 1 8 = .ok ⟨1, true⟩ := by
  intro requests c
  have hd : looped.DistinctScopes := by decide +kernel
  have ha : looped.types.ArraysEnd := TypeTable.arraysEnd_of_lt (by decide +kernel)
  obtain ⟨hfloor, _, honly, hwritten, hnever⟩ :=
    recursion_by_value "union." requests hd ha (by decide +kernel)
  obtain ⟨k, hk, hcycle, _⟩ := honly 6 "%link" (by decide +kernel)
  obtain ⟨k', hk', hcycle', _⟩ := honly 4 "%link" (by decide +kernel)
  refine ⟨⟨k, hk, hcycle⟩, (hnever 4 k' hk' (.inl hcycle')).1, hwritten 8 (by decide +kernel),
    fun f hf => ?_⟩
  obtain ⟨_, hanswer, _, hfield⟩ := hfloor f hf
  refine ⟨?_, ?_, ?_⟩
  · have hok : ((Request.layout 1).answer looped c).toOption.join.isSome = true := by
      decide +kernel
    rw [hanswer]
    cases hlayout : (Request.layout 1).answer looped c with
    | error e =>
      rw [hlayout] at hok
      cases hok
    | ok found =>
      rw [hlayout] at hok
      obtain ⟨r, rfl⟩ := Option.isSome_iff_exists.mp hok
      exact ⟨r, rfl⟩
  · have hendless : (Request.layout 8).answer looped c =
        .error (.program (.halted .endless)) := by decide +kernel
    rw [hanswer, hendless]
    rfl
  · rw [hfield]
    decide +kernel

/-- A struct that holds only a pointer to itself has no record, because its name is
written without end. -/
theorem layoutOf_looped_endless : looped.DistinctScopes ∧ looped.types.ArraysEnd ∧
    (∀ k, looped.Contains 8 k → ¬ looped.Inside k k) ∧
    ∀ f : Floor, 9 < f.depth →
      Unrolled.answer f looped {} (.layout 8) = .error (.program f.text) := by
  have hd : looped.DistinctScopes := by decide +kernel
  have ha : looped.types.ArraysEnd := TypeTable.arraysEnd_of_lt (by decide +kernel)
  have hholds : ∀ k, ¬ looped.HoldsStruct 8 k := by
    rintro k ⟨s, m, hs, hm, rfl, hst⟩
    obtain rfl : s = ⟨none, some [7], false, false⟩ := by
      simpa [looped, TypeTable.struct?, TypeTable.get?, Ty.struct?, eq_comm] using hs
    obtain rfl : m = 7 := by simpa [StructType.members] using hm
    revert hst
    decide +kernel
  refine ⟨hd, ha, fun k hk hcycle => ?_, fun f hf => ?_⟩
  · rcases hk.cases_head with rfl | ⟨k', hstep, _⟩
    · obtain ⟨k', hstep, _⟩ := Relation.TransGen.head'_iff.mp hcycle
      exact hholds k' hstep
    · exact hholds k' hstep
  · have hin := inProgress_empty looped (fun _ => False) "union."
    have hendless : (Request.layout 8).answer looped {} =
        .error (.program (.halted .endless)) := by decide +kernel
    rw [answer_eq hd ha hf hin (Shadows.refl looped {}), hendless]
    rfl

end Catalog

end AbstractMemory
