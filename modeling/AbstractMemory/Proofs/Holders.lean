import AbstractMemory.Proofs.Covering
import AbstractMemory.Proofs.Resolution
import AbstractMemory.Proofs.Usage
import Mathlib

/-! Who holds a struct by value. As long as nothing failed, holders have records
themselves, so the names found for a struct are those of all structs around it,
whatever the levels between them are. -/

namespace AbstractMemory

open Steps

namespace Catalog

variable {c c' : Catalog} {p : Program} {pending : List Nat} {k t : Nat} {s : StructType}

/-- Only structs that have a record, or are one of `keys`, are known to hold others. -/
def Owned (c : Catalog) (keys : List Nat) : Prop :=
  ∀ a b o, c.Edge a b o → a ∈ c.records ∨ a ∈ keys

theorem edge_embed {outer inner offset : Nat} {path : List Nat}
    (h : embed p outer path inner offset c = .ok c') {a b o : Nat} (he : c'.Edge a b o) :
    c.Edge a b o ∨ a = outer := by
  refine embed_ind (R := fun c c' => ∀ a b o, c'.Edge a b o → c.Edge a b o ∨ a = outer)
    (fun _ _ _ _ he => .inl he) ?_ ?_ h a b o he
  · intro c c₁ c₂ h₁ h₂ a b o he
    exact (h₂ a b o he).elim (h₁ a b o) .inr
  · exact fun c inner offset r hr a b o he => ((edge_link hr).mp he).imp id (·.1)

theorem Owned.mono {keys keys' : List Nat} (h : c.Owned keys)
    (hkeys : ∀ k ∈ keys, k ∈ keys') : c.Owned keys' :=
  fun a b o he => (h a b o he).imp id (hkeys a)

theorem Owned.embed {inner offset : Nat} (h : c.Owned (k :: pending))
    (hc' : embed p k [] inner offset c = .ok c') : c'.Owned (k :: pending) := by
  intro a b o he
  rcases edge_embed hc' he with hold | rfl
  · exact (h a b o hold).imp (embed_relinks hc').1.toGrows.mem id
  · exact .inr (by simp)

theorem Owned.insert {r : FieldRecord} (h : c.Owned (k :: pending)) (hr : r.containers = [])
    (hrecords : c'.records = c.records.insert k r) : c'.Owned pending := by
  intro a b o he
  have hmem : a = k ∨ a ∈ c.records → a ∈ c'.records := by
    rw [hrecords]
    rintro (rfl | ha)
    · exact Std.TreeMap.mem_insert_self
    · exact Std.TreeMap.mem_insert.mpr (.inr ha)
  obtain ⟨r', hr', hin⟩ := he
  rw [hrecords, getElem?_insert_record] at hr'
  split at hr'
  · obtain rfl := Option.some.inj hr'
    simp [hr] at hin
  · rcases h a b o ⟨r', hr', hin⟩ with ha | ha
    · exact .inl (hmem (.inr ha))
    · exact (List.mem_cons.mp ha).imp (fun he => hmem (.inl he)) id

theorem keep_records (c : Catalog) (k : Nat) (r : FieldRecord) :
    (c.keep k r).records = c.records.insert k r := by
  unfold keep
  dsimp only
  split <;> rfl

theorem Owned.register (h : c.Owned pending) (s : StructType) (t : Nat) :
    (c.register s t).Owned pending := by
  unfold Owned Edge at h ⊢
  rwa [register_records]

theorem ensure_owned (h : c.Owned pending) :
    Meets (ensure p pending t) c (fun _ c' => c'.Owned pending) (fun _ => True) := by
  induction hn : unseen p.types.size pending using Nat.strong_induction_on
    generalizing pending t c with
  | _ n ih =>
    subst hn
    cases hs : p.types.struct? t with
    | none =>
      rw [ensure, hs]
      trivial
    | some s =>
      have h₁ := h.register s t
      have hkey : ∀ key, (c.register s t).Owned (key :: pending) :=
        fun key => h₁.mono fun _ => List.mem_cons_of_mem key
      refine meets_ensure hs rfl rfl (fun _ => h₁) (fun _ _ => trivial) (fun _ => trivial)
        (fun _ _ _ _ _ _ _ => (hkey _).insert rfl rfl) ?_
      generalize c.register s t = c₁ at hkey ⊢
      generalize c₁.standIn s t = key
      intro shape name members _ _ _ _ _ hlt
      have hmembers : ∀ m ∈ members, ∀ c, c.Owned (key :: pending) →
          Meets (ensure p (key :: pending) (p.types.stripArrays m)) c
            (fun _ c' => c'.Owned (key :: pending)) (fun _ => True) :=
        fun m _ c₂ h₂ => ih _ hlt h₂ rfl
      refine (flatten_drafts hmembers (fun _ _ _ _ hc' h => h.embed hc') (fun _ _ => trivial) _
        name (hkey key)).mono ?_ (fun _ h => h)
      rintro r c₂ ⟨hr, h₂⟩
      exact h₂.insert hr.2 (keep_records c₂ key r)

/-! ### What every answered request keeps -/

section Requests

variable {inv : Catalog → Prop} (hregister : ∀ c s t, inv c → inv (c.register s t))
  (hensure : ∀ c t, inv c → Meets (ensure p [] t) c (fun _ => inv) (fun _ => True))

include hensure

theorem layoutOf_keeps (h : inv c) (t : Nat) :
    Meets (layoutOf p t) c (fun _ => inv) (fun _ => True) :=
  layoutOf_keeps_of_ensure (hensure c t h)

include hregister

theorem coverStruct_keeps (h : inv c) (t : Nat) :
    Meets (coverStruct p t) c (fun _ => inv) (fun _ => True) :=
  meets_coverStruct (fun _ => trivial) (fun s _ _ => hensure _ t (hregister c s t h))
    (fun _ _ _ _ _ _ => h) (fun _ _ _ => h)

theorem coverModule_keeps (h : inv c) (index : Nat) :
    Meets (coverModule p index) c (fun _ => inv) (fun _ => True) := by
  unfold coverModule
  refine Meets.bind (meets_ask (fun _ _ => h) (fun _ _ _ => trivial)
    : Meets _ c (fun _ => inv) _) ?_
  intro used c' h'
  exact Meets.forM (fun _ => inv)
    (fun _ t _ c _ h => coverStruct_keeps hregister hensure h t) h'

theorem perform_keeps (h : inv c) {request : Request} (hok : request.succeeds p c = true) :
    inv (request.perform p c) := by
  cases request with
  | layout t => exact (layoutOf_keeps hensure h t).of_isOk hok
  | module index => exact (coverModule_keeps hregister hensure h index).of_isOk hok
  | program =>
    have hrun : Meets (coverProgram p) c (fun _ => inv) (fun _ => True) :=
      Meets.forM (fun _ => inv)
        (fun _ index _ c _ h => coverModule_keeps hregister hensure h index) h
    exact hrun.of_isOk hok

theorem after_keeps (h : inv c) {requests : List Request}
    (hok : c.allSucceed p requests = true) : inv (c.after p requests) := by
  induction requests generalizing c with
  | nil => exact h
  | cons request rest ih =>
    rw [allSucceed, Bool.and_eq_true] at hok
    exact ih (perform_keeps hregister hensure h hok.1) hok.2

end Requests

theorem after_owned (p : Program) (unionName : String) {requests : List Request}
    (hok : allSucceed { unionName := unionName } p requests = true) :
    (after { unionName := unionName } p requests).Owned [] := by
  refine after_keeps (fun c s t h => h.register s t) (fun c t h => ensure_owned h) ?_ hok
  rintro a b o ⟨r, hr, _⟩
  simp at hr

/-! ### Holders and what they hold -/

theorem transGen_has_of_embedded {a b o : Nat} (h : Embedded (c.HoldsRecorded p) a b o) :
    Relation.TransGen (c.Has p) a b := by
  obtain ⟨m, first, rest, hm, hrest, rfl⟩ := h
  refine .head' hm.1.has ?_
  clear hm
  induction hrest with
  | nil => exact .refl
  | cons hstep _ ih => exact .head hstep.1.has ih

/-- A recorded struct that holds another one has a body, and stands for itself. -/
theorem Grounded.tabulates_of_has {a b : Nat} (hc : c.Grounded p) (ha : a ∈ c.records)
    (h : c.Has p a b) :
    ∃ s r, p.types.struct? a = some s ∧ c.records[a]? = some r ∧
      c.Tabulates p a s s.members r := by
  obtain ⟨s, m, hs, hm, _⟩ := h
  obtain ⟨r, hr⟩ := mem_records_iff.mp ha
  exact ⟨s, r, hs, hr,
    hc.tabulates hs hr (hc.isOpaque_of_members hs hr (List.ne_nil_of_mem hm))⟩

theorem Grounded.exists_holds {a b : Nat} (hc : c.Grounded p) (ha : a ∈ c.records)
    (h : c.Has p a b) : ∃ o, c.Holds p a b o := by
  obtain ⟨s, r, hs, _, htab⟩ := hc.tabulates_of_has ha h
  obtain ⟨s', m, hs', hm, hcan⟩ := h
  obtain rfl := Option.some.inj (hs.symm.trans hs')
  obtain ⟨i, hi⟩ := List.mem_iff_getElem?.mp hm
  suffices hoffset : ∃ o, c.memberOffset? p a i = some o by
    obtain ⟨o, ho⟩ := hoffset
    exact ⟨o, m, ⟨s, i, hs, hi, ho⟩, hcan⟩
  cases hu : c.treatsAsUnion s with
  | true => exact ⟨0, by simp [memberOffset?, isUnion, hs, hu]⟩
  | false =>
    obtain ⟨placed, hlayout⟩ := htab.exists_layout hu
    have hlt : i < placed.offsets.length := by
      rw [DataLayout.length_of_structLayout hs hlayout]
      exact (List.getElem?_eq_some_iff.mp hi).1
    exact ⟨placed.offsets[i],
      by simp [memberOffset?, isUnion, hs, hu, hlayout, List.getElem?_eq_getElem hlt]⟩

theorem Grounded.exists_embedded {a b : Nat} (hc : c.Grounded p) (ha : a ∈ c.records)
    (h : Relation.TransGen (c.Has p) a b) : ∃ o, Embedded (c.Holds p) a b o := by
  induction h using Relation.TransGen.head_induction_on with
  | single h =>
    obtain ⟨o, ho⟩ := hc.exists_holds ha h
    exact ⟨o, .of_step ho⟩
  | head h _ ih =>
    obtain ⟨o, ho⟩ := hc.exists_holds ha h
    obtain ⟨o', ho'⟩ := ih ((Grows.refl c).has_of_mem hc ha h).2
    exact ⟨o + o', (Embedded.of_step ho).append ho'.chain⟩

/-- A recorded struct is known to hold all that its levels hold. -/
theorem Coherent.edge_iff (hc : c.Coherent p) {a b : Nat} (ha : a ∈ c.records) :
    (∃ o, c.Edge a b o) ↔ Relation.TransGen (c.Has p) a b := by
  constructor
  · rintro ⟨o, he⟩
    obtain ⟨sum, hsum, _⟩ := hc.linked.sound a b o he
    exact transGen_has_of_embedded hsum
  · intro h
    obtain ⟨sum, hsum⟩ := hc.grounded.exists_embedded ha h
    obtain ⟨o, _, he⟩ := hc.linked.complete a b sum ha hsum
    exact ⟨o, he⟩

theorem mem_holderNames {n : String} : n ∈ c.holderNames p t ↔
    ∃ a o, c.Edge a t o ∧ p.types.structName? a = some n := by
  unfold holderNames Edge
  cases c.records[t]? with
  | none => simp
  | some r =>
    simp only [Option.elim_some, List.mem_filterMap, Prod.exists, Option.some.injEq,
      exists_eq_left']

theorem Tabulates.canonical? {r : FieldRecord} {members : List Nat}
    (h : c.Tabulates p t s members r) (hs : p.types.struct? t = some s) :
    c.canonical? p t = some t :=
  canonical?_eq_some.mpr ⟨s, hs, h.standIn⟩

theorem Tabulates.scope {r : FieldRecord} {members : List Nat} {name : String}
    (h : c.Tabulates p t s members r) (hn : s.name = some name) :
    c.scopes[scopeName name]? = some t := by
  obtain ⟨u, hu⟩ := Option.isSome_iff_exists.mp
    (Std.TreeMap.isSome_getElem?_iff_mem.mpr (h.settled name hn))
  have hself := h.standIn
  simp only [Catalog.standIn, hn, Option.bind_some, hu, Option.getD_some] at hself
  rw [hu, hself]

/-- An anonymous holder that is looked through is a struct around the one it holds. -/
theorem transGen_has_of_anonymousHolders (hc : c.Coherent p) (howned : c.Owned []) {a b : Nat}
    (h : a ∈ c.anonymousHolders p b) : Relation.TransGen (c.Has p) a b := by
  obtain ⟨n, hn, hscope⟩ := List.mem_filterMap.mp h
  obtain ⟨a', o, he, hname⟩ := mem_holderNames.mp (List.mem_filter.mp hn).1
  have ha' : a' ∈ c.records := by simpa using howned a' b o he
  have hin := (hc.edge_iff ha').mp ⟨o, he⟩
  obtain ⟨_, hfirst, _⟩ := Relation.TransGen.head'_iff.mp hin
  obtain ⟨s, r, hs, _, htab⟩ := hc.grounded.tabulates_of_has ha' hfirst
  have hn' : s.name = some n := by simpa [TypeTable.structName?, hs] using hname
  obtain rfl := Option.some.inj (hscope.symm.trans (htab.scope hn'))
  exact hin

theorem visited_holders (hc : c.Coherent p) (howned : c.Owned []) {a b : Nat}
    (h : a ∈ visited p.types.size (c.anonymousHolders p) [b]) :
    Relation.ReflTransGen (c.Has p) a b := by
  obtain ⟨start, hstart, hreach⟩ := mem_visited_iff.mp h
  obtain rfl := List.mem_singleton.mp hstart
  induction hreach with
  | refl => exact .refl
  | tail _ hstep ih =>
    exact (transGen_has_of_anonymousHolders hc howned hstep.2).to_reflTransGen.trans
      (ih (mem_visited_iff.mpr ⟨_, hstart, by assumption⟩))

theorem mem_containersOf {name n : String} (hscope : c.scopes[name]? = some t) :
    n ∈ c.containersOf p name ↔ isAnonymous n = false ∧
      ∃ u ∈ visited p.types.size (c.anonymousHolders p) [t], n ∈ c.holderNames p u := by
  simp only [containersOf, Std.TreeSet.mem_toList, Std.TreeSet.mem_ofList, List.contains_iff_mem,
    List.mem_filter, List.mem_flatMap, hscope, Option.toList_some, Bool.not_eq_true',
    and_comm]

theorem containersOf_sorted (c : Catalog) (p : Program) (name : String) :
    (c.containersOf p name).Pairwise (· < ·) := by
  unfold containersOf
  refine Std.TreeSet.ordered_toList.imp ?_
  intro a b h
  exact compareOfLessAndEq_eq_lt.mp h

/-- After requests that were all answered, the names found for a registered struct are
in order, and are those of the recorded named structs around it, whatever is between. -/
theorem containersOf_exact (p : Program) (unionName : String) {requests : List Request}
    (hok : allSucceed { unionName := unionName } p requests = true) {name : String} {t : Nat} :
    let c := after { unionName := unionName } p requests
    c.scopes[name]? = some t →
      (c.containersOf p name).Pairwise (· < ·) ∧
      ∀ n, n ∈ c.containersOf p name ↔ isAnonymous n = false ∧
        ∃ (u : Nat) (r : FieldRecord), c.records[u]? = some r ∧ r.isFinal = true ∧
          c.canonical? p u = some u ∧ p.types.structName? u = some n ∧
          Relation.TransGen (c.Has p) u t := by
  intro c hscope
  have hc : c.Coherent p := after_coherent p unionName requests
  have howned : c.Owned [] := after_owned p unionName hok
  refine ⟨c.containersOf_sorted p name, fun n => ?_⟩
  rw [mem_containersOf hscope]
  refine and_congr_right fun _ => ?_
  constructor
  · rintro ⟨b, hb, hn⟩
    obtain ⟨a, o, he, hname⟩ := mem_holderNames.mp hn
    have ha : a ∈ c.records := by simpa using howned a b o he
    have hab := (hc.edge_iff ha).mp ⟨o, he⟩
    obtain ⟨_, hfirst, _⟩ := Relation.TransGen.head'_iff.mp hab
    obtain ⟨s, r, hs, hr, htab⟩ := hc.grounded.tabulates_of_has ha hfirst
    exact ⟨a, r, hr, (hc.grounded.record a r hr).isFinal, htab.canonical? hs, hname,
      hab.trans_left (visited_holders hc howned hb)⟩
  · rintro ⟨a, r, hr, _, _, hname, hat⟩
    -- what is between does not matter, since edges are recorded at all depths
    obtain ⟨o, he⟩ := (hc.edge_iff (mem_records_iff.mpr ⟨r, hr⟩)).mpr hat
    exact ⟨t, mem_visited_of_reached (by simp) .refl, mem_holderNames.mpr ⟨a, o, he, hname⟩⟩

/-- A struct inside a struct without a name, in an array, in an anonymous struct, in a
union, in a struct. -/
def layered : Program where
  types := {
    entries := #[
      .integer 32,
      .struct ⟨some "struct.leaf", some [0], false, false⟩,
      .struct ⟨none, some [1], false, false⟩,
      .array 2 3,
      .struct ⟨some "struct.anon", some [3], false, false⟩,
      .struct ⟨some "union.u", some [4, 0], false, true⟩,
      .struct ⟨some "struct.outer", some [0, 5], false, false⟩] }

theorem containersOf_exact_layered :
    let c := after { unionName := "union." } layered [.layout 2, .layout 6]
    allSucceed { unionName := "union." } layered [.layout 2, .layout 6] = true ∧
      c.scopes["struct.leaf"]? = some 1 ∧
      c.containersOf layered "struct.leaf" = ["struct.outer", "union.u"] ∧
      ∃ u, layered.types.structName? u = some "struct.outer" ∧
        Relation.TransGen (c.Has layered) u 1 := by
  intro c
  have hok : allSucceed { unionName := "union." } layered [.layout 2, .layout 6] = true := by
    decide +kernel
  have hscope : c.scopes["struct.leaf"]? = some 1 := by decide +kernel
  have hnames : c.containersOf layered "struct.leaf" = ["struct.outer", "union.u"] := by
    decide +kernel
  obtain ⟨_, hmem⟩ := containersOf_exact layered "union." hok hscope
  obtain ⟨_, u, _, _, _, _, hname, hin⟩ := (hmem "struct.outer").mp (by rw [hnames]; simp)
  exact ⟨hok, hscope, hnames, u, hname, hin⟩

end Catalog

end AbstractMemory
