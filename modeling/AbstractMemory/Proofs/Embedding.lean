import AbstractMemory.Proofs.Coherence
import AbstractMemory.Proofs.Extents
import Mathlib

/-! Recording where a struct is held. With the place of a struct also the
places of all it holds are recorded, read off the records of its members. -/

namespace AbstractMemory

namespace Catalog

theorem getElem?_insert_record {records : Std.TreeMap Nat FieldRecord} {k a : Nat}
    {r : FieldRecord} : (records.insert k r)[a]? = if k = a then some r else records[a]? := by
  simp only [Std.TreeMap.getElem?_insert, Std.LawfulEqCmp.compare_eq_iff_eq]

/-- Only containers differ. -/
structure Relinks (c c' : Catalog) : Prop extends c.Grows c' where
  scopes_eq : c'.scopes = c.scopes
  mem_of_mem : ∀ k ∈ c'.records, k ∈ c.records

theorem Relinks.refl (c : Catalog) : c.Relinks c :=
  ⟨Grows.refl c, rfl, fun _ h => h⟩

theorem Relinks.trans {c c' c'' : Catalog} (h : c.Relinks c') (h' : c'.Relinks c'') :
    c.Relinks c'' :=
  ⟨h.toGrows.trans h'.toGrows, h'.scopes_eq.trans h.scopes_eq,
    fun k hk => h.mem_of_mem k (h'.mem_of_mem k hk)⟩

/-- The catalog with one more container of `inner`. -/
def link (c : Catalog) (outer inner offset : Nat) (r : FieldRecord) : Catalog :=
  { c with records := c.records.insert inner (r.addContainer outer offset) }

theorem link_relinks {c : Catalog} {outer inner offset : Nat} {r : FieldRecord}
    (hr : c.records[inner]? = some r) : c.Relinks (c.link outer inner offset r) := by
  refine ⟨⟨rfl, fun _ _ h => h, ?_⟩, rfl, ?_⟩
  · intro k r' hk
    by_cases hki : inner = k
    · subst hki
      obtain rfl := Option.some.inj (hr.symm.trans hk)
      refine ⟨insertPair (outer, offset) r.containers, ?_, fun e he => mem_insertPair.mpr (.inr he)⟩
      simp [link, FieldRecord.addContainer]
    · exact ⟨r'.containers, by simpa [link, getElem?_insert_record, hki] using hk,
        List.Subset.refl _⟩
  · intro k hk
    rcases Std.TreeMap.mem_insert.mp hk with he | hm
    · obtain rfl := Std.LawfulEqCmp.compare_eq_iff_eq.mp he
      exact mem_records_iff.mpr ⟨r, hr⟩
    · exact hm

theorem edge_link {c : Catalog} {outer inner offset a b o : Nat} {r : FieldRecord}
    (hr : c.records[inner]? = some r) :
    (c.link outer inner offset r).Edge a b o ↔
      c.Edge a b o ∨ a = outer ∧ b = inner ∧ o = offset := by
  by_cases hb : inner = b
  · subst hb
    simp only [Edge, link, getElem?_insert_record, if_true, Option.some.injEq, exists_eq_left',
      FieldRecord.addContainer, mem_insertPair, Prod.mk.injEq, hr, true_and]
    tauto
  · have hb' : b ≠ inner := fun h => hb h.symm
    simp [Edge, link, getElem?_insert_record, hb, hb']

theorem Relinks.coherent {c c' : Catalog} {p : Program} (h : c.Relinks c') (hc : c.Coherent p)
    (hnew : ∀ a b o, c'.Edge a b o →
      c.Edge a b o ∨ EmbeddedAt p.dataLayout.overflow (c'.HoldsRecorded p) a b o) :
    c'.Coherent p := by
  have hkeys : ∀ k ∈ c'.records, k ∉ c.records → False :=
    fun k hk hn => hn (h.mem_of_mem k hk)
  refine ⟨hc.grounded.of_grows h.toGrows ?_ ?_ ?_, hc.linked.of_grows hc.grounded h.toGrows hnew ?_⟩
  · exact fun n t hn => .inl (h.scopes_eq ▸ hn)
  · exact fun k r hk => .inl (h.mem_of_mem k (mem_records_iff.mpr ⟨r, hk⟩))
  · exact fun k hk hn => (hkeys k hk hn).elim
  · exact fun k hk hn => (hkeys k hk hn).elim

theorem link_coherent {c : Catalog} {p : Program} {outer inner offset : Nat} {r : FieldRecord}
    (hc : c.Coherent p) (hr : c.records[inner]? = some r)
    (he : EmbeddedAt p.dataLayout.overflow (c.HoldsRecorded p) outer inner offset) :
    (c.link outer inner offset r).Coherent p := by
  have hrel : c.Relinks (c.link outer inner offset r) := link_relinks hr
  refine hrel.coherent hc ?_
  intro a b o hab
  rcases (edge_link hr).mp hab with hold | ⟨rfl, rfl, rfl⟩
  · exact .inl hold
  · exact .inr (he.mono fun _ _ _ hh => hrel.toGrows.holdsRecorded hc.grounded hh)

/-- It is recorded that `outer` holds all that `inner` holds, and `inner`. -/
def Covered (c : Catalog) (p : Program) (outer inner offset : Nat) : Prop :=
  ∀ b sum, Chain (c.Holds p) inner b sum →
    ∃ o, p.dataLayout.overflow.count (offset + sum) = .ok o ∧ c.Edge outer b o

theorem Covered.mono {c c' : Catalog} {p : Program} (hc : c.Grounded p) (h : c.Grows c')
    {outer inner offset : Nat} (hin : inner ∈ c.records) (hcov : c.Covered p outer inner offset) :
    c'.Covered p outer inner offset := by
  intro b sum hch
  have hch' := h.chain_of_mem hc hin hch
  obtain ⟨o, ho, hedge⟩ := hcov b sum (hch'.mono fun _ _ _ hh => hh.1)
  exact ⟨o, ho, h.edge hedge⟩

/-- What `inner` holds is covered if all its members are, with what they hold. -/
theorem Covered.of_members {c c' : Catalog} {p : Program} (hc : c.Coherent p) (h : c.Grows c')
    {outer inner offset : Nat} (hin : inner ∈ c.records)
    (hoffset : p.dataLayout.overflow.count offset = .ok offset) (hself : c.Edge outer inner offset)
    (hmembers : ∀ m o, c.Has p inner m → c.Edge inner m o → ∃ inside,
      p.dataLayout.overflow.count (o + offset) = .ok inside ∧ c'.Covered p outer m inside) :
    c'.Covered p outer inner offset := by
  intro b sum hch
  cases hch with
  | nil => exact ⟨offset, hoffset, h.edge hself⟩
  | cons hfirst hrest =>
    rename_i m first rest
    have hfirst' := h.holds_of_mem hc.grounded hin hfirst
    obtain ⟨o, ho, hedge⟩ := hc.linked.complete inner m first hin (.of_step hfirst'.1)
    obtain ⟨inside, hinside, hcov⟩ := hmembers m o hfirst'.1.has hedge
    obtain ⟨o', ho', hedge'⟩ := hcov b rest hrest
    refine ⟨o', ?_, hedge'⟩
    rw [← ho', Overflow.count_add_left hinside, Nat.add_assoc, Overflow.count_add_left ho]
    congr 1
    omega

/-- Something is held so far from the start of a struct that the program stops. -/
def TooFar (c : Catalog) (p : Program) (outer : Nat) (e : ProgramError) : Prop :=
  p.dataLayout.overflow = .stops ∧ e = .halted .overflow ∧
    ∃ b sum, Embedded (c.HoldsRecorded p) outer b sum ∧ maxByteCount < sum

theorem Relinks.holdsRecorded {c c' : Catalog} {p : Program} (h : c.Relinks c') {a b o : Nat}
    (hh : c'.HoldsRecorded p a b o) : c.HoldsRecorded p a b o := by
  obtain ⟨⟨m, hm, hcan⟩, r, hr, ho⟩ := hh
  obtain ⟨s, hs, rfl⟩ := canonical?_eq_some.mp hcan
  have hstand : c'.standIn s (p.types.stripArrays m) = c.standIn s (p.types.stripArrays m) := by
    simp only [standIn, h.scopes_eq]
  rw [hstand] at hr ⊢
  obtain ⟨r₀, hr₀⟩ := mem_records_iff.mp (h.mem_of_mem _ (mem_records_iff.mpr ⟨r, hr⟩))
  obtain ⟨cs, hcs, _⟩ := h.records _ _ hr₀
  obtain rfl := Option.some.inj (hr.symm.trans hcs)
  exact ⟨⟨m, h.toGrows.memberAt.mp hm, canonical?_eq_some.mpr ⟨s, hs, rfl⟩⟩, r₀, hr₀, ho⟩

theorem Relinks.tooFar {c c' : Catalog} {p : Program} (h : c.Relinks c') {outer : Nat}
    {e : ProgramError} (hfar : c'.TooFar p outer e) : c.TooFar p outer e := by
  obtain ⟨hstops, he, b, sum, hemb, hlt⟩ := hfar
  exact ⟨hstops, he, b, sum, hemb.mono fun _ _ _ => h.holdsRecorded, hlt⟩

theorem mem_memberStructs {c : Catalog} {p : Program} {s : StructType} {t sub : Nat}
    (hs : p.types.struct? t = some s) : sub ∈ c.memberStructs p s ↔ c.Has p t sub := by
  simp only [memberStructs, List.mem_eraseDups, List.mem_filterMap, Has, hs, Option.some.injEq,
    exists_and_left, exists_eq_left']

theorem mem_memberPlaces {c : Catalog} {p : Program} {s : StructType} {t sub o : Nat}
    (hs : p.types.struct? t = some s) :
    (sub, o) ∈ c.memberPlaces p s t ↔ c.Has p t sub ∧ c.Edge t sub o := by
  simp only [memberPlaces, List.mem_flatMap, mem_memberStructs hs]
  constructor
  · rintro ⟨sub', hsub, hm⟩
    cases hr : c.records[sub']? with
    | none => simp [hr] at hm
    | some r =>
      simp only [hr, List.mem_map, List.mem_filter, beq_iff_eq, Prod.mk.injEq] at hm
      obtain ⟨⟨a, o'⟩, ⟨hmem, rfl⟩, rfl, rfl⟩ := hm
      exact ⟨hsub, r, hr, hmem⟩
  · rintro ⟨hsub, r, hr, hmem⟩
    refine ⟨sub, hsub, ?_⟩
    rw [hr]
    exact List.mem_map.mpr ⟨(t, o), List.mem_filter.mpr ⟨hmem, by simp⟩, rfl⟩

theorem embed_eq {c : Catalog} {p : Program} {outer inner offset : Nat} {path : List Nat}
    {r : FieldRecord} {s : StructType} (hr : c.records[inner]? = some r)
    (hs : p.types.struct? inner = some s) (hp : inner ∉ path) :
    embed p outer path inner offset c =
      ((c.link outer inner offset r).memberPlaces p s inner).foldlM
        (fun c place => do
          let inside ← p.dataLayout.overflow.count (place.2 + offset)
          embed p outer (inner :: path) place.1 inside c)
        (c.link outer inner offset r) := by
  rw [embed]
  simp only [hr]
  split
  · rename_i s' hget
    rw [TypeTable.get?_of_struct? hs] at hget
    obtain rfl : s = s' := by simpa using hget
    rw [dif_neg hp]
    rfl
  · rename_i hno
    exact (hno s (TypeTable.get?_of_struct? hs)).elim

theorem embed_eq_error {c : Catalog} {p : Program} {outer inner offset : Nat} {path : List Nat}
    {r : FieldRecord} {s : StructType} (hr : c.records[inner]? = some r)
    (hs : p.types.struct? inner = some s) (hp : inner ∈ path) :
    embed p outer path inner offset c = .error (.halted .endless) := by
  rw [embed]
  simp only [hr]
  split
  · rw [dif_pos hp]
  · rename_i hno
    exact (hno s (TypeTable.get?_of_struct? hs)).elim

/-- How recording a place that `outer` holds `inner` at may end. -/
structure Places (c : Catalog) (p : Program) (outer inner offset : Nat)
    (result : Except ProgramError Catalog) : Prop where
  ok : ∀ c', result = .ok c' →
    c'.Coherent p ∧ c.Relinks c' ∧ c'.Covered p outer inner offset
  error : ∀ e, result = .error e → c.TooFar p outer e

theorem foldlM_places {p : Program} {c₁ : Catalog} (outer offset : Nat)
    (step : Nat → Nat → Catalog → Except ProgramError Catalog) (places : List (Nat × Nat))
    (hstep : ∀ c place, place ∈ places → c₁.Relinks c → c.Coherent p →
      (∀ inside, p.dataLayout.overflow.count (place.2 + offset) = .ok inside →
        c.Places p outer place.1 inside (step place.1 inside c)) ∧
      ∀ e, p.dataLayout.overflow.count (place.2 + offset) = .error e → c.TooFar p outer e)
    (hin : ∀ place ∈ places, place.1 ∈ c₁.records) (hc₁ : c₁.Coherent p) :
    (∀ c', places.foldlM (fun c place => do
        let inside ← p.dataLayout.overflow.count (place.2 + offset)
        step place.1 inside c) c₁ = .ok c' →
      c'.Coherent p ∧ c₁.Relinks c' ∧ ∀ place ∈ places, ∃ inside,
        p.dataLayout.overflow.count (place.2 + offset) = .ok inside ∧
          c'.Covered p outer place.1 inside) ∧
    ∀ e, places.foldlM (fun c place => do
        let inside ← p.dataLayout.overflow.count (place.2 + offset)
        step place.1 inside c) c₁ = .error e → c₁.TooFar p outer e := by
  induction places using List.reverseRecOn with
  | nil =>
    refine ⟨fun c' h => ?_, fun e h => by cases h⟩
    obtain rfl := Except.ok.inj h
    exact ⟨hc₁, Relinks.refl c₁, by simp⟩
  | append_singleton places place ih =>
    obtain ⟨hok, herror⟩ := ih (fun c q hq => hstep c q (by simp [hq]))
      (fun q hq => hin q (by simp [hq]))
    rw [List.foldlM_append]
    cases hrun : places.foldlM (fun c place => do
        let inside ← p.dataLayout.overflow.count (place.2 + offset)
        step place.1 inside c) c₁ with
    | error e =>
      refine ⟨fun c' h => (by cases h), fun e' h => ?_⟩
      obtain rfl : e = e' := Except.error.inj h
      exact herror e hrun
    | ok c =>
      obtain ⟨hc, hrel, hcov⟩ := hok c hrun
      obtain ⟨hinside, hfar⟩ := hstep c place (by simp) hrel hc
      cases hcount : p.dataLayout.overflow.count (place.2 + offset) with
      | error e =>
        refine ⟨fun c' h => ?_, fun e' h => ?_⟩
        · simp [bind, Except.bind, hcount] at h
        · simp only [List.foldlM_cons, bind, Except.bind, hcount, Except.error.injEq] at h
          exact h ▸ hrel.tooFar (hfar e hcount)
      | ok inside =>
        have hends := hinside inside hcount
        have hlast : (Except.ok c >>= fun c => [place].foldlM (fun c place => do
            let inside ← p.dataLayout.overflow.count (place.2 + offset)
            step place.1 inside c) c) = step place.1 inside c := by
          simp only [List.foldlM_cons, List.foldlM_nil, bind, Except.bind, hcount, pure,
            Except.pure]
          cases step place.1 inside c <;> rfl
        rw [hlast]
        refine ⟨fun c' h => ?_, fun e h => hrel.tooFar (hends.error e h)⟩
        obtain ⟨hc', hrel', hcov'⟩ := hends.ok c' h
        refine ⟨hc', hrel.trans hrel', fun q hq => ?_⟩
        rcases List.mem_append.mp hq with hq | hq
        · obtain ⟨inside', hcount', hcovq⟩ := hcov q hq
          exact ⟨inside', hcount', hcovq.mono hc.grounded hrel'.toGrows
            (hrel.toGrows.mem (hin q (by simp [hq])))⟩
        · obtain rfl := List.mem_singleton.mp hq
          exact ⟨inside, hcount, hcov'⟩

/-- What recording a place achieves, for a struct whose members rank below it:
the catalog stays coherent, and `outer` is known to hold all that `inner` does. -/
theorem embed_places {p : Program} {rank : Nat → Nat} {outer : Nat} {c : Catalog}
    {inner offset : Nat} {path : List Nat} (hc : c.Coherent p)
    (hrank : ∀ a b, a ∈ c.records → c.Has p a b → rank b < rank a)
    (hpath : ∀ x ∈ path, rank inner < rank x) (hin : inner ∈ c.records)
    (he : EmbeddedAt p.dataLayout.overflow (c.HoldsRecorded p) outer inner offset) :
    c.Places p outer inner offset (embed p outer path inner offset c) := by
  induction hn : rank inner using Nat.strong_induction_on generalizing c inner offset path with
  | _ n ih =>
    subst hn
    obtain ⟨r, hr⟩ := mem_records_iff.mp hin
    obtain ⟨s, hs, _⟩ := (hc.grounded.record inner r hr).shape
    have hnp : inner ∉ path := fun hm => Nat.lt_irrefl _ (hpath inner hm)
    rw [embed_eq hr hs hnp]
    have hc₁ := link_coherent hc hr he
    have hrel₁ : c.Relinks (c.link outer inner offset r) := link_relinks hr
    have hself : (c.link outer inner offset r).Edge outer inner offset :=
      (edge_link hr).mpr (.inr ⟨rfl, rfl, rfl⟩)
    generalize c.link outer inner offset r = c₁ at hc₁ hrel₁ hself ⊢
    have hin₁ : inner ∈ c₁.records := hrel₁.toGrows.mem hin
    -- the places of the members are those of the members' records, which are exact
    have hplace : ∀ place ∈ c₁.memberPlaces p s inner, rank place.1 < rank inner ∧
        place.1 ∈ c₁.records ∧
        EmbeddedAt p.dataLayout.overflow (c₁.HoldsRecorded p) inner place.1 place.2 := by
      intro place hm
      obtain ⟨hhas, hedge⟩ := (mem_memberPlaces hs).mp hm
      have hhas' := (hrel₁.toGrows.has_of_mem hc.grounded hin hhas)
      exact ⟨hrank inner place.1 hin hhas'.1, hrel₁.toGrows.mem hhas'.2,
        hc₁.linked.sound inner place.1 place.2 hedge⟩
    have hstep : ∀ c₂ place, place ∈ c₁.memberPlaces p s inner → c₁.Relinks c₂ → c₂.Coherent p →
        (∀ inside, p.dataLayout.overflow.count (place.2 + offset) = .ok inside →
          c₂.Places p outer place.1 inside (embed p outer (inner :: path) place.1 inside c₂)) ∧
        ∀ e, p.dataLayout.overflow.count (place.2 + offset) = .error e → c₂.TooFar p outer e := by
      intro c₂ place hm hrel₂ hc₂
      obtain ⟨hlt, hmem, hemb⟩ := hplace place hm
      have hgrows := hrel₁.trans hrel₂
      -- `outer` holds `inner` and that holds the member, so `outer` holds it too
      obtain ⟨sum, hjoined, hcount⟩ :=
        (he.mono fun _ _ _ hh => hgrows.toGrows.holdsRecorded hc.grounded hh).append
          (hemb.mono fun _ _ _ hh => hrel₂.toGrows.holdsRecorded hc₁.grounded hh)
      rw [hcount]
      refine ⟨fun inside hinside => ?_, fun e herror => ?_⟩
      · refine ih (rank place.1) hlt hc₂ ?_ ?_ (hrel₂.toGrows.mem hmem)
          ⟨sum, hjoined, hinside⟩ rfl
        · intro a b ha hab
          have ha' := hgrows.mem_of_mem a ha
          exact hrank a b ha' (hgrows.toGrows.has_of_mem hc.grounded ha' hab).1
        · intro x hx
          rcases List.mem_cons.mp hx with rfl | hx
          · exact hlt
          · exact hlt.trans (hpath x hx)
      · obtain ⟨hstops, hlarge, rfl⟩ := Overflow.count_eq_error.mp herror
        exact ⟨hstops, rfl, place.1, sum, hjoined, hlarge⟩
    obtain ⟨hok, herror⟩ := foldlM_places outer offset
      (fun sub inside c => embed p outer (inner :: path) sub inside c) _ hstep
      (fun place hm => (hplace place hm).2.1) hc₁
    refine ⟨fun c' h => ?_, fun e h => hrel₁.tooFar (herror e h)⟩
    obtain ⟨hc₃, hrel₃, hcov⟩ := hok c' h
    obtain ⟨_, _, hoffset⟩ := he
    exact ⟨hc₃, hrel₁.trans hrel₃, Covered.of_members hc₁ hrel₃.toGrows hin₁
      (Overflow.count_self hoffset) hself fun m o hhas hedge =>
        hcov (m, o) ((mem_memberPlaces hs).mpr ⟨hhas, hedge⟩)⟩

end Catalog

end AbstractMemory
