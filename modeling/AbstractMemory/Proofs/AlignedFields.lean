import AbstractMemory.Proofs.Alignment
import AbstractMemory.Proofs.RoundTrip
import Mathlib

/-! Aligned fields. However deep a field is nested, it starts at a multiple of the
alignment of the type it stands for. -/

namespace AbstractMemory

namespace Catalog

variable {c : Catalog} {p : Program} {k m : Nat} {members leaves inside : List Nat}
  {s : StructType} {r : FieldRecord}

/-- The types that the fields of some members stand for, in order. Arrays aside, a member
that is no struct stands for itself, and so does a union. -/
inductive Leaves (c : Catalog) (p : Program) : List Nat → List Nat → Prop
  | nil : Leaves c p [] []
  | plain {m : Nat} {members leaves : List Nat}
      (hm : p.types.struct? (p.types.stripArrays m) = none) (rest : Leaves c p members leaves) :
      Leaves c p (m :: members) (m :: leaves)
  | union {m : Nat} {members leaves : List Nat} {s : StructType}
      (hs : p.types.struct? (p.types.stripArrays m) = some s) (hu : c.treatsAsUnion s = true)
      (hne : s.members ≠ []) (rest : Leaves c p members leaves) :
      Leaves c p (m :: members) (p.types.stripArrays m :: leaves)
  | struct {m : Nat} {members leaves inside : List Nat} {s : StructType}
      (hs : p.types.struct? (p.types.stripArrays m) = some s)
      (hu : c.treatsAsUnion s = false ∨ s.members = []) (inner : Leaves c p s.members inside)
      (rest : Leaves c p members leaves) : Leaves c p (m :: members) (inside ++ leaves)

theorem Leaves.cons (h : c.Leaves p [m] inside) (rest : c.Leaves p members leaves) :
    c.Leaves p (m :: members) (inside ++ leaves) := by
  cases h with
  | plain hm hnil =>
    cases hnil
    exact .plain hm rest
  | union hs hu hne hnil =>
    cases hnil
    exact .union hs hu hne rest
  | struct hs hu inner hnil =>
    cases hnil
    rw [List.append_nil]
    exact .struct hs hu inner rest

theorem Leaves.of_stripArrays (hs : p.types.struct? (p.types.stripArrays m) = some s)
    (h : c.Leaves p [p.types.stripArrays m] inside) : c.Leaves p [m] inside := by
  have hst := TypeTable.stripArrays_self hs
  cases h with
  | plain hm hnil => simp [hst, hs] at hm
  | union hs' hu hne hnil =>
    cases hnil
    rw [hst] at hs' ⊢
    exact .union hs' hu hne .nil
  | struct hs' hu inner hnil =>
    cases hnil
    rw [hst] at hs'
    exact .struct hs' hu inner .nil

/-- Where each member has its fields in place, so has the struct around them. -/
theorem leaves_sequential {holds : Field → Nat → Prop} {offsets : List Nat}
    (h : List.Forall₂ (fun m o => ∃ inside, c.Leaves p [m] inside ∧
      List.Forall₂ holds ((c.partOf p m).map (·.shifted o)) inside) members offsets) :
    ∃ leaves, c.Leaves p members leaves ∧
      List.Forall₂ holds (List.zipWith (fun part offset => part.map (·.shifted offset))
        (members.map (c.partOf p)) offsets).flatten leaves := by
  induction h with
  | nil => exact ⟨[], .nil, .nil⟩
  | cons hm _ ih =>
    obtain ⟨inside, hinside, hfirst⟩ := hm
    obtain ⟨leaves, hleaves, hrest⟩ := ih
    exact ⟨inside ++ leaves, hinside.cons hleaves, List.rel_append hfirst hrest⟩

/-- A field stands for a part of `root`, and starts at a multiple of its alignment. -/
def Aligned (p : Program) (root : Nat) (f : Field) (u : Nat) : Prop :=
  p.types.ByValue root u ∧
    ∀ e, p.dataLayout.extent p.types u = .ok (some e) → e.align ∣ f.offset

theorem Grounded.fields_of_no_members (hc : c.Grounded p) (hs : p.types.struct? k = some s)
    (hr : c.records[k]? = some r) (hnil : s.members = []) : r.fields = [] := by
  obtain ⟨s', hs', _, hbodiless, htab⟩ := (hc.record k r hr).shape
  obtain rfl := Option.some.inj (hs.symm.trans hs')
  cases hb : s.body with
  | none => exact hbodiless hb
  | some members =>
    obtain rfl : members = [] := by simpa [StructType.members, hb] using hnil
    have htable := (htab [] hb).table
    unfold tableOver at htable
    split at htable
    · exact (congrArg FieldTable.fields (Option.some.inj htable)).symm
    · split at htable
      · exact (congrArg FieldTable.fields (Option.some.inj htable)).symm
      · cases htable

/-- A member at a multiple of its alignment has its fields at multiples of theirs. -/
theorem aligned_member {o : Nat} {e : Extent} (hc : c.Grounded p) (hd : p.DistinctScopes)
    (hpart : c.HasPart p m) (hnat : p.dataLayout.Natural p.types m)
    (he : p.dataLayout.extent p.types m = .ok (some e)) (ho : e.align ∣ o)
    (hk : p.types.ByValue k m)
    (hrec : ∀ r, c.records[p.types.stripArrays m]? = some r →
      p.types.isStruct (p.types.stripArrays m) = true →
      ∃ leaves, c.Leaves p [p.types.stripArrays m] leaves ∧
        List.Forall₂ (Aligned p (p.types.stripArrays m)) r.fields leaves) :
    ∃ inside, c.Leaves p [m] inside ∧
      List.Forall₂ (Aligned p k) ((c.partOf p m).map (·.shifted o)) inside := by
  have hshift : ∀ (f : Field) (u : Nat), p.types.ByValue m u →
      (∀ e', p.dataLayout.extent p.types u = .ok (some e') → e'.align ∣ f.offset) →
      Aligned p k (f.shifted o) u := by
    intro f u hu hf
    refine ⟨hk.trans hu, fun e' he' => ?_⟩
    -- the alignment of a part divides that of the member, so moving the member keeps it
    exact hnat.align_dvd_wrapped hu he' ((hnat.align_dvd hu he he').trans ho) (hf e' he')
  cases hs : p.types.struct? (p.types.stripArrays m) with
  | none =>
    refine ⟨[m], .plain hs .nil, ?_⟩
    rw [partOf_of_not_struct (by simp [TypeTable.isStruct, hs])]
    refine .cons (hshift _ m .refl ?_) .nil
    exact fun _ _ => Nat.dvd_zero _
  | some s =>
    obtain ⟨r, hr, _⟩ := hpart.record hc hd rfl hs
    obtain ⟨inside, hinside, hfields⟩ := hrec r hr (by simp [TypeTable.isStruct, hs])
    refine ⟨inside, hinside.of_stripArrays hs, ?_⟩
    rw [hc.partOf_eq hd rfl hs hr, List.forall₂_map_left_iff]
    refine hfields.imp fun f u hf => hshift f u ?_ hf.2
    exact (p.types.byValue_stripArrays m).trans hf.1

theorem forall₂_offsets {placed : StructLayout} {holds : Nat → Nat → Prop}
    (hs : p.types.struct? k = some s)
    (hlayout : p.dataLayout.structLayout p.types k = .ok (some placed))
    (h : ∀ (i m o : Nat), s.members[i]? = some m → placed.offsets[i]? = some o → holds m o) :
    List.Forall₂ holds s.members placed.offsets :=
  List.forall₂_iff_get.mpr ⟨(DataLayout.length_of_structLayout hs hlayout).symm,
    fun i hi ho => h i _ _ (List.getElem?_eq_getElem hi) (List.getElem?_eq_getElem ho)⟩

theorem isUnion_of_not_treatsAsUnion (h : c.treatsAsUnion s = false) : s.isUnion = false := by
  unfold treatsAsUnion at h
  exact (Bool.or_eq_false_iff.mp h).1

theorem Grounded.exists_leaves (hc : c.Grounded p) (hd : p.DistinctScopes)
    (hnat : p.dataLayout.Natural p.types k) (hexact : p.dataLayout.Exact p.types k)
    (hr : c.records[k]? = some r) :
    ∃ leaves, c.Leaves p [k] leaves ∧ List.Forall₂ (Aligned p k) r.fields leaves := by
  -- what a recorded struct holds ranks below it, and is recorded too
  obtain ⟨rank, hrank⟩ := hc.ranked
  induction hn : rank k using Nat.strong_induction_on generalizing k r with
  | _ n ih =>
    subst hn
    obtain ⟨s, hs, _⟩ := (hc.record k r hr).shape
    have hst := TypeTable.stripArrays_self hs
    have hs' : p.types.struct? (p.types.stripArrays k) = some s := by rwa [hst]
    by_cases hnil : s.members = []
    · have hinner : c.Leaves p s.members [] := by
        rw [hnil]
        exact .nil
      refine ⟨[], .struct hs' (.inr hnil) hinner .nil, ?_⟩
      rw [hc.fields_of_no_members hs hr hnil]
      exact .nil
    · have htab := hc.tabulates hs hr (hc.isOpaque_of_members hs hr hnil)
      cases hu : c.treatsAsUnion s with
      | true =>
        have hfields := congrArg FieldTable.fields (htab.overlaid hu hnil)
        have hself : c.Leaves p [k] [p.types.stripArrays k] := .union hs' hu hnil .nil
        rw [hst] at hself
        refine ⟨[k], hself, ?_⟩
        rw [show r.fields = _ from hfields]
        exact .cons ⟨.refl, fun _ _ => Nat.dvd_zero _⟩ .nil
      | false =>
        obtain ⟨placed, hlayout⟩ := htab.exists_layout hu
        have hfields := congrArg FieldTable.fields (htab.sequential hu hlayout)
        have hmembers : List.Forall₂ (fun m o => ∃ inside, c.Leaves p [m] inside ∧
            List.Forall₂ (Aligned p k) ((c.partOf p m).map (·.shifted o)) inside)
            s.members placed.offsets := by
          refine forall₂_offsets hs hlayout fun i m o hm ho => ?_
          have hmem : m ∈ s.members := List.mem_of_getElem? hm
          have hby : p.types.ByValue k m := .single (.member hs hmem)
          obtain ⟨e, he, hdvd⟩ := hnat.align_dvd_offset hexact hs (isUnion_of_not_treatsAsUnion hu)
            hlayout hm ho
          refine aligned_member hc hd (htab.parts m hmem) (hnat.inside hby) he hdvd hby ?_
          intro r' hr' hstruct
          obtain ⟨sub, hsub⟩ := TypeTable.struct_of_isStruct hstruct
          have hcan : c.canonical? p (p.types.stripArrays m) = some (p.types.stripArrays m) :=
            canonical?_eq_some.mpr ⟨sub, hsub, hc.standIn_self hd hsub⟩
          have hinside := hby.trans (p.types.byValue_stripArrays m)
          exact ih _ (hrank k _ (mem_records_iff.mpr ⟨r, hr⟩) ⟨s, m, hs, hmem, hcan⟩)
            (hnat.inside hinside) (hexact.inside hinside) hr' rfl
        obtain ⟨leaves, hleaves, hall⟩ := leaves_sequential hmembers
        refine ⟨leaves, ?_, ?_⟩
        · have hself : c.Leaves p [k] (leaves ++ []) := .struct hs' (.inl hu) hleaves .nil
          rwa [List.append_nil] at hself
        · rw [show r.fields = _ from hfields]
          exact hall

/-- Where sizes are exact, a size is a multiple of the alignment and members are placed by
their own alignments, in a union at its start. If these are powers of
two that no struct ignores, the fields of a record are aligned too, after any requests. -/
theorem layout_respects_alignment (p : Program) (hregular : p.dataLayout.Regular) {t : Nat}
    {e : Extent} (hexact : p.dataLayout.Exact p.types t)
    (he : p.dataLayout.extent p.types t = .ok (some e)) :
    1 ≤ e.align ∧ e.align ∣ e.size ∧
    (∀ s, p.types.struct? t = some s → ∃ placed extents,
      p.dataLayout.structLayout p.types t = .ok (some placed) ∧
      e = ⟨placed.size, placed.align⟩ ∧
      List.Forall₂ (fun m e => p.dataLayout.extent p.types m = .ok (some e)) s.members extents ∧
      (s.isUnion = false → placed.InOrder (fun e => if s.packed then 1 else e.align) extents) ∧
      (s.isUnion = true → placed.Overlapped extents)) ∧
    ∀ unionName requests r, p.DistinctScopes → p.dataLayout.Natural p.types t →
      (after { unionName := unionName } p requests).record? p t = some r →
      ∃ leaves, (after { unionName := unionName } p requests).Leaves p [t] leaves ∧
        List.Forall₂ (fun f u => ∃ e, p.dataLayout.extent p.types u = .ok (some e) ∧
          e.align ∣ f.offset) r.fields leaves := by
  refine ⟨hregular.align_pos he, hregular.align_dvd_size hexact he, ?_, ?_⟩
  · intro s hs
    obtain ⟨placed, extents, hlayout, hextent, hall, hplace⟩ :=
      DataLayout.exists_structLayout hs he
    obtain rfl := hexact.place_eq hs hall hplace
    have hpos : ∀ e ∈ extents, 1 ≤ e.align := by
      intro e he
      obtain ⟨m, _, hm⟩ := DataLayout.exists_mem_of_forall₂ hall he
      exact hregular.align_pos hm
    exact ⟨_, extents, hlayout, hextent, hall,
      fun hu => StructLayout.ofMembers_inOrder hu hpos, StructLayout.ofMembers_overlapped⟩
  · intro unionName requests r hd hnat hr
    have hc := (after_coherent p unionName requests).grounded
    rw [hc.record?_eq hd] at hr
    obtain ⟨leaves, hleaves, hfields⟩ := hc.exists_leaves hd hnat hexact hr
    refine ⟨leaves, hleaves, hfields.imp fun f u hf => ?_⟩
    obtain ⟨e', he'⟩ := DataLayout.extent_byValue he hf.1
    exact ⟨e', he', hf.2 e' he'⟩

/-- An integer of three bytes inside an array of structs, and a union with a long float. -/
def spaced : Program where
  types := {
    entries := #[
      .integer 8,
      .integer 24,
      .float 80,
      .struct ⟨some "inner", some [0, 1], false, false⟩,
      .array 3 2,
      .struct ⟨some "either", some [2, 0], false, true⟩,
      .struct ⟨some "outer", some [0, 4, 5, 0], false, false⟩] }

theorem layout_respects_alignment_spaced : ∃ (r : FieldRecord) (leaves : List Nat),
    (after { unionName := "union." } spaced [.layout 6]).record? spaced 6 = some r ∧
      spaced.dataLayout.extent spaced.types 6 = .ok (some ⟨64, 16⟩) ∧ 16 ∣ 64 ∧
      r.fields.map Field.offset = [0, 4, 8, 32, 48] ∧
      (after { unionName := "union." } spaced [.layout 6]).Leaves spaced [6] leaves ∧
      List.Forall₂ (fun f u => ∃ e, spaced.dataLayout.extent spaced.types u = .ok (some e) ∧
        e.align ∣ f.offset) r.fields leaves := by
  have hrecord : ((after { unionName := "union." } spaced [.layout 6]).record? spaced 6).any
      (fun r => r.fields.map Field.offset == [0, 4, 8, 32, 48]) = true := by
    decide +kernel
  obtain ⟨r, hr, hoffsets⟩ := (Option.any_eq_true _ _).mp hrecord
  have hd : spaced.DistinctScopes := by decide +kernel
  have hsolid : spaced.Solid 6 := Program.solid_of_isFilled (by decide +kernel) 6
  have hnat : spaced.dataLayout.Natural spaced.types 6 :=
    DataLayout.natural_of_isNatural (by decide +kernel) 6
  have he : spaced.dataLayout.extent spaced.types 6 = .ok (some ⟨64, 16⟩) := by decide +kernel
  obtain ⟨_, hdvd, _, hfields⟩ := layout_respects_alignment spaced (by decide)
    (DataLayout.exact_of_solid hsolid) he
  obtain ⟨leaves, hleaves, haligned⟩ := hfields "union." [.layout 6] r hd hnat hr
  exact ⟨r, leaves, hr, he, hdvd, by simpa using hoffsets, hleaves, haligned⟩

end Catalog

end AbstractMemory
