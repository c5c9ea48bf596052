import AbstractMemory.Proofs.Embedding
import Mathlib

/-! New entries of a catalog. A struct with a body is registered for its scope
name, and a finished record is kept under the struct it is about. -/

namespace AbstractMemory

namespace Catalog

theorem getElem?_insert_scope {scopes : Std.TreeMap String Nat} {n a : String} {t : Nat} :
    (scopes.insertIfNew n t)[a]? = if n = a ∧ n ∉ scopes then some t else scopes[a]? := by
  simp only [Std.TreeMap.getElem?_insertIfNew, Std.LawfulEqCmp.compare_eq_iff_eq]

theorem standIn_cases (c : Catalog) (s : StructType) (t : Nat) :
    c.standIn s t = t ∨ ∃ n : String, c.scopes[n]? = some (c.standIn s t) := by
  unfold standIn
  cases hu : s.name.bind fun name => c.scopes[scopeName name]? with
  | none => exact .inl rfl
  | some u =>
    obtain ⟨name, _, hscope⟩ := Option.bind_eq_some_iff.mp hu
    exact .inr ⟨scopeName name, hscope⟩

theorem register_grows (c : Catalog) (s : StructType) (t : Nat) : c.Grows (c.register s t) := by
  unfold register
  split
  · refine ⟨rfl, ?_, (Grows.refl c).records⟩
    intro n u hu
    have hm : n ∈ c.scopes := by
      rw [← Std.TreeMap.isSome_getElem?_iff_mem, hu]
      rfl
    rw [getElem?_insert_scope, if_neg (fun h => h.2 (h.1 ▸ hm))]
    exact hu
  · exact Grows.refl c

theorem register_records (c : Catalog) (s : StructType) (t : Nat) :
    (c.register s t).records = c.records := by
  unfold register
  split <;> rfl

theorem register_scope {c : Catalog} {p : Program} {s : StructType} {t : Nat}
    (hs : p.types.struct? t = some s) {n : String} {u : Nat}
    (h : (c.register s t).scopes[n]? = some u) : c.scopes[n]? = some u ∨ ScopeOf p n u := by
  unfold register at h
  split at h
  · rename_i name body hn hb
    rw [getElem?_insert_scope] at h
    split at h
    · rename_i hnew
      obtain rfl := Option.some.inj h
      exact .inr ⟨s, name, hs, hn, hnew.1, by simp [hb]⟩
    · exact .inl h
  · exact .inl h

theorem mem_register_scopes {c : Catalog} {s : StructType} {t : Nat} {name : String}
    {members : List Nat} (hn : s.name = some name) (hb : s.body = some members) :
    scopeName name ∈ (c.register s t).scopes := by
  simp [register, hn, hb, Std.TreeMap.mem_insertIfNew]

theorem register_coherent {c : Catalog} {p : Program} {s : StructType} {t : Nat}
    (hc : c.Coherent p) (hs : p.types.struct? t = some s) : (c.register s t).Coherent p := by
  have hg := register_grows c s t
  have hrec := register_records c s t
  refine ⟨hc.grounded.of_grows hg ?_ ?_ ?_, hc.linked.of_grows hc.grounded hg ?_ ?_⟩
  · exact fun n u h => register_scope hs h
  · exact fun k r hk => .inl (mem_records_iff.mpr ⟨r, hrec ▸ hk⟩)
  · exact fun k hk hn => absurd (hrec ▸ hk) hn
  · exact fun a b o he => .inl (by simpa only [Edge, hrec] using he)
  · exact fun k hk hn => absurd (hrec ▸ hk) hn

theorem standIn_register {c : Catalog} {p : Program} (hc : c.Grounded p) {s shape : StructType}
    {t : Nat} {members : List Nat} (hs : p.types.struct? t = some s)
    (hk : p.types.struct? ((c.register s t).standIn s t) = some shape)
    (hb : shape.body = some members) :
    (c.register s t).Settled s ∧ (c.register s t).Settled shape ∧
      (c.register s t).standIn shape ((c.register s t).standIn s t) =
        (c.register s t).standIn s t := by
  cases hn : s.name with
  | none =>
    have hself : (c.register s t).standIn s t = t := by simp [standIn, hn]
    rw [hself] at hk ⊢
    obtain rfl : s = shape := Option.some.inj (hs.symm.trans hk)
    have hset : (c.register s t).Settled s := fun name hname => by simp [hn] at hname
    exact ⟨hset, hset, hself⟩
  | some name =>
    cases hu : (c.register s t).scopes[scopeName name]? with
    | none =>
      -- only a struct without a body is left unregistered, and it stands for itself
      have hself : (c.register s t).standIn s t = t := by simp [standIn, hn, hu]
      rw [hself] at hk
      obtain rfl : s = shape := Option.some.inj (hs.symm.trans hk)
      have hm := mem_register_scopes (c := c) (t := t) hn hb
      rw [← Std.TreeMap.isSome_getElem?_iff_mem, hu] at hm
      cases hm
    | some u =>
      have hself : (c.register s t).standIn s t = u := by simp [standIn, hn, hu]
      rw [hself] at hk ⊢
      obtain ⟨s', name', hs', hn', hscope, _⟩ :=
        (register_scope hs hu).elim (hc.scope (scopeName name) u) id
      obtain rfl : s' = shape := Option.some.inj (hs'.symm.trans hk)
      have hu' : (c.register s t).scopes[scopeName name']? = some u := hscope ▸ hu
      refine ⟨?_, ?_, by simp [standIn, hn', hu']⟩
      · intro name'' hname
        obtain rfl : name = name'' := Option.some.inj (hn.symm.trans hname)
        rw [← Std.TreeMap.isSome_getElem?_iff_mem, hu]
        rfl
      · intro name'' hname
        obtain rfl : name' = name'' := Option.some.inj (hn'.symm.trans hname)
        rw [← Std.TreeMap.isSome_getElem?_iff_mem, hu']
        rfl

/-- The catalog `c'` is `c` with one more record, of a struct that had none. -/
structure Gains (c c' : Catalog) (k : Nat) (r : FieldRecord) : Prop where
  unionName : c'.unionName = c.unionName
  scopes : c'.scopes = c.scopes
  records : c'.records = c.records.insert k r
  new : k ∉ c.records

theorem Gains.getElem? {c c' : Catalog} {k : Nat} {r : FieldRecord} (h : c.Gains c' k r) (a : Nat) :
    c'.records[a]? = if k = a then some r else c.records[a]? := by
  rw [h.records, getElem?_insert_record]

theorem Gains.mem {c c' : Catalog} {k : Nat} {r : FieldRecord} (h : c.Gains c' k r) :
    k ∈ c'.records :=
  mem_records_iff.mpr ⟨r, by simp [h.getElem?]⟩

theorem Gains.grows {c c' : Catalog} {k : Nat} {r : FieldRecord} (h : c.Gains c' k r) :
    c.Grows c' := by
  refine ⟨h.unionName, fun n t hn => h.scopes ▸ hn, ?_⟩
  intro a r' ha
  have hne : k ≠ a := fun he => h.new (he ▸ mem_records_iff.mpr ⟨r', ha⟩)
  exact ⟨r'.containers, by simpa [h.getElem?, hne] using ha, List.Subset.refl _⟩

theorem Gains.eq_of_not_mem {c c' : Catalog} {k : Nat} {r : FieldRecord} (h : c.Gains c' k r)
    {a : Nat} (ha : a ∈ c'.records) (hn : a ∉ c.records) : a = k := by
  by_contra hne
  obtain ⟨r', hr'⟩ := mem_records_iff.mp ha
  rw [h.getElem?, if_neg (fun he => hne he.symm)] at hr'
  exact hn (mem_records_iff.mpr ⟨r', hr'⟩)

theorem Gains.coherent {c c' : Catalog} {p : Program} {k : Nat} {r : FieldRecord}
    (h : c.Gains c' k r) (hc : c.Coherent p) (hr : r.containers = [])
    (hd : c'.Describes p k r) (hrest : ∀ b, c'.Has p k b → b ∈ c.records)
    (hcov : ∀ b sum, Embedded (c'.Holds p) k b sum →
      ∃ o, p.dataLayout.overflow.count sum = .ok o ∧ c'.Edge k b o) : c'.Coherent p := by
  refine ⟨hc.grounded.of_grows h.grows ?_ ?_ ?_, hc.linked.of_grows hc.grounded h.grows ?_ ?_⟩
  · exact fun n t hn => .inl (h.scopes ▸ hn)
  · intro a r' ha
    rw [h.getElem?] at ha
    split at ha
    · rename_i he
      subst he
      obtain rfl := Option.some.inj ha
      exact .inr hd
    · exact .inl (mem_records_iff.mpr ⟨r', ha⟩)
  · intro a ha hn
    obtain rfl := h.eq_of_not_mem ha hn
    exact hrest
  · rintro a b o ⟨r', hr', hm⟩
    rw [h.getElem?] at hr'
    split at hr'
    · obtain rfl := Option.some.inj hr'
      simp [hr] at hm
    · exact .inl ⟨r', hr', hm⟩
  · intro a ha hn
    obtain rfl := h.eq_of_not_mem ha hn
    exact hcov

end Catalog

end AbstractMemory
