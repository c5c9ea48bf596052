import AbstractMemory.Proofs.Coherence
import Mathlib

/-! In a grounded catalog a record has the table of its struct, whatever the
order in which the records were made. -/

namespace AbstractMemory

namespace Catalog

theorem mapM_eq_some_map {α β : Type} {f : α → Option β} {g : α → β} {l : List α}
    (h : ∀ a ∈ l, f a = some (g a)) : l.mapM f = some (l.map g) := by
  induction l with
  | nil => rfl
  | cons a rest ih =>
    simp [List.mapM_cons, h a (by simp), ih fun b hb => h b (by simp [hb])]

theorem tableFrom_eq_tableOver {c : Catalog} {p : Program} {path : List Nat} {t : Nat}
    {s : StructType} {members : List Nat} (hs : p.types.struct? t = some s)
    (hb : s.body = some members) (hp : t ∉ path)
    (hsub : ∀ m ∈ members, ∀ sub, c.canonical? p (p.types.stripArrays m) = some sub →
      ∃ r, c.records[sub]? = some r ∧ c.tableFrom p (t :: path) sub = some r.table) :
    c.tableFrom p path t = c.tableOver p t s members (members.map (c.partOf p)) := by
  rw [tableFrom]
  split
  · rename_i s' hget
    rw [TypeTable.get?_of_struct? hs] at hget
    obtain rfl : s = s' := by simpa using hget
    simp only [hp, dif_neg, not_false_eq_true, hb]
    rw [mapM_eq_some_map (g := c.partOf p), Option.bind_some]
    intro m hm
    cases hcan : c.canonical? p (p.types.stripArrays m) with
    | none => simp [partOf, hcan]
    | some sub =>
      obtain ⟨r, hr, ht⟩ := hsub m hm sub hcan
      simp [partOf, hcan, hr, ht, FieldRecord.table]
  · rename_i hno
    exact (hno s (TypeTable.get?_of_struct? hs)).elim

theorem Grounded.tableFrom_eq {c : Catalog} {p : Program} (hc : c.Grounded p) {rank : Nat → Nat}
    (hrank : ∀ a b, a ∈ c.records → c.Has p a b → rank b < rank a) {k : Nat} {r : FieldRecord}
    {path : List Nat} (hr : c.records[k]? = some r) (ho : r.isOpaque = false)
    (hpath : ∀ x ∈ path, rank k < rank x) : c.tableFrom p path k = some r.table := by
  induction hn : rank k using Nat.strong_induction_on generalizing k r path with
  | _ n ih =>
    subst hn
    obtain ⟨s, hs, _⟩ := (hc.record k r hr).shape
    obtain ⟨members, hb⟩ := hc.exists_body hs hr ho
    have htab := hc.tabulates hs hr ho
    rw [StructType.members, hb, Option.getD_some] at htab
    have hk : k ∈ c.records := mem_records_iff.mpr ⟨r, hr⟩
    rw [tableFrom_eq_tableOver hs hb (fun hm => Nat.lt_irrefl _ (hpath k hm))]
    · exact htab.table
    · intro m hm sub hcan
      obtain ⟨s', hs', rfl⟩ := canonical?_eq_some.mp hcan
      obtain ⟨_, r', hr', ho'⟩ := htab.parts m hm s' hs'
      have hlt : rank (c.standIn s' (p.types.stripArrays m)) < rank k :=
        hrank k _ hk ⟨s, m, hs, by simpa [StructType.members, hb] using hm, hcan⟩
      refine ⟨r', hr', ih _ hlt hr' ho' ?_ rfl⟩
      intro x hx
      rcases List.mem_cons.mp hx with rfl | hx
      · exact hlt
      · exact hlt.trans (hpath x hx)

theorem Grounded.table?_eq {c : Catalog} {p : Program} (hc : c.Grounded p) {k : Nat}
    {r : FieldRecord} (hr : c.records[k]? = some r) (ho : r.isOpaque = false) :
    c.table? p k = some r.table := by
  obtain ⟨rank, hrank⟩ := hc.ranked
  exact hc.tableFrom_eq hrank hr ho (by simp)

end Catalog

end AbstractMemory
