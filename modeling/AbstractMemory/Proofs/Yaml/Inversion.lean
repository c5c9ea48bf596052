import AbstractMemory.Proofs.Yaml.Nodes
import AbstractMemory.Yaml.Format

/-! The format reads what it writes. The nodes of a tree give its data, whatever
its texts are. -/

namespace AbstractMemory.Yaml

open TextFormat

section Number

variable {n : Nat}

theorem toDigits_head (h : n ≠ 0) : (Nat.toDigits 10 n).head? ≠ some '0' := by
  induction n using Nat.strongRecOn with
  | ind n ih =>
    rw [Nat.toDigits_eq_if (by decide)]
    split
    · rename_i hlt
      have hdigit : ∀ d < 10, d ≠ 0 → Nat.digitChar d ≠ '0' := by decide
      simpa using hdigit n hlt h
    · have hdiv : n / 10 < n := Nat.div_lt_self (Nat.pos_of_ne_zero h) (by decide)
      obtain ⟨d, ds, hds⟩ := List.exists_cons_of_ne_nil (Nat.toDigits_ne_nil (n := n / 10) (b := 10))
      have hfirst := ih (n / 10) hdiv (by omega)
      rw [hds] at hfirst ⊢
      exact hfirst

/-- A number is written as digits, without a zero in front of others. -/
theorem toString_digits (n : Nat) :
    ∃ d ds, (toString n).toList = d :: ds ∧ (∀ c ∈ d :: ds, c.isDigit = true) ∧
      (d = '0' → ds = []) := by
  rw [toList_toString]
  obtain ⟨d, ds, hds⟩ := List.exists_cons_of_ne_nil (Nat.toDigits_ne_nil (n := n) (b := 10))
  refine ⟨d, ds, hds, fun c hc => ?_, ?_⟩
  · rw [← hds] at hc
    exact Nat.isDigit_of_mem_toDigits (by decide) (by decide) hc
  · rintro rfl
    by_cases hn : n = 0
    · subst hn
      exact (List.cons.inj hds).2.symm
    · exact absurd (by rw [hds]; rfl) (toDigits_head hn)

/-- A number below the bound is read as it was written. -/
theorem natural?_toString {bound : Nat} (h : n < bound) :
    natural? bound (toString n).toList = some n := by
  obtain ⟨d, ds, hds, hdigit, hzero⟩ := toString_digits n
  have hd := hdigit d List.mem_cons_self
  have hread : digits? 10 bound (toString n).toList = some n := by
    rw [digits?, toList_toString, if_neg (by simp [Nat.toDigits_ne_nil]), foldlM_toDigits (by decide)]
    · simp [h]
    · intro m d hd
      have hhex : ∀ d < 10, hexDigit? (Nat.digitChar d) = some d := by decide
      simp [hhex d hd, hd]
  have hne : ∀ c, c.isDigit = false → ∀ cs, d :: ds = c :: cs → False := by
    intro c hc cs heq
    rw [(List.cons.inj heq).1, hc] at hd
    cases hd
  have hplus : dropPlus (d :: ds) = d :: ds := by
    rw [dropPlus]
    exact hne '+' (by decide)
  have hsign : dropSign (d :: ds) = d :: ds := by
    rw [dropSign]
    · exact hne '+' (by decide)
    · exact hne '-' (by decide)
  rw [hds] at hread ⊢
  rw [natural?, hplus, isPadded, hsign]
  by_cases hz : d = '0'
  · obtain rfl := hzero hz
    subst hz
    exact hread
  · have hunmarked : marked? bound (d :: ds) = none := by
      rw [marked?]
      all_goals
        intro cs heq
        exact hz (List.cons.inj heq).1
    rw [hunmarked]
    simp [hz]
    exact hread

theorem isNull_toString (n : Nat) : isNull (toString n) = false := by
  obtain ⟨c, cs, hcs, hdigit, _⟩ := toString_digits n
  have hne : ∀ s : String, s.toList.all Char.isDigit = false → (toString n == s) = false := by
    intro s hs
    rw [beq_eq_false_iff_ne]
    rintro rfl
    rw [hcs, List.all_eq_true.mpr hdigit] at hs
    cases hs
  rw [isNull, hne "null" (by decide), hne "Null" (by decide), hne "NULL" (by decide),
    hne "~" (by decide)]
  rfl

end Number

/-! ### Asking nodes -/

section Asking

variable {α : Type} {a : α}

/-- A node that does not refer to another gives what it stands for. -/
theorem ask_eq_pure (view : Node → Option α) (n : Node)
    (hn : ∀ (d : Document) (left : Nat), d.follow n left = some (n, left))
    (h : view n = some a) : ask view n = pure a := by
  funext d
  simp only [ask, hn, h, Option.map_some]
  rfl

theorem ask_node (view : Node → Option α) (t : Tree) (h : view t.node = some a) :
    ask view t.node = pure a :=
  ask_eq_pure view t.node (fun _ _ => by cases t <;> rfl) h

theorem optionalNumber?_node (h : n < 0x100000000) :
    (Tree.number n).node.optionalNumber? = some (some n) := by
  have hempty : (toString n).isEmpty = false := by simp
  have hnumber : Scalar.number? { text := toString n, style := .plain } = some n :=
    natural?_toString h
  rw [Tree.node, Node.optionalNumber?, hempty, isNull_toString, hnumber]
  rfl

theorem bool?_node (b : Bool) : (Tree.bool b).node.bool? = some b := by
  cases b <;> rfl

end Asking

theorem reads_keys (entries : List (String × Tree)) :
    List.Forall₂ (fun node entry => format.asText node.1 = pure entry.1) (entryNodes entries)
      entries := by
  induction entries with
  | nil => exact .nil
  | cons entry rest ih =>
    refine .cons (ask_eq_pure Node.text? (.scalar { text := entry.1, style := .plain }) ?_ rfl) ih
    exact fun _ _ => rfl

mutual

/-- The node of a tree gives its data. -/
theorem reads_node (t : Tree) (ht : Writable IsSimpleKey t) : format.Reads t.node t :=
  match t with
  | .null => .null (ask_node Node.optionalNumber? .null rfl)
  | .bool b => .bool (ask_node Node.bool? (.bool b) (bool?_node b))
  | .number n => .number (ask_node Node.optionalNumber? (.number n) (optionalNumber?_node ht))
  | .text s => .text (ask_node Node.text? (.text s) rfl)
  | .list items => .list (ask_node Node.items? (.list items) rfl) (reads_items items ht)
  | .map entries =>
    .map (ask_node Node.entries? (.map entries) rfl) (reads_keys entries) (reads_values entries ht)

theorem reads_items (items : List Tree) (hitems : WritableItems IsSimpleKey items) :
    List.Forall₂ format.Reads (itemNodes items) items :=
  match items with
  | [] => .nil
  | item :: rest => .cons (reads_node item hitems.1) (reads_items rest hitems.2)

theorem reads_values (entries : List (String × Tree))
    (hentries : WritableEntries IsSimpleKey entries) :
    List.Forall₂ (fun node entry => format.Reads node.2 entry.2) (entryNodes entries) entries :=
  match entries with
  | [] => .nil
  | (_, value) :: rest =>
    .cons (reads_node value hentries.2.1) (reads_values rest hentries.2.2)

end

/-- The text of a map with simple keys is read as that map. -/
theorem format_inverts : format.Inverts IsSimpleKey := by
  intro entries hne hentries
  let d : Document := { root := some (Tree.map entries).node }
  refine ⟨(Tree.map entries).node, ⟨d, d.maxFollowed⟩, ?_, reads_node (.map entries) hentries⟩
  exact congrArg (Option.map _) (parse?_renderMap hne hentries)

end AbstractMemory.Yaml
