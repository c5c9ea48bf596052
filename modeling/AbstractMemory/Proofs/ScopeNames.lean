import AbstractMemory.Program.Types
import AbstractMemory.Record.ScopeName
import Mathlib

/-! Names with numbers appended. A number more does not change the scope name,
and whether a name is anonymous can be told from its scope name. -/

namespace AbstractMemory

theorem isAnonymous_iff {name : String} : isAnonymous name = true ↔
    "struct.anon".toList <+: name.toList ∨ "union.anon".toList <+: name.toList := by
  simp only [isAnonymous, Bool.or_eq_true, String.startsWith_string_iff]

theorem isAnonymous_append {name : String} (h : isAnonymous name = true) (rest : String) :
    isAnonymous (name ++ rest) = true := by
  rw [isAnonymous_iff, String.toList_append]
  exact (isAnonymous_iff.mp h).imp (·.trans (List.prefix_append _ _))
    (·.trans (List.prefix_append _ _))

/-- A beginning that ends in a character which is not in `tail` does not reach
into it. -/
theorem begins_of_begins_append {start l tail : List Char} (h : start <+: l ++ tail)
    (hlast : ∀ c ∈ start.getLast?, c ∉ tail) : start <+: l := by
  rcases List.prefix_or_prefix_of_prefix h (List.prefix_append l tail) with hle | ⟨rest, rfl⟩
  · exact hle
  · have hrest : rest <+: tail := (List.prefix_append_right_inj l).mp h
    cases hc : rest.getLast? with
    | none => simp [List.getLast?_eq_none_iff.mp hc]
    | some c =>
      have hmem := hrest.subset (List.mem_of_getLast? hc)
      exact (hlast c (by simp [List.getLast?_append, hc]) hmem).elim

theorem isDecimalDigit_of_isDigit {c : Char} (h : c.isDigit = true) : isDecimalDigit c = true := by
  simp only [Char.isDigit, Bool.and_eq_true, decide_eq_true_eq, ge_iff_le,
    UInt32.le_iff_toNat_le] at h
  refine List.any_eq_true.mpr ⟨0x0030, by simp [decimalZeros], ?_⟩
  have hlow : 48 ≤ c.toNat := h.1
  have hhigh : c.toNat ≤ 57 := h.2
  simp only [decide_eq_true_eq]
  omega

/-- A text of one or more decimal digits. -/
structure IsNumber (digits : String) : Prop where
  nonempty : digits ≠ ""
  digit : ∀ c ∈ digits.toList, isDecimalDigit c = true

theorem isNumber_toString (k : Nat) : IsNumber (toString k) := by
  rw [Nat.toString_eq_ofList_toDigits]
  constructor
  · intro h
    have hnil := congrArg String.toList h
    simp at hnil
  · intro c hc
    rw [String.toList_ofList] at hc
    exact isDecimalDigit_of_isDigit (Nat.isDigit_of_mem_toDigits (by omega) (by omega) hc)

theorem isAnonymous_numbered {name digits : String} (h : IsNumber digits) :
    isAnonymous (name ++ "." ++ digits) = isAnonymous name := by
  rw [Bool.eq_iff_iff]
  constructor
  · intro ha
    have hn : 'n' ∉ ".".toList ++ digits.toList := by
      intro hmem
      rcases List.mem_append.mp hmem with hdot | hdigit
      · simp at hdot
      · exact absurd (h.digit 'n' hdigit) (by decide +kernel)
    rw [isAnonymous_iff, String.append_assoc, String.toList_append, String.toList_append] at ha
    refine isAnonymous_iff.mpr (ha.imp ?_ ?_)
    · exact fun hstart => begins_of_begins_append hstart (by simpa using hn)
    · exact fun hstart => begins_of_begins_append hstart (by simpa using hn)
  · intro ha
    rw [String.append_assoc]
    exact isAnonymous_append ha _

/-- Written backwards, a name starts with its digits, then the dot. -/
theorem dropNumbers_digits {digits rest : List Char} (hne : digits ≠ [])
    (hdigits : ∀ c ∈ digits, isDecimalDigit c = true) :
    dropNumbers (digits ++ '.' :: rest) = dropNumbers rest := by
  have hdot : ¬ isDecimalDigit '.' = true := by decide +kernel
  have hdrop : (digits ++ '.' :: rest).dropWhile isDecimalDigit = '.' :: rest := by
    rw [List.dropWhile_append_of_pos hdigits, List.dropWhile_cons_of_neg hdot]
  have htake : (digits ++ '.' :: rest).takeWhile isDecimalDigit ≠ [] := by
    rw [List.takeWhile_append_of_pos hdigits]
    simp [hne]
  rw [dropNumbers]
  split
  · rename_i rest' hrest
    obtain rfl : rest = rest' := by simpa [hdrop] using hrest
    rw [if_neg htake]
  · rename_i hno
    exact (hno rest hdrop).elim

theorem exists_append_dropNumbers (cs : List Char) :
    ∃ dropped, dropped ++ dropNumbers cs = cs := by
  fun_induction dropNumbers cs with
  | case1 => exact ⟨[], rfl⟩
  | case2 cs rest h _ ih =>
    obtain ⟨dropped, hrest⟩ := ih
    refine ⟨cs.takeWhile isDecimalDigit ++ '.' :: dropped, ?_⟩
    rw [List.append_assoc, List.cons_append, hrest, ← h, List.takeWhile_append_dropWhile]
  | case3 => exact ⟨[], rfl⟩

theorem dropNumbers_dropNumbers (cs : List Char) :
    dropNumbers (dropNumbers cs) = dropNumbers cs := by
  fun_induction dropNumbers cs with
  | case1 cs rest h hnone =>
    rw [dropNumbers]
    split
    · rw [if_pos hnone]
    · rfl
  | case2 cs rest h hsome ih => exact ih
  | case3 cs hno =>
    rw [dropNumbers]
    split
    · rename_i rest h
      exact (hno rest h).elim
    · rfl

theorem exists_scopeName_append (name : String) :
    ∃ dropped, name = scopeName name ++ dropped := by
  unfold scopeName
  split
  · exact ⟨"", by simp⟩
  · obtain ⟨dropped, h⟩ := exists_append_dropNumbers name.toList.reverse
    refine ⟨String.ofList dropped.reverse, ?_⟩
    rw [← String.ofList_append, ← List.reverse_append, h, List.reverse_reverse,
      String.ofList_toList]

theorem isAnonymous_scopeName (name : String) :
    isAnonymous (scopeName name) = isAnonymous name := by
  cases h : isAnonymous name with
  | true => simp [scopeName, h]
  | false =>
    obtain ⟨dropped, hname⟩ := exists_scopeName_append name
    rw [Bool.eq_false_iff]
    intro ha
    rw [hname, isAnonymous_append ha dropped] at h
    cases h

theorem scopeName_scopeName (name : String) : scopeName (scopeName name) = scopeName name := by
  cases h : isAnonymous name with
  | true => simp [scopeName, h]
  | false =>
    have hscope := isAnonymous_scopeName name
    rw [h] at hscope
    conv_lhs => rw [scopeName, hscope]
    simp only [Bool.false_eq_true, if_false]
    simp only [scopeName, h, Bool.false_eq_true, if_false, String.toList_ofList,
      List.reverse_reverse, dropNumbers_dropNumbers]

theorem scopeName_numbered {name digits : String} (ha : isAnonymous name = false)
    (h : IsNumber digits) : scopeName (name ++ "." ++ digits) = scopeName name := by
  have hlist : (name ++ "." ++ digits).toList.reverse =
      digits.toList.reverse ++ '.' :: name.toList.reverse := by
    simp [String.toList_append]
  have hne : digits.toList.reverse ≠ [] := by
    simpa using h.nonempty
  have hdigits : ∀ c ∈ digits.toList.reverse, isDecimalDigit c = true :=
    fun c hc => h.digit c (List.mem_reverse.mp hc)
  simp only [scopeName, isAnonymous_numbered h, ha, Bool.false_eq_true, if_false, hlist,
    dropNumbers_digits hne hdigits]

/-- Of two different names with one scope name, neither is anonymous. -/
theorem not_isAnonymous_of_scopeName_eq {name name' : String} (hne : name ≠ name')
    (h : scopeName name = scopeName name') : isAnonymous name = false := by
  rw [Bool.eq_false_iff]
  intro ha
  have ha' : isAnonymous name' = true := by
    rw [← isAnonymous_scopeName, ← h, isAnonymous_scopeName, ha]
  exact hne (by simpa [scopeName, ha, ha'] using h)

namespace TypeTable

theorem isAnonymous_suffixed (name : String) (k : Nat) :
    isAnonymous (suffixed name k) = isAnonymous name :=
  isAnonymous_numbered (isNumber_toString k)

theorem scopeName_suffixed {name : String} (ha : isAnonymous name = false) (k : Nat) :
    scopeName (suffixed name k) = scopeName name :=
  scopeName_numbered ha (isNumber_toString k)

theorem suffixed_injective (name : String) : Function.Injective (suffixed name) := by
  intro j k h
  have hdigits : Nat.toDigits 10 j = Nat.toDigits 10 k := by
    have hlists := congrArg String.toList h
    simpa [suffixed, Nat.toString_eq_ofList_toDigits] using hlists
  rw [← Nat.ofDigitChars_ten_toDigits (n := j), hdigits, Nat.ofDigitChars_ten_toDigits]

end TypeTable

end AbstractMemory
