import AbstractMemory.Proofs.Yaml.Lines

/-! What is written of a tree: characters that are written as they are, and
lines that are ended. -/

namespace AbstractMemory.Yaml

theorem all_spaces (n : Nat) : (spaces n).all isPrintable = true := by
  induction n with
  | zero => rfl
  | succ n ih => rw [spaces_succ, List.all_cons, ih]; rfl

theorem all_margin (indented : Bool) (n : Nat) :
    (if indented then spaces n else []).all isPrintable = true := by
  cases indented
  · rfl
  · exact all_spaces n

theorem all_singleChars {cs : List Char} (h : cs.all isPrintable = true) (n : Nat)
    (afterBreak : Bool) : (singleChars n afterBreak cs).all isPrintable = true := by
  induction cs generalizing afterBreak with
  | nil => exact all_margin afterBreak n
  | cons c cs ih =>
    rw [List.all_cons, Bool.and_eq_true] at h
    have hchar : (if c == '\'' then ['\'', '\''] else [c]).all isPrintable = true := by
      split
      · rfl
      · simpa using h.1
    rw [singleChars]
    split
    · rw [List.all_cons, h.1, ih h.2]
      rfl
    · rw [List.all_append, List.all_append, all_margin, hchar, ih h.2]
      rfl

theorem all_doubleChars (cs : List Char) : (doubleChars cs).all isPrintable = true := by
  induction cs with
  | nil => rfl
  | cons c cs ih =>
    rw [doubleChars_cons, List.all_append, ih, Bool.and_true, List.all_eq_true]
    exact fun d hd => (printable_of_mem_doubleChar hd).1

theorem all_blockChars {cs : List Char} (h : cs.all isPrintable = true) (n : Nat)
    (afterBreak : Bool) : (blockChars n afterBreak cs).all isPrintable = true := by
  induction cs generalizing afterBreak with
  | nil => rfl
  | cons c cs ih =>
    rw [List.all_cons, Bool.and_eq_true] at h
    rw [blockChars]
    split
    · rw [List.all_cons, h.1, ih h.2]
      rfl
    · rw [List.all_append, List.all_cons, all_margin, h.1, ih h.2]
      rfl

theorem all_blockMarks (cs : List Char) : (blockMarks cs).all isPrintable = true := by
  rw [blockMarks_eq, List.all_append]
  cases isSpace (cs.headD 'x') || isBreak (cs.headD 'x') <;> cases chompingOf cs <;> rfl

/-- What is known of a text by the style it is written in. -/
theorem styleOf_cases (s : String) :
    (styleOf s = .plain ∧ isPlainSafe s.toList = true) ∨
      (styleOf s = .singleQuoted ∧ isSingleSafe s.toList = true ∧ '\n' ∉ s.toList) ∨
      styleOf s = .doubleQuoted ∨
      (styleOf s = .literal ∧ s.toList.all isPrintable = true ∧ '\n' ∈ s.toList) := by
  by_cases hfeed : s.toList.contains '\n' = true
  · by_cases hblock : isBlockSafe s.toList = true
    · have hstyle : styleOf s = .literal := by rw [styleOf, if_pos hfeed, if_pos hblock]
      simp only [isBlockSafe, Bool.and_eq_true] at hblock
      exact .inr (.inr (.inr ⟨hstyle, hblock.1.1, by simpa using hfeed⟩))
    · exact .inr (.inr (.inl (by rw [styleOf, if_pos hfeed, if_neg hblock])))
  · by_cases hplain : (!isAmbiguous s && isPlainSafe s.toList) = true
    · have hstyle : styleOf s = .plain := by rw [styleOf, if_neg hfeed, if_pos hplain]
      rw [Bool.and_eq_true] at hplain
      exact .inl ⟨hstyle, hplain.2⟩
    · by_cases hsingle : isSingleSafe s.toList = true
      · have hstyle : styleOf s = .singleQuoted := by
          rw [styleOf, if_neg hfeed, if_neg hplain, if_pos hsingle]
        exact .inr (.inl ⟨hstyle, hsingle, by simpa using hfeed⟩)
      · exact .inr (.inr (.inl (by rw [styleOf, if_neg hfeed, if_neg hplain, if_neg hsingle])))

theorem all_writeText (n : Nat) (s : String) : (writeText n s).all isPrintable = true := by
  rcases styleOf_cases s with ⟨hs, h⟩ | ⟨hs, h, _⟩ | hs | ⟨hs, h, _⟩
  · simp only [isPlainSafe, Bool.and_eq_true] at h
    simpa only [writeText, hs] using h.1.1.1.2
  · simp only [isSingleSafe, Bool.and_eq_true] at h
    simp only [writeText, hs, List.all_append, List.all_cons, all_singleChars h.1.1]
    rfl
  · simp only [writeText, hs, List.all_append, List.all_cons, all_doubleChars]
    rfl
  · simp only [writeText, hs, List.all_append, List.all_cons, all_blockMarks, all_blockChars h]
    rfl

theorem closing_append {cs ds : List Char} (h : ds ≠ []) : closing (cs ++ ds) = closing ds := by
  rw [closing, closing, List.getLast?_append, List.getLast?_eq_some_getLast h]
  rfl

theorem endLine_eq (cs : List Char) : endLine cs = cs ++ closing cs := by
  rw [endLine, closing]
  split
  · rw [List.append_nil]
  · rfl

theorem closing_eq {cs : List Char} {c : Char} (h : isBreak c = false) :
    closing (cs ++ [c]) = ['\n'] := by
  rw [closing, List.getLast?_append]
  simp [h]

theorem blockChars_ne_nil {cs : List Char} (h : cs ≠ []) (n : Nat) (afterBreak : Bool) :
    blockChars n afterBreak cs ≠ [] := by
  obtain ⟨c, ds, rfl⟩ := List.exists_cons_of_ne_nil h
  rw [blockChars]
  split <;> simp

theorem closing_blockChars {cs : List Char} (h : cs ≠ []) (n : Nat) (afterBreak : Bool) :
    closing (blockChars n afterBreak cs) = closing cs := by
  induction cs generalizing afterBreak with
  | nil => exact absurd rfl h
  | cons c ds ih =>
    rw [blockChars]
    by_cases hds : ds = []
    · subst hds
      split
      · rfl
      · exact closing_append (List.cons_ne_nil _ _)
    · have hnext : closing (c :: ds) = closing ds := by
        rw [← List.singleton_append, closing_append hds]
      split
      · rw [← List.singleton_append, closing_append (blockChars_ne_nil hds _ _), ih hds, hnext]
      · rw [List.append_cons, closing_append (blockChars_ne_nil hds _ _), ih hds, hnext]

section Line

variable {s : String} {n : Nat}

theorem line_plain (hs : styleOf s = .plain) (h : isPlainSafe s.toList = true) (tail : List Char) :
    endLine (' ' :: writeText n s) ++ tail = ' ' :: (s.toList ++ '\n' :: tail) := by
  have hwrite : writeText n s = s.toList := by rw [writeText, hs]
  rw [hwrite, endLine_eq]
  rcases List.eq_nil_or_concat s.toList with hnil | ⟨ds, c, hcs⟩
  · rw [hnil] at h
    exact absurd h (by decide)
  · rw [List.concat_eq_append] at hcs
    rw [hcs] at h ⊢
    rw [← List.cons_append, closing_eq (isBreak_of_safe h c (by simp))]
    simp

theorem line_single (hs : styleOf s = .singleQuoted) (tail : List Char) :
    endLine (' ' :: writeText n s) ++ tail =
      ' ' :: '\'' :: (singleChars (n + 2) false s.toList ++ '\'' :: '\n' :: tail) := by
  have hwrite : writeText n s = '\'' :: singleChars (n + 2) false s.toList ++ ['\''] := by
    rw [writeText, hs]
    rfl
  rw [hwrite, endLine_eq, ← List.cons_append, closing_eq (by decide)]
  simp

theorem line_double (hs : styleOf s = .doubleQuoted) (tail : List Char) :
    endLine (' ' :: writeText n s) ++ tail =
      ' ' :: '"' :: (doubleChars s.toList ++ '"' :: '\n' :: tail) := by
  have hwrite : writeText n s = '"' :: doubleChars s.toList ++ ['"'] := by rw [writeText, hs]
  rw [hwrite, endLine_eq, ← List.cons_append, closing_eq (by decide)]
  simp

theorem line_literal (hs : styleOf s = .literal) (h : s.toList ≠ []) (tail : List Char) :
    endLine (' ' :: writeText n s) ++ tail =
      ' ' :: '|' :: (blockMarks s.toList ++
        '\n' :: (blockChars (n + 2) true s.toList ++ (closing s.toList ++ tail))) := by
  have hwrite : writeText n s =
      '|' :: blockMarks s.toList ++ ['\n'] ++ blockChars (n + 2) true s.toList := by
    rw [writeText, hs]
    simp [indentStep]
  rw [hwrite, endLine_eq, ← List.cons_append, closing_append (blockChars_ne_nil h _ _),
    closing_blockChars h]
  simp

end Line

theorem all_closing (cs : List Char) : (closing cs).all isPrintable = true := by
  rw [closing]
  split <;> rfl

section Number

/-- What a digit is not. -/
theorem digitChar_plain :
    ∀ d < 10, isPrintable (Nat.digitChar d) = true ∧ isBreak (Nat.digitChar d) = false ∧
      Nat.digitChar d ∉ " -.?:#,[]\x7b\x7d&*!|>'\"%@`".toList := by
  decide

theorem toList_toString (n : Nat) : (toString n).toList = Nat.toDigits 10 n := by
  rw [Nat.toString_eq_ofList_toDigits, String.toList_ofList]

theorem hasInnerMark_eq_false {cs : List Char} (h : ∀ c ∈ cs, c ≠ ':' ∧ c ≠ '#') :
    hasInnerMark cs = false := by
  induction cs with
  | nil => rfl
  | cons a cs ih =>
    cases cs with
    | nil => rfl
    | cons b cs =>
      obtain ⟨hcolon, hhash⟩ := h b (by simp)
      rw [hasInnerMark, ih fun c hc => h c (List.mem_cons_of_mem _ hc), isInnerMark]
      simp [hcolon, hhash]

/-- A text of characters that are no marks is safe as a plain scalar. -/
theorem isPlainSafe_of_unmarked {cs : List Char} (hne : cs ≠ [])
    (h : ∀ c ∈ cs, isPrintable c = true ∧ isBreak c = false ∧
      c ∉ " -.?:#,[]\x7b\x7d&*!|>'\"%@`".toList) : isPlainSafe cs = true := by
  have hsp : ∀ c ∈ cs, isSpace c = false := fun c hc => by
    have hmark := (h c hc).2.2
    simp at hmark
    simpa [isSpace] using hmark.1
  have hinner : hasInnerMark cs = false := by
    apply hasInnerMark_eq_false
    intro c hc
    have hmark := (h c hc).2.2
    simp at hmark
    exact ⟨hmark.2.2.2.2.1, hmark.2.2.2.2.2.1⟩
  obtain ⟨c, ds, rfl⟩ := List.exists_cons_of_ne_nil hne
  have hmark := (h c List.mem_cons_self).2.2
  simp at hmark
  have hlast : isSpace ((c :: ds).getLastD 'x') = false := by
    rw [List.getLastD_eq_getLast?, List.getLast?_eq_some_getLast hne]
    exact hsp _ (List.getLast_mem hne)
  have hlead : hasMark (c :: ds) = false := by
    simp [hasMark, isLeadingMark, hinner, hmark]
  have hall : (c :: ds).all isPrintable = true :=
    List.all_eq_true.mpr fun d hd => (h d hd).1
  have hbreak : (c :: ds).any isBreak = false :=
    List.any_eq_false.mpr fun d hd => by simp [(h d hd).2.1]
  rw [isPlainSafe, hlead, hall, hbreak, hlast, List.headD_cons, hsp c List.mem_cons_self]
  rfl

theorem isPlainSafe_number (n : Nat) : isPlainSafe (toString n).toList = true := by
  rw [toList_toString]
  apply isPlainSafe_of_unmarked Nat.toDigits_ne_nil
  intro c hc
  obtain ⟨d, hd, rfl⟩ := exists_digit_of_mem_toDigits (by decide) hc
  exact digitChar_plain d hd

end Number

theorem writeTree_list {items : List Tree} (h : items ≠ []) (n : Nat) (inMap : Bool) :
    writeTree n inMap (.list items) =
      if inMap then '\n' :: writeItems n true items
      else ' ' :: writeItems (n + 2) false items := by
  rw [writeTree]
  · rfl
  · exact h

theorem writeTree_map {entries : List (String × Tree)} (h : entries ≠ []) (n : Nat)
    (inMap : Bool) :
    writeTree n inMap (.map entries) =
      if inMap then '\n' :: writeEntries (n + 2) true entries
      else ' ' :: writeEntries (n + 2) false entries := by
  rw [writeTree]
  · rfl
  · exact h

theorem writeItems_fresh {items : List Tree} (h : items ≠ []) (n : Nat) :
    writeItems n true items = spaces n ++ writeItems n false items := by
  obtain ⟨item, rest, rfl⟩ := List.exists_cons_of_ne_nil h
  simp [writeItems]

theorem writeEntries_fresh {entries : List (String × Tree)} (h : entries ≠ []) (n : Nat) :
    writeEntries n true entries = spaces n ++ writeEntries n false entries := by
  obtain ⟨entry, rest, rfl⟩ := List.exists_cons_of_ne_nil h
  simp [writeEntries]

/-- A space or a break is in front of every tree. -/
theorem isGap_writeTree (n : Nat) (inMap : Bool) (t : Tree) (cs : List Char) :
    isGap ((writeTree n inMap t ++ cs).headD '\x00') = true := by
  cases t with
  | null => rfl
  | bool b => cases b <;> rfl
  | number m => rfl
  | text s =>
    rw [writeTree, endLine]
    split <;> rfl
  | list items =>
    cases items with
    | nil => rfl
    | cons item items =>
      rw [writeTree_list (List.cons_ne_nil _ _)]
      split <;> rfl
  | map entries =>
    cases entries with
    | nil => rfl
    | cons entry entries =>
      rw [writeTree_map (List.cons_ne_nil _ _)]
      split <;> rfl

mutual

theorem all_writeTree (n : Nat) (inMap : Bool) (t : Tree) :
    (writeTree n inMap t).all isPrintable = true := by
  cases t with
  | null => rfl
  | bool b => cases b <;> rfl
  | number m =>
    have hsafe := isPlainSafe_number m
    simp only [isPlainSafe, Bool.and_eq_true] at hsafe
    rw [writeTree, List.cons_append, List.all_cons, List.all_append, hsafe.1.1.1.2]
    rfl
  | text s =>
    rw [writeTree, endLine_eq, List.all_append, all_closing, List.all_cons, all_writeText]
    rfl
  | list items =>
    cases items with
    | nil => rfl
    | cons item items =>
      have h := fun n fresh => all_writeItems n fresh (item :: items)
      rw [writeTree_list (List.cons_ne_nil _ _)]
      split <;> rw [List.all_cons, h] <;> rfl
  | map entries =>
    cases entries with
    | nil => rfl
    | cons entry entries =>
      have h := fun n fresh => all_writeEntries n fresh (entry :: entries)
      rw [writeTree_map (List.cons_ne_nil _ _)]
      split <;> rw [List.all_cons, h] <;> rfl

theorem all_writeItems (n : Nat) (fresh : Bool) (items : List Tree) :
    (writeItems n fresh items).all isPrintable = true := by
  cases items with
  | nil => rfl
  | cons item items =>
    rw [writeItems]
    simp only [List.all_append, List.all_cons, all_margin, all_writeTree, all_writeItems]
    rfl

theorem all_writeEntries (n : Nat) (fresh : Bool) (entries : List (String × Tree)) :
    (writeEntries n fresh entries).all isPrintable = true := by
  cases entries with
  | nil => rfl
  | cons entry entries =>
    obtain ⟨key, value⟩ := entry
    rw [writeEntries]
    simp only [List.all_append, List.all_cons, all_margin, all_writeText, all_writeTree, all_writeEntries]
    rfl

end

end AbstractMemory.Yaml
