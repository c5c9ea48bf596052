import AbstractMemory.Proofs.Yaml.Cells

/-! A text that is written plain or in quotes is read back as it was, up to
where the scalar ends. -/

namespace AbstractMemory.Yaml

/-- Whether a token, or the end, starts a text. -/
def StartsToken (cs : List Char) : Prop :=
  isGap (cs.headD '\x00') = false ∧ cs.headD '\x00' ≠ '#' ∧ cs.headD '\x00' ≠ '\ufeff'

theorem StartsToken.nil : StartsToken [] :=
  ⟨by decide, by decide, by decide⟩

theorem StartsToken.cons {c : Char} (h : isGap c = false ∧ c ≠ '#' ∧ c ≠ '\ufeff')
    (cs : List Char) : StartsToken (c :: cs) := h

theorem Spot.cells_eq_cons (p : Spot) (cs : List Char) :
    p.cells cs = p.cell (cs.headD '\x00') :: (p.cells cs).tail := by
  cases cs <;> rfl

theorem atDocumentMark_eq_false {p : Spot} (h : 0 < p.column) (cs : List Char) :
    atDocumentMark (p.cells cs) = false := by
  have hne : (p.column == 0) = false := by
    rw [beq_eq_false_iff_ne]
    omega
  cases cs <;> simp [Spot.cells, atDocumentMark, Spot.cell, hne]

section Plain

variable {indent : Nat} {text sp cs rest : List Char} {gap : WordGap} {c prev : Char}
  {inWord : Bool} {p : Spot}

theorem plainFrom_space :
    plainFrom indent false text (.blanks sp) inWord (p.cells (' ' :: cs)) =
      plainFrom indent false text (.blanks (sp ++ [' '])) false ((p.after ' ').cells cs) := rfl

theorem plainFrom_word (hc : isPrintable c = true) (hgap : isGap c = false)
    (hstart : inWord = true ∨ (indent ≤ p.column ∧ 0 < p.column ∧ c ≠ '#'))
    (hcolon : endsPlain false c (cs.headD '\x00') = false) :
    plainFrom indent false text gap inWord (p.cells (c :: cs)) =
      plainFrom indent false (text ++ gap.text ++ [c]) .none true ((p.after c).cells cs) := by
  have hstop : (!inWord && ((!false && decide ((p.cell c).column < indent)) ||
      atDocumentMark (p.cells (c :: cs)) || c == '#')) = false := by
    rcases hstart with rfl | ⟨hcol, hpos, hhash⟩
    · rfl
    · simp [atDocumentMark_eq_false hpos, hhash, Nat.not_lt.mpr hcol]
  have hcolon' : endsPlain false c (ahead ((p.after c).cells cs) 0) = false := by
    rwa [Spot.ahead_cells_zero]
  rw [Spot.cells] at hstop ⊢
  rw [plainFrom]
  simp only [Spot.cell_char, hgap, hstop, isEnd_of_printable hc, badColon, hcolon', Bool.false_and,
    Bool.false_eq_true, if_false]

theorem not_endsPlain (h : (c == ':' && isGapOrEnd (cs.headD '\x00')) = false) :
    endsPlain false c ((cs ++ rest).headD '\x00') = false := by
  cases cs with
  | nil =>
    have hc : (c == ':') = false := by simpa [isGapOrEnd, isEnd] using h
    simp [endsPlain, hc]
  | cons d cs => simpa [endsPlain] using h

/-- The characters of a text are read up to its end, if the blanks before it
are behind a word. -/
theorem plainFrom_append (hchars : ∀ c ∈ cs, isPrintable c = true ∧ isBreak c = false)
    (hmark : hasInnerMark (prev :: cs) = false) (hlast : (prev :: cs).getLast? ≠ some ' ')
    (hgap : sp ≠ [] → prev = ' ') (hword : inWord = sp.isEmpty) (hcol : indent ≤ p.column)
    (hpos : 0 < p.column) :
    plainFrom indent false text (.blanks sp) inWord (p.cells (cs ++ rest)) =
      plainFrom indent false (text ++ sp ++ cs) .none true ((p.afterAll cs).cells rest) := by
  induction cs generalizing text sp prev p inWord with
  | nil =>
    have hsp : sp = [] := by
      apply Classical.byContradiction
      intro hne
      exact hlast (by rw [hgap hne]; rfl)
    subst hsp hword
    simp [WordGap.none]
  | cons c cs ih =>
    obtain ⟨hc, hb⟩ := hchars c List.mem_cons_self
    obtain ⟨hinner, hmark'⟩ : isInnerMark prev c (cs.headD '\x00') = false ∧
        hasInnerMark (c :: cs) = false := by
      simpa only [hasInnerMark, Bool.or_eq_false_iff] using hmark
    have hlast' : (c :: cs).getLast? ≠ some ' ' := by
      rwa [List.getLast?_cons_cons] at hlast
    have hchars' : ∀ d ∈ cs, isPrintable d = true ∧ isBreak d = false :=
      fun d hd => hchars d (List.mem_cons_of_mem _ hd)
    have hspot := p.after_same_line hb
    have hcol' : indent ≤ (p.after c).column := by rw [hspot]; exact Nat.le_succ_of_le hcol
    have hpos' : 0 < (p.after c).column := by rw [hspot]; exact Nat.succ_pos _
    rw [List.cons_append]
    by_cases hsp : c = ' '
    · subst hsp
      rw [plainFrom_space, ih hchars' hmark' hlast' (fun _ => rfl) (by simp) hcol' hpos']
      simp
    · have hnotgap := isGap_eq_false hc hb hsp
      simp only [isInnerMark, Bool.or_eq_false_iff] at hinner
      have hstart : inWord = true ∨ (indent ≤ p.column ∧ 0 < p.column ∧ c ≠ '#') := by
        cases sp with
        | nil => exact .inl hword
        | cons s ss =>
          obtain rfl := hgap (by simp)
          have hhash : c ≠ '#' := by simpa [isGapOrEnd, isGap, isBlank] using hinner.2
          exact .inr ⟨hcol, hpos, hhash⟩
      rw [plainFrom_word hc hnotgap hstart (not_endsPlain hinner.1), WordGap.none,
        ih hchars' hmark' hlast' (fun h => absurd rfl h) (Eq.refl true) hcol' hpos']
      simp [WordGap.text, WordGap.none]

theorem isPlainSafe_cons (h : isPlainSafe (c :: cs) = true) :
    (∀ d ∈ c :: cs, isPrintable d = true ∧ isBreak d = false) ∧ c ≠ ' ' ∧
      (c :: cs).getLast? ≠ some ' ' ∧ hasMark (c :: cs) = false := by
  simp only [isPlainSafe, Bool.and_eq_true, Bool.not_eq_true', List.all_eq_true,
    List.any_eq_false, Bool.not_eq_true] at h
  obtain ⟨⟨⟨⟨⟨_, hmark⟩, hprint⟩, hbreak⟩, hfirst⟩, hlast⟩ := h
  refine ⟨fun d hd => ⟨hprint d hd, hbreak d hd⟩, by simpa [isSpace] using hfirst, ?_, hmark⟩
  intro hsp
  rw [List.getLastD_eq_getLast?, hsp] at hlast
  exact absurd hlast (by decide)

theorem isBreak_of_safe (h : isPlainSafe cs = true) : ∀ c ∈ cs, isBreak c = false := by
  cases cs with
  | nil => exact fun c hc => absurd hc List.not_mem_nil
  | cons c cs => exact fun d hd => ((isPlainSafe_cons h).1 d hd).2

/-- A text that is safe as a plain scalar is read up to its end. -/
theorem readPlain_append (h : isPlainSafe cs = true) (hcol : indent ≤ p.column + 1) :
    readPlain indent false (p.cells (cs ++ rest)) =
      plainFrom indent false cs .none true ((p.afterAll cs).cells rest) := by
  cases cs with
  | nil => exact absurd h (by decide)
  | cons c cs =>
    obtain ⟨hchars, hsp, hlast, hmark⟩ := isPlainSafe_cons h
    obtain ⟨hc, hb⟩ := hchars c List.mem_cons_self
    have hnotgap := isGap_eq_false hc hb hsp
    simp only [hasMark, Bool.or_eq_false_iff, isLeadingMark] at hmark
    obtain ⟨⟨_, _, hlead⟩, hinner⟩ := hmark
    have hcolon : (c == ':' && isGapOrEnd (cs.headD '\x00')) = false := by
      simp at hlead ⊢
      intro hc
      exact hlead (.inl (.inr hc))
    have hspot := p.after_same_line hb
    rw [readPlain, List.cons_append, plainFrom_word hc hnotgap (.inl rfl) (not_endsPlain hcolon),
      WordGap.none, plainFrom_append (fun d hd => hchars d (List.mem_cons_of_mem _ hd)) hinner hlast
        (fun h => absurd rfl h) (Eq.refl true) (by rw [hspot]; exact hcol) (by rw [hspot]; exact Nat.succ_pos _)]
    simp [WordGap.text, WordGap.none]

theorem plainFrom_spaces {first : Option Char} {more : List Char} (k : Nat) :
    plainFrom indent false text (.breaks first more) false (p.cells (spaces k ++ rest)) =
      plainFrom indent false text (.breaks first more) false
        ((p.afterAll (spaces k)).cells rest) := by
  induction k generalizing p with
  | zero => rfl
  | succ k ih =>
    rw [spaces_succ, List.cons_append, Spot.cells, plainFrom, Spot.afterAll_cons, ← ih]
    simp [Spot.cell, isGap, isBlank, WordGap.add, isBreak]

/-- A key in front of a colon. -/
theorem readPlain_key (h : isPlainSafe cs = true) (hcol : indent ≤ p.column + 1)
    (hrest : isGapOrEnd (rest.headD '\x00') = true) :
    readPlain indent false (p.cells (cs ++ ':' :: rest)) =
      some (cs, false, (p.afterAll cs).cells (':' :: rest)) := by
  rw [readPlain_append h hcol, Spot.cells, plainFrom]
  have hends : endsPlain false ':' (ahead (((p.afterAll cs).after ':').cells rest) 0) = true := by
    rw [Spot.ahead_cells_zero, endsPlain, hrest]
    rfl
  simp only [Spot.cell, hends]
  rfl

/-- A value that ends with its line, in front of a token that is not indented
by as much as a further line would be. -/
theorem readPlain_value {k : Nat} (h : isPlainSafe cs = true) (hcol : indent ≤ p.column + 1)
    (hk : k < indent) (hrest : StartsToken rest) :
    readPlain indent false (p.cells (cs ++ '\n' :: (spaces k ++ rest))) =
      some (cs, true, (p.afterAll (cs ++ '\n' :: spaces k)).cells rest) := by
  have hcolumn := p.column_line cs (show isBreak '\n' = true by decide) k
  have hbreak : plainFrom indent false cs .none true
      ((p.afterAll cs).cells ('\n' :: (spaces k ++ rest))) =
      plainFrom indent false cs (.breaks (some '\n') []) false
        (((p.afterAll cs).after '\n').cells (spaces k ++ rest)) := rfl
  rw [readPlain_append h hcol, hbreak, plainFrom_spaces, ← Spot.afterAll_cons,
    ← Spot.afterAll_append, Spot.cells_eq_cons, plainFrom]
  simp only [Spot.cell_char, Spot.cell_column, hrest.1, hcolumn, hk, WordGap.hasBreak,
    decide_true, Bool.not_false, Bool.true_and, Bool.true_or, Bool.false_eq_true, if_true, if_false]

end Plain

section SingleQuoted

variable {text cs rest : List Char} {gap : WordGap} {c prev : Char} {p : Spot}

/-- The gap behind a text whose last character is `prev`. -/
def WordGap.EndsIn (prev : Char) : WordGap → Prop
  | .blanks sp => isBreak prev = false ∧ (sp ≠ [] → prev = ' ')
  | .breaks first _ => isBreak prev = true ∧ ∃ f, first = some f ∧ f ≠ '\n'

theorem WordGap.EndsIn.none (h : isBreak prev = false) : WordGap.none.EndsIn prev :=
  ⟨h, fun hne => absurd rfl hne⟩

/-- A break other than a line feed is kept, if no space is in front of it. -/
theorem WordGap.EndsIn.add_break (h : gap.EndsIn prev) (hsp : prev ≠ ' ')
    (hb : isBreak c = true) (hc : c ≠ '\n') :
    (gap.add c).EndsIn c ∧ (gap.add c).text = gap.text ++ [c] := by
  cases gap with
  | blanks sp =>
    have hnil : sp = [] := Classical.byContradiction fun hne => hsp (h.2 hne)
    subst hnil
    simp only [WordGap.add, hb]
    exact ⟨⟨hb, c, rfl, hc⟩, by simp [WordGap.text, hc]⟩
  | breaks first more =>
    obtain ⟨_, f, rfl, hf⟩ := h
    simp only [WordGap.add, hb]
    exact ⟨⟨hb, f, rfl, hf⟩, by simp [WordGap.text, hf]⟩

theorem WordGap.EndsIn.add_space (h : gap.EndsIn prev) (hb : isBreak prev = false) :
    (gap.add ' ').EndsIn ' ' ∧ (gap.add ' ').text = gap.text ++ [' '] := by
  cases gap with
  | blanks sp => exact ⟨⟨by decide, fun _ => rfl⟩, rfl⟩
  | breaks first more => exact absurd h.1 (by simp [hb])

theorem singleQuotedFrom_gap (hgap : isGap c = true) :
    singleQuotedFrom text gap (p.cells (c :: rest)) =
      singleQuotedFrom text (gap.add c) ((p.after c).cells rest) := by
  rw [Spot.cells, singleQuotedFrom.eq_def]
  simp only [Spot.cell_char, hgap, if_true]

/-- Spaces after a break are dropped. -/
theorem singleQuotedFrom_spaces (h : gap.EndsIn prev) (hb : isBreak prev = true) (k : Nat) :
    singleQuotedFrom text gap (p.cells (spaces k ++ rest)) =
      singleQuotedFrom text gap ((p.afterAll (spaces k)).cells rest) := by
  have hadd : gap.add ' ' = gap := by
    cases gap with
    | blanks sp => exact absurd h.1 (by simp [hb])
    | breaks first more => rfl
  induction k generalizing p with
  | zero => rfl
  | succ k ih =>
    rw [spaces_succ, Spot.afterAll_cons, ← ih, List.cons_append,
      singleQuotedFrom_gap (by decide), hadd]

/-- A character of a text in single quotes. -/
def singleChar (c : Char) : List Char := if c == '\'' then ['\'', '\''] else [c]

theorem singleQuotedFrom_word (hc : isPrintable c = true) (hgap : isGap c = false)
    (hpos : 0 < p.column) :
    singleQuotedFrom text gap (p.cells (singleChar c ++ rest)) =
      singleQuotedFrom (text ++ gap.text ++ [c]) .none ((p.afterAll (singleChar c)).cells rest) := by
  by_cases hquote : c = '\''
  · subst hquote
    have hmark := atDocumentMark_eq_false hpos ('\'' :: '\'' :: rest)
    rw [show singleChar '\'' ++ rest = '\'' :: '\'' :: rest from rfl]
    rw [Spot.cells] at hmark ⊢
    rw [singleQuotedFrom.eq_def]
    simp only [hmark]
    rfl
  · have hmark := atDocumentMark_eq_false hpos (c :: rest)
    rw [singleChar, if_neg (by simpa using hquote), List.singleton_append]
    rw [Spot.cells] at hmark ⊢
    rw [singleQuotedFrom.eq_def]
    simp only [Spot.cell_char, hgap, hmark, isEnd_of_printable hc,
      beq_eq_false_iff_ne.mpr hquote, Bool.false_eq_true, Bool.or_self, if_false]
    rfl

theorem column_singleChar (hb : isBreak c = false) : 0 < (p.afterAll (singleChar c)).column := by
  have hspot : ∀ q : Spot, (q.after c).column = q.column + 1 := fun q => by
    rw [q.after_same_line hb]
  by_cases hquote : c = '\''
  · subst hquote
    exact Nat.succ_pos _
  · rw [singleChar, if_neg (by simpa using hquote), Spot.afterAll_cons, Spot.afterAll_nil, hspot]
    exact Nat.succ_pos _

theorem singleQuotedFrom_end (hpos : 0 < p.column) (hrest : rest.headD '\x00' ≠ '\'') :
    singleQuotedFrom text gap (p.cells ('\'' :: rest)) =
      some (text ++ gap.text, (p.after '\'').cells rest) := by
  have hmark := atDocumentMark_eq_false hpos ('\'' :: rest)
  rw [Spot.cells] at hmark ⊢
  rw [singleQuotedFrom.eq_def]
  simp only [hmark]
  cases rest with
  | nil => rfl
  | cons c cs =>
    have hc : c ≠ '\'' := hrest
    simp [Spot.cells, Spot.cell, hc, isGap, isBlank, isBreak, isEnd]

/-- The indentation of a line, if the character before was a break. -/
theorem singleQuotedFrom_margin {indent : Nat} (hindent : 0 < indent) (hgap : gap.EndsIn prev)
    (hpos : isBreak prev = false → 0 < p.column) :
    ∃ q, q = p.afterAll (if isBreak prev then spaces indent else []) ∧ 0 < q.column ∧
      singleQuotedFrom text gap (p.cells ((if isBreak prev then spaces indent else []) ++ rest)) =
        singleQuotedFrom text gap (q.cells rest) := by
  cases hb : isBreak prev with
  | false => exact ⟨p, rfl, hpos hb, rfl⟩
  | true =>
    refine ⟨_, rfl, ?_, singleQuotedFrom_spaces hgap hb indent⟩
    simp only [if_true, Spot.afterAll_spaces]
    omega

/-- A text in single quotes, from after a character of it on. -/
theorem singleQuotedFrom_singleChars {indent : Nat} (hindent : 0 < indent)
    (hprint : ∀ c ∈ cs, isPrintable c = true) (hfeed : '\n' ∉ cs)
    (hsb : hasNeighbours isSpace isBreak (prev :: cs) = false)
    (hbs : hasNeighbours isBreak isSpace (prev :: cs) = false) (hgap : gap.EndsIn prev)
    (hpos : isBreak prev = false → 0 < p.column) (hrest : rest.headD '\x00' ≠ '\'') :
    singleQuotedFrom text gap
        (p.cells (singleChars indent (isBreak prev) cs ++ '\'' :: rest)) =
      some (text ++ gap.text ++ cs,
        (p.afterAll (singleChars indent (isBreak prev) cs ++ ['\''])).cells rest) := by
  induction cs generalizing prev gap text p with
  | nil =>
    obtain ⟨q, hq, hqpos, heq⟩ := singleQuotedFrom_margin hindent hgap hpos
    rw [singleChars, heq, singleQuotedFrom_end hqpos hrest, Spot.afterAll_append, ← hq]
    simp
  | cons c cs ih =>
    have hc := hprint c List.mem_cons_self
    have hprint' : ∀ d ∈ cs, isPrintable d = true :=
      fun d hd => hprint d (List.mem_cons_of_mem _ hd)
    have hfeed' : '\n' ∉ cs := fun h => hfeed (List.mem_cons_of_mem _ h)
    simp only [hasNeighbours, Bool.or_eq_false_iff, Bool.and_eq_false_iff] at hsb hbs
    rw [singleChars]
    by_cases hb : isBreak c = true
    · have hprev : prev ≠ ' ' := by
        have h := hsb.1.resolve_right (by simp [hb])
        simpa [isSpace] using h
      obtain ⟨hadd, htext⟩ := hgap.add_break hprev hb
        fun h => hfeed (h ▸ List.mem_cons_self)
      rw [if_pos hb, List.cons_append, singleQuotedFrom_gap (by simp [isGap, hb]), ← hb,
        ih hprint' hfeed' hsb.2 hbs.2 hadd (by simp [hb]), htext]
      simp
    · have hb' : isBreak c = false := by simpa using hb
      rw [if_neg hb, ← singleChar]
      by_cases hsp : c = ' '
      · subst hsp
        have hprev : isBreak prev = false := hbs.1.resolve_right (by decide)
        obtain ⟨hadd, htext⟩ := hgap.add_space hprev
        have hnext : 0 < (p.after ' ').column := Nat.succ_pos _
        rw [hprev, if_neg (by decide), List.nil_append, show singleChar ' ' = [' '] from rfl,
          List.singleton_append, List.cons_append, singleQuotedFrom_gap (by decide), ← hb',
          ih hprint' hfeed' hsb.2 hbs.2 hadd fun _ => hnext, htext]
        simp
      · have hnotgap := isGap_eq_false hc hb' hsp
        obtain ⟨q, hq, hqpos, heq⟩ := singleQuotedFrom_margin hindent hgap hpos
        rw [List.append_assoc, List.append_assoc, heq, singleQuotedFrom_word hc hnotgap hqpos,
          ← hb', ih hprint' hfeed' hsb.2 hbs.2 (.none hb') fun _ => column_singleChar hb']
        simp [Spot.afterAll_append, ← hq, WordGap.none, WordGap.text]

theorem hasNeighbours_cons {f g : Char → Bool} (hf : f prev = false) :
    hasNeighbours f g (prev :: cs) = hasNeighbours f g cs := by
  cases cs with
  | nil => rfl
  | cons c cs => rw [hasNeighbours, hf, Bool.false_and, Bool.false_or]

/-- A text that is safe in single quotes is read as it is. -/
theorem singleQuotedFrom_text {indent : Nat} (hindent : 0 < indent) (h : isSingleSafe cs = true)
    (hfeed : '\n' ∉ cs) (hpos : 0 < p.column) (hrest : rest.headD '\x00' ≠ '\'') :
    singleQuotedFrom [] .none (p.cells (singleChars indent false cs ++ '\'' :: rest)) =
      some (cs, (p.afterAll (singleChars indent false cs ++ ['\''])).cells rest) := by
  simp only [isSingleSafe, Bool.and_eq_true, Bool.not_eq_true', List.all_eq_true] at h
  obtain ⟨⟨hprint, hsb⟩, hbs⟩ := h
  -- the quote in front of the text is the character that it follows
  have hquote : isBreak '\'' = false := by decide
  rw [← hquote, singleQuotedFrom_singleChars hindent hprint hfeed
    ((hasNeighbours_cons (by decide)).trans hsb) ((hasNeighbours_cons (by decide)).trans hbs)
    (.none hquote) (fun _ => hpos) hrest]
  rfl

end SingleQuoted

section Digits

variable {b n : Nat}

theorem exists_digit_of_mem_toDigits (hb : 1 < b) {c : Char} (h : c ∈ Nat.toDigits b n) :
    ∃ d < b, c = Nat.digitChar d := by
  induction n using Nat.strongRecOn with
  | ind n ih =>
    rw [Nat.toDigits_eq_if hb] at h
    split at h
    · exact ⟨n, ‹n < b›, by simpa using h⟩
    · rcases List.mem_append.mp h with h | h
      · exact ih (n / b) (Nat.div_lt_self (by omega) hb) h
      · exact ⟨n % b, Nat.mod_lt _ (by omega), by simpa using h⟩

/-- Reading digit by digit gives back the number that was written. -/
theorem foldlM_toDigits (hb : 1 < b) {read : Nat → Char → Option Nat}
    (hread : ∀ m, ∀ d < b, read m (Nat.digitChar d) = some (m * b + d)) :
    (Nat.toDigits b n).foldlM read 0 = some n := by
  induction n using Nat.strongRecOn with
  | ind n ih =>
    rw [Nat.toDigits_eq_if hb]
    split
    · simp [hread 0 n ‹n < b›]
    · have hdiv : n / b < n := Nat.div_lt_self (by omega) hb
      simp only [List.foldlM_append, ih (n / b) hdiv, List.foldlM_cons, List.foldlM_nil,
        Option.bind_eq_bind, Option.bind_some,
        hread (n / b) (n % b) (Nat.mod_lt _ (by omega)), Nat.div_add_mod']
      rfl

theorem hexDigit?_digitChar : ∀ d < 16, hexDigit? (Nat.digitChar d).toUpper = some d := by
  decide

theorem hexNumber?_hexDigits (w n : Nat) : hexNumber? (hexDigits w n) = some n := by
  have hzeros : ∀ k, (List.replicate k '0').foldlM
      (fun n c => (hexDigit? c).map (n * 16 + ·)) 0 = some 0 := by
    intro k
    induction k with
    | zero => rfl
    | succ k ih => exact ih
  rw [hexNumber?, hexDigits, List.foldlM_append, hzeros, Option.bind_eq_bind, Option.bind_some,
    List.foldlM_map]
  apply foldlM_toDigits (by decide)
  intro m d hd
  rw [hexDigit?_digitChar d hd, Option.map_some]

theorem length_hexDigits {w n : Nat} (hw : 0 < w) (h : n < 16 ^ w) :
    (hexDigits w n).length = w := by
  have hle := (Nat.length_toDigits_le_iff (by decide) hw).mpr h
  simp only [hexDigits, List.length_append, List.length_replicate, List.length_map]
  omega

theorem charOfCode?_toNat (c : Char) : charOfCode? c.toNat = some c := by
  have hvalid : c.toNat < 0xD800 ∨ 0xDFFF < c.toNat ∧ c.toNat ≤ 0x10FFFF := by
    have h := c.valid
    simp only [UInt32.isValidChar, Nat.isValidChar] at h
    change c.toNat < 0xD800 ∨ 0xDFFF < c.toNat ∧ c.toNat < 0x110000 at h
    omega
  rw [charOfCode?, if_pos hvalid, Char.ofNat_toNat]

theorem toUpper_digitChar :
    ∀ d < 16, isPrintable (Nat.digitChar d).toUpper = true ∧
      isBreak (Nat.digitChar d).toUpper = false := by
  decide

theorem printable_of_mem_hexDigits {w n : Nat} {c : Char} (h : c ∈ hexDigits w n) :
    isPrintable c = true ∧ isBreak c = false := by
  rcases List.mem_append.mp h with h | h
  · rw [List.eq_of_mem_replicate h]
    decide
  · obtain ⟨d, hd, rfl⟩ := List.mem_map.mp h
    obtain ⟨k, hk, rfl⟩ := exists_digit_of_mem_toDigits (by decide) hd
    exact toUpper_digitChar k hk

end Digits

section DoubleQuoted

variable {text sp cs rest : List Char} {gap : WordGap} {c : Char} {p : Spot}

/-- What stands after the backslash is read as the character, as one letter or
as its code. -/
theorem escapeChar_cases (c : Char) :
    (∃ e, escapeChar c = [e] ∧ escaped? e = some c) ∨
      ∃ e w, escapeChar c = e :: hexDigits w c.toNat ∧ escaped? e = none ∧
        escapeLength? e = some w ∧ (hexDigits w c.toNat).length = w := by
  unfold escapeChar
  split
  case h_15 =>
    have hmax : c.toNat < 16 ^ 8 := by
      have h := c.val.toNat_lt
      exact h
    right
    split
    · exact ⟨'x', 2, rfl, rfl, rfl, length_hexDigits (by decide) (by omega)⟩
    · split
      · exact ⟨'u', 4, rfl, rfl, rfl, length_hexDigits (by decide) (by omega)⟩
      · exact ⟨'U', 8, rfl, rfl, rfl, length_hexDigits (by decide) hmax⟩
  all_goals exact .inl ⟨_, rfl, rfl⟩

/-- A character of a text in double quotes. -/
def doubleChar (c : Char) : List Char :=
  if !isPrintable c || isBreak c || c == '"' || c == '\\' then '\\' :: escapeChar c else [c]

theorem doubleChars_cons (c : Char) (cs : List Char) :
    doubleChars (c :: cs) = doubleChar c ++ doubleChars cs := rfl

/-- The marks after a backslash. -/
def escapeMarks : List Char := "0abtnvfre\"\\NLPxuU".toList

theorem printable_of_mem_escapeMarks {e : Char} (h : e ∈ escapeMarks) :
    isPrintable e = true ∧ isBreak e = false := by
  have hall : escapeMarks.all (fun e => isPrintable e && !isBreak e) = true := by decide
  simpa using List.all_eq_true.mp hall e h

theorem printable_of_mem_escapeChar {d : Char} (h : d ∈ escapeChar c) :
    isPrintable d = true ∧ isBreak d = false := by
  unfold escapeChar at h
  split at h
  case h_15 =>
    have hcode : ∀ e w, e ∈ escapeMarks → d ∈ e :: hexDigits w c.toNat →
        isPrintable d = true ∧ isBreak d = false := by
      intro e w he hd
      rcases List.mem_cons.mp hd with rfl | hd
      · exact printable_of_mem_escapeMarks he
      · exact printable_of_mem_hexDigits hd
    split at h
    · exact hcode 'x' 2 (by decide) h
    · split at h
      · exact hcode 'u' 4 (by decide) h
      · exact hcode 'U' 8 (by decide) h
  all_goals
    rw [List.mem_singleton.mp h]
    exact printable_of_mem_escapeMarks (by decide)

theorem printable_of_mem_doubleChar {d : Char} (h : d ∈ doubleChar c) :
    isPrintable d = true ∧ isBreak d = false := by
  unfold doubleChar at h
  split at h
  · rcases List.mem_cons.mp h with rfl | h
    · decide
    · exact printable_of_mem_escapeChar h
  · rename_i hplain
    obtain rfl := List.mem_singleton.mp h
    simp only [Bool.or_eq_true, not_or, Bool.not_eq_true', Bool.not_eq_false, Bool.not_eq_true] at hplain
    exact ⟨hplain.1.1.1, hplain.1.1.2⟩

theorem doubleQuotedFrom_skip (ds : List Char) :
    doubleQuotedFrom text gap ds.length (p.cells (ds ++ rest)) =
      doubleQuotedFrom text gap 0 ((p.afterAll ds).cells rest) := by
  induction ds generalizing p with
  | nil => rfl
  | cons d ds ih =>
    rw [Spot.afterAll_cons, ← ih, List.cons_append, Spot.cells, doubleQuotedFrom,
      if_pos (by simp)]
    rfl

theorem doubleQuotedFrom_escape (hpos : 0 < p.column) :
    doubleQuotedFrom text gap 0 (p.cells ('\\' :: escapeChar c ++ rest)) =
      doubleQuotedFrom (text ++ gap.text ++ [c]) .none 0
        ((p.afterAll ('\\' :: escapeChar c)).cells rest) := by
  have hmark := atDocumentMark_eq_false hpos ('\\' :: (escapeChar c ++ rest))
  rw [List.cons_append, Spot.afterAll_cons, ← doubleQuotedFrom_skip]
  rw [Spot.cells] at hmark ⊢
  rw [doubleQuotedFrom]
  simp only [hmark, Spot.cell_char, Spot.ahead_cells_zero, Nat.lt_irrefl, if_false,
    show isGap '\\' = false by decide, show isEnd '\\' = false by decide,
    show ('\\' == '"') = false by decide, Bool.false_eq_true, Bool.or_self, beq_self_eq_true, if_true]
  rcases escapeChar_cases c with ⟨e, hesc, he⟩ | ⟨e, w, hesc, he, hlen, hw⟩
  · have hb := (printable_of_mem_escapeChar (by rw [hesc]; exact List.mem_singleton_self e)).2
    rw [hesc]
    simp only [List.singleton_append, List.headD_cons, hb, he, Bool.false_eq_true, if_false]
    rfl
  · have hb := (printable_of_mem_escapeChar (by rw [hesc]; exact List.mem_cons_self)).2
    have hdigits : ((((p.after '\\').cells (e :: (hexDigits w c.toNat ++ rest))).drop 1).take w).map
        Cell.char = hexDigits w c.toNat := by
      have h := ((p.after '\\').after e).take_cells (hexDigits w c.toNat) rest
      rwa [hw] at h
    have hchar : (hexNumber? (hexDigits w c.toNat)).bind charOfCode? = some c := by
      rw [hexNumber?_hexDigits, Option.bind_some, charOfCode?_toNat]
    rw [hesc]
    simp only [List.cons_append, List.headD_cons, hb, he, hlen, hdigits, hchar, List.length_cons,
      hw, Bool.false_eq_true, if_false]

theorem doubleQuotedFrom_word (hc : isPrintable c = true) (hb : isBreak c = false)
    (hquote : c ≠ '"') (hslash : c ≠ '\\') (hpos : 0 < p.column) :
    doubleQuotedFrom text (.blanks sp) 0 (p.cells (c :: rest)) =
      if c = ' ' then doubleQuotedFrom text (.blanks (sp ++ [c])) 0 ((p.after c).cells rest)
      else doubleQuotedFrom (text ++ sp ++ [c]) .none 0 ((p.after c).cells rest) := by
  have hmark := atDocumentMark_eq_false hpos (c :: rest)
  rw [Spot.cells] at hmark ⊢
  rw [doubleQuotedFrom]
  simp only [hmark, Spot.cell_char, isGap_of_printable hc, hb, isEnd_of_printable hc,
    beq_eq_false_iff_ne.mpr hquote, beq_eq_false_iff_ne.mpr hslash, WordGap.add, WordGap.text,
    Nat.lt_irrefl, Bool.or_false, Bool.false_eq_true, beq_iff_eq, if_false]

/-- A text in double quotes, from after blanks of it on. -/
theorem doubleQuotedFrom_doubleChars (hpos : 0 < p.column) :
    doubleQuotedFrom text (.blanks sp) 0 (p.cells (doubleChars cs ++ '"' :: rest)) =
      some (text ++ sp ++ cs, (p.afterAll (doubleChars cs ++ ['"'])).cells rest) := by
  induction cs generalizing text sp p with
  | nil =>
    have hmark := atDocumentMark_eq_false hpos ('"' :: rest)
    rw [show doubleChars [] = [] from rfl, List.nil_append]
    rw [Spot.cells] at hmark ⊢
    rw [doubleQuotedFrom]
    simp only [hmark, List.append_nil]
    rfl
  | cons c cs ih =>
    have hpos' : 0 < (p.afterAll (doubleChar c)).column := by
      rw [p.afterAll_same_line fun d hd => (printable_of_mem_doubleChar hd).2]
      exact Nat.add_pos_left hpos _
    rw [doubleChars_cons, List.append_assoc]
    by_cases hesc : (!isPrintable c || isBreak c || c == '"' || c == '\\') = true
    · have hchar : doubleChar c = '\\' :: escapeChar c := if_pos hesc
      rw [hchar] at hpos' ⊢
      rw [doubleQuotedFrom_escape hpos, WordGap.none, ih hpos']
      simp [WordGap.text, Spot.afterAll_append]
    · have hchar : doubleChar c = [c] := if_neg hesc
      simp only [Bool.or_eq_true, not_or, Bool.not_eq_true', Bool.not_eq_false, beq_iff_eq,
        Bool.not_eq_true] at hesc
      obtain ⟨⟨⟨hc, hb⟩, hquote⟩, hslash⟩ := hesc
      rw [hchar] at hpos' ⊢
      rw [Spot.afterAll_cons, Spot.afterAll_nil] at hpos'
      rw [List.singleton_append, doubleQuotedFrom_word hc hb hquote hslash hpos]
      split
      · rw [ih hpos']
        simp
      · rw [WordGap.none, ih hpos']
        simp

/-- Every text is read as it is from double quotes. -/
theorem doubleQuotedFrom_text (cs rest : List Char) (hpos : 0 < p.column) :
    doubleQuotedFrom [] .none 0 (p.cells (doubleChars cs ++ '"' :: rest)) =
      some (cs, (p.afterAll (doubleChars cs ++ ['"'])).cells rest) :=
  doubleQuotedFrom_doubleChars hpos

end DoubleQuoted

end AbstractMemory.Yaml
