import AbstractMemory.Proofs.Yaml.Scalars

/-! A text that is written as a block of lines is read back as it was. The marks
in front say how the breaks at its end are to be taken. -/

namespace AbstractMemory.Yaml

/-- How the breaks at the end of a text have to be taken to get them all. -/
def chompingOf (cs : List Char) : Chomping :=
  match cs.reverse with
  | [] => .strip
  | [c] => if isBreak c then .keep else .strip
  | c :: d :: _ => if !isBreak c then .strip else if isBreak d then .keep else .clip

theorem chompingOf_append {c : Char} (h : isBreak c = false) (cs : List Char) :
    chompingOf (cs ++ [c]) = .strip := by
  rw [chompingOf, List.reverse_append, List.reverse_singleton, List.singleton_append]
  cases cs.reverse <;> simp [h]

namespace BlockText

variable {b : BlockText} {inLine : Bool} {done : List Char} {c : Char}

/-- What is known of the lines when a text has been read so far. -/
structure Holds (b : BlockText) (inLine : Bool) (done : List Char) : Prop where
  whole : b.text ++ b.lineBreak ++ b.emptyLines = done
  breaks : ∀ c ∈ b.lineBreak ++ b.emptyLines, isBreak c = true
  inside : inLine = true → b.lineBreak = [] ∧ b.emptyLines = [] ∧ chompingOf done = .strip
  outside : inLine = false → b.lineBreak = [] → b.text = []
  line : done ≠ [] → done.getLast?.any isBreak = !inLine

theorem Holds.start : ({} : BlockText).Holds false [] :=
  ⟨rfl, fun _ h => absurd h List.not_mem_nil, (fun h => nomatch h), fun _ _ => rfl,
    fun h => absurd rfl h⟩

theorem Holds.endLine (h : b.Holds true done) (hc : isBreak c = true) :
    { b with lineBreak := [c] : BlockText }.Holds false (done ++ [c]) := by
  obtain ⟨hline, hempty, _⟩ := h.inside rfl
  have hwhole := h.whole
  constructor
  case whole => simpa [hline, hempty] using hwhole
  case breaks => simpa [hempty] using hc
  case inside => exact fun h => nomatch h
  case outside => exact fun _ h => nomatch h
  case line => simp [hc]

theorem Holds.emptyLine {n : Nat} (h : b.Holds false done) (hc : isBreak c = true) :
    { b with deepest := n, emptyLines := b.emptyLines ++ [c] : BlockText }.Holds false
      (done ++ [c]) := by
  constructor
  case whole => simp [← h.whole]
  case breaks =>
    intro d hd
    simp only [List.mem_append, List.mem_singleton] at hd
    rcases hd with hd | hd | rfl
    · exact h.breaks d (List.mem_append_left _ hd)
    · exact h.breaks d (List.mem_append_right _ hd)
    · exact hc
  case inside => exact fun h => nomatch h
  case outside => exact h.outside
  case line => simp [hc]

theorem Holds.next (h : b.Holds true done) (hc : isBreak c = false) :
    { b with text := b.text ++ [c] : BlockText }.Holds true (done ++ [c]) := by
  obtain ⟨hline, hempty, _⟩ := h.inside rfl
  have hwhole := h.whole
  constructor
  case whole => simpa [hline, hempty] using hwhole
  case breaks => exact h.breaks
  case inside => exact fun _ => ⟨hline, hempty, chompingOf_append hc done⟩
  case outside => exact fun h => nomatch h
  case line => simp [hc]

theorem Holds.startLine {n : Nat} {blank : Bool} (h : b.Holds false done) (hc : isBreak c = false) :
    let b' := { b with deepest := n : BlockText }.startLine true blank
    { b' with text := b'.text ++ [c] : BlockText }.Holds true (done ++ [c]) := by
  constructor
  case whole => simp [BlockText.startLine, ← h.whole]
  case breaks => simp [BlockText.startLine]
  case inside => exact fun _ => ⟨rfl, rfl, chompingOf_append hc done⟩
  case outside => exact fun h => nomatch h
  case line => simp [hc]

theorem Holds.emptyLines_eq_nil {cs : List Char} {d : Char} (h : b.Holds false (cs ++ [d] ++ [c]))
    (hd : isBreak d = false) : b.emptyLines = [] := by
  rcases List.eq_nil_or_concat b.emptyLines with hnil | ⟨es, e, he⟩
  · exact hnil
  · have hwhole := h.whole
    rw [List.concat_eq_append] at he
    rw [he, ← List.append_assoc] at hwhole
    obtain ⟨hinit, _⟩ := List.append_inj' hwhole rfl
    rw [List.append_assoc] at hinit
    -- what is in front of the last break ends in one too, unless nothing is
    rcases List.eq_nil_or_concat (b.lineBreak ++ es) with hnil | ⟨bs, x, hbs⟩
    · have htext := h.outside rfl (List.append_eq_nil_iff.mp hnil).1
      rw [hnil, htext] at hinit
      exact absurd hinit.symm (by simp)
    · rw [List.concat_eq_append] at hbs
      rw [hbs, ← List.append_assoc] at hinit
      obtain ⟨_, hx⟩ := List.append_inj' hinit rfl
      have hbreak := h.breaks x (by
        rw [he, ← List.append_assoc, hbs]
        simp)
      rw [List.singleton_inj.mp hx, hd] at hbreak
      cases hbreak

/-- After a break the lines are the whole text, with its last breaks. -/
theorem Holds.finish_eq (h : b.Holds false done) : b.finish (chompingOf done) = done := by
  rw [chompingOf]
  split
  · next hr =>
    obtain rfl := List.reverse_eq_nil_iff.mp hr
    exact (List.append_eq_nil_iff.mp (List.append_eq_nil_iff.mp h.whole).1).1
  · next c hr =>
    have hdone : done = [c] := by simpa using congrArg List.reverse hr
    have hline := h.line (by simp [hdone])
    rw [if_pos (by simpa [hdone] using hline)]
    exact h.whole
  · next c d rest hr =>
    have hdone : done = rest.reverse ++ [d] ++ [c] := by simpa using congrArg List.reverse hr
    have hline := h.line (by simp [hdone])
    rw [if_neg (by simpa [hdone] using hline)]
    split
    · exact h.whole
    · next hd =>
      subst hdone
      have hempty := h.emptyLines_eq_nil (by simpa using hd)
      have hwhole := h.whole
      rwa [hempty, List.append_nil] at hwhole

end BlockText

section Reading

variable {h : BlockHeader} {n k : Nat} {b : BlockText} {cs rest done : List Char} {c : Char}
  {p : Spot}

theorem blockFrom_spaces (hk : p.column + k ≤ n ∨ n = 0) :
    blockFrom h n false b (p.cells (spaces k ++ rest)) =
      blockFrom h n false b ((p.afterAll (spaces k)).cells rest) := by
  induction k generalizing p with
  | zero => rfl
  | succ k ih =>
    have hspot := p.after_same_line (show isBreak ' ' = false by decide)
    have hloose : (n == 0 || decide ((p.cell ' ').column < n)) = true := by
      rw [Spot.cell_column, Bool.or_eq_true, beq_iff_eq, decide_eq_true_eq]
      omega
    rw [spaces_succ, List.cons_append, Spot.afterAll_cons, ← ih (by rw [hspot]; dsimp only; omega),
      Spot.cells, blockFrom]
    simp only [hloose, Spot.cell_char, beq_self_eq_true, Bool.and_self, Bool.false_eq_true,
      if_true, if_false]

/-- A token that is indented by less ends the block. -/
theorem blockFrom_end (hcol : p.column = 0) (hk : k < n) (hrest : StartsToken rest) :
    blockFrom h n false b (p.cells (spaces k ++ rest)) =
      some (b.finish h.chomping, (p.afterAll (spaces k)).cells rest) := by
  have hcolumn := Spot.column_spaces hcol k
  have hgap := hrest.1
  simp only [isGap, isBlank, Bool.or_eq_false_iff] at hgap
  obtain ⟨⟨hsp, htab⟩, hb⟩ := hgap
  have hn : (n == 0) = false := by rw [beq_eq_false_iff_ne]; omega
  have hkn : (k == n) = false := by rw [beq_eq_false_iff_ne]; omega
  rw [blockFrom_spaces (.inl (by omega)), Spot.cells_eq_cons, blockFrom]
  simp only [Spot.cell_char, Spot.cell_column, hcolumn, hsp, htab, hb, hn, hkn, Bool.and_false,
    Bool.false_and, Bool.false_eq_true, if_false]
  cases h.chomping <;> rfl

theorem blockFrom_line_start (hlit : h.isLiteral = true) (hn : 0 < n) (hcol : p.column = n)
    (hc : isPrintable c = true) (hb : isBreak c = false) :
    blockFrom h n false b (p.cells (c :: rest)) =
      let b' := { b with deepest := max b.deepest n }.startLine true (isBlank c)
      blockFrom h n true { b' with text := b'.text ++ [c] } ((p.after c).cells rest) := by
  have hn' : (n == 0) = false := by rw [beq_eq_false_iff_ne]; omega
  rw [Spot.cells, blockFrom]
  simp only [Spot.cell_char, Spot.cell_column, hcol, hlit, hb, hn', isEnd_of_printable hc,
    Nat.lt_irrefl, decide_false, Bool.or_self, Bool.false_and, Bool.false_eq_true, if_false,
    beq_self_eq_true, Bool.not_false, Bool.and_self, if_true]

theorem blockFrom_empty_line (hc : isPrintable c = true) (hb : isBreak c = true) :
    blockFrom h n false b (p.cells (c :: rest)) =
      blockFrom h n false
        { b with deepest := max b.deepest p.column, emptyLines := b.emptyLines ++ [c] }
        ((p.after c).cells rest) := by
  have hsp : (c == ' ') = false := by
    rw [beq_eq_false_iff_ne]
    rintro rfl
    exact absurd hb (by decide)
  have htab : (c == '\t') = false := beq_eq_false_iff_ne.mpr (ne_of_printable hc).2.1
  rw [Spot.cells, blockFrom]
  simp only [Spot.cell_char, Spot.cell_column, hsp, htab, hb, Bool.and_false, Bool.false_eq_true,
    if_true, if_false]

theorem blockFrom_in_line (hc : isPrintable c = true) :
    blockFrom h n true b (p.cells (c :: rest)) =
      if isBreak c then blockFrom h n false { b with lineBreak := [c] } ((p.after c).cells rest)
      else blockFrom h n true { b with text := b.text ++ [c] } ((p.after c).cells rest) := by
  rw [Spot.cells, blockFrom]
  simp only [Spot.cell_char, isEnd_of_printable hc, Bool.false_eq_true, if_true, if_false]
  rfl

/-- The lines of a text are read one character after the other. -/
theorem blockFrom_blockChars {inLine : Bool} (hlit : h.isLiteral = true) (hn : 0 < n)
    (hprint : ∀ c ∈ cs, isPrintable c = true) (hb : b.Holds inLine done)
    (hcol : inLine = false → p.column = 0) :
    ∃ inLine' b', BlockText.Holds b' inLine' (done ++ cs) ∧
      (inLine' = false → (p.afterAll (blockChars n (!inLine) cs)).column = 0) ∧
      blockFrom h n inLine b (p.cells (blockChars n (!inLine) cs ++ rest)) =
        blockFrom h n inLine' b' ((p.afterAll (blockChars n (!inLine) cs)).cells rest) := by
  induction cs generalizing inLine b done p with
  | nil => exact ⟨inLine, b, by simpa using hb, hcol, rfl⟩
  | cons c cs ih =>
    have hc := hprint c List.mem_cons_self
    have hprint' : ∀ d ∈ cs, isPrintable d = true :=
      fun d hd => hprint d (List.mem_cons_of_mem _ hd)
    rw [blockChars, List.append_cons done]
    cases hbreak : isBreak c with
    | true =>
      have hstart : (p.after c).column = 0 := by rw [p.after_break hbreak]
      simp only [if_true, List.cons_append, Spot.afterAll_cons]
      cases inLine with
      | true =>
        obtain ⟨i, b', hb', hi, heq⟩ := ih hprint' (hb.endLine hbreak) (fun _ => hstart)
        refine ⟨i, b', hb', hi, ?_⟩
        rw [blockFrom_in_line hc, if_pos hbreak]
        exact heq
      | false =>
        obtain ⟨i, b', hb', hi, heq⟩ := ih hprint' (hb.emptyLine hbreak) (fun _ => hstart)
        refine ⟨i, b', hb', hi, ?_⟩
        rw [blockFrom_empty_line hc hbreak]
        exact heq
    | false =>
      rw [if_neg (by decide)]
      cases inLine with
      | true =>
        obtain ⟨i, b', hb', hi, heq⟩ := ih hprint' (hb.next hbreak) (fun h => nomatch h)
        refine ⟨i, b', hb', hi, ?_⟩
        rw [Bool.not_true, if_neg (by decide), List.nil_append, List.cons_append,
          blockFrom_in_line hc, hbreak]
        exact heq
      | false =>
        have hmargin := Spot.column_spaces (hcol rfl) n
        obtain ⟨i, b', hb', hi, heq⟩ := ih hprint' (hb.startLine hbreak) (fun h => nomatch h)
        rw [Bool.not_false, if_pos rfl, Spot.afterAll_append]
        refine ⟨i, b', hb', hi, ?_⟩
        rw [List.append_assoc, List.cons_append, blockFrom_spaces (.inl (by rw [hcol rfl]; omega)),
          blockFrom_line_start hlit hn hmargin hc hbreak]
        exact heq

/-- The indentation is found at the first line, if that starts with text. -/
theorem blockFrom_unknown (hlit : h.isLiteral = true) (hn : 0 < n) (hleast : h.leastIndent ≤ n)
    (hcol : p.column = 0) (hc : isPrintable c = true) (hb : isBreak c = false) (hsp : c ≠ ' ') :
    blockFrom h 0 false {} (p.cells (spaces n ++ c :: rest)) =
      blockFrom h n false {} (p.cells (spaces n ++ c :: rest)) := by
  have hmargin := Spot.column_spaces hcol n
  have htab : (c == '\t') = false := beq_eq_false_iff_ne.mpr (ne_of_printable hc).2.1
  rw [blockFrom_spaces (.inr rfl), blockFrom_spaces (.inl (by rw [hcol]; omega)),
    blockFrom_line_start hlit hn hmargin hc hb, Spot.cells, blockFrom]
  simp only [Spot.cell_char, Spot.cell_column, hmargin, hlit, hb, isEnd_of_printable hc, htab,
    beq_eq_false_iff_ne.mpr hsp, Nat.zero_max, Nat.max_eq_left hleast, beq_self_eq_true,
    Bool.and_false, Bool.not_false, Bool.and_self, Bool.false_eq_true, if_true, if_false]

/-- The mark of how breaks at the end are taken. -/
def chompMark : Chomping → List Char
  | .strip => ['-']
  | .clip => []
  | .keep => ['+']

def leadMark (lead : Bool) : List Char := if lead then ['2'] else []

theorem blockMarks_eq (cs : List Char) :
    blockMarks cs =
      leadMark (isSpace (cs.headD 'x') || isBreak (cs.headD 'x')) ++ chompMark (chompingOf cs) := by
  rw [blockMarks, chompingOf]
  congr 1
  rcases cs.reverse with _ | ⟨c, _ | ⟨d, ds⟩⟩
  · rfl
  · cases hc : isBreak c <;> simp [hc, chompMark]
  · cases hc : isBreak c <;> cases hd : isBreak d <;> simp [hc, hd, chompMark]

theorem readMarks_append (lead : Bool) (k : Chomping) :
    readMarks (p.cells (leadMark lead ++ chompMark k ++ '\n' :: rest)) =
      some (k, if lead then 2 else 0,
        (p.afterAll (leadMark lead ++ chompMark k)).cells ('\n' :: rest)) := by
  cases lead <;> cases k <;> rfl

/-- The break after the lines of a text, if it has none. -/
def closing (cs : List Char) : List Char := if cs.getLast?.any isBreak then [] else ['\n']

theorem blockFrom_text (hlit : h.isLiteral = true) (hn : 0 < n) (hne : cs ≠ [])
    (hchomp : h.chomping = chompingOf cs) (hprint : ∀ c ∈ cs, isPrintable c = true)
    (hcol : p.column = 0) (hk : k < n) (hrest : StartsToken rest) :
    blockFrom h n false {} (p.cells (blockChars n true cs ++ (closing cs ++ (spaces k ++ rest)))) =
      some (cs, (p.afterAll (blockChars n true cs ++ closing cs ++ spaces k)).cells rest) := by
  obtain ⟨inLine, b, hb, hcol', heq⟩ :=
    blockFrom_blockChars hlit hn hprint .start fun _ => hcol
  rw [List.nil_append] at hb
  have hline := hb.line hne
  rw [Bool.not_false] at heq hcol'
  rw [heq, closing, hline, Spot.afterAll_append, Spot.afterAll_append]
  cases inLine with
  | false =>
    rw [Bool.not_false, if_pos rfl, List.nil_append, blockFrom_end (hcol' rfl) hk hrest, hchomp,
      hb.finish_eq]
    rfl
  | true =>
    obtain ⟨hbreak, hempty, hstrip⟩ := hb.inside rfl
    have hwhole := hb.whole
    rw [hbreak, hempty, List.append_nil, List.append_nil] at hwhole
    rw [Bool.not_true, if_neg (by decide), List.singleton_append, blockFrom_in_line (by decide),
      if_pos (by decide), blockFrom_end (by rw [Spot.after_break _ (by decide)]) hk hrest, hchomp,
      hstrip, BlockText.finish, hwhole]
    rfl

theorem readBlock_marks {outer : Nat} (lead : Bool) (m : Chomping) :
    readBlock true outer (p.cells (leadMark lead ++ chompMark m ++ '\n' :: rest)) =
      blockFrom
        { isLiteral := true, chomping := m, indent := if lead then outer + 2 else 0
          leastIndent := outer + 1 }
        (if lead then outer + 2 else 0) false {}
        (((p.afterAll (leadMark lead ++ chompMark m)).after '\n').cells rest) := by
  have hcomment : ∀ q : Spot,
      skipComment (q.cells ('\n' :: rest)) = some (q.cells ('\n' :: rest)) := fun _ => rfl
  have hbreak : ∀ q : Spot, skipBreak (q.cells ('\n' :: rest)) = (q.after '\n').cells rest :=
    fun _ => rfl
  have hmax : (max (outer : Int) 0).toNat = outer := by omega
  have hleast : max 1 ((outer : Int) + 1).toNat = outer + 1 := by omega
  rw [readBlock, readMarks_append]
  simp only [Option.bind_eq_bind, Option.bind_some, hcomment, hbreak, hmax, hleast]
  cases lead <;> rfl

/-- A text of lines is read as it is. -/
theorem readBlock_text {outer : Nat} (hne : cs ≠ []) (hprint : ∀ c ∈ cs, isPrintable c = true)
    (hk : k < outer + 2) (hrest : StartsToken rest) :
    readBlock true outer
        (p.cells (blockMarks cs ++
          '\n' :: (blockChars (outer + 2) true cs ++ (closing cs ++ (spaces k ++ rest))))) =
      some (cs, (p.afterAll (blockMarks cs ++
        '\n' :: (blockChars (outer + 2) true cs ++ closing cs ++ spaces k))).cells rest) := by
  have hcol : ∀ q : Spot, (q.after '\n').column = 0 := fun q => by
    rw [q.after_break (by decide)]
  have hpos : 0 < outer + 2 := Nat.succ_pos _
  rw [blockMarks_eq, readBlock_marks, Spot.afterAll_append _ (_ ++ _), Spot.afterAll_cons]
  cases hlead : isSpace (cs.headD 'x') || isBreak (cs.headD 'x') with
  | true => exact blockFrom_text rfl hpos hne rfl hprint (hcol _) hk hrest
  | false =>
    obtain ⟨c, cs', rfl⟩ := List.exists_cons_of_ne_nil hne
    obtain ⟨hsp, hb⟩ := Bool.or_eq_false_iff.mp hlead
    have hc := hprint c List.mem_cons_self
    have hfirst : blockChars (outer + 2) true (c :: cs') ++
        (closing (c :: cs') ++ (spaces k ++ rest)) = spaces (outer + 2) ++ c ::
          (blockChars (outer + 2) false cs' ++ (closing (c :: cs') ++ (spaces k ++ rest))) := by
      rw [blockChars, if_neg (by simpa using hb), if_pos rfl, List.append_assoc, List.cons_append]
    rw [hfirst, if_neg (by decide), blockFrom_unknown rfl hpos (Nat.le_succ _) (hcol _) hc hb
      (by simpa [isSpace] using hsp), ← hfirst]
    exact blockFrom_text rfl hpos hne rfl hprint (hcol _) hk hrest

end Reading

end AbstractMemory.Yaml
