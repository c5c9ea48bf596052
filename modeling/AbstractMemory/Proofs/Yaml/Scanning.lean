import AbstractMemory.Yaml.Token
import AbstractMemory.Proofs.Yaml.Lines

/-! How the scanner goes through a text that was written. Each part of it leads
from one state to another, and parts that follow each other are put together. -/

namespace AbstractMemory.Yaml

namespace Scanner

variable {s s' s'' : Scanner}

/-- Whether reading on from a state gives what reading on from the other does,
with as many steps as there are characters. -/
def Leads (s s' : Scanner) : Prop :=
  ∀ fuel, s.cells.length < fuel → ∃ fuel', s'.cells.length < fuel' ∧ s.run fuel = s'.run fuel'

theorem Leads.trans (h : s.Leads s') (h' : s'.Leads s'') : s.Leads s'' := by
  intro fuel hfuel
  obtain ⟨fuel', hfuel', heq⟩ := h fuel hfuel
  obtain ⟨fuel'', hfuel'', heq'⟩ := h' fuel' hfuel'
  exact ⟨fuel'', hfuel'', heq.trans heq'⟩

theorem Leads.of_step (hstep : s.step = some s') (hless : s'.cells.length < s.cells.length)
    (hmore : s'.tokens.getLast? ≠ some .streamEnd) : s.Leads s' := by
  intro fuel hfuel
  cases fuel with
  | zero => exact absurd hfuel (Nat.not_lt_zero _)
  | succ fuel =>
    refine ⟨fuel, by omega, ?_⟩
    rw [run, hstep]
    simp only [Option.bind_eq_bind, Option.bind_some, if_neg hmore]

/-- States that go to the same token are read on from alike. -/
theorem Leads.of_settle (hsettle : s.settle = s'.settle)
    (hle : s'.cells.length ≤ s.cells.length) : s.Leads s' := by
  intro fuel hfuel
  cases fuel with
  | zero => exact absurd hfuel (Nat.not_lt_zero _)
  | succ fuel =>
    refine ⟨fuel + 1, by omega, ?_⟩
    rw [run, run, step, step, hsettle]

end Scanner

/-- What the scanner keeps beside its place in the text: the tokens so far, and
the columns of the block collections that are open. -/
structure Frame where
  tokens : List Token
  indent : Int
  outer : List Int

namespace Frame

variable {f : Frame} {place : Option KeyPlace} {keyAllowed : Bool} {p q : Spot}
  {cs rest : List Char}

def add (f : Frame) (ts : List Token) : Frame := { f with tokens := f.tokens ++ ts }

/-- The frame in a block collection that starts with a token at a column. -/
def enter (f : Frame) (column : Nat) (t : Token) : Frame :=
  { tokens := f.tokens ++ [t], indent := column, outer := f.indent :: f.outer }

/-- The frame in the block collection at a column, which is entered unless it
is the innermost. -/
def within (f : Frame) (column : Nat) (t : Token) : Frame :=
  if f.indent < column then f.enter column t else f

/-- The state of the scanner in front of a text. -/
def facing (f : Frame) (place : Option KeyPlace) (keyAllowed : Bool) (p : Spot)
    (cs : List Char) : Scanner :=
  { cells := p.cells cs
    tokens := f.tokens
    indent := f.indent
    outerIndents := f.outer
    places := [place]
    keyAllowed }

@[simp] theorem add_nil (f : Frame) : f.add [] = f := by
  rw [add, List.append_nil]

@[simp] theorem add_add (f : Frame) (ts us : List Token) : (f.add ts).add us = f.add (ts ++ us) := by
  rw [add, add, add, List.append_assoc]

theorem within_eq {column : Nat} {t : Token} (h : f.indent = column) : f.within column t = f :=
  if_neg (by omega)

theorem within_eq_enter {column : Nat} {t : Token} (h : f.indent < column) :
    f.within column t = f.enter column t :=
  if_pos h

theorem indent_within {column : Nat} {t : Token} (h : f.indent ≤ column) :
    (f.within column t).indent = column := by
  rw [within]
  split
  · rfl
  · omega

/-- A collection is entered only once. -/
theorem within_add {column : Nat} {t : Token} (h : f.indent ≤ column) (ts : List Token) :
    ((f.within column t).add ts).within column t = (f.within column t).add ts :=
  within_eq (indent_within h)

end Frame

namespace Scanner

variable {f : Frame} {place : Option KeyPlace} {keyAllowed : Bool} {p q : Spot} {k : Nat}
  {cs rest : List Char}

theorem skipToToken_token {inFlow : Bool} (h : StartsToken cs) :
    skipToToken inFlow keyAllowed false (p.cells cs) = (keyAllowed, p.cells cs) := by
  obtain ⟨hgap, hhash, hmark⟩ := h
  simp only [isGap, isBlank, Bool.or_eq_false_iff] at hgap
  obtain ⟨⟨hsp, htab⟩, hb⟩ := hgap
  rw [Spot.cells_eq_cons, skipToToken]
  simp only [Spot.cell_char, hb, hsp, htab, beq_eq_false_iff_ne.mpr hhash,
    beq_eq_false_iff_ne.mpr hmark, Bool.false_and, Bool.or_self, Bool.false_eq_true, if_false,
    ite_self]

theorem skipToToken_spaces :
    skipToToken false keyAllowed false (p.cells (spaces k ++ cs)) =
      skipToToken false keyAllowed false ((p.afterAll (spaces k)).cells cs) := by
  induction k generalizing p with
  | zero => rfl
  | succ k ih =>
    rw [spaces_succ, List.cons_append, Spot.afterAll_cons, ← ih]
    rfl

/-- On the next line a key is allowed. -/
theorem skipToToken_line (h : StartsToken cs) :
    skipToToken false keyAllowed false (p.cells ('\n' :: (spaces k ++ cs))) =
      (true, (p.afterAll ('\n' :: spaces k)).cells cs) := by
  have hbreak : skipToToken false keyAllowed false (p.cells ('\n' :: (spaces k ++ cs))) =
      skipToToken false (keyAllowed || true) false ((p.after '\n').cells (spaces k ++ cs)) := rfl
  rw [hbreak, Bool.or_true, skipToToken_spaces, skipToToken_token h, Spot.afterAll_cons]

/-- Whether a place for a key is given up on a line. -/
def Fades (place : Option KeyPlace) (line : Nat) : Prop :=
  ∀ k, place = some k → k.isRequired = false ∧ k.cell.line < line

theorem fades_none (line : Nat) : Fades none line := fun _ h => nomatch h

theorem Fades.refresh_eq {line : Nat} {here : Cell} (h : Fades place line) (hline : here.line = line) :
    refresh here place = some none := by
  cases place with
  | none => rfl
  | some k =>
    obtain ⟨hreq, hless⟩ := h k rfl
    have hstale : (decide (k.cell.line < here.line) ||
        decide (k.cell.index + maxKeyLength < here.index)) = true :=
      Bool.or_eq_true_iff.mpr (.inl (decide_eq_true (hline ▸ hless)))
    simp only [refresh, hstale, if_true, givenUp, hreq, Bool.false_eq_true, if_false]

/-- Whether a place for a key is still good at a spot. -/
def Lasts (place : Option KeyPlace) (p : Spot) : Prop :=
  ∀ k, place = some k → k.cell.line = p.line ∧ p.index ≤ k.cell.index + maxKeyLength

theorem lasts_none (p : Spot) : Lasts none p := fun _ h => nomatch h

theorem Lasts.refresh_eq {c : Char} (h : Lasts place p) : refresh (p.cell c) place = some place := by
  cases place with
  | none => rfl
  | some k =>
    obtain ⟨hline, hindex⟩ := h k rfl
    have hfresh : (decide (k.cell.line < (p.cell c).line) ||
        decide (k.cell.index + maxKeyLength < (p.cell c).index)) = false := by
      rw [Bool.or_eq_false_iff]
      exact ⟨decide_eq_false (by rw [hline]; exact Nat.lt_irrefl _),
        decide_eq_false (Nat.not_lt.mpr hindex)⟩
    simp only [refresh, hfresh, Bool.false_eq_true, if_false]

/-- The token that a state goes to, and what becomes of the place for a key. -/
theorem settle_facing {place' : Option KeyPlace} {keyAllowed' : Bool}
    (hskip : skipToToken false keyAllowed false (p.cells cs) = (keyAllowed', q.cells rest))
    (hplace : refresh (q.cell (rest.headD '\x00')) place = some place') :
    (f.facing place keyAllowed p cs).settle =
      some ((f.facing place' keyAllowed' q rest).closeTo q.column) := by
  have hhere : (q.cells rest).headD default = q.cell (rest.headD '\x00') := by
    rw [q.cells_eq_cons rest]
    rfl
  rw [settle]
  simp only [inFlow, Frame.facing, List.length_singleton, Nat.lt_irrefl, decide_false, hskip,
    dropStalePlaces, here, hhere, List.mapM_cons, List.mapM_nil, hplace, Option.bind_eq_bind,
    Option.bind_some, Option.pure_def]
  rfl

theorem closeTo_facing {column : Int} (h : f.indent ≤ column) :
    (f.facing place keyAllowed p cs).closeTo column = f.facing place keyAllowed p cs := by
  have hclose : closeBlocks column f.outer f.indent f.tokens = (f.outer, f.indent, f.tokens) := by
    cases f.outer with
    | nil => rfl
    | cons o os => rw [closeBlocks, if_neg (by omega)]
  simp only [closeTo, Frame.facing, inFlow, List.length_singleton, hclose]
  rfl

/-- Blanks and breaks in front of a token may be left out. -/
theorem Leads.skip {keyAllowed' : Bool}
    (hskip : skipToToken false keyAllowed false (p.cells cs) = (keyAllowed', q.cells rest))
    (hrest : StartsToken rest) (hplace : Fades place q.line) (hle : rest.length ≤ cs.length) :
    (f.facing place keyAllowed p cs).Leads (f.facing none keyAllowed' q rest) := by
  apply Leads.of_settle
  · rw [settle_facing hskip (hplace.refresh_eq rfl), settle_facing (skipToToken_token hrest) rfl]
  · simpa [Frame.facing] using hle

theorem Leads.line (hrest : StartsToken rest) (hplace : Fades place (p.line + 1)) :
    (f.facing place keyAllowed p ('\n' :: (spaces k ++ rest))).Leads
      (f.facing none true (p.afterAll ('\n' :: spaces k)) rest) := by
  apply Leads.skip (skipToToken_line hrest) hrest
  · rwa [Spot.afterAll_cons, Spot.afterAll_spaces, p.after_break (by decide)]
  · simp only [List.length_cons, List.length_append]
    omega

theorem Leads.space (hrest : StartsToken rest) :
    (f.facing none keyAllowed p (' ' :: rest)).Leads
      (f.facing none keyAllowed (p.after ' ') rest) := by
  apply Leads.skip _ hrest (fades_none _)
  · exact Nat.le_succ _
  · exact (skipToToken_spaces (k := 1)).trans (skipToToken_token hrest)

/-- A collection is left in front of a token that is indented by less. -/
theorem Leads.leave {column : Nat} {t : Token} {ts : List Token} (h : p.column < column)
    (hrest : StartsToken rest) :
    (((f.enter column t).add ts).facing none keyAllowed p rest).Leads
      ((f.add (t :: ts ++ [.blockEnd])).facing none keyAllowed p rest) := by
  apply Leads.of_settle
  · rw [settle_facing (skipToToken_token hrest) rfl, settle_facing (skipToToken_token hrest) rfl]
    have hclose : closeBlocks p.column (f.indent :: f.outer) column (f.tokens ++ [t] ++ ts) =
        closeBlocks p.column f.outer f.indent (f.tokens ++ (t :: ts ++ [.blockEnd])) := by
      rw [closeBlocks, if_pos (by omega)]
      simp
    simp only [closeTo, Frame.facing, Frame.add, Frame.enter, inFlow, List.length_singleton, hclose]
    rfl
  · exact Nat.le_refl _

section Step

variable {c : Char}

@[simp] theorem char_facing : (f.facing place keyAllowed p cs).char = cs.headD '\x00' :=
  p.ahead_cells_zero cs

@[simp] theorem next_facing : (f.facing place keyAllowed p (c :: cs)).next = cs.headD '\x00' :=
  (p.after c).ahead_cells_zero cs

@[simp] theorem inFlow_facing : (f.facing place keyAllowed p cs).inFlow = false := rfl

@[simp] theorem here_facing :
    (f.facing place keyAllowed p cs).here = p.cell (cs.headD '\x00') := by
  rw [here, Frame.facing, p.cells_eq_cons cs]
  rfl

@[simp] theorem cells_facing : (f.facing place keyAllowed p cs).cells = p.cells cs := rfl

@[simp] theorem indent_facing : (f.facing place keyAllowed p cs).indent = f.indent := rfl

@[simp] theorem removePlace_facing :
    (f.facing none keyAllowed p cs).removePlace = some (f.facing none keyAllowed p cs) := rfl

theorem step_facing (hcs : StartsToken cs) (hcol : f.indent ≤ p.column) (hplace : Lasts place p) :
    (f.facing place keyAllowed p cs).step = (f.facing place keyAllowed p cs).scanToken := by
  rw [step, settle_facing (skipToToken_token hcs) hplace.refresh_eq, closeTo_facing hcol]
  rfl

theorem atDocumentMark_of_ne (hdash : c ≠ '-') (hdot : c ≠ '.') :
    atDocumentMark (p.cells (c :: cs)) = false := by
  rw [Spot.cells, atDocumentMark]
  simp [ahead, hdash, hdot]

theorem scanToken_dash (h : isGap (cs.headD '\x00') = true) :
    (f.facing place keyAllowed p ('-' :: cs)).scanToken =
      (f.facing place keyAllowed p ('-' :: cs)).scanBlockEntry := by
  have hmark : atDocumentMark (p.cells ('-' :: cs)) = false := by
    have hnext : cs.headD '\x00' ≠ '-' := by
      intro heq
      rw [heq] at h
      exact absurd h (by decide)
    have hzero : ahead (p.cells ('-' :: cs)) 0 = '-' := rfl
    have hone : ahead (p.cells ('-' :: cs)) 1 = cs.headD '\x00' :=
      (p.after '-').ahead_cells_zero cs
    rw [Spot.cells] at hzero hone ⊢
    rw [atDocumentMark]
    simp only [hzero, hone, beq_eq_false_iff_ne.mpr hnext, show ('-' == '.') = false by decide,
      Bool.and_false, Bool.false_and, Bool.or_self]
  rw [scanToken]
  simp only [char_facing, next_facing, here_facing, cells_facing, hmark, List.headD_cons]
  generalize cs.headD '\x00' = d at h
  simp [isGapOrEnd, h, isEnd]

theorem scanToken_colon (h : isGap (cs.headD '\x00') = true) :
    (f.facing place keyAllowed p (':' :: cs)).scanToken =
      (f.facing place keyAllowed p (':' :: cs)).scanValue := by
  rw [scanToken]
  simp only [char_facing, next_facing, here_facing, cells_facing, List.headD_cons,
    atDocumentMark_of_ne (show ':' ≠ '-' by decide) (by decide)]
  generalize cs.headD '\x00' = d at h
  simp [isGapOrEnd, h, isEnd]

/-- The marks that a value other than a plain scalar may start with. -/
def valueMarks : List (Char × (Scanner → Option Scanner)) :=
  [('[', (scanFlowStart · .flowSequenceStart)), ('\x7b', (scanFlowStart · .flowMappingStart)),
    ('|', (scanBlockScalar · true)), ('\'', (scanQuoted · true)), ('"', (scanQuoted · false))]

theorem scanToken_mark (scan : Scanner → Option Scanner) (h : (c, scan) ∈ valueMarks) :
    (f.facing place keyAllowed p (c :: cs)).scanToken =
      scan (f.facing place keyAllowed p (c :: cs)) := by
  have hne : c ≠ '-' ∧ c ≠ '.' := by
    simp only [valueMarks, List.mem_cons, Prod.mk.injEq, List.not_mem_nil, or_false] at h
    rcases h with ⟨rfl, _⟩ | ⟨rfl, _⟩ | ⟨rfl, _⟩ | ⟨rfl, _⟩ | ⟨rfl, _⟩ <;> decide
  rw [scanToken]
  simp only [char_facing, here_facing, cells_facing, List.headD_cons,
    atDocumentMark_of_ne hne.1 hne.2]
  simp only [valueMarks, List.mem_cons, Prod.mk.injEq, List.not_mem_nil, or_false] at h
  rcases h with ⟨rfl, rfl⟩ | ⟨rfl, rfl⟩ | ⟨rfl, rfl⟩ | ⟨rfl, rfl⟩ | ⟨rfl, rfl⟩ <;> simp [isEnd]

theorem take_three_append {d : Char} (h : cs.take 3 ≠ [d, d, d]) (hrest : rest.headD '\x00' ≠ d) :
    (cs ++ rest).take 3 ≠ [d, d, d] := by
  rcases cs with _ | ⟨a, _ | ⟨b, _ | ⟨e, cs⟩⟩⟩ <;> cases rest <;> simp_all

theorem atDocumentMark_of_take (hdash : cs.take 3 ≠ ['-', '-', '-'])
    (hdot : cs.take 3 ≠ ['.', '.', '.']) : atDocumentMark (p.cells cs) = false := by
  have hmark : ∀ d, '\x00' ≠ d → cs.take 3 ≠ [d, d, d] →
      (ahead (p.cells cs) 0 == d && ahead (p.cells cs) 1 == d && ahead (p.cells cs) 2 == d) =
        false := by
    intro d hd h
    simp only [Spot.ahead_cells]
    rcases cs with _ | ⟨a, _ | ⟨b, _ | ⟨e, cs⟩⟩⟩ <;> simp_all
  rw [Spot.cells_eq_cons] at hmark ⊢
  rw [atDocumentMark]
  simp only [hmark '-' (by decide) hdash, hmark '.' (by decide) hdot, Bool.or_self, Bool.and_false]

/-- The first character of a plain scalar is no mark, given the next one. -/
theorem first_of_safe (hcs : isPlainSafe (c :: cs) = true) (rest : List Char) :
    "#,[]\x7b\x7d&*!|>'\"%@`".toList.contains c = false ∧
      (c = '-' ∨ c = '?' ∨ c = ':' → isGapOrEnd ((cs ++ rest).headD '\x00') = false) := by
  obtain ⟨_, _, _, hmark⟩ := isPlainSafe_cons hcs
  simp only [hasMark, Bool.or_eq_false_iff, isLeadingMark] at hmark
  obtain ⟨⟨_, hfirst, hlead⟩, _⟩ := hmark
  refine ⟨hfirst, fun hc => ?_⟩
  have hmay : (c == '?' || c == ':' || c == '-') = true := by
    rcases hc with rfl | rfl | rfl <;> rfl
  rw [List.headD_cons, hmay, Bool.true_and] at hlead
  cases cs with
  | nil => exact absurd hlead (show isGapOrEnd '\x00' ≠ false by decide)
  | cons d cs => exact hlead

theorem startsPlain_of_safe (hcs : isPlainSafe (c :: cs) = true) (rest : List Char) :
    startsPlain false c ((cs ++ rest).headD '\x00') = true := by
  obtain ⟨hchars, hsp, _, _⟩ := isPlainSafe_cons hcs
  obtain ⟨hc, hb⟩ := hchars c List.mem_cons_self
  have hgap : isGapOrEnd c = false := by
    rw [isGapOrEnd, isGap_of_printable hc, hb, isEnd_of_printable hc]
    simpa using hsp
  obtain ⟨hfirst, hnext⟩ := first_of_safe hcs rest
  generalize (cs ++ rest).headD '\x00' = d at hnext ⊢
  by_cases hmay : c = '-' ∨ c = '?' ∨ c = ':'
  · have hd := hnext hmay
    have hblank : isBlank d = false := by
      simp only [isGapOrEnd, isGap, Bool.or_eq_false_iff] at hd
      exact hd.1.1
    rcases hmay with rfl | rfl | rfl <;> simp [startsPlain, hd, hblank]
  · simp only [not_or] at hmay
    simp at hfirst
    simp [startsPlain, hgap, hfirst, hmay]

theorem scanToken_plain (hcs : isPlainSafe cs = true) (hdash : rest.headD '\x00' ≠ '-')
    (hdot : rest.headD '\x00' ≠ '.') :
    (f.facing place keyAllowed p (cs ++ rest)).scanToken =
      (f.facing place keyAllowed p (cs ++ rest)).scanPlain := by
  cases cs with
  | nil => exact absurd hcs (by decide)
  | cons c cs =>
    obtain ⟨hchars, _, _, hmark⟩ := isPlainSafe_cons hcs
    have hc := (hchars c List.mem_cons_self).1
    simp only [hasMark, Bool.or_eq_false_iff, beq_eq_false_iff_ne] at hmark
    have hdoc : atDocumentMark (p.cells (c :: cs ++ rest)) = false :=
      atDocumentMark_of_take (take_three_append hmark.1.1.1 hdash)
        (take_three_append hmark.1.1.2 hdot)
    obtain ⟨hfirst, hnext⟩ := first_of_safe hcs rest
    have hstart := startsPlain_of_safe hcs rest
    rw [List.cons_append] at hdoc ⊢
    rw [scanToken]
    simp only [char_facing, here_facing, cells_facing, hdoc, inFlow_facing, List.headD_cons,
      next_facing, isEnd_of_printable hc, hstart, Bool.false_or]
    generalize (cs ++ rest).headD '\x00' = d at hnext
    simp at hfirst
    simp [hfirst]
    rw [if_neg fun h => absurd h.2 (by simp [hnext (.inl h.1)]),
      if_neg fun h => absurd h.2 (by simp [hnext (.inr (.inl h.1))]),
      if_neg fun h => absurd h.2 (by simp [hnext (.inr (.inr h.1))])]

end Step

/-- The place for a key that is noted in front of a text. -/
def placeAt (f : Frame) (keyAllowed : Bool) (p : Spot) (cs : List Char) : Option KeyPlace :=
  if keyAllowed then
    some {
      position := f.tokens.length
      isRequired := f.indent == p.column
      cell := p.cell (cs.headD '\x00') }
  else none

theorem savePlace_facing :
    (f.facing none keyAllowed p cs).savePlace =
      some (f.facing (placeAt f keyAllowed p cs) keyAllowed p cs) := by
  cases keyAllowed with
  | false => rfl
  | true =>
    have hhere : (f.facing none true p cs).here = p.cell (cs.headD '\x00') := here_facing
    simp only [savePlace, removePlace, givenUp, placeAt]
    rw [Frame.facing] at hhere
    simp only [Frame.facing, if_true, Option.map_some, Option.bind_eq_bind, Option.bind_some, hhere, inFlow]
    rfl

theorem fades_placeAt {line : Nat} (hcol : f.indent < p.column) (hline : p.line < line) :
    Fades (placeAt f keyAllowed p cs) line := by
  intro k hk
  cases keyAllowed with
  | false => cases hk
  | true =>
    obtain rfl := Option.some.inj hk
    exact ⟨beq_eq_false_iff_ne.mpr (by omega), hline⟩

/-- A token that was read, with the state after it. -/
theorem Leads.read {t : Token} {place' : Option KeyPlace} {keyAllowed' : Bool}
    (hcs : StartsToken cs) (hcol : f.indent ≤ p.column)
    (hscan : (f.facing none keyAllowed p cs).scanToken =
      some ((f.add [t]).facing place' keyAllowed' q rest))
    (ht : t ≠ .streamEnd) (hless : rest.length < cs.length) :
    (f.facing none keyAllowed p cs).Leads ((f.add [t]).facing place' keyAllowed' q rest) := by
  apply Leads.of_step ((step_facing hcs hcol (lasts_none p)).trans hscan)
  · simpa using hless
  · simpa [Frame.facing, Frame.add] using ht

section Value

variable {i : Nat}

theorem startsToken_of_safe (hcs : isPlainSafe cs = true) : StartsToken (cs ++ rest) := by
  cases cs with
  | nil => exact absurd hcs (by decide)
  | cons c cs =>
    obtain ⟨hchars, hsp, _, _⟩ := isPlainSafe_cons hcs
    obtain ⟨hc, hb⟩ := hchars c List.mem_cons_self
    refine ⟨?_, ?_, (ne_of_printable hc).2.2.2.2⟩
    · exact isGap_eq_false hc hb hsp
    · have hfirst := (first_of_safe hcs rest).1
      simp at hfirst
      exact hfirst.1

/-- A plain value. -/
theorem Leads.plain (hcs : isPlainSafe cs = true) (hindent : f.indent = i) (hcol : i < p.column)
    (hk : k ≤ i) (hrest : StartsToken rest) :
    (f.facing none keyAllowed p (cs ++ '\n' :: (spaces k ++ rest))).Leads
      ((f.add [.scalar cs .plain]).facing none true (p.afterAll (cs ++ '\n' :: spaces k)) rest) := by
  have hread : readPlain (f.indent + 1).toNat false (p.cells (cs ++ '\n' :: (spaces k ++ rest))) =
      some (cs, true, (p.afterAll (cs ++ '\n' :: spaces k)).cells rest) := by
    apply readPlain_value hcs _ _ hrest <;> omega
  have hscan : (f.facing none keyAllowed p (cs ++ '\n' :: (spaces k ++ rest))).scanToken =
      some ((f.add [.scalar cs .plain]).facing
        (placeAt f keyAllowed p (cs ++ '\n' :: (spaces k ++ rest))) true
        (p.afterAll (cs ++ '\n' :: spaces k)) rest) := by
    rw [scanToken_plain hcs (by simp) (by simp), scanPlain, savePlace_facing]
    simp only [Option.bind_eq_bind, Option.bind_some, inFlow_facing, indent_facing, cells_facing,
      hread]
    rfl
  apply (Leads.read (startsToken_of_safe hcs) (by omega) hscan (by simp) _).trans
  · exact Leads.skip (skipToToken_token hrest) hrest
      (fades_placeAt (by omega) (p.line_lt_afterAll cs (spaces k) (by decide))) (Nat.le_refl _)
  · simp
    omega

theorem scanToken_single {ds : List Char}
    (h : singleQuotedFrom [] .none ((p.after '\'').cells ds) = some (cs, q.cells rest)) :
    (f.facing none keyAllowed p ('\'' :: ds)).scanToken =
      some ((f.add [.scalar cs .singleQuoted]).facing (placeAt f keyAllowed p ('\'' :: ds)) false q
        rest) := by
  have hdrop : (p.cells ('\'' :: ds)).drop 1 = (p.after '\'').cells ds := rfl
  rw [scanToken_mark (scanQuoted · true) (by simp [valueMarks]), scanQuoted, savePlace_facing]
  simp only [Option.bind_eq_bind, Option.bind_some, cells_facing, hdrop, h, if_true]
  rfl

theorem scanToken_double {ds : List Char}
    (h : doubleQuotedFrom [] .none 0 ((p.after '"').cells ds) = some (cs, q.cells rest)) :
    (f.facing none keyAllowed p ('"' :: ds)).scanToken =
      some ((f.add [.scalar cs .doubleQuoted]).facing (placeAt f keyAllowed p ('"' :: ds)) false q
        rest) := by
  have hdrop : (p.cells ('"' :: ds)).drop 1 = (p.after '"').cells ds := rfl
  rw [scanToken_mark (scanQuoted · false) (by simp [valueMarks]), scanQuoted, savePlace_facing]
  simp only [Option.bind_eq_bind, Option.bind_some, cells_facing, hdrop, h, Bool.false_eq_true,
    if_false]
  rfl

/-- A value that was read on its line, of which only the end is left. -/
theorem Leads.read_line {t : Token} {ds : List Char} (hds : StartsToken ds)
    (hcol : f.indent < p.column)
    (hscan : (f.facing none keyAllowed p ds).scanToken =
      some ((f.add [t]).facing (placeAt f keyAllowed p ds) false q ('\n' :: (spaces k ++ rest))))
    (ht : t ≠ .streamEnd) (hless : ('\n' :: (spaces k ++ rest)).length < ds.length)
    (hline : p.line ≤ q.line) (hrest : StartsToken rest) :
    (f.facing none keyAllowed p ds).Leads
      ((f.add [t]).facing none true (q.afterAll ('\n' :: spaces k)) rest) := by
  apply (Leads.read hds (by omega) hscan ht hless).trans
  exact Leads.line hrest (fades_placeAt hcol (Nat.lt_succ_of_le hline))

/-- A text in single quotes. -/
theorem Leads.single (hcs : isSingleSafe cs = true) (hfeed : '\n' ∉ cs) (hindent : f.indent = i)
    (hcol : i < p.column) (hrest : StartsToken rest) :
    (f.facing none keyAllowed p
        ('\'' :: (singleChars (i + 2) false cs ++ '\'' :: '\n' :: (spaces k ++ rest)))).Leads
      ((f.add [.scalar cs .singleQuoted]).facing none true
        (p.afterAll ('\'' :: (singleChars (i + 2) false cs ++ '\'' :: '\n' :: spaces k))) rest) := by
  have hpos : 0 < (p.after '\'').column := Nat.succ_pos _
  have hread := singleQuotedFrom_text (Nat.succ_pos (i + 1)) hcs hfeed hpos
    (show ('\n' :: (spaces k ++ rest)).headD '\x00' ≠ '\'' by simp)
  have hspot : p.afterAll ('\'' :: (singleChars (i + 2) false cs ++ '\'' :: '\n' :: spaces k)) =
      ((p.after '\'').afterAll (singleChars (i + 2) false cs ++ ['\''])).afterAll
        ('\n' :: spaces k) := by
    rw [← Spot.afterAll_append, ← Spot.afterAll_cons]
    simp
  rw [hspot]
  apply Leads.read_line (.cons (by decide) _) (by omega) (scanToken_single hread) (by simp) _
    (p.line_le_afterAll ('\'' :: _)) hrest
  simp
  omega

/-- A text in double quotes. -/
theorem Leads.double (hindent : f.indent = i) (hcol : i < p.column) (hrest : StartsToken rest) :
    (f.facing none keyAllowed p
        ('"' :: (doubleChars cs ++ '"' :: '\n' :: (spaces k ++ rest)))).Leads
      ((f.add [.scalar cs .doubleQuoted]).facing none true
        (p.afterAll ('"' :: (doubleChars cs ++ '"' :: '\n' :: spaces k))) rest) := by
  have hpos : 0 < (p.after '"').column := Nat.succ_pos _
  have hread := doubleQuotedFrom_text cs ('\n' :: (spaces k ++ rest)) hpos
  have hspot : p.afterAll ('"' :: (doubleChars cs ++ '"' :: '\n' :: spaces k)) =
      ((p.after '"').afterAll (doubleChars cs ++ ['"'])).afterAll ('\n' :: spaces k) := by
    rw [← Spot.afterAll_append, ← Spot.afterAll_cons]
    simp
  rw [hspot]
  apply Leads.read_line (.cons (by decide) _) (by omega) (scanToken_double hread) (by simp) _
    (p.line_le_afterAll ('"' :: _)) hrest
  simp
  omega

/-- A text of lines. -/
theorem Leads.lines (hne : cs ≠ []) (hprint : ∀ c ∈ cs, isPrintable c = true)
    (hindent : f.indent = i) (hcol : i < p.column) (hk : k ≤ i) (hrest : StartsToken rest) :
    (f.facing none keyAllowed p ('|' :: (blockMarks cs ++
        '\n' :: (blockChars (i + 2) true cs ++ (closing cs ++ (spaces k ++ rest)))))).Leads
      ((f.add [.scalar cs .literal]).facing none true
        (p.afterAll ('|' :: (blockMarks cs ++
          '\n' :: (blockChars (i + 2) true cs ++ closing cs ++ spaces k)))) rest) := by
  have hk' : k < i + 2 := by omega
  have hread := readBlock_text (p := p.after '|') hne hprint hk' hrest
  rw [← hindent] at hread
  apply Leads.read (.cons (by decide) _) (by omega) _ (by simp)
  · simp
    omega
  · rw [scanToken_mark (scanBlockScalar · true) (by simp [valueMarks]), scanBlockScalar]
    have hdrop : ∀ ds, (p.cells ('|' :: ds)).drop 1 = (p.after '|').cells ds := fun _ => rfl
    simp only [removePlace_facing, Option.bind_eq_bind, Option.bind_some, indent_facing,
      cells_facing, hdrop, hread, if_true]
    rfl

end Value

section Flow

variable {t t' : Token} {o e : Char}

/-- The marks around a flow collection, with their tokens. -/
def flowMarks : List ((Char × Token) × (Char × Token)) :=
  [(('[', .flowSequenceStart), (']', .flowSequenceEnd)),
    (('\x7b', .flowMappingStart), ('\x7d', .flowMappingEnd))]

/-- The state of the scanner in a flow collection. -/
def inside (f : Frame) (place : Option KeyPlace) (p : Spot) (cs : List Char) : Scanner :=
  { f.facing none true p cs with places := [none, place] }

theorem step_flowStart (h : ((o, t), (e, t')) ∈ flowMarks) (hcol : f.indent ≤ p.column) :
    (f.facing none keyAllowed p (o :: cs)).step =
      some (inside (f.add [t]) (placeAt f keyAllowed p (o :: cs)) (p.after o) cs) := by
  have hstart : StartsToken (o :: cs) ∧ (o, (scanFlowStart · t)) ∈ valueMarks := by
    simp only [flowMarks, List.mem_cons, Prod.mk.injEq, List.not_mem_nil, or_false] at h
    rcases h with ⟨⟨rfl, rfl⟩, _⟩ | ⟨⟨rfl, rfl⟩, _⟩
    · exact ⟨.cons (by decide) _, by simp [valueMarks]⟩
    · exact ⟨.cons (by decide) _, by simp [valueMarks]⟩
  rw [step_facing hstart.1 hcol (lasts_none p), scanToken_mark _ hstart.2, scanFlowStart,
    savePlace_facing]
  rfl

theorem settle_inside (hcs : StartsToken (e :: cs)) (hplace : Lasts place p) :
    (inside f place p (e :: cs)).settle = some (inside f place p (e :: cs)) := by
  have hskip : skipToToken true true false (p.cells (e :: cs)) = (true, p.cells (e :: cs)) :=
    skipToToken_token hcs
  have hhere : (p.cells (e :: cs)).headD default = p.cell e := rfl
  rw [settle]
  simp only [inFlow, inside, Frame.facing, List.length_cons, List.length_nil, Nat.one_lt_succ_succ,
    decide_true, hskip, dropStalePlaces, here, hhere, List.mapM_cons, List.mapM_nil,
    (lasts_none p).refresh_eq, hplace.refresh_eq, Option.bind_eq_bind, Option.bind_some, Option.pure_def]
  rfl

theorem step_flowEnd (h : ((o, t), (e, t')) ∈ flowMarks) (hplace : Lasts place p) :
    (inside f place p (e :: cs)).step = some ((f.add [t']).facing place false (p.after e) cs) := by
  have hcells : (inside f place p (e :: cs)).cells = p.cells (e :: cs) := rfl
  have hchar : (inside f place p (e :: cs)).char = e := rfl
  simp only [flowMarks, List.mem_cons, Prod.mk.injEq, List.not_mem_nil, or_false] at h
  rw [step]
  rcases h with ⟨_, rfl, rfl⟩ | ⟨_, rfl, rfl⟩
  · rw [settle_inside (.cons (by decide) _) hplace]
    simp [scanToken, hcells, hchar, isEnd,
      atDocumentMark_of_ne (show ']' ≠ '-' by decide) (by decide)]
    rfl
  · rw [settle_inside (.cons (by decide) _) hplace]
    simp [scanToken, hcells, hchar, isEnd,
      atDocumentMark_of_ne (show '\x7d' ≠ '-' by decide) (by decide)]
    rfl

theorem lasts_placeAt (cs : List Char) (ho : isBreak o = false) (hsize : o.utf8Size ≤ maxKeyLength) :
    Lasts (placeAt f keyAllowed p cs) (p.after o) := by
  intro k hk
  cases keyAllowed with
  | false => cases hk
  | true =>
    obtain rfl := Option.some.inj hk
    rw [p.after_same_line ho]
    exact ⟨rfl, Nat.add_le_add_left hsize _⟩

/-- A flow collection without anything in it. -/
theorem Leads.emptyFlow (h : ((o, t), (e, t')) ∈ flowMarks) (hcol : f.indent < p.column)
    (hrest : StartsToken rest) :
    (f.facing none keyAllowed p (o :: e :: '\n' :: (spaces k ++ rest))).Leads
      ((f.add [t, t']).facing none true (p.afterAll (o :: e :: '\n' :: spaces k)) rest) := by
  obtain ⟨ho, he, hsize, ht, ht'⟩ : isBreak o = false ∧ isBreak e = false ∧
      o.utf8Size ≤ maxKeyLength ∧ t ≠ .streamEnd ∧ t' ≠ .streamEnd := by
    simp only [flowMarks, List.mem_cons, Prod.mk.injEq, List.not_mem_nil, or_false] at h
    rcases h with ⟨⟨rfl, rfl⟩, rfl, rfl⟩ | ⟨⟨rfl, rfl⟩, rfl, rfl⟩ <;> decide
  apply (Leads.of_step (step_flowStart h (Int.le_of_lt hcol)) _ _).trans
  · apply (Leads.of_step (step_flowEnd h (lasts_placeAt _ ho hsize)) _ _).trans
    · rw [Frame.add_add]
      apply Leads.line hrest (fades_placeAt hcol _)
      rw [Spot.after_same_line _ he, Spot.after_same_line _ ho]
      exact Nat.lt_succ_self _
    · simp [inside]
    · simpa [Frame.facing, Frame.add] using ht'
  · simp [inside]
  · simpa [inside, Frame.facing, Frame.add] using ht

end Flow

section Collection

theorem scanToken_key (hcs : isPlainSafe cs = true) (hcol : f.indent ≤ p.column)
    (hrest : isGap (rest.headD '\x00') = true) :
    (f.facing none true p (cs ++ ':' :: rest)).scanToken =
      some ((f.add [.scalar cs .plain]).facing (placeAt f true p (cs ++ ':' :: rest)) false
        (p.afterAll cs) (':' :: rest)) := by
  have hread : readPlain (f.indent + 1).toNat false (p.cells (cs ++ ':' :: rest)) =
      some (cs, false, (p.afterAll cs).cells (':' :: rest)) := by
    apply readPlain_key hcs
    · omega
    · rw [isGapOrEnd, hrest, Bool.true_or]
  rw [scanToken_plain hcs (by simp) (by simp), scanPlain, savePlace_facing]
  simp only [Option.bind_eq_bind, Option.bind_some, inFlow_facing, indent_facing, cells_facing,
    hread]
  rfl

/-- The colon after a key puts the token of a key in front of it, and that of
the collection if it is the first there. -/
theorem scanValue_facing {t : Token} (cs : List Char) :
    ((f.add [t]).facing (placeAt f true p cs) keyAllowed q (':' :: rest)).scanValue =
      some (((f.within p.column .blockMappingStart).add [.key, t, .value]).facing none false
        (q.after ':') rest) := by
  by_cases h : f.indent < p.column
  · simp [scanValue, placeAt, Frame.facing, Frame.add, Frame.within, Frame.enter, insertAt,
      openBlock, inFlow, emit, drop, h]
  · simp [scanValue, placeAt, Frame.facing, Frame.add, Frame.within, insertAt, openBlock, inFlow,
      emit, drop, h]

/-- A key of a mapping, with the colon after it. -/
theorem Leads.key (hcs : isPlainSafe cs = true)
    (hsize : (cs.map Char.utf8Size).sum ≤ maxKeyLength) (hcol : f.indent ≤ p.column)
    (hrest : isGap (rest.headD '\x00') = true) :
    (f.facing none true p (cs ++ ':' :: rest)).Leads
      (((f.within p.column .blockMappingStart).add [.key, .scalar cs .plain, .value]).facing none
        false (p.afterAll (cs ++ [':'])) rest) := by
  have hspot := p.afterAll_same_line (isBreak_of_safe hcs)
  have hpos : 0 < cs.length := by
    cases cs with
    | nil => exact absurd hcs (by decide)
    | cons c cs => exact Nat.succ_pos _
  have hlasts : Lasts (placeAt f true p (cs ++ ':' :: rest)) (p.afterAll cs) := by
    intro k hk
    obtain rfl := Option.some.inj hk
    rw [hspot]
    exact ⟨rfl, Nat.add_le_add_left hsize _⟩
  have hcol' : (f.add [.scalar cs .plain]).indent ≤ (p.afterAll cs).column := by
    rw [hspot, Frame.add]
    dsimp only
    omega
  have hstart : StartsToken (':' :: rest) := .cons (by decide) _
  have hcolon : ((f.add [.scalar cs .plain]).facing (placeAt f true p (cs ++ ':' :: rest)) false
      (p.afterAll cs) (':' :: rest)).step =
        some (((f.within p.column .blockMappingStart).add [.key, .scalar cs .plain, .value]).facing
          none false ((p.afterAll cs).after ':') rest) := by
    rw [step_facing hstart hcol' hlasts, scanToken_colon hrest, scanValue_facing]
  apply (Leads.read (startsToken_of_safe hcs) hcol (scanToken_key hcs hcol hrest) (by simp) _).trans
  · rw [Spot.afterAll_append]
    apply Leads.of_step hcolon
    · simp
    · simp [Frame.facing, Frame.add]
  · simp
    omega

/-- The dash in front of an item. -/
theorem Leads.dash (hcol : f.indent ≤ p.column) (hrest : isGap (rest.headD '\x00') = true) :
    (f.facing none true p ('-' :: rest)).Leads
      (((f.within p.column .blockSequenceStart).add [.blockEntry]).facing none true (p.after '-')
        rest) := by
  have hscan : (f.facing none true p ('-' :: rest)).scanBlockEntry =
      some (((f.within p.column .blockSequenceStart).add [.blockEntry]).facing none true
        (p.after '-') rest) := by
    rw [scanBlockEntry, here_facing]
    by_cases h : f.indent < p.column
    · simp [Frame.facing, Frame.add, Frame.within, Frame.enter, insertAt, openBlock, inFlow, emit,
        drop, removePlace, givenUp, h]
    · simp [Frame.facing, Frame.add, Frame.within, openBlock, inFlow, emit, drop, removePlace,
        givenUp, h]
  apply Leads.of_step ((step_facing (.cons (by decide) _) hcol (lasts_none p)).trans
    ((scanToken_dash hrest).trans hscan))
  · simp
  · simp [Frame.facing, Frame.add]

/-- At the end the outermost collection is closed. -/
theorem run_end {ts : List Token} {fuel : Nat} (hfuel : 0 < fuel) (hcol : p.column = 0) :
    ((⟨ts, 0, [-1]⟩ : Frame).facing none keyAllowed p []).run fuel =
      some (ts ++ [.blockEnd, .streamEnd]) := by
  obtain ⟨n, rfl⟩ := Nat.exists_eq_succ_of_ne_zero (Nat.pos_iff_ne_zero.mp hfuel)
  have hstep : ((⟨ts, 0, [-1]⟩ : Frame).facing none keyAllowed p []).step =
      ((⟨ts, 0, [-1]⟩ : Frame).facing none keyAllowed p []).scanStreamEnd :=
    (step_facing .nil (by rw [hcol]; exact Int.le_refl _) (lasts_none p)).trans rfl
  rw [run, hstep]
  simp [scanStreamEnd, closeTo, closeBlocks, Frame.facing, inFlow, removePlace, givenUp, emit]

end Collection

end Scanner

end AbstractMemory.Yaml
