import Mathlib

/-! What a step answers and leaves behind. A step that fails leaves a state
behind too, so it has an obligation of its own, unless the program does not go on
from there. Besides, an error can have a reason, and two steps can go the same
way. -/

namespace AbstractMemory

namespace Steps

/-- Errors at which a program does not go on, so that no state comes after them. -/
class Halting (ε : Type) where
  halts : ε → Bool

/-- Unless it is said otherwise, a program goes on after an error. -/
instance (priority := low) goesOn (ε : Type) : Halting ε :=
  ⟨fun _ => false⟩

variable {ε σ : Type}

@[simp] theorem halts_goesOn (e : ε) : @Halting.halts ε (goesOn ε) e = false :=
  rfl

theorem bind_eq_ok {α β : Type} {x : Except ε α} {f : α → Except ε β} {b : β} :
    (x >>= f) = .ok b ↔ ∃ a, x = .ok a ∧ f a = .ok b := by
  cases x <;> simp [bind, Except.bind]

theorem bind_eq_error {α β : Type} {x : Except ε α} {f : α → Except ε β} {e : ε} :
    (x >>= f) = .error e ↔ x = .error e ∨ ∃ a, x = .ok a ∧ f a = .error e := by
  cases x <;> simp [bind, Except.bind]

theorem exists_mem_of_mapM {α β : Type} {f : α → Except ε β} {l : List α} {bs : List β}
    (h : l.mapM f = .ok bs) {a : α} (ha : a ∈ l) : ∃ b ∈ bs, f a = .ok b := by
  induction l generalizing bs with
  | nil => simp at ha
  | cons x rest ih =>
    rw [List.mapM_cons] at h
    obtain ⟨b, hx, h⟩ := bind_eq_ok.mp h
    obtain ⟨bs', hrest, h⟩ := bind_eq_ok.mp h
    obtain rfl : b :: bs' = bs := Except.ok.inj h
    rcases List.mem_cons.mp ha with rfl | ha
    · exact ⟨b, by simp, hx⟩
    · obtain ⟨b', hb', hfa⟩ := ih hrest ha
      exact ⟨b', by simp [hb'], hfa⟩

theorem exists_mem_of_mapM_error {α β : Type} {f : α → Except ε β} {l : List α} {e : ε}
    (h : l.mapM f = .error e) : ∃ a ∈ l, f a = .error e := by
  induction l with
  | nil => cases h
  | cons x rest ih =>
    rw [List.mapM_cons] at h
    rcases bind_eq_error.mp h with hx | ⟨b, _, h⟩
    · exact ⟨x, by simp, hx⟩
    · rcases bind_eq_error.mp h with hrest | ⟨bs, _, h⟩
      · obtain ⟨a, ha, he⟩ := ih hrest
        exact ⟨a, List.mem_cons_of_mem x ha, he⟩
      · cases h

/-- What a step answers, or why it fails. -/
def answers {α : Type} (step : EStateM ε σ α) (s : σ) : Except ε α :=
  match step s with
  | .ok a _ => .ok a
  | .error e _ => .error e

theorem answers_eq_ok {α : Type} {step : EStateM ε σ α} {s : σ} {a : α} :
    answers step s = .ok a ↔ ∃ s', step s = .ok a s' := by
  unfold answers
  split <;> simp_all

theorem answers_eq_error {α : Type} {step : EStateM ε σ α} {s : σ} {e : ε} :
    answers step s = .error e ↔ ∃ s', step s = .error e s' := by
  unfold answers
  split <;> simp_all

theorem forM_eq_foldlM {α : Type} (f : α → EStateM ε σ Unit) (l : List α) :
    l.forM f = l.foldlM (fun _ x => f x) () := by
  induction l with
  | nil => rfl
  | cons x rest ih =>
    change (f x >>= fun _ => rest.forM f) = _
    rw [List.foldlM_cons, ih]

section Meets

variable [Halting ε]

/-- From the state `s`, an answer and the state after it are `good`, and the state
after an error, if there is one, is `bad`. -/
def Meets {α : Type} (step : EStateM ε σ α) (s : σ)
    (good : α → σ → Prop) (bad : σ → Prop) : Prop :=
  match step s with
  | .ok a s' => good a s'
  | .error e s' => bif Halting.halts e then True else bad s'

theorem Meets.of_ok {α : Type} {step : EStateM ε σ α} {s s' : σ} {a : α}
    {good : α → σ → Prop} {bad : σ → Prop}
    (h : Meets step s good bad) (hs : step s = .ok a s') : good a s' := by
  simpa only [Meets, hs] using h

theorem Meets.of_error {α : Type} {step : EStateM ε σ α} {s s' : σ} {e : ε}
    {good : α → σ → Prop} {bad : σ → Prop}
    (h : Meets step s good bad) (hs : step s = .error e s') (he : Halting.halts e = false) :
    bad s' := by
  simpa only [Meets, hs, he, cond_false] using h

theorem meets_of_error {α : Type} {step : EStateM ε σ α} {s s' : σ} {e : ε}
    {good : α → σ → Prop} {bad : σ → Prop} (hs : step s = .error e s')
    (h : Halting.halts e = false → bad s') : Meets step s good bad := by
  simp only [Meets, hs]
  cases he : Halting.halts e with
  | true => trivial
  | false => exact h he

theorem Meets.mono {α : Type} {step : EStateM ε σ α} {s : σ}
    {good good' : α → σ → Prop} {bad bad' : σ → Prop}
    (h : Meets step s good bad) (hgood : ∀ a s', good a s' → good' a s')
    (hbad : ∀ s', bad s' → bad' s') : Meets step s good' bad' := by
  cases hs : step s with
  | ok a s' => simpa only [Meets, hs] using hgood a s' (h.of_ok hs)
  | error e s' => exact meets_of_error hs fun he => hbad s' (h.of_error hs he)

theorem Meets.bind {α β : Type} {step : EStateM ε σ α} {next : α → EStateM ε σ β} {s : σ}
    {mid : α → σ → Prop} {good : β → σ → Prop} {bad : σ → Prop}
    (h : Meets step s mid bad) (hnext : ∀ a s', mid a s' → Meets (next a) s' good bad) :
    Meets (step >>= next) s good bad := by
  cases hs : step s with
  | ok a s' =>
    have hn := hnext a s' (h.of_ok hs)
    simpa only [Meets, Bind.bind, EStateM.bind, hs] using hn
  | error e s' =>
    have hstep : (step >>= next) s = .error e s' := by simp only [Bind.bind, EStateM.bind, hs]
    exact meets_of_error hstep fun he => h.of_error hs he

theorem meets_pure {α : Type} {a : α} {s : σ} {good : α → σ → Prop}
    {bad : σ → Prop} : Meets (pure a : EStateM ε σ α) s good bad ↔ good a s :=
  Iff.rfl

theorem meets_get_bind {α : Type} {next : σ → EStateM ε σ α} {s : σ}
    {good : α → σ → Prop} {bad : σ → Prop} :
    Meets (get >>= next) s good bad ↔ Meets (next s) s good bad :=
  Iff.rfl

theorem meets_modify_bind {α : Type} {f : σ → σ} {next : Unit → EStateM ε σ α}
    {s : σ} {good : α → σ → Prop} {bad : σ → Prop} :
    Meets (modify f >>= next) s good bad ↔ Meets (next ()) (f s) good bad :=
  Iff.rfl

/-- The state that a step leaves behind, also if it fails. Where a program does not
go on there is none, and the state before the step stands in. -/
def leaves {α : Type} (step : EStateM ε σ α) (s : σ) : σ :=
  match step s with
  | .ok _ s' => s'
  | .error e s' => bif Halting.halts e then s else s'

theorem leaves_of_ok {α : Type} {step : EStateM ε σ α} {s s' : σ} {a : α}
    (hs : step s = .ok a s') : leaves step s = s' := by
  simp only [leaves, hs]

theorem leaves_of_error {α : Type} {step : EStateM ε σ α} {s s' : σ} {e : ε}
    (hs : step s = .error e s') (he : Halting.halts e = false) : leaves step s = s' := by
  simp only [leaves, hs, he, cond_false]

theorem leaves_of_halt {α : Type} {step : EStateM ε σ α} {s s' : σ} {e : ε}
    (hs : step s = .error e s') (he : Halting.halts e = true) : leaves step s = s := by
  simp only [leaves, hs, he, cond_true]

theorem Meets.of_answers_ok {α : Type} {step : EStateM ε σ α} {s : σ} {a : α}
    {good : α → σ → Prop} {bad : σ → Prop} (h : Meets step s good bad)
    (ha : answers step s = .ok a) : good a (leaves step s) := by
  obtain ⟨s', hs⟩ := answers_eq_ok.mp ha
  exact leaves_of_ok hs ▸ h.of_ok hs

theorem Meets.of_answers_error {α : Type} {step : EStateM ε σ α} {s : σ} {e : ε}
    {good : α → σ → Prop} {bad : σ → Prop} (h : Meets step s good bad)
    (ha : answers step s = .error e) (he : Halting.halts e = false) : bad (leaves step s) := by
  obtain ⟨s', hs⟩ := answers_eq_error.mp ha
  exact leaves_of_error hs he ▸ h.of_error hs he

/-- What holds before a step and after each way to end it holds of what it leaves. -/
theorem Meets.stays {α : Type} {step : EStateM ε σ α} {s : σ} {inv : σ → Prop}
    (h : Meets step s (fun _ => inv) inv) (hs : inv s) : inv (leaves step s) := by
  cases hrun : step s with
  | ok a s' => exact leaves_of_ok hrun ▸ h.of_ok hrun
  | error e s' =>
    cases he : Halting.halts e with
    | true => rwa [leaves_of_halt hrun he]
    | false => exact leaves_of_error hrun he ▸ h.of_error hrun he

/-- A fold keeps an invariant that may speak of the entries done so far. -/
theorem Meets.foldlM {α β : Type} {f : β → α → EStateM ε σ β} {bad : σ → Prop}
    (inv : List α → β → σ → Prop) {l : List α}
    (hstep : ∀ done x rest b s, l = done ++ x :: rest → inv done b s →
      Meets (f b x) s (inv (done ++ [x])) bad)
    {b : β} {s : σ} (hstart : inv [] b s) : Meets (l.foldlM f b) s (inv l) bad := by
  have hrun : ∀ rest done b s, l = done ++ rest → inv done b s →
      Meets (rest.foldlM f b) s (inv l) bad := by
    intro rest
    induction rest with
    | nil =>
      intro done b s hl hinv
      rw [List.foldlM_nil, meets_pure, hl, List.append_nil]
      exact hinv
    | cons x rest ih =>
      intro done b s hl hinv
      rw [List.foldlM_cons]
      refine (hstep done x rest b s hl hinv).bind ?_
      intro b' s' hinv'
      exact ih (done ++ [x]) b' s' (by simp [hl]) hinv'
  exact hrun l [] b s rfl hstart

theorem Meets.forM {α : Type} {f : α → EStateM ε σ Unit} {bad : σ → Prop}
    (inv : List α → σ → Prop) {l : List α}
    (hstep : ∀ done x rest s, l = done ++ x :: rest → inv done s →
      Meets (f x) s (fun _ => inv (done ++ [x])) bad)
    {s : σ} (hstart : inv [] s) : Meets (l.forM f) s (fun _ => inv l) bad := by
  rw [forM_eq_foldlM]
  exact Meets.foldlM (fun done _ => inv done) (fun done x rest _ s => hstep done x rest s) hstart

theorem Meets.and {α : Type} {step : EStateM ε σ α} {s : σ} {good good' : α → σ → Prop}
    {bad bad' : σ → Prop} (h : Meets step s good bad) (h' : Meets step s good' bad') :
    Meets step s (fun a s' => good a s' ∧ good' a s') (fun s' => bad s' ∧ bad' s') := by
  cases hs : step s with
  | ok a s' =>
    have hboth := And.intro (h.of_ok hs) (h'.of_ok hs)
    simpa only [Meets, hs] using hboth
  | error e s' => exact meets_of_error hs fun he => ⟨h.of_error hs he, h'.of_error hs he⟩

/-- Steps one after another, each of which achieves something that lasts however
the state moves on. -/
theorem Meets.forM_lasting {α : Type} {f : α → EStateM ε σ Unit} {inv bad : σ → Prop}
    {moves : σ → σ → Prop} (hrefl : ∀ s, moves s s)
    (htrans : ∀ s s' s'', moves s s' → moves s' s'' → moves s s'') (done : α → σ → Prop)
    (hlast : ∀ x s s', moves s s' → done x s → done x s') {l : List α}
    (hstep : ∀ x ∈ l, ∀ s, inv s →
      Meets (f x) s (fun _ s' => inv s' ∧ moves s s' ∧ done x s') bad)
    {s : σ} (h : inv s) :
    Meets (l.forM f) s (fun _ s' => inv s' ∧ moves s s' ∧ ∀ x ∈ l, done x s') bad := by
  refine Meets.forM (fun l s' => inv s' ∧ moves s s' ∧ ∀ x ∈ l, done x s') ?_
    ⟨h, hrefl s, by simp⟩
  rintro l x rest s₁ hl ⟨h₁, hm₁, hdone⟩
  refine (hstep x (by simp [hl]) s₁ h₁).mono ?_ (fun _ h => h)
  rintro _ s₂ ⟨h₂, hm₂, hx⟩
  refine ⟨h₂, htrans s s₁ s₂ hm₁ hm₂, ?_⟩
  intro y hy
  rcases List.mem_append.mp hy with hy | hy
  · exact hlast y s₁ s₂ hm₂ (hdone y hy)
  · obtain rfl := List.mem_singleton.mp hy
    exact hx

theorem Meets.forIn {α : Type} {f : α → PUnit → EStateM ε σ (ForInStep PUnit)}
    {inv bad : σ → Prop} {l : List α}
    (hstep : ∀ x ∈ l, ∀ s, inv s →
      Meets (f x ⟨⟩) s (fun next s' => next = .yield ⟨⟩ ∧ inv s') bad)
    {s : σ} (hstart : inv s) : Meets (forIn l PUnit.unit f) s (fun _ => inv) bad := by
  induction l generalizing s with
  | nil => exact hstart
  | cons x rest ih =>
    rw [List.forIn_cons]
    refine (hstep x (by simp) s hstart).bind ?_
    rintro next s' ⟨rfl, hinv⟩
    exact ih (fun y hy => hstep y (by simp [hy])) hinv

end Meets

theorem Meets.leaves {α : Type} {step : EStateM ε σ α} {s : σ} {inv : σ → Prop}
    (h : Meets step s (fun _ => inv) inv) : inv (leaves step s) := by
  cases hrun : step s with
  | ok a s' => exact leaves_of_ok hrun ▸ h.of_ok hrun
  | error e s' => exact leaves_of_error hrun rfl ▸ h.of_error hrun rfl

section Blames

variable {reason reason' : ε → Prop}

/-- There is a reason for the error of a step, if it ends with one. -/
def Blames {α : Type} (step : EStateM ε σ α) (s : σ) (reason : ε → Prop) : Prop :=
  ∀ e s', step s = .error e s' → reason e

theorem Blames.mono {α : Type} {step : EStateM ε σ α} {s : σ} (h : Blames step s reason)
    (hmono : ∀ e, reason e → reason' e) : Blames step s reason' :=
  fun e s' hs => hmono e (h e s' hs)

theorem Blames.of_answers {α : Type} {step : EStateM ε σ α} {s : σ} {e : ε}
    (h : Blames step s reason) (he : answers step s = .error e) : reason e := by
  obtain ⟨s', hs⟩ := answers_eq_error.mp he
  exact h e s' hs

theorem Blames.bind [Halting ε] {α β : Type} {step : EStateM ε σ α}
    {next : α → EStateM ε σ β} {s : σ} {mid : α → σ → Prop} {bad : σ → Prop}
    (h : Blames step s reason) (hmid : Meets step s mid bad)
    (hnext : ∀ a s', mid a s' → Blames (next a) s' reason) :
    Blames (step >>= next) s reason := by
  intro e s' he
  cases hs : step s with
  | ok a s₁ =>
    refine hnext a s₁ (hmid.of_ok hs) e s' ?_
    simpa only [Bind.bind, EStateM.bind, hs] using he
  | error e₁ s₁ =>
    simp only [Bind.bind, EStateM.bind, hs, EStateM.Result.error.injEq] at he
    obtain ⟨rfl, rfl⟩ := he
    exact h e₁ s₁ hs

theorem blames_pure {α : Type} (a : α) (s : σ) : Blames (pure a : EStateM ε σ α) s reason :=
  fun _ _ h => by cases h

theorem blames_throw {α : Type} {e : ε} {s : σ} (h : reason e) :
    Blames (throw e : EStateM ε σ α) s reason := by
  intro e' s' he
  cases he
  exact h

theorem blames_get_bind {α : Type} {next : σ → EStateM ε σ α} {s : σ} :
    Blames (get >>= next) s reason ↔ Blames (next s) s reason :=
  Iff.rfl

theorem blames_modify_bind {α : Type} {f : σ → σ} {next : Unit → EStateM ε σ α} {s : σ} :
    Blames (modify f >>= next) s reason ↔ Blames (next ()) (f s) reason :=
  Iff.rfl

theorem Blames.foldlM [Halting ε] {α β : Type} {f : β → α → EStateM ε σ β}
    (inv : List α → β → σ → Prop) {l : List α}
    (hstep : ∀ done x rest b s, l = done ++ x :: rest → inv done b s →
      Meets (f b x) s (inv (done ++ [x])) (fun _ => True) ∧ Blames (f b x) s reason)
    {b : β} {s : σ} (hstart : inv [] b s) : Blames (l.foldlM f b) s reason := by
  have hrun : ∀ rest done b s, l = done ++ rest → inv done b s →
      Blames (rest.foldlM f b) s reason := by
    intro rest
    induction rest with
    | nil => exact fun _ b s _ _ => blames_pure b s
    | cons x rest ih =>
      intro done b s hl hinv
      obtain ⟨hmeets, hblames⟩ := hstep done x rest b s hl hinv
      rw [List.foldlM_cons]
      refine hblames.bind hmeets ?_
      intro b' s' hinv'
      exact ih (done ++ [x]) b' s' (by simp [hl]) hinv'
  exact hrun l [] b s rfl hstart

theorem Blames.forIn [Halting ε] {α : Type} {f : α → PUnit → EStateM ε σ (ForInStep PUnit)}
    (inv : σ → Prop) {l : List α}
    (hstep : ∀ x ∈ l, ∀ s, inv s →
      Meets (f x ⟨⟩) s (fun next s' => next = .yield ⟨⟩ ∧ inv s') (fun _ => True) ∧
        Blames (f x ⟨⟩) s reason)
    {s : σ} (hstart : inv s) : Blames (forIn l PUnit.unit f) s reason := by
  induction l generalizing s with
  | nil => exact blames_pure _ s
  | cons x rest ih =>
    obtain ⟨hmeets, hblames⟩ := hstep x (by simp) s hstart
    rw [List.forIn_cons]
    refine hblames.bind hmeets ?_
    rintro next s' ⟨rfl, hinv⟩
    exact ih (fun y hy => hstep y (by simp [hy])) hinv

end Blames

section Agree

variable [Halting ε] {α β : Type} {rel : σ → σ → Prop} {reword : ε → ε} {s s' : σ}

/-- Two steps, each from its own state, answer the same and end in related states, if
they end. The second may have other words for an error. -/
def Agree (rel : σ → σ → Prop) (reword : ε → ε) (step step' : EStateM ε σ α) (s s' : σ) : Prop :=
  (∃ a t t', step s = .ok a t ∧ step' s' = .ok a t' ∧ rel t t') ∨
    ∃ e t t', step s = .error e t ∧ step' s' = .error (reword e) t' ∧
      (Halting.halts e = false → rel t t')

theorem Agree.answers {step step' : EStateM ε σ α} (h : Agree rel reword step step' s s') :
    answers step' s' = (answers step s).mapError reword := by
  rcases h with ⟨a, t, t', hs, hs', _⟩ | ⟨e, t, t', hs, hs', _⟩
  · simp only [Steps.answers, hs, hs', Except.mapError]
  · simp only [Steps.answers, hs, hs', Except.mapError]

theorem Agree.leaves {step step' : EStateM ε σ α} (h : Agree rel reword step step' s s')
    (hrel : rel s s') (hhalts : ∀ e, Steps.answers step s = .error e →
      Halting.halts (reword e) = Halting.halts e) :
    rel (Steps.leaves step s) (Steps.leaves step' s') := by
  rcases h with ⟨a, t, t', hs, hs', ht⟩ | ⟨e, t, t', hs, hs', ht⟩
  · rw [leaves_of_ok hs, leaves_of_ok hs']
    exact ht
  · have hsame := hhalts e (answers_eq_error.mpr ⟨t, hs⟩)
    cases he : Halting.halts e with
    | true =>
      rw [leaves_of_halt hs he, leaves_of_halt hs' (hsame.trans he)]
      exact hrel
    | false =>
      rw [leaves_of_error hs he, leaves_of_error hs' (hsame.trans he)]
      exact ht he

theorem agree_of_ok {step step' : EStateM ε σ α} {a : α} {t t' : σ} (h : step s = .ok a t)
    (h' : step' s' = .ok a t') (hrel : rel t t') : Agree rel reword step step' s s' :=
  .inl ⟨a, t, t', h, h', hrel⟩

theorem agree_of_error {step step' : EStateM ε σ α} {e : ε} {t t' : σ} (h : step s = .error e t)
    (h' : step' s' = .error (reword e) t') (hrel : Halting.halts e = false → rel t t') :
    Agree rel reword step step' s s' :=
  .inr ⟨e, t, t', h, h', hrel⟩

theorem Agree.bind {step step' : EStateM ε σ α} {next next' : α → EStateM ε σ β}
    {mid : α → σ → Prop} {bad : σ → Prop} (h : Agree rel reword step step' s s')
    (hmid : Meets step s mid bad)
    (hnext : ∀ a t t', mid a t → rel t t' → Agree rel reword (next a) (next' a) t t') :
    Agree rel reword (step >>= next) (step' >>= next') s s' := by
  rcases h with ⟨a, t, t', hs, hs', hrel⟩ | ⟨e, t, t', hs, hs', hrel⟩
  · have hn := hnext a t t' (hmid.of_ok hs) hrel
    simpa only [Agree, Bind.bind, EStateM.bind, hs, hs'] using hn
  · have hleft : (step >>= next) s = .error e t := by simp only [Bind.bind, EStateM.bind, hs]
    have hright : (step' >>= next') s' = .error (reword e) t' := by
      simp only [Bind.bind, EStateM.bind, hs']
    exact agree_of_error hleft hright hrel

theorem agree_pure (a : α) (h : rel s s') :
    Agree rel reword (pure a : EStateM ε σ α) (pure a) s s' :=
  agree_of_ok rfl rfl h

theorem agree_throw {e : ε} (he : reword e = e) (h : rel s s') :
    Agree rel reword (throw e : EStateM ε σ α) (throw e) s s' :=
  agree_of_error rfl (by rw [he]; rfl) fun _ => h

theorem agree_get_bind {next next' : σ → EStateM ε σ α} :
    Agree rel reword (get >>= next) (get >>= next') s s' ↔
      Agree rel reword (next s) (next' s') s s' :=
  Iff.rfl

theorem agree_modify_bind {g g' : σ → σ} {next next' : Unit → EStateM ε σ α} :
    Agree rel reword (modify g >>= next) (modify g' >>= next') s s' ↔
      Agree rel reword (next ()) (next' ()) (g s) (g' s') :=
  Iff.rfl

theorem Agree.foldlM {g g' : β → α → EStateM ε σ β} (inv : List α → β → σ → Prop) {l : List α}
    (hstep : ∀ done x rest b s s', l = done ++ x :: rest → inv done b s → rel s s' →
      Meets (g b x) s (inv (done ++ [x])) (fun _ => True) ∧ Agree rel reword (g b x) (g' b x) s s')
    {b : β} (hstart : inv [] b s) (hrel : rel s s') :
    Agree rel reword (l.foldlM g b) (l.foldlM g' b) s s' := by
  have hrun : ∀ rest done b s s', l = done ++ rest → inv done b s → rel s s' →
      Agree rel reword (rest.foldlM g b) (rest.foldlM g' b) s s' := by
    intro rest
    induction rest with
    | nil => exact fun _ b _ _ _ _ hrel => agree_pure b hrel
    | cons x rest ih =>
      intro done b s s' hl hinv hrel
      obtain ⟨hmeets, hagree⟩ := hstep done x rest b s s' hl hinv hrel
      rw [List.foldlM_cons, List.foldlM_cons]
      refine hagree.bind hmeets ?_
      exact fun b' t t' hinv' hrel' => ih (done ++ [x]) b' t t' (by simp [hl]) hinv' hrel'
  exact hrun l [] b s s' rfl hstart hrel

theorem Agree.forM {g g' : α → EStateM ε σ Unit} (inv : σ → Prop) {l : List α}
    (hstep : ∀ x ∈ l, ∀ s s', inv s → rel s s' →
      Meets (g x) s (fun _ => inv) (fun _ => True) ∧ Agree rel reword (g x) (g' x) s s')
    (hstart : inv s) (hrel : rel s s') : Agree rel reword (l.forM g) (l.forM g') s s' := by
  rw [forM_eq_foldlM, forM_eq_foldlM]
  refine Agree.foldlM (fun _ _ => inv) ?_ hstart hrel
  exact fun done x rest _ s s' hl hinv hrel => hstep x (by simp [hl]) s s' hinv hrel

theorem Agree.forIn {g g' : α → PUnit → EStateM ε σ (ForInStep PUnit)} (inv : σ → Prop)
    {l : List α}
    (hstep : ∀ x ∈ l, ∀ s s', inv s → rel s s' →
      Meets (g x ⟨⟩) s (fun next t => next = .yield ⟨⟩ ∧ inv t) (fun _ => True) ∧
        Agree rel reword (g x ⟨⟩) (g' x ⟨⟩) s s')
    (hstart : inv s) (hrel : rel s s') :
    Agree rel reword (forIn l PUnit.unit g) (forIn l PUnit.unit g') s s' := by
  induction l generalizing s s' with
  | nil => exact agree_pure _ hrel
  | cons x rest ih =>
    obtain ⟨hmeets, hagree⟩ := hstep x (by simp) s s' hstart hrel
    rw [List.forIn_cons, List.forIn_cons]
    refine hagree.bind hmeets ?_
    rintro next t t' ⟨rfl, hinv⟩ hrel'
    exact ih (fun y hy => hstep y (by simp [hy])) hinv hrel'

end Agree

end Steps

end AbstractMemory
