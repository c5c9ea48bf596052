import AbstractMemory.Proofs.Descent
import AbstractMemory.Proofs.OperandDepth
import AbstractMemory.Proofs.Placement
import Mathlib

/-! Uses in both directions. A value lists its users one after the other, as they
were written, and a command that fails leaves all uses as they were. -/

namespace AbstractMemory

open Steps

theorem Value.users_onFunction (f : Function → Function) (value : Value) :
    (value.onFunction f).users = value.users := by
  unfold onFunction
  split <;> rfl

namespace ValueTable

variable {values values' values'' : ValueTable} {n v w : Nat} {value : Value}

/-- Every value lists its users in the order they were written. -/
def UsersAscend (values : ValueTable) : Prop :=
  ∀ v value, values.get? v = some value →
    value.users.Pairwise (· < ·) ∧ ∀ u ∈ value.users, u < values.size

theorem size_push (h : values.push value = .ok (v, values')) :
    values'.size = values.size + 1 := by
  unfold push at h
  split at h
  · cases h
  · obtain ⟨-, rfl⟩ : values.size = v ∧ _ = values' := by simpa using h
    have hsize := values.size_addUsers values.size value.operands
    simpa [size] using hsize

theorem UsersAscend.push (h : values.UsersAscend) (hempty : value.users = [])
    (hpush : values.push value = .ok (v, values')) : values'.UsersAscend := by
  have hsize := size_push hpush
  have hget := get?_push hpush
  obtain ⟨rfl, _⟩ := push_eq_ok hpush
  intro w other hw
  rw [hget w] at hw
  by_cases hnew : w = values.size
  · rw [if_pos hnew] at hw
    obtain rfl := Option.some.inj hw
    simp [hempty]
  · rw [if_neg hnew] at hw
    obtain ⟨before, hbefore, rfl⟩ := Option.map_eq_some_iff.mp hw
    obtain ⟨hsorted, hlt⟩ := h w before hbefore
    by_cases huse : w ∈ value.operands
    · -- all users so far are values of the table, so the new one comes after them
      have hfresh : values.size ∉ before.users := fun hmem => Nat.lt_irrefl _ (hlt _ hmem)
      rw [if_pos huse, Value.addUser, if_neg hfresh]
      constructor
      · exact List.pairwise_append.mpr ⟨hsorted, List.pairwise_singleton .., by simpa using hlt⟩
      · intro u hu
        rcases List.mem_append.mp hu with hu | hu
        · have := hlt u hu
          omega
        · have := List.mem_singleton.mp hu
          omega
    · rw [if_neg huse]
      exact ⟨hsorted, fun u hu => by have := hlt u hu; omega⟩

theorem UsersAscend.onFunction (h : values.UsersAscend) (v : Nat) (f : Function → Function) :
    (values.modify v (Value.onFunction f)).UsersAscend := by
  intro w other hw
  have hsize : (values.modify v (Value.onFunction f)).size = values.size := Array.size_modify ..
  rw [get?_modify] at hw
  by_cases hvw : v = w
  · rw [if_pos hvw] at hw
    obtain ⟨before, hbefore, rfl⟩ := Option.map_eq_some_iff.mp hw
    rw [Value.users_onFunction, hsize]
    exact h w before hbefore
  · rw [if_neg hvw] at hw
    rw [hsize]
    exact h w other hw

/-- A table that goes on from another one. -/
structure Follows (values values' : ValueTable) : Prop where
  size_le : values.size ≤ values'.size
  ascend : values.UsersAscend → values'.UsersAscend

/-- A table that goes on from another one and has the same first `n` values. -/
structure Spares (n : Nat) (values values' : ValueTable) : Prop extends values.Follows values' where
  get?_eq : ∀ v < n, values'.get? v = values.get? v

theorem Follows.trans (h : values.Follows values') (h' : values'.Follows values'') :
    values.Follows values'' :=
  ⟨h.size_le.trans h'.size_le, h'.ascend ∘ h.ascend⟩

theorem Spares.refl (n : Nat) (values : ValueTable) : values.Spares n values :=
  ⟨⟨Nat.le_refl _, id⟩, fun _ _ => rfl⟩

theorem Spares.trans (h : values.Spares n values') (h' : values'.Spares n values'') :
    values.Spares n values'' :=
  ⟨h.toFollows.trans h'.toFollows, fun v hv => (h'.get?_eq v hv).trans (h.get?_eq v hv)⟩

theorem follows_push (hempty : value.users = []) (h : values.push value = .ok (v, values')) :
    values.Follows values' :=
  ⟨by rw [size_push h]; omega, fun hasc => hasc.push hempty h⟩

/-- A value that is written with no others adds no user to any. -/
theorem spares_push (hempty : value.users = []) (hops : value.operands = []) (hn : n ≤ values.size)
    (h : values.push value = .ok (v, values')) : values.Spares n values' := by
  have hget := get?_push h
  obtain ⟨hv, _⟩ := push_eq_ok h
  refine ⟨follows_push hempty h, fun w hw => ?_⟩
  rw [hget w, if_neg (by omega)]
  simp [hops]

theorem follows_onFunction (values : ValueTable) (v : Nat) (f : Function → Function) :
    values.Follows (values.modify v (Value.onFunction f)) :=
  ⟨Nat.le_of_eq (Array.size_modify ..).symm, fun h => h.onFunction v f⟩

theorem spares_onFunction (values : ValueTable) (hv : n ≤ v) (f : Function → Function) :
    values.Spares n (values.modify v (Value.onFunction f)) := by
  refine ⟨values.follows_onFunction v f, fun w hw => ?_⟩
  rw [get?_modify, if_neg (by omega)]

end ValueTable

namespace Build

variable {n : Nat} {α β : Type}

/-- Whether it fails or not, a step spares the first `n` values. -/
def Spares (n : Nat) (step : Build α) : Prop :=
  ∀ d : Draft, n ≤ d.program.values.size →
    Meets step d (fun _ d' => d.program.values.Spares n d'.program.values)
      (fun d' => d.program.values.Spares n d'.program.values)

/-- If it fails, a step spares the first `n` values. -/
def Careful (n : Nat) (step : Build α) : Prop :=
  ∀ d : Draft, n ≤ d.program.values.size →
    Meets step d (fun _ d' => d.program.values.Follows d'.program.values)
      (fun d' => d.program.values.Spares n d'.program.values)

theorem Spares.careful {step : Build α} (h : Spares n step) : Careful n step :=
  fun d hn => (h d hn).mono (fun _ _ h' => h'.toFollows) (fun _ h' => h')

theorem Spares.bind {step : Build α} {next : α → Build β} (h : Spares n step)
    (hnext : ∀ a, Spares n (next a)) : Spares n (step >>= next) := by
  intro d hn
  apply (h d hn).bind
  intro a d' hd'
  exact (hnext a d' (hn.trans hd'.size_le)).mono (fun _ _ h' => hd'.trans h')
    (fun _ h' => hd'.trans h')

theorem Spares.bind_careful {step : Build α} {next : α → Build β} (h : Spares n step)
    (hnext : ∀ a, Careful n (next a)) : Careful n (step >>= next) := by
  intro d hn
  apply (h d hn).bind
  intro a d' hd'
  exact (hnext a d' (hn.trans hd'.size_le)).mono (fun _ _ h' => hd'.toFollows.trans h')
    (fun _ h' => hd'.trans h')

theorem Careful.map {step : Build α} (f : α → β) (h : Careful n step) : Careful n (f <$> step) := by
  intro d hn
  rw [map_eq_pure_bind]
  exact (h d hn).bind fun _ _ h' => h'

theorem spares_same {step : Build α}
    (h : ∀ d, Meets step d (fun _ d' => d'.program.values = d.program.values)
      (fun d' => d'.program.values = d.program.values)) : Spares n step := by
  have hsame : ∀ d d' : Draft, d'.program.values = d.program.values →
      d.program.values.Spares n d'.program.values := by
    intro d d' heq
    rw [heq]
    exact .refl n _
  exact fun d _ => (h d).mono (fun _ d' => hsame d d') (fun d' => hsame d d')

theorem spares_ask (f : Draft → Except ProgramError α) : Spares n (ask f) := by
  apply spares_same
  intro d
  unfold Meets ask
  cases f d <;> rfl

theorem spares_onTypes (f : TypeTable → α × TypeTable) : Spares n (onTypes f) :=
  spares_same fun _ => rfl

theorem spares_setBody (t : Nat) (members : List Nat) (packed : Bool) :
    Spares n (setBody t members packed) := by
  apply spares_same
  intro d
  unfold Meets setBody
  cases d.program.types.setBody t members packed <;> rfl

theorem spares_insertInto (v : Nat) : Spares n (insertInto v) := by
  apply (spares_ask _).bind
  intro value
  cases value.function? with
  | none => exact spares_same fun _ => rfl
  | some f =>
    dsimp only
    split <;> exact spares_same fun _ => rfl

theorem spares_currentModule : Spares n currentModule := by
  intro d _
  apply (currentModule_same d).mono
  · rintro _ _ rfl
    exact .refl n _
  · rintro _ rfl
    exact .refl n _

theorem spares_defineSymbol (name : String) (v : Nat) : Spares n (defineSymbol name v) := by
  apply spares_same
  intro d
  unfold Meets defineSymbol
  by_cases hc : d.program.symbols.contains name = true <;> simp [hc]

theorem spares_pushValue {value : Value} (hempty : value.users = []) (hops : value.operands = []) :
    Spares n (pushValue value) := by
  intro d hn
  unfold Meets pushValue
  cases h : d.program.values.push value with
  | error e => exact .refl n _
  | ok pushed => exact ValueTable.spares_push hempty hops hn h

theorem careful_pushValue {value : Value} (hempty : value.users = []) :
    Careful n (pushValue value) := by
  intro d _
  unfold Meets pushValue
  cases h : d.program.values.push value with
  | error e => exact .refl n _
  | ok pushed => exact ValueTable.follows_push hempty h

theorem spares_addGlobal (name : String) (valueType : Nat) (isDeclaration : Bool) :
    Spares n (addGlobal name valueType isDeclaration) := by
  apply spares_currentModule.bind
  intro home
  apply (spares_onTypes _).bind
  intro type
  apply (spares_pushValue rfl rfl).bind
  intro v
  cases isDeclaration with
  | true => exact spares_same fun _ => rfl
  | false => exact (spares_defineSymbol name v).bind fun _ => spares_same fun _ => rfl

theorem spares_pushArguments (parent index : Nat) (types : List Nat) :
    Spares n (pushArguments parent index types) := by
  induction types generalizing index with
  | nil => exact spares_same fun _ => rfl
  | cons type rest ih =>
    apply (spares_pushValue rfl rfl).bind
    intro arg
    exact (ih (index + 1)).bind fun _ => spares_same fun _ => rfl

/-- What follows a new value may count on its not being among the first `n`. -/
theorem spares_pushValue_bind {value : Value} (hempty : value.users = [])
    (hops : value.operands = []) {next : Nat → Build α} (hnext : ∀ v, n ≤ v → Spares n (next v)) :
    Spares n (pushValue value >>= next) := by
  intro d hn
  have hpush := (spares_pushValue hempty hops d hn).and (pushValue_continues hempty d)
  apply (hpush.mono (fun _ _ h => h) fun _ h => h.1).bind
  rintro v d' ⟨hd', _, rfl, _⟩
  exact (hnext _ hn d' (hn.trans hd'.size_le)).mono (fun _ _ h => hd'.trans h)
    (fun _ h => hd'.trans h)

theorem spares_addFunction (name : String) (signature : Nat) (isDeclaration : Bool) :
    Spares n (addFunction name signature isDeclaration) := by
  apply spares_currentModule.bind
  intro home
  apply (spares_ask _).bind
  intro shape
  apply (spares_onTypes _).bind
  intro type
  apply spares_pushValue_bind rfl rfl
  intro v hv
  cases isDeclaration with
  | true => exact spares_same fun _ => rfl
  | false =>
    apply (spares_pushArguments v 0 shape.params).bind
    intro args
    have hargs : Spares n (modifyFunction v fun f => { f with args := args }) :=
      fun d _ => d.program.values.spares_onFunction hv _
    exact hargs.bind fun _ => (spares_defineSymbol name v).bind fun _ => spares_same fun _ => rfl

theorem careful_pushInstruction (type : Nat) (op : Instruction) :
    Careful n (pushInstruction type op) := by
  intro d hn
  unfold pushInstruction
  rw [meets_get_bind]
  cases d.insertion with
  | none => exact .refl n _
  | some parent =>
    apply (careful_pushValue rfl d hn).bind
    intro v d' hd'
    exact hd'.trans (d'.program.values.follows_onFunction parent _)

theorem spares_elementAddressType (source : Nat) (indices : List Nat) :
    Spares n (elementAddressType source indices) :=
  (spares_ask _).bind fun _ => spares_onTypes _

theorem spares_pushIndices (int32 int64 current : Nat) (indices : List Int) :
    Spares n (pushIndices int32 int64 current indices) := by
  induction indices generalizing current with
  | nil => exact spares_same fun _ => rfl
  | cons index rest ih =>
    apply (spares_ask _).bind
    intro isMember
    apply (spares_pushValue rfl rfl).bind
    intro v
    exact (spares_ask _).bind fun next => (ih next).bind fun _ => spares_same fun _ => rfl

/-- The constants for the indices are no users, and what they are indices of is
written last. -/
theorem careful_constantAddress (source base : Nat) (indices : List Int) :
    Careful n (constantAddress source base indices) := by
  apply (spares_onTypes _).bind_careful
  intro int32
  apply (spares_onTypes _).bind_careful
  intro int64
  have hlast : ∀ operands, Careful n (do
      let type ← elementAddressType source operands
      pushConstant type (.expr (.elementAddress ⟨source, base, operands⟩))) :=
    fun operands => (spares_elementAddressType source operands).bind_careful fun _ =>
      careful_pushValue rfl
  cases indices with
  | nil => exact hlast []
  | cons first rest =>
    apply (spares_pushValue rfl rfl).bind_careful
    intro v
    exact (spares_pushIndices int32 int64 source rest).bind_careful fun vs => hlast (v :: vs)

end Build

theorem Command.run_careful (n : Nat) (c : Command) : Build.Careful n c.run := by
  open Build in
  cases c with
  | void | int | float | pointerTo | arrayOf | functionOf | literalStruct | namedStruct
  | defineStruct | defineUnion => exact (spares_onTypes _).careful.map _
  | setBody t members packed => exact (spares_setBody t members packed).careful.map _
  | addModule name => exact Careful.map _ (Spares.careful (spares_same fun _ => rfl))
  | enterModule index => exact Careful.map _ (Spares.careful (spares_same fun _ => rfl))
  | global name t isDeclaration => exact (spares_addGlobal name t isDeclaration).careful.map _
  | function name t isDeclaration => exact (spares_addFunction name t isDeclaration).careful.map _
  | arguments v => exact (spares_ask _).careful.map _
  | insertInto v => exact (spares_insertInto v).careful.map _
  | alloca | store | ret =>
    exact Careful.map _ ((spares_onTypes _).bind_careful fun _ => careful_pushInstruction _ _)
  | call | load =>
    exact Careful.map _ ((spares_ask _).bind_careful fun _ =>
      (spares_ask _).bind_careful fun _ => careful_pushInstruction _ _)
  | cast | instruction => exact (careful_pushInstruction _ _).map _
  | elementAddress t base indices =>
    exact Careful.map _ ((spares_elementAddressType t indices).bind_careful fun _ =>
      careful_pushInstruction _ _)
  | blockAddress =>
    exact Careful.map _ ((spares_onTypes _).bind_careful fun _ =>
      (spares_onTypes _).bind_careful fun _ => careful_pushValue rfl)
  | constantAddress t base indices => exact (careful_constantAddress t base indices).map _
  | integer | null | undefined | constantCast | constantExpr | value =>
    exact (careful_pushValue rfl).map _

/-- One command after another keeps the users in order. -/
theorem Draft.runScript_usersAscend (d : Draft) (commands : List Command)
    (h : d.program.values.UsersAscend) :
    (d.runScript commands).2.program.values.UsersAscend := by
  induction commands generalizing d with
  | nil => exact h
  | cons c rest ih =>
    have hcareful := c.run_careful 0 d (Nat.zero_le _)
    have hstep : (c.step d).2.program.values.UsersAscend := by
      unfold Command.step
      cases hrun : c.run d with
      | ok reply d' => exact (hcareful.of_ok hrun).ascend h
      | error e d' => exact (hcareful.of_error hrun rfl).ascend h
    exact ih _ hstep

theorem Build.pushValue_error {value : Value} {d d' : Draft} {e : ProgramError}
    (h : pushValue value d = .error e d') :
    d' = d ∧ ∃ o ∈ value.operands, d.program.values.size ≤ o ∧ e = .unknownValue o := by
  unfold pushValue ValueTable.push at h
  cases hfind : value.operands.find? (fun v => decide (d.program.values.size ≤ v)) with
  | none =>
    rw [hfind] at h
    cases h
  | some o =>
    rw [hfind] at h
    cases h
    have hle := List.find?_some hfind
    exact ⟨rfl, o, List.mem_of_find?_eq_some hfind, by simpa using hle, rfl⟩

/-- Values written with the same one more than once, and two that are refused. -/
def reusing : List Command := [
  .int 32, .pointerTo 0, .null 1, .constantCast .bit 0 1, .constantExpr "select" 1 [1, 0, 1],
  .constantExpr "select" 1 [0, 9], .constantAddress 0 0 [1], .constantAddress 0 9 [1]]

def reused : Draft :=
  ((Draft.start {}).runScript reusing).2

end AbstractMemory
