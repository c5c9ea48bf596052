import AbstractMemory.Proofs.Symbols
import Mathlib

/-! Where values stand. Whatever commands a script has, no value is listed twice:
globals and functions are listed in the module they say, and arguments and
instructions in the function they say. Users and operands are the same uses. -/

namespace AbstractMemory

open Steps

namespace ValueTable

variable {values values' : ValueTable} {v w : Nat} {new value : Value}

theorem addUser_addUser (value : Value) (user : Nat) :
    (value.addUser user).addUser user = value.addUser user := by
  rw [Value.addUser, if_pos (mem_users_addUser value user).1]

theorem get?_addUsers (values : ValueTable) (user : Nat) (operands : List Nat) (w : Nat) :
    (values.addUsers user operands).get? w =
      (values.get? w).map fun value => if w ∈ operands then value.addUser user else value := by
  induction operands generalizing values with
  | nil => simp [addUsers]
  | cons o rest ih =>
    have hstep : values.addUsers user (o :: rest) =
        (values.modify o (·.addUser user)).addUsers user rest := rfl
    rw [hstep, ih, get?_modify]
    by_cases how : o = w
    · subst how
      by_cases hrest : o ∈ rest
      · simp [hrest, Function.comp_def, addUser_addUser]
      · simp [hrest, Function.comp_def]
    · have hmem : w ∈ o :: rest ↔ w ∈ rest := by simp [Ne.symm how]
      simp [how, hmem]

theorem get?_push (h : values.push new = .ok (v, values')) (w : Nat) :
    values'.get? w = if w = v then some new else (values.get? w).map fun value =>
      if w ∈ new.operands then value.addUser v else value := by
  unfold push at h
  split at h
  · cases h
  · obtain ⟨rfl, rfl⟩ : values.size = v ∧ _ = values' := by simpa using h
    have hsize : (values.addUsers values.size new.operands).entries.size = values.size :=
      values.size_addUsers values.size new.operands
    rw [← get?_addUsers, get?, Array.getElem?_push, hsize]
    rfl

theorem get?_onFunction {f : Function → Function} (h : values.get? w = some value)
    (hnone : value.function? = none) :
    (values.modify v (Value.onFunction f)).get? w = some value := by
  have hsame : value.onFunction f = value := by
    unfold Value.onFunction
    split
    · rename_i hkind
      simp [Value.function?, hkind] at hnone
    · rfl
  rw [get?_modify, h]
  split
  · rw [Option.map_some, hsame]
  · rfl

end ValueTable

namespace Program

variable {p p' : Program} {i g u v w : Nat} {f : Function} {value : Value}

def IsArgument (p : Program) (v a : Nat) : Prop :=
  ∃ value index, p.values.get? a = some value ∧ value.kind = .argument v index

def IsInstruction (p : Program) (v u : Nat) : Prop :=
  ∃ value op, p.values.get? u = some value ∧ value.kind = .instruction v op ∧
    value.Typed p.types

/-- The function is at home in a module, and its lists hold what belongs to it. -/
structure Arranges (p : Program) (i v : Nat) (f : Function) : Prop where
  home : f.home = i
  args : f.args.Nodup ∧ ∀ a ∈ f.args, p.IsArgument v a
  body : f.body.Nodup ∧ ∀ u ∈ f.body, p.IsInstruction v u

def GlobalAt (p : Program) (i g : Nat) : Prop :=
  ∃ value global, p.values.get? g = some value ∧ value.kind = .global global ∧ global.home = i

def FunctionAt (p : Program) (i v : Nat) : Prop :=
  ∃ value f, p.values.get? v = some value ∧ value.kind = .function f ∧ p.Arranges i v f

/-- No value is listed twice, and users are written with what they use. -/
structure InPlace (p : Program) : Prop where
  globals : ∀ i m, p.modules[i]? = some m → m.globals.Nodup ∧ ∀ g ∈ m.globals, p.GlobalAt i g
  functions : ∀ i m, p.modules[i]? = some m →
    m.functions.Nodup ∧ ∀ v ∈ m.functions, p.FunctionAt i v
  users : ∀ o value, p.values.get? o = some value → ∀ u ∈ value.users,
    ∃ user, p.values.get? u = some user ∧ o ∈ user.operands

/-- Values stay but for their users, and so do pointers. -/
structure Carries (p p' : Program) : Prop where
  values : ∀ v value, p.values.get? v = some value →
    ∃ users, p'.values.get? v = some { value with users := users }
  pointers : ∀ t, p.types.isPointer t = true → p'.types.isPointer t = true

theorem Carries.refl (p : Program) : p.Carries p :=
  ⟨fun _ value h => ⟨value.users, h⟩, fun _ h => h⟩

theorem Carries.trans {p'' : Program} (h : p.Carries p') (h' : p'.Carries p'') :
    p.Carries p'' where
  values := by
    intro v value hv
    obtain ⟨_, hv'⟩ := h.values v value hv
    obtain ⟨users, hv''⟩ := h'.values v _ hv'
    exact ⟨users, hv''⟩
  pointers := fun t ht => h'.pointers t (h.pointers t ht)

theorem Carries.isArgument (h : p.Carries p') (ha : p.IsArgument v w) : p'.IsArgument v w := by
  obtain ⟨value, index, hw, hkind⟩ := ha
  obtain ⟨users, hw'⟩ := h.values w value hw
  exact ⟨_, index, hw', hkind⟩

theorem Carries.isInstruction (h : p.Carries p') (hu : p.IsInstruction v w) :
    p'.IsInstruction v w := by
  obtain ⟨value, op, hw, hkind, htyped⟩ := hu
  obtain ⟨users, hw'⟩ := h.values w value hw
  exact ⟨_, op, hw', hkind, Value.Typed.mono htyped h.pointers⟩

theorem Carries.arranges (h : p.Carries p') (hf : p.Arranges i v f) : p'.Arranges i v f where
  home := hf.home
  args := ⟨hf.args.1, fun a ha => h.isArgument (hf.args.2 a ha)⟩
  body := ⟨hf.body.1, fun u hu => h.isInstruction (hf.body.2 u hu)⟩

theorem Carries.functionAt (h : p.Carries p') (hv : p.FunctionAt i v) : p'.FunctionAt i v := by
  obtain ⟨value, f, hvalue, hkind, hf⟩ := hv
  obtain ⟨users, hvalue'⟩ := h.values v value hvalue
  exact ⟨_, f, hvalue', hkind, h.arranges hf⟩

theorem Carries.inPlace (h : p.Carries p') (hmodules : p'.modules = p.modules) (hp : p.InPlace)
    (husers : ∀ o value, p'.values.get? o = some value → ∀ u ∈ value.users,
      ∃ user, p'.values.get? u = some user ∧ o ∈ user.operands) : p'.InPlace where
  globals := by
    intro i m hm
    rw [hmodules] at hm
    refine ⟨(hp.globals i m hm).1, fun g hg => ?_⟩
    obtain ⟨value, global, hvalue, hkind, hhome⟩ := (hp.globals i m hm).2 g hg
    obtain ⟨users, hvalue'⟩ := h.values g value hvalue
    exact ⟨_, global, hvalue', hkind, hhome⟩
  functions := by
    intro i m hm
    rw [hmodules] at hm
    exact ⟨(hp.functions i m hm).1, fun v hv => h.functionAt ((hp.functions i m hm).2 v hv)⟩
  users := husers

theorem carries_types {types : TypeTable} (h : p.types.Edit types) :
    p.Carries { p with types := types } where
  values := fun _ value hv => ⟨value.users, hv⟩
  pointers := by
    intro t ht
    obtain ⟨u, hu⟩ := Option.isSome_iff_exists.mp ht
    have hkept := h.get? (TypeTable.get?_of_pointee? hu) rfl
    simp [TypeTable.isPointer, TypeTable.pointee?, hkept, Ty.pointee?]

/-- A program that goes on from `p`, with the same lists. -/
structure Continues (p p' : Program) : Prop extends p.Carries p' where
  modules : p'.modules = p.modules
  size_le : p.values.size ≤ p'.values.size
  inPlace : p.InPlace → p'.InPlace

theorem Continues.refl (p : Program) : p.Continues p :=
  ⟨Carries.refl p, rfl, Nat.le_refl _, id⟩

theorem Continues.trans {p'' : Program} (h : p.Continues p') (h' : p'.Continues p'') :
    p.Continues p'' :=
  ⟨h.toCarries.trans h'.toCarries, h'.modules.trans h.modules, h.size_le.trans h'.size_le,
    h'.inPlace ∘ h.inPlace⟩

theorem continues_types {types : TypeTable} (h : p.types.Edit types) :
    p.Continues { p with types := types } :=
  ⟨carries_types h, rfl, Nat.le_refl _, fun hp => (carries_types h).inPlace rfl hp hp.users⟩

theorem continues_push {values : ValueTable} (hempty : value.users = [])
    (h : p.values.push value = .ok (v, values)) : p.Continues { p with values := values } := by
  have hget := ValueTable.get?_push h
  obtain ⟨rfl, _, hnew, _⟩ := ValueTable.push_eq_ok h
  have hcarries : p.Carries { p with values := values } := by
    refine ⟨fun w old hw => ?_, fun _ ht => ht⟩
    have hne : w ≠ p.values.size := Nat.ne_of_lt (ValueTable.lt_size_of_get? hw)
    dsimp only
    rw [hget w, if_neg hne, hw, Option.map_some]
    split
    · unfold Value.addUser
      split
      · exact ⟨old.users, rfl⟩
      · exact ⟨_, rfl⟩
    · exact ⟨old.users, rfl⟩
  have hlt : p.values.size < values.size := ValueTable.lt_size_of_get? hnew
  refine ⟨hcarries, rfl, Nat.le_of_lt hlt, fun hp => hcarries.inPlace rfl hp ?_⟩
  intro o other ho u hu
  dsimp only at ho ⊢
  -- an old user is still one, with the operands it had
  have hold : ∀ before, p.values.get? o = some before → u ∈ before.users →
      ∃ user, values.get? u = some user ∧ o ∈ user.operands := by
    intro before hbefore hu
    obtain ⟨user, huser, hmem⟩ := hp.users o before hbefore u hu
    obtain ⟨users, huser'⟩ := hcarries.values u user huser
    exact ⟨_, huser', hmem⟩
  rw [hget o] at ho
  split at ho
  · obtain rfl := Option.some.inj ho
    simp [hempty] at hu
  · obtain ⟨before, hbefore, hother⟩ := Option.map_eq_some_iff.mp ho
    split at hother
    · rename_i hmem
      subst hother
      unfold Value.addUser at hu
      split at hu
      · exact hold before hbefore hu
      · rcases List.mem_append.mp hu with hu | hu
        · exact hold before hbefore hu
        · obtain rfl := List.mem_singleton.mp hu
          exact ⟨value, hnew, hmem⟩
    · subst hother
      exact hold before hbefore hu

theorem Arranges.onFunction {update : Function → Function} (h : p.Arranges i v f) :
    Arranges { p with values := p.values.modify w (Value.onFunction update) } i v f where
  home := h.home
  args := by
    refine ⟨h.args.1, fun a ha => ?_⟩
    obtain ⟨value, index, hvalue, hkind⟩ := h.args.2 a ha
    exact ⟨value, index, ValueTable.get?_onFunction hvalue (by simp [Value.function?, hkind]),
      hkind⟩
  body := by
    refine ⟨h.body.1, fun u hu => ?_⟩
    obtain ⟨value, op, hvalue, hkind, htyped⟩ := h.body.2 u hu
    exact ⟨value, op, ValueTable.get?_onFunction hvalue (by simp [Value.function?, hkind]), hkind,
      htyped⟩

/-- The lists of one function change, in a way that keeps them in order. -/
theorem FunctionAt.onFunction {update : Function → Function} (h : p.FunctionAt i v)
    (hupdate : ∀ value f, p.values.get? w = some value → value.kind = .function f → v = w →
      p.Arranges i w f → p.Arranges i w (update f)) :
    FunctionAt { p with values := p.values.modify w (Value.onFunction update) } i v := by
  obtain ⟨value, f, hvalue, hkind, hf⟩ := h
  have hget := p.values.get?_modify w v (Value.onFunction update)
  by_cases hvw : w = v
  · subst hvw
    rw [if_pos rfl, hvalue, Option.map_some] at hget
    refine ⟨_, update f, hget, ?_, (hupdate value f hvalue hkind rfl hf).onFunction⟩
    simp [Value.onFunction, hkind]
  · rw [if_neg hvw, hvalue] at hget
    exact ⟨value, f, hget, hkind, hf.onFunction⟩

theorem InPlace.onFunction {update : Function → Function} (h : p.InPlace)
    (hupdate : ∀ i m, p.modules[i]? = some m → v ∈ m.functions → ∀ value f,
      p.values.get? v = some value → value.kind = .function f → p.Arranges i v f →
      p.Arranges i v (update f)) :
    InPlace { p with values := p.values.modify v (Value.onFunction update) } where
  globals := by
    intro i m hm
    refine ⟨(h.globals i m hm).1, fun g hg => ?_⟩
    obtain ⟨value, global, hvalue, hkind, hhome⟩ := (h.globals i m hm).2 g hg
    exact ⟨value, global, ValueTable.get?_onFunction hvalue (by simp [Value.function?, hkind]),
      hkind, hhome⟩
  functions := by
    intro i m hm
    refine ⟨(h.functions i m hm).1, fun w hw => ?_⟩
    refine ((h.functions i m hm).2 w hw).onFunction ?_
    rintro value f hvalue hkind rfl hf
    exact hupdate i m hm hw value f hvalue hkind hf
  users := by
    -- a change to a function is none to its users and operands
    have hsame : ∀ (value : Value), (value.onFunction update).users = value.users ∧
        (value.onFunction update).operands = value.operands := by
      rintro ⟨_, _, kind, _⟩
      cases kind <;> exact ⟨rfl, rfl⟩
    have hback : ∀ o other, (p.values.modify v (Value.onFunction update)).get? o = some other →
        ∃ before, p.values.get? o = some before ∧ other.users = before.users := by
      intro o other ho
      rw [ValueTable.get?_modify] at ho
      split at ho
      · obtain ⟨before, hbefore, rfl⟩ := Option.map_eq_some_iff.mp ho
        exact ⟨before, hbefore, (hsame before).1⟩
      · exact ⟨other, ho, rfl⟩
    intro o other ho u hu
    obtain ⟨before, hbefore, hsub⟩ := hback o other ho
    obtain ⟨user, huser, hmem⟩ := h.users o before hbefore u (hsub ▸ hu)
    dsimp only
    rw [ValueTable.get?_modify, huser]
    split
    · exact ⟨_, rfl, (hsame user).2 ▸ hmem⟩
    · exact ⟨user, rfl, hmem⟩

theorem exists_module_of_modify {modules : Array Module} {update : Module → Module} {j : Nat}
    {m : Module} (h : (modules.modify i update)[j]? = some m) :
    ∃ before, modules[j]? = some before ∧ m = if i = j then update before else before := by
  rw [Array.getElem?_modify] at h
  split at h
  · rename_i hij
    obtain ⟨before, hbefore, rfl⟩ := Option.map_eq_some_iff.mp h
    exact ⟨before, hbefore, (if_pos hij).symm⟩
  · rename_i hij
    exact ⟨m, h, (if_neg hij).symm⟩

theorem nodup_append_singleton {l : List Nat} (h : l.Nodup) (hg : g ∉ l) : (l ++ [g]).Nodup := by
  rw [List.nodup_append]
  refine ⟨h, List.nodup_singleton g, ?_⟩
  rintro a ha b hb rfl
  exact hg (List.mem_singleton.mp hb ▸ ha)

theorem InPlace.relist (h : p.InPlace) {symbols : Std.TreeMap String Nat} {modules : Array Module}
    (hglobals : ∀ (j : Nat) m, modules[j]? = some m →
      m.globals.Nodup ∧ ∀ g ∈ m.globals, p.GlobalAt j g)
    (hfunctions : ∀ (j : Nat) m, modules[j]? = some m →
      m.functions.Nodup ∧ ∀ v ∈ m.functions, p.FunctionAt j v) :
    InPlace { p with symbols := symbols, modules := modules } := by
  have hcarries : p.Carries { p with symbols := symbols, modules := modules } :=
    ⟨fun _ value h => ⟨value.users, h⟩, fun _ h => h⟩
  refine ⟨hglobals, fun j m hm => ?_, h.users⟩
  exact ⟨(hfunctions j m hm).1, fun v hv => hcarries.functionAt ((hfunctions j m hm).2 v hv)⟩

theorem InPlace.listGlobal (h : p.InPlace) {symbols : Std.TreeMap String Nat}
    (hg : p.GlobalAt i g) (hnew : ∀ m, p.modules[i]? = some m → g ∉ m.globals) :
    InPlace { p with
      symbols := symbols
      modules := p.modules.modify i fun m => { m with globals := m.globals ++ [g] } } := by
  refine h.relist ?_ ?_
  · intro j m hm
    obtain ⟨before, hbefore, rfl⟩ := exists_module_of_modify hm
    obtain ⟨hnodup, hall⟩ := h.globals j before hbefore
    split
    · rename_i hij
      subst hij
      refine ⟨nodup_append_singleton hnodup (hnew before hbefore), fun w hw => ?_⟩
      rcases List.mem_append.mp hw with hw | hw
      · exact hall w hw
      · exact List.mem_singleton.mp hw ▸ hg
    · exact ⟨hnodup, hall⟩
  · intro j m hm
    obtain ⟨before, hbefore, rfl⟩ := exists_module_of_modify hm
    split <;> exact h.functions j before hbefore

theorem InPlace.listFunction (h : p.InPlace) {symbols : Std.TreeMap String Nat}
    (hv : p.FunctionAt i v) (hnew : ∀ m, p.modules[i]? = some m → v ∉ m.functions) :
    InPlace { p with
      symbols := symbols
      modules := p.modules.modify i fun m => { m with functions := m.functions ++ [v] } } := by
  refine h.relist ?_ ?_
  · intro j m hm
    obtain ⟨before, hbefore, rfl⟩ := exists_module_of_modify hm
    split <;> exact h.globals j before hbefore
  · intro j m hm
    obtain ⟨before, hbefore, rfl⟩ := exists_module_of_modify hm
    obtain ⟨hnodup, hall⟩ := h.functions j before hbefore
    split
    · rename_i hij
      subst hij
      refine ⟨nodup_append_singleton hnodup (hnew before hbefore), fun w hw => ?_⟩
      rcases List.mem_append.mp hw with hw | hw
      · exact hall w hw
      · exact List.mem_singleton.mp hw ▸ hv
    · exact ⟨hnodup, hall⟩

theorem InPlace.addModule (h : p.InPlace) (name : String) :
    InPlace { p with modules := p.modules.push { name } } := by
  refine h.relist ?_ ?_
  · intro j m hm
    rw [Array.getElem?_push] at hm
    split at hm
    · obtain rfl := Option.some.inj hm
      simp
    · exact h.globals j m hm
  · intro j m hm
    rw [Array.getElem?_push] at hm
    split at hm
    · obtain rfl := Option.some.inj hm
      simp
    · exact h.functions j m hm

/-- A value that is not there yet stands nowhere. -/
theorem InPlace.notMem_globals (h : p.InPlace) {m : Module} (hm : p.modules[i]? = some m) :
    p.values.size ∉ m.globals := by
  intro hmem
  obtain ⟨value, _, hvalue, _⟩ := (h.globals i m hm).2 _ hmem
  exact Nat.lt_irrefl _ (ValueTable.lt_size_of_get? hvalue)

theorem InPlace.notMem_functions (h : p.InPlace) {m : Module} (hm : p.modules[i]? = some m) :
    p.values.size ∉ m.functions := by
  intro hmem
  obtain ⟨value, _, hvalue, _⟩ := (h.functions i m hm).2 _ hmem
  exact Nat.lt_irrefl _ (ValueTable.lt_size_of_get? hvalue)

end Program

namespace Build

/-- Whether it fails or not, a step goes on from the program it finds. -/
def Continues {α : Type} (step : Build α) : Prop :=
  ∀ d : Draft, Meets step d (fun _ d' => d.program.Continues d'.program)
    (fun d' => d.program.Continues d'.program)

theorem Continues.bind {α β : Type} {step : Build α} {next : α → Build β} (h : Continues step)
    (hnext : ∀ a, Continues (next a)) : Continues (step >>= next) := by
  intro d
  refine (h d).bind ?_
  intro a d' hd'
  exact (hnext a d').mono (fun _ _ h' => hd'.trans h') (fun _ h' => hd'.trans h')

theorem continues_same {α : Type} {step : Build α}
    (h : ∀ d, Meets step d (fun _ d' => d'.program = d.program)
      (fun d' => d'.program = d.program)) :
    Continues step := by
  have hsame : ∀ d d' : Draft, d'.program = d.program → d.program.Continues d'.program := by
    intro d d' heq
    rw [heq]
    exact Program.Continues.refl d.program
  exact fun d => (h d).mono (fun _ d' => hsame d d') (fun d' => hsame d d')

theorem continues_pure {α : Type} (a : α) : Continues (pure a) :=
  continues_same fun _ => rfl

theorem continues_throw {α : Type} (e : ProgramError) : Continues (throw e : Build α) :=
  continues_same fun _ => rfl

theorem continues_ask {α : Type} (f : Draft → Except ProgramError α) : Continues (ask f) := by
  refine continues_same fun d => ?_
  unfold Meets ask
  cases f d <;> rfl

theorem continues_onTypes {α : Type} {f : TypeTable → α × TypeTable}
    (hf : ∀ types : TypeTable, types.Edit (f types).2) : Continues (onTypes f) :=
  fun d => Program.continues_types (hf d.program.types)

theorem continues_intern {f : TypeTable → Nat × TypeTable} {ty : Ty}
    (hf : ∀ types : TypeTable, f types = types.intern ty)
    (hty : ty.struct?.bind StructType.name = none) : Continues (onTypes f) :=
  continues_onTypes fun types => hf types ▸ .intern ty hty

theorem pushValue_continues {value : Value} (hempty : value.users = []) (d : Draft) :
    Meets (pushValue value) d
      (fun v d' => d.program.Continues d'.program ∧ v = d.program.values.size ∧
        d'.program.values.get? v = some value ∧ d'.program.types = d.program.types)
      (fun d' => d.program.Continues d'.program) := by
  unfold Meets pushValue
  cases h : d.program.values.push value with
  | error e => exact Program.Continues.refl d.program
  | ok pushed =>
    obtain ⟨hv, _, hget, _⟩ := ValueTable.push_eq_ok h
    exact ⟨Program.continues_push hempty h, hv, hget, rfl⟩

theorem continues_pushValue {value : Value} (hempty : value.users = []) :
    Continues (pushValue value) :=
  fun d => (pushValue_continues hempty d).mono (fun _ _ h => h.1) (fun _ h => h)

theorem continues_pushIndices (int32 int64 current : Nat) (indices : List Int) :
    Continues (pushIndices int32 int64 current indices) := by
  induction indices generalizing current with
  | nil => exact continues_pure []
  | cons index rest ih =>
    refine (continues_ask _).bind fun isMember => (continues_pushValue rfl).bind fun v => ?_
    exact (continues_ask _).bind fun next => (ih next).bind fun _ => continues_pure _

theorem continues_elementAddressType (source : Nat) (indices : List Nat) :
    Continues (elementAddressType source indices) :=
  (continues_ask _).bind fun _ => continues_intern (fun _ => rfl) rfl

theorem continues_constantAddress (source base : Nat) (indices : List Int) :
    Continues (constantAddress source base indices) := by
  refine (continues_intern (fun _ => rfl) rfl).bind fun int32 => ?_
  refine (continues_intern (fun _ => rfl) rfl).bind fun int64 => ?_
  have hlast : ∀ operands, Continues (do
      let type ← elementAddressType source operands
      pushConstant type (.expr (.elementAddress ⟨source, base, operands⟩))) :=
    fun operands => (continues_elementAddressType source operands).bind fun _ =>
      continues_pushValue rfl
  cases indices with
  | nil => exact hlast []
  | cons first rest =>
    refine (continues_pushValue rfl).bind fun v => ?_
    exact (continues_pushIndices int32 int64 source rest).bind fun vs => hlast (v :: vs)

theorem continues_insertInto (v : Nat) : Continues (insertInto v) := by
  refine (continues_ask _).bind fun value => ?_
  cases value.function? with
  | none => exact continues_throw _
  | some f =>
    dsimp only
    split
    · exact continues_throw _
    · exact continues_same fun _ => rfl

theorem continues_setBody (t : Nat) (members : List Nat) (packed : Bool) :
    Continues (setBody t members packed) := by
  intro d
  unfold Meets setBody
  cases h : d.program.types.setBody t members packed with
  | error e => exact Program.Continues.refl d.program
  | ok types => exact Program.continues_types (.setBody h)

/-- Arguments are new values of their function, each another one. -/
theorem pushArguments_continues (parent index : Nat) (types : List Nat) (d : Draft) :
    Meets (pushArguments parent index types) d
      (fun args d' => d.program.Continues d'.program ∧ args.Nodup ∧
        ∀ a ∈ args, d.program.values.size ≤ a ∧ d'.program.IsArgument parent a)
      (fun d' => d.program.Continues d'.program) := by
  induction types generalizing index d with
  | nil => exact ⟨Program.Continues.refl d.program, .nil, by simp⟩
  | cons type rest ih =>
    refine Meets.bind (pushValue_continues rfl d) ?_
    rintro arg d₁ ⟨hc₁, rfl, harg, _⟩
    refine Meets.bind ((ih (index + 1) d₁).mono (fun _ _ h => h) fun _ h => hc₁.trans h) ?_
    rintro args d₂ ⟨hc₂, hnodup, hargs⟩
    have hlt : d.program.values.size < d₁.program.values.size := ValueTable.lt_size_of_get? harg
    refine ⟨hc₁.trans hc₂, List.nodup_cons.mpr ⟨fun hmem => ?_, hnodup⟩, ?_⟩
    · exact absurd (hargs _ hmem).1 (Nat.not_le_of_lt hlt)
    · intro a ha
      rcases List.mem_cons.mp ha with rfl | ha
      · exact ⟨Nat.le_refl _, hc₂.isArgument ⟨_, index, harg, rfl⟩⟩
      · exact ⟨Nat.le_of_lt (Nat.lt_of_lt_of_le hlt (hargs a ha).1), (hargs a ha).2⟩

/-- Whether it fails or not, a step keeps all values in place. -/
def Places {α : Type} (step : Build α) : Prop :=
  ∀ d : Draft, d.program.InPlace →
    Meets step d (fun _ d' => d'.program.InPlace) (fun d' => d'.program.InPlace)

theorem Continues.places {α : Type} {step : Build α} (h : Continues step) : Places step :=
  fun d hp => (h d).mono (fun _ _ h' => h'.inPlace hp) (fun _ h' => h'.inPlace hp)

theorem Continues.bind_places {α β : Type} {step : Build α} {next : α → Build β}
    (h : Continues step) (hnext : ∀ a, Places (next a)) : Places (step >>= next) := by
  intro d hp
  refine (h.places d hp).bind ?_
  exact fun a d' hp' => hnext a d' hp'

theorem Places.map {α β : Type} {step : Build α} (f : α → β) (h : Places step) :
    Places (f <$> step) := by
  intro d hp
  rw [map_eq_pure_bind]
  exact (h d hp).bind fun _ _ h' => h'

theorem currentModule_same (d : Draft) :
    Meets currentModule d (fun _ d' => d = d') (fun d' => d = d') := by
  unfold currentModule
  rw [meets_get_bind]
  refine Meets.bind (?_ : Meets _ d (fun _ d' => d = d') (fun d' => d = d')) fun _ _ h => h
  unfold Meets ask
  dsimp only
  cases d.program.getModule d.home <;> rfl

/-- A definition is listed after it got its name, if it gets one. -/
theorem define_places {d : Draft} {name : String} {v home : Nat} {update : Module → Module}
    (hp : d.program.InPlace)
    (hlist : ∀ symbols, Program.InPlace
      { d.program with symbols := symbols, modules := d.program.modules.modify home update }) :
    Meets (do
      defineSymbol name v
      modifyModule home update
      return v) d (fun _ d' => d'.program.InPlace) (fun d' => d'.program.InPlace) := by
  refine Meets.bind (?_ : Meets (defineSymbol name v) d (fun _ d' => ∃ symbols,
    d' = { d with program := { d.program with symbols := symbols } })
    (fun d' => d'.program.InPlace)) ?_
  · unfold Meets defineSymbol
    by_cases hc : d.program.symbols.contains name = true
    · simp only [hc, if_true]
      exact hp
    · simp only [hc, Bool.false_eq_true, if_false]
      exact ⟨_, rfl⟩
  · rintro _ _ ⟨symbols, rfl⟩
    exact hlist symbols

theorem addGlobal_places (name : String) (valueType : Nat) (isDeclaration : Bool) :
    Places (addGlobal name valueType isDeclaration) := by
  intro d hp
  refine Meets.bind ((currentModule_same d).mono (fun _ _ h => h) fun _ h => h ▸ hp) ?_
  rintro home _ rfl
  refine Meets.bind ((continues_intern (fun _ => rfl) rfl).places d hp) ?_
  intro type d₁ hp₁
  refine Meets.bind ((pushValue_continues rfl d₁).mono (fun _ _ h => h)
    fun _ h => h.inPlace hp₁) ?_
  rintro v d₂ ⟨hc₂, rfl, hv, _⟩
  have hnew : ∀ m, d₂.program.modules[home]? = some m → d₁.program.values.size ∉ m.globals := by
    intro m hm
    rw [hc₂.modules] at hm
    exact hp₁.notMem_globals hm
  have hlist : ∀ symbols, Program.InPlace { d₂.program with
      symbols := symbols
      modules := d₂.program.modules.modify home fun m =>
        { m with globals := m.globals ++ [d₁.program.values.size] } } :=
    fun symbols => (hc₂.inPlace hp₁).listGlobal ⟨_, _, hv, rfl, rfl⟩ hnew
  cases isDeclaration with
  | true => exact hlist d₂.program.symbols
  | false => exact define_places (hc₂.inPlace hp₁) hlist

theorem addFunction_places (name : String) (signature : Nat) (isDeclaration : Bool) :
    Places (addFunction name signature isDeclaration) := by
  intro d hp
  refine Meets.bind ((currentModule_same d).mono (fun _ _ h => h) fun _ h => h ▸ hp) ?_
  rintro home _ rfl
  refine Meets.bind ((continues_ask _).places d hp) ?_
  intro shape d₁ hp₁
  refine Meets.bind ((continues_intern (fun _ => rfl) rfl).places d₁ hp₁) ?_
  intro type d₂ hp₂
  refine Meets.bind ((pushValue_continues rfl d₂).mono (fun _ _ h => h)
    fun _ h => h.inPlace hp₂) ?_
  rintro v d₃ ⟨hc₃, rfl, hv, _⟩
  have hfunction : d₃.program.FunctionAt home d₂.program.values.size :=
    ⟨_, _, hv, rfl, rfl, ⟨.nil, by simp⟩, .nil, by simp⟩
  -- it is listed nowhere yet, and its arguments are written before it is
  have hnew : ∀ (i : Nat) m, d₂.program.modules[i]? = some m →
      d₂.program.values.size ∉ m.functions := fun i m hm => hp₂.notMem_functions hm
  cases isDeclaration with
  | true =>
    have hlist : ∀ symbols, Program.InPlace { d₃.program with
        symbols := symbols
        modules := d₃.program.modules.modify home fun m =>
          { m with functions := m.functions ++ [d₂.program.values.size] } } :=
      fun symbols => (hc₃.inPlace hp₂).listFunction hfunction
        fun m hm => hnew _ m (hc₃.modules ▸ hm)
    exact hlist d₃.program.symbols
  | false =>
    refine Meets.bind ((pushArguments_continues _ 0 shape.params d₃).mono (fun _ _ h => h)
      fun _ h => (hc₃.trans h).inPlace hp₂) ?_
    rintro args d₄ ⟨hc₄, hnodup, hargs⟩
    have hc := hc₃.trans hc₄
    have hp₄ := hc.inPlace hp₂
    refine Meets.bind (?_ : Meets (modifyFunction d₂.program.values.size fun f =>
      { f with args := args }) d₄ (fun _ d₅ => d₅.program.InPlace ∧
        d₅.program.FunctionAt home d₂.program.values.size ∧
        d₅.program.modules = d₂.program.modules) (fun d₅ => d₅.program.InPlace)) ?_
    · refine ⟨hp₄.onFunction ?_, (hc₄.functionAt hfunction).onFunction ?_, hc.modules⟩
      · exact fun i m hm hmem => (hnew i m (hc.modules ▸ hm) hmem).elim
      · exact fun _ _ _ _ _ hf => ⟨hf.home, ⟨hnodup, fun a ha => (hargs a ha).2⟩, hf.body⟩
    rintro _ d₅ ⟨hp₅, hfunction₅, hmodules⟩
    refine define_places hp₅ fun symbols => hp₅.listFunction hfunction₅ ?_
    exact fun m hm => hnew _ m (hmodules ▸ hm)

theorem pushInstruction_places {d : Draft} {type : Nat} {op : Instruction}
    (ht : ∀ parent, Value.Typed { type, name := none, kind := .instruction parent op }
      d.program.types) (hp : d.program.InPlace) :
    Meets (pushInstruction type op) d (fun _ d' => d'.program.InPlace)
      (fun d' => d'.program.InPlace) := by
  unfold pushInstruction
  rw [meets_get_bind]
  cases d.insertion with
  | none => exact hp
  | some parent =>
    refine Meets.bind ((pushValue_continues rfl d).mono (fun _ _ h => h) fun _ h => h.inPlace hp) ?_
    rintro u d₁ ⟨hc, rfl, hu, htypes⟩
    refine (hc.inPlace hp).onFunction (v := parent) ?_
    intro i m hm hmem value f hvalue hkind hf
    -- the body was in order before the instruction was there
    have hfresh : d.program.values.size ∉ f.body := by
      rw [hc.modules] at hm
      obtain ⟨before, f₀, hbefore, hkind₀, hf₀⟩ := (hp.functions i m hm).2 parent hmem
      obtain ⟨users, hvalue'⟩ := hc.values parent before hbefore
      obtain rfl := Option.some.inj (hvalue.symm.trans hvalue')
      obtain rfl : f₀ = f := by simpa [hkind₀] using hkind
      intro hin
      obtain ⟨other, _, hother, _⟩ := hf₀.body.2 _ hin
      exact Nat.lt_irrefl _ (ValueTable.lt_size_of_get? hother)
    refine ⟨hf.home, hf.args, Program.nodup_append_singleton hf.body.1 hfresh, ?_⟩
    intro w hw
    rcases List.mem_append.mp hw with hw | hw
    · exact hf.body.2 w hw
    · obtain rfl := List.mem_singleton.mp hw
      exact ⟨_, op, hu, rfl, htypes ▸ ht parent⟩

theorem places_pushInstruction (type : Nat) {op : Instruction}
    (hop : ∀ types parent,
      Value.Typed { type, name := none, kind := .instruction parent op } types) :
    Places (pushInstruction type op) :=
  fun _ hp => pushInstruction_places (hop _) hp

theorem alloca_places (allocated : Nat) : Places (alloca allocated) := by
  intro d hp
  refine Meets.bind ((continues_intern (fun _ => rfl) rfl).places d hp |>.and
    (@pointerTo_isPointer true allocated d) |>.mono (fun _ _ h => h) fun _ h => h.1) ?_
  rintro type d₁ ⟨hp₁, _, hpointer⟩
  exact pushInstruction_places (fun _ => hpointer) hp₁

end Build

theorem Command.run_places (c : Command) : Build.Places c.run := by
  open Build in
  cases c with
  | void | int | float | pointerTo | arrayOf | functionOf | literalStruct =>
    exact (continues_intern (fun _ => rfl) rfl).places.map _
  | namedStruct name => exact (continues_onTypes fun _ => .declare name).places.map _
  | setBody t members packed => exact (continues_setBody t members packed).places.map _
  | defineStruct name members =>
    exact (continues_onTypes fun _ => .define name members false).places.map _
  | defineUnion name members =>
    exact (continues_onTypes fun _ => .define name members true).places.map _
  | addModule name => exact Places.map _ fun _ hp => hp.addModule name
  | enterModule index =>
    have hsame : Continues (Build.enterModule index) := continues_same fun _ => rfl
    exact hsame.places.map _
  | global name t isDeclaration => exact (addGlobal_places name t isDeclaration).map _
  | function name t isDeclaration => exact (addFunction_places name t isDeclaration).map _
  | arguments v => exact (continues_ask _).places.map _
  | insertInto v => exact (continues_insertInto v).places.map _
  | alloca t => exact (alloca_places t).map _
  | store | ret =>
    refine Places.map _ ((continues_intern (fun _ => rfl) rfl).bind_places fun _ => ?_)
    exact places_pushInstruction _ fun _ _ => by trivial
  | call | load =>
    refine Places.map _ ((continues_ask _).bind_places fun _ =>
      (continues_ask _).bind_places fun _ => ?_)
    exact places_pushInstruction _ fun _ _ => by trivial
  | cast | instruction => exact (places_pushInstruction _ fun _ _ => by trivial).map _
  | elementAddress t base indices =>
    refine Places.map _ ((continues_elementAddressType t indices).bind_places fun _ => ?_)
    exact places_pushInstruction _ fun _ _ => by trivial
  | blockAddress =>
    refine Continues.places ?_ |>.map _
    refine (continues_intern (fun _ => rfl) rfl).bind fun _ => ?_
    exact (continues_intern (fun _ => rfl) rfl).bind fun _ => continues_pushValue rfl
  | constantAddress t base indices => exact (continues_constantAddress t base indices).places.map _
  | integer | null | undefined | constantCast | constantExpr | value =>
    exact (continues_pushValue rfl).places.map _

/-- Whatever its commands are, a script keeps all values in place. -/
theorem Draft.runScript_inPlace (layout : DataLayout) (commands : List Command) :
    ((Draft.start layout).runScript commands).2.program.InPlace := by
  have hrun : ∀ d : Draft, d.program.InPlace → (d.runScript commands).2.program.InPlace := by
    induction commands with
    | nil => exact fun d hp => hp
    | cons c rest ih =>
      intro d hp
      have hstep : (c.step d).2.program.InPlace := by
        have hmeets := c.run_places d hp
        unfold Meets at hmeets
        unfold Command.step
        split at hmeets <;> simp_all
      exact ih _ hstep
  refine hrun _ ⟨?_, ?_, ?_⟩
  · intro i m hm
    simp [Draft.start] at hm
  · intro i m hm
    simp [Draft.start] at hm
  · intro o value ho
    simp [Draft.start, ValueTable.get?] at ho

end AbstractMemory
