import AbstractMemory.Proofs.Drafting
import Mathlib

/-! What the tables of a program say about each other. A name stands for a
definition that some module lists, and each value knows who uses it. -/

namespace AbstractMemory

open Steps

namespace ValueTable

variable {values : ValueTable} {v w user : Nat} {value : Value}

theorem get?_modify (values : ValueTable) (v w : Nat) (f : Value → Value) :
    (values.modify v f).get? w = if v = w then (values.get? w).map f else values.get? w := by
  simp [get?, modify, Array.getElem?_modify]

theorem mem_users_addUser (value : Value) (user : Nat) :
    user ∈ (value.addUser user).users ∧ ∀ u ∈ value.users, u ∈ (value.addUser user).users := by
  unfold Value.addUser
  split
  · rename_i h
    exact ⟨h, fun _ hu => hu⟩
  · simp +contextual

theorem exists_addUsers {operands : List Nat} (h : values.get? w = some value) :
    ∃ value', (values.addUsers user operands).get? w = some value' ∧
      (∀ u ∈ value.users, u ∈ value'.users) ∧ (w ∈ operands → user ∈ value'.users) := by
  induction operands generalizing values value with
  | nil => exact ⟨value, h, fun _ hu => hu, by simp⟩
  | cons o rest ih =>
    have hstep := values.get?_modify o w (·.addUser user)
    by_cases how : o = w
    · rw [if_pos how, h, Option.map_some] at hstep
      obtain ⟨huser, hkept⟩ := mem_users_addUser value user
      obtain ⟨value', hv', hsub, _⟩ := ih hstep
      exact ⟨value', hv', fun u hu => hsub u (hkept u hu), fun _ => hsub user huser⟩
    · rw [if_neg how, h] at hstep
      obtain ⟨value', hv', hsub, hmem⟩ := ih hstep
      refine ⟨value', hv', hsub, fun hin => hmem ?_⟩
      exact (List.mem_cons.mp hin).resolve_left fun heq => how heq.symm

/-- A value that is there keeps its users when another is added, which becomes
one of them if it is written with it. -/
theorem exists_push {values' : ValueTable} {new : Value} (h : values.push new = .ok (v, values'))
    (hw : values.get? w = some value) :
    ∃ value', values'.get? w = some value' ∧ (∀ u ∈ value.users, u ∈ value'.users) ∧
      (w ∈ new.operands → v ∈ value'.users) := by
  have hlt := lt_size_of_get? hw
  unfold push at h
  split at h
  · cases h
  · obtain ⟨rfl, rfl⟩ : values.size = v ∧ _ = values' := by simpa using h
    have hused : ∃ value', (values.addUsers values.size new.operands).get? w = some value' ∧
        (∀ u ∈ value.users, u ∈ value'.users) ∧ (w ∈ new.operands → values.size ∈ value'.users) :=
      exists_addUsers hw
    obtain ⟨value', hv', hrest⟩ := hused
    refine ⟨value', ?_, hrest⟩
    have hsize := values.size_addUsers values.size new.operands
    rw [get?, Array.getElem?_push, if_neg]
    · exact hv'
    · exact fun heq => Nat.ne_of_lt hlt (heq.trans hsize)

end ValueTable

namespace Program

variable {raw : Bool} {p p' : Program}

/-- The value `o` knows that `v` uses it. -/
def HasUser (p : Program) (o v : Nat) : Prop :=
  ∃ value, p.values.get? o = some value ∧ v ∈ value.users

/-- Some module lists `v`, as a global or as a function. -/
def Lists (p : Program) (v : Nat) : Prop :=
  ∃ m ∈ p.modules, v ∈ m.globals ∨ v ∈ m.functions

structure Indexed (p : Program) : Prop where
  functions : ∀ m ∈ p.modules, ∀ f ∈ m.functions, p.IsFunction f
  symbols : ∀ (name : String) (d : Nat), p.symbols[name]? = some d → p.Names name d ∧ p.Lists d
  users : ∀ v value, p.values.get? v = some value → ∀ o ∈ value.operands, p.HasUser o v

theorem Edit.hasUser (h : p.Edit raw p') {o v : Nat} (hu : p.HasUser o v) : p'.HasUser o v := by
  obtain ⟨value, ho, hv⟩ := hu
  cases h with
  | push _ h =>
    obtain ⟨value', ho', hsub, _⟩ := ValueTable.exists_push h ho
    exact ⟨value', ho', hsub v hv⟩
  | @onFunction w f hf =>
    have hmodify := p.values.get?_modify w o (Value.onFunction f)
    by_cases how : w = o
    · rw [if_pos how, ho, Option.map_some] at hmodify
      refine ⟨_, hmodify, ?_⟩
      unfold Value.onFunction
      split <;> exact hv
    · rw [if_neg how, ho] at hmodify
      exact ⟨value, hmodify, hv⟩
  | _ => exact ⟨value, ho, hv⟩

theorem Edit.users (h : p.Edit raw p')
    (hp : ∀ v value, p.values.get? v = some value → ∀ o ∈ value.operands, p.HasUser o v)
    {v : Nat} {value : Value} (hv : p'.values.get? v = some value) :
    ∀ o ∈ value.operands, p'.HasUser o v := by
  -- what is written with the same operands as before has its users already
  have hold : ∀ before, p.values.get? v = some before → before.outline = value.outline →
      ∀ o ∈ value.operands, p'.HasUser o v := by
    intro before hbefore hout o ho
    rw [← value.outline_operands, ← hout, before.outline_operands] at ho
    exact h.hasUser (hp v before hbefore o ho)
  cases h with
  | @push new n values _ hpush =>
    obtain ⟨rfl, hops, hnew, hrest⟩ := ValueTable.push_eq_ok hpush
    by_cases hvn : v = p.values.size
    · subst hvn
      obtain rfl : new = value := Option.some.inj (hnew.symm.trans hv)
      intro o ho
      have hlt := hops o ho
      obtain ⟨other, hother⟩ : ∃ other, p.values.get? o = some other :=
        ⟨_, Array.getElem?_eq_getElem hlt⟩
      obtain ⟨other', hother', _, hmem⟩ := ValueTable.exists_push hpush hother
      exact ⟨other', hother', hmem ho⟩
    · have hout := hrest v hvn
      rw [ValueTable.outline?, hv, ValueTable.outline?, Option.map_some] at hout
      obtain ⟨before, hbefore, hout⟩ := Option.map_eq_some_iff.mp hout.symm
      exact hold before hbefore hout
  | onFunction w hf =>
    have hout := ValueTable.outline?_modify (Value.outline_onFunction hf) p.values w v
    rw [ValueTable.outline?, hv, ValueTable.outline?, Option.map_some] at hout
    obtain ⟨before, hbefore, hout⟩ := Option.map_eq_some_iff.mp hout.symm
    exact hold before hbefore hout
  | _ => exact hold value hv rfl

theorem exists_mem_modify {modules : Array Module} {m : Module} (hm : m ∈ modules) (index : Nat)
    (f : Module → Module) : m ∈ modules.modify index f ∨ f m ∈ modules.modify index f := by
  obtain ⟨j, hj, rfl⟩ := Array.getElem_of_mem hm
  have hget : (modules.modify index f)[j]? =
      some (if index = j then f modules[j] else modules[j]) := by
    rw [Array.getElem?_modify, Array.getElem?_eq_getElem hj]
    split <;> rfl
  have hmem := Array.mem_of_getElem? hget
  split at hmem
  · exact .inr hmem
  · exact .inl hmem

theorem mem_modify_self {modules : Array Module} {index : Nat} (hi : index < modules.size)
    (f : Module → Module) : ∃ m ∈ modules, f m ∈ modules.modify index f := by
  refine ⟨modules[index], Array.getElem_mem hi, Array.mem_of_getElem? (i := index) ?_⟩
  rw [Array.getElem?_modify, Array.getElem?_eq_getElem hi, if_pos rfl, Option.map_some]

theorem Edit.lists (h : p.Edit raw p') {v : Nat} (hv : p.Lists v) : p'.Lists v := by
  obtain ⟨m, hm, hv⟩ := hv
  cases h with
  | addModule name => exact ⟨m, Array.mem_push_of_mem _ hm, hv⟩
  | @listGlobal index g symbols _ _ _ =>
    rcases exists_mem_modify hm index fun m => { m with globals := m.globals ++ [g] } with hm | hm
    · exact ⟨m, hm, hv⟩
    · exact ⟨_, hm, hv.imp (List.mem_append_left _) id⟩
  | @listFunction index f symbols _ _ _ =>
    rcases exists_mem_modify hm index fun m => { m with functions := m.functions ++ [f] }
      with hm | hm
    · exact ⟨m, hm, hv⟩
    · exact ⟨_, hm, hv.imp id (List.mem_append_left _)⟩
  | _ => exact ⟨m, hm, hv⟩

theorem Edit.functions (h : p.Edit raw p') (hp : p.Indexed) :
    ∀ m ∈ p'.modules, ∀ f ∈ m.functions, p'.IsFunction f := by
  intro m hm f hf
  have hkept : ∀ m' ∈ p.modules, f ∈ m'.functions → p'.IsFunction f :=
    fun m' hm' hf' => h.isFunction (hp.functions m' hm' f hf')
  cases h with
  | addModule name =>
    rcases Array.mem_push.mp hm with hm | rfl
    · exact hkept m hm hf
    · simp at hf
  | listGlobal =>
    dsimp only at hm
    rcases mem_modify hm with hm | ⟨m', hm', rfl⟩
    · exact hkept m hm hf
    · exact hkept m' hm' hf
  | listFunction _ hfunction _ =>
    dsimp only at hm
    rcases mem_modify hm with hm | ⟨m', hm', rfl⟩
    · exact hkept m hm hf
    · rcases List.mem_append.mp hf with hf | hf
      · exact hkept m' hm' hf
      · obtain rfl := List.mem_singleton.mp hf
        exact hfunction
  | _ => exact hkept m hm hf

theorem Edit.symbols (h : p.Edit raw p') (hp : p.Indexed) {name : String} {d : Nat}
    (hd : p'.symbols[name]? = some d) : p'.Names name d ∧ p'.Lists d := by
  have hkept : p.symbols[name]? = some d → p'.Names name d ∧ p'.Lists d := by
    intro hold
    obtain ⟨hnames, hlists⟩ := hp.symbols name d hold
    exact ⟨h.names hnames, h.lists hlists⟩
  -- a name is entered together with the listing of its definition
  have hentered : ∀ {v : Nat} {symbols : Std.TreeMap String Nat}, p.Enters v symbols →
      symbols[name]? = some d → (∀ other, p.Names other v → p'.Names other v) → p'.Lists v →
      p'.Names name d ∧ p'.Lists d := by
    rintro v _ (rfl | ⟨entered, hnames, rfl⟩) hentry hnamed hlists
    · exact hkept hentry
    · rw [Std.TreeMap.getElem?_insert] at hentry
      split at hentry
      · rename_i heq
        obtain rfl := Std.LawfulEqCmp.compare_eq_iff_eq.mp heq
        obtain rfl := Option.some.inj hentry
        exact ⟨hnamed _ hnames, hlists⟩
      · exact hkept hentry
  have hnamed : ∀ v other, p.Names other v → p'.Names other v := fun v other => h.names
  cases h with
  | @listGlobal _ g _ hi _ hs =>
    obtain ⟨m, _, hm⟩ := mem_modify_self hi fun m => { m with globals := m.globals ++ [g] }
    exact hentered hs hd (hnamed g) ⟨_, hm, .inl (by simp)⟩
  | @listFunction _ f _ hi _ hs =>
    obtain ⟨m, _, hm⟩ := mem_modify_self hi fun m => { m with functions := m.functions ++ [f] }
    exact hentered hs hd (hnamed f) ⟨_, hm, .inr (by simp)⟩
  | _ => exact hkept hd

theorem Edit.indexed (h : p.Edit raw p') (hp : p.Indexed) : p'.Indexed :=
  ⟨h.functions hp, fun _ _ => h.symbols hp, fun _ _ => h.users hp.users⟩

/-- A name stands for a global or a function. -/
theorem Indexed.definition (h : p.Indexed) (hwf : p.WellFormed) {name : String} {d : Nat}
    (hd : p.symbols[name]? = some d) : ∃ value, p.values.get? d = some value ∧
      value.name = some name ∧ value.isDeclaration = false ∧
      (p.IsGlobal d ∧ (∃ m ∈ p.modules, d ∈ m.globals) ∨
        p.IsFunction d ∧ ∃ m ∈ p.modules, d ∈ m.functions) := by
  obtain ⟨⟨value, hvalue, hname, hdef⟩, m, hm, hlist⟩ := h.symbols name d hd
  refine ⟨value, hvalue, hname, hdef, ?_⟩
  rcases hlist with hlist | hlist
  · exact .inl ⟨hwf.globals m hm d hlist, m, hm, hlist⟩
  · exact .inr ⟨h.functions m hm d hlist, m, hm, hlist⟩

end Program

theorem Draft.runScript_indexed (layout : DataLayout) (commands : List Command) :
    ((Draft.start layout).runScript commands).2.program.Indexed := by
  have hedits : Program.Edits true _ _ :=
    (Draft.start layout).runScript_edits commands (fun _ _ _ => rfl)
  refine Program.Edits.keeps hedits (fun _ _ h => h.indexed) ⟨?_, ?_, ?_⟩
  · intro m hm
    simp [Draft.start] at hm
  · intro name d hd
    simp [Draft.start] at hd
  · intro v value hv
    simp [Draft.start, ValueTable.get?] at hv

end AbstractMemory
