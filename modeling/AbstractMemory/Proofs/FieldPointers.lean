import AbstractMemory.Proofs.Creation
import AbstractMemory.Proofs.Geometry
import AbstractMemory.Proofs.Requests
import Mathlib

/-! Nodes for fields of constant addresses. Addresses of the same field share a
node, which belongs to the one that asked first. Once that is forgotten, another
address may be the first. -/

namespace AbstractMemory

open Steps

namespace Arena

variable {p : Program} {c : Catalog} {a a' a'' a₀ : Arena} {leaders : Nat × Nat → Option Nat}

/-- No two values share a node. -/
structure Unshared (a : Arena) : Prop where
  bounded : ∀ u n : Nat, a.valueNodes[u]? = some n → n < a.size
  injective : ∀ u w n : Nat, a.valueNodes[u]? = some n → a.valueNodes[w]? = some n → u = w

theorem Unshared.insert (h : a.Unshared) {v : Nat} (hsize : a'.size = a.size + 1)
    (hvalues : a'.valueNodes = a.valueNodes.insert v a.size) : a'.Unshared := by
  have hnew : ∀ u n : Nat, a'.valueNodes[u]? = some n →
      u = v ∧ n = a.size ∨ u ≠ v ∧ a.valueNodes[u]? = some n := by
    intro u n hu
    rw [hvalues, getElem?_insert_node] at hu
    split at hu
    · rename_i hvu
      exact .inl ⟨hvu.symm, (Option.some.inj hu).symm⟩
    · rename_i hvu
      exact .inr ⟨fun heq => hvu heq.symm, hu⟩
  constructor
  · intro u n hu
    rcases hnew u n hu with ⟨_, rfl⟩ | ⟨_, hu⟩
    · omega
    · have hlt := h.bounded u n hu
      omega
  · intro u w n hu hw
    rcases hnew u n hu with ⟨rfl, rfl⟩ | ⟨_, hu⟩ <;> rcases hnew w _ hw with ⟨rfl, hn⟩ | ⟨_, hw⟩
    · rfl
    · exact absurd (h.bounded w _ hw) (Nat.lt_irrefl _)
    · exact absurd (hn ▸ h.bounded u _ hu) (Nat.lt_irrefl _)
    · exact h.injective u w n hu hw

theorem Unshared.mono (h : a.Unshared) (hsize : a.size ≤ a'.size)
    (hvalues : a'.valueNodes = a.valueNodes) : a'.Unshared where
  bounded := fun u n hu => Nat.lt_of_lt_of_le (h.bounded u n (hvalues ▸ hu)) hsize
  injective := fun u w n hu hw => h.injective u w n (hvalues ▸ hu) (hvalues ▸ hw)

/-- While nodes are made, none is for a field of an address. -/
def Fresh (a : Arena) : Prop :=
  a.Unshared ∧ a.fieldPointers = []

theorem lasting_fresh (may : Nat → Prop) : Lasting may fun a a' => a.Fresh → a'.Fresh := by
  refine lasting_of_tables (fun _ h => h) (fun _ _ _ h h' hf => h' (h hf)) ?_ ?_ ?_
  · intro a a' v hsize hvalues _ hfields hf
    exact ⟨hf.1.insert hsize hvalues, hfields.trans hf.2⟩
  · intro a a' v n _ hsize hvalues _ hfields hf
    exact ⟨hf.1.mono hsize hvalues, hfields.trans hf.2⟩
  · intro a a' hsize hvalues _ hfields hf
    exact ⟨hf.1.mono hsize hvalues, hfields.trans hf.2⟩

theorem fresh_empty : ({} : Arena).Fresh :=
  ⟨⟨by simp, by simp⟩, rfl⟩

/-- Each value keeps the node it has. -/
def Keeps (a a' : Arena) : Prop :=
  ∀ u n : Nat, a.valueNodes[u]? = some n → a'.valueNodes[u]? = some n

/-- What is known of a field is the node of the address that leads it. -/
structure Caching (p : Program) (a₀ : Arena) (leaders : Nat × Nat → Option Nat) (a : Arena) :
    Prop extends a.Unshared where
  agrees : Agrees p a₀ a
  unled : ∀ key, leaders key = none → a.fieldPointers.lookup key = none
  led : ∀ key w, leaders key = some w →
    ∃ n, a.fieldPointers.lookup key = some n ∧ a.valueNodes[w]? = some n

theorem Caching.frame (h : Caching p a₀ leaders a) (hvalues : a'.valueNodes = a.valueNodes)
    (hsize : a'.size = a.size) (hfields : a'.fieldPointers = a.fieldPointers) :
    Caching p a₀ leaders a' where
  toUnshared := h.toUnshared.mono hsize.ge hvalues
  agrees := fun u hu => hvalues ▸ h.agrees u hu
  unled := fun key hkey => hfields ▸ h.unled key hkey
  led := by
    rw [hfields, hvalues]
    exact h.led

end Arena

/-- After a request, its field has a leader. -/
def FieldRequest.lead (r : FieldRequest) (leaders : Nat × Nat → Option Nat) :
    Nat × Nat → Option Nat :=
  fun key => if key = r.key then some ((leaders key).getD r.address) else leaders key

namespace Arena

variable {p : Program} {c : Catalog} {a a' a'' a₀ : Arena} {leaders : Nat × Nat → Option Nat}

/-- A field without a leader is led by the address that asks for it. -/
theorem Caching.enter (h : Caching p a₀ leaders a) {r : FieldRequest} {n : Nat}
    (hleader : leaders r.key = none) (hunshared : a'.Unshared) (hagrees : Agrees p a₀ a')
    (hkeeps : a.Keeps a') (hn : a'.valueNodes[r.address]? = some n)
    (hfields : a'.fieldPointers = (r.key, n) :: a.fieldPointers) :
    Caching p a₀ (r.lead leaders) a' := by
  have hlookup : ∀ key, a'.fieldPointers.lookup key =
      if key = r.key then some n else a.fieldPointers.lookup key := by
    intro key
    rw [hfields, List.lookup_cons]
    by_cases hkey : key = r.key
    · simp [hkey]
    · simp [hkey, beq_false_of_ne hkey]
  refine ⟨hunshared, hagrees, ?_, ?_⟩
  · intro key hkey
    unfold FieldRequest.lead at hkey
    split at hkey
    · cases hkey
    · rename_i hne
      rw [hlookup, if_neg hne]
      exact h.unled key hkey
  · intro key w hw
    unfold FieldRequest.lead at hw
    rw [hlookup]
    split at hw
    · rename_i heq
      rw [heq, hleader, Option.getD_none] at hw
      obtain rfl := Option.some.inj hw
      exact ⟨n, if_pos heq, hn⟩
    · rename_i hne
      obtain ⟨n', hn', hw'⟩ := h.led key w hw
      exact ⟨n', (if_neg hne).trans hn', hkeeps w n' hw'⟩

/-- A node for a field is found, or becomes that of the address that asks. -/
theorem fieldPointer_caching (h : Caching p a₀ leaders a) {r : FieldRequest}
    (hr : p.IsConstantAddress r.address) :
    Meets (fieldPointer r.address r.base r.field) a
      (fun n a' => Caching p a₀ (r.lead leaders) a' ∧ a.Keeps a' ∧
        a'.valueNodes[(leaders r.key).getD r.address]? = some n) (fun _ => False) := by
  cases hleader : leaders r.key with
  | some w =>
    obtain ⟨n, hn, hw⟩ := h.led r.key w hleader
    have hsame : r.lead leaders = leaders := by
      funext key
      unfold FieldRequest.lead
      split
      · rename_i heq
        rw [heq, hleader]
        rfl
      · rfl
    have hlookup : a.fieldPointers.lookup (r.base, r.field) = some n := hn
    refine meets_fieldPointer ?_ (fun _ hnone => ?_) (fun hnone => ?_)
    · intro m hm
      obtain rfl := Option.some.inj (hlookup.symm.trans hm)
      rw [hsame]
      exact ⟨h, fun _ _ hu => hu, hw⟩
    · cases hlookup.symm.trans hnone
    · cases hlookup.symm.trans hnone
  | none =>
    have hlookup : a.fieldPointers.lookup (r.base, r.field) = none := h.unled r.key hleader
    refine meets_fieldPointer (fun n hn => by cases hlookup.symm.trans hn) ?_ ?_
    · intro n _ hn
      have hkeeps : a.Keeps a := fun _ _ hu => hu
      exact ⟨h.enter hleader (h.toUnshared.mono (Nat.le_refl _) rfl) h.agrees hkeeps hn rfl,
        hkeeps, hn⟩
    · intro _ hnew
      have hkeeps : ∀ u n, a.valueNodes[u]? = some n →
          (a.valueNodes.insert r.address a.size)[u]? = some n :=
        fun u n hu => getElem?_insert_new hnew hu
      have hown : (a.valueNodes.insert r.address a.size)[r.address]? = some a.size := by simp
      refine ⟨h.enter hleader (h.toUnshared.insert (size_push rfl) rfl) ?_ hkeeps hown rfl,
        hkeeps, hown⟩
      intro u hu
      have hne : r.address ≠ u := by
        rintro rfl
        exact hu hr
      exact (getElem?_insert_node.trans (if_neg hne)).trans (h.agrees u hu)

/-- The arenas differ in their links and marks at most. -/
structure SameTables (a a' : Arena) : Prop where
  valueNodes : a'.valueNodes = a.valueNodes
  size : a'.size = a.size
  fieldPointers : a'.fieldPointers = a.fieldPointers
  fieldPointerOrigins : a'.fieldPointerOrigins = a.fieldPointerOrigins

theorem SameTables.refl (a : Arena) : a.SameTables a :=
  ⟨rfl, rfl, rfl, rfl⟩

theorem SameTables.trans (h : a.SameTables a') (h' : a'.SameTables a'') : a.SameTables a'' :=
  ⟨h'.valueNodes.trans h.valueNodes, h'.size.trans h.size,
    h'.fieldPointers.trans h.fieldPointers, h'.fieldPointerOrigins.trans h.fieldPointerOrigins⟩

theorem setLink_sameTables (a : Arena) (n target : Nat) : a.SameTables (a.setLink n target) :=
  ⟨rfl, size_setLink a n target, rfl, rfl⟩

theorem target_sameTables (a : Arena) (n : Nat) :
    Meets (target n) a (fun _ => a.SameTables) a.SameTables := by
  have hrun : ∀ (l : List Nat) (root : Nat) (a : Arena),
      a.SameTables (l.foldl (fun a m => a.setLink m root) a) := by
    intro l root
    induction l with
    | nil => exact SameTables.refl
    | cons m rest ih => exact fun a => (setLink_sameTables a m root).trans (ih _)
  unfold target
  rw [meets_get_bind]
  refine Meets.bind (meets_ask (fun _ _ => rfl) (fun _ _ => SameTables.refl a)
    : Meets _ a (fun _ a' => a' = a) a.SameTables) ?_
  rintro root _ rfl
  exact hrun _ root _

theorem merge_sameTables (a : Arena) (m n : Nat) :
    Meets (merge m n) a (fun _ => a.SameTables) a.SameTables := by
  unfold merge
  refine (target_sameTables a m).bind ?_
  intro rootA a₁ h₁
  refine Meets.bind ((target_sameTables a₁ n).mono (fun _ _ h => h₁.trans h) fun _ h =>
    h₁.trans h) ?_
  intro rootB a₂ h₂
  split
  · exact h₂
  · split
    · exact h₂
    · exact h₂.trans (setLink_sameTables a₂ rootB rootA)

theorem taint_sameTables (a : Arena) (n : Nat) :
    Meets (taint n) a (fun _ => a.SameTables) a.SameTables := by
  unfold taint
  refine Meets.bind (meets_ask (fun _ _ => rfl) (fun _ _ => SameTables.refl a)
    : Meets _ a (fun _ a' => a' = a) a.SameTables) ?_
  rintro node _ rfl
  split
  · exact ⟨rfl, rfl, rfl, rfl⟩
  · exact SameTables.refl _

theorem Caching.clear (h : Caching p a₀ leaders a) :
    Caching p a₀ (fun _ => none) a.clearFieldPointers :=
  ⟨h.toUnshared.mono (Nat.le_refl _) rfl, h.agrees, fun _ _ => rfl, fun _ _ hw => by cases hw⟩

theorem isConstantAddress_of_request {v : Nat} {r : FieldRequest}
    (h : a.request p c v = some r) : p.IsConstantAddress r.address := by
  obtain ⟨w, hw, hr⟩ := Option.bind_eq_some_iff.mp h
  have haddress : r.address = w := by
    unfold requestAt at hr
    split at hr
    · cases hr
    · split at hr
      · split at hr
        · cases hr
        · rw [← Option.some.inj hr]
      · cases hr
  rw [haddress]
  exact Program.isConstantAddress_of_addressBehind hw

end Arena

namespace MemoryModel

variable {p : Program} {config : Config} {m m' : MemoryModel}
  {leaders : Nat × Nat → Option Nat}

theorem onArena_fst {α : Type} (m : MemoryModel) (step : Arranging α) :
    (m.onArena step).1 = answers step m.arena := by
  unfold onArena answers
  split <;> simp_all

theorem onArena_snd {α : Type} (m : MemoryModel) (step : Arranging α) :
    (m.onArena step).2 = { m with arena := leaves step m.arena } := by
  unfold onArena leaves
  split <;> simp_all

/-- The value node of a value, as the model answers for it now. -/
def nodeOf (m : MemoryModel) (v : Nat) : Except NodeError (Option Nat) :=
  (m.onArena (Arena.valueNode m.program m.catalog v)).1

theorem nodeOf_eq (m : MemoryModel) (v : Nat) :
    m.nodeOf v = answers (Arena.valueNode m.program m.catalog v) m.arena :=
  onArena_fst m _

theorem arena_use_valueNode (m : MemoryModel) (v : Nat) : (m.use (.valueNode v)).arena =
    leaves (Arena.valueNode m.program m.catalog v) m.arena := by
  simp only [use, onArena_snd]

/-- The address that leads each field after a use of the model. Whoever asks for
a field without a leader becomes it, and clearing deposes all. -/
def lead (m : MemoryModel) (leaders : Nat × Nat → Option Nat) : Use → Nat × Nat → Option Nat
  | .valueNode v =>
    match m.arena.request m.program m.catalog v with
    | some r => r.lead leaders
    | none => leaders
  | .clearFieldPointers => fun _ => none
  | _ => leaders

def leadersAfter (m : MemoryModel) (uses : List Use) : Nat × Nat → Option Nat :=
  uses.foldl m.lead fun _ => none

/-- Asking for a field gets the node of its leader, who is the one that asks if
there was none. -/
theorem nodeOf_of_request (hwf : m.program.WellFormed) (hix : m.program.Indexed)
    (hp : m'.program = m.program) (hc : m'.catalog = m.catalog)
    (h : Arena.Caching m.program m.arena leaders m'.arena) {v : Nat} {r : FieldRequest}
    (hr : m.arena.request m.program m.catalog v = some r) :
    ∃ n, m'.nodeOf v = .ok (some n) ∧
      Arena.Caching m.program m.arena (r.lead leaders) (m'.use (.valueNode v)).arena ∧
      m'.arena.Keeps (m'.use (.valueNode v)).arena ∧
      (m'.use (.valueNode v)).arena.valueNodes[(leaders r.key).getD r.address]? = some n := by
  have hlook := Arena.looksUp (c := m.catalog) hwf hix h.agrees v
  have hfield := Arena.fieldPointer_caching h (Arena.isConstantAddress_of_request hr)
  unfold Arena.LooksUp at hlook
  rw [hr] at hlook
  dsimp only at hlook
  rw [nodeOf_eq, arena_use_valueNode, hp, hc]
  cases hrun : Arena.fieldPointer r.address r.base r.field m'.arena with
  | error e a => exact (hfield.of_error hrun rfl).elim
  | ok n a =>
    have hstep : Arena.valueNode m.program m.catalog v m'.arena = .ok (some n) a := by
      rw [hlook]
      simp [Functor.map, EStateM.map, hrun]
    obtain ⟨hcaching, hkeeps, hn⟩ := hfield.of_ok hrun
    unfold answers leaves
    rw [hstep]
    exact ⟨n, rfl, hcaching, hkeeps, hn⟩

theorem nodeOf_of_settled (hwf : m.program.WellFormed) (hix : m.program.Indexed)
    (hp : m'.program = m.program) (hc : m'.catalog = m.catalog)
    (h : Arena.Caching m.program m.arena leaders m'.arena) {v : Nat}
    (hr : m.arena.request m.program m.catalog v = none) :
    m'.nodeOf v = m.nodeOf v ∧ (m'.use (.valueNode v)).arena = m'.arena := by
  have hlook := Arena.looksUp (c := m.catalog) hwf hix h.agrees v
  unfold Arena.LooksUp at hlook
  rw [hr] at hlook
  rw [nodeOf_eq, nodeOf_eq, arena_use_valueNode, hp, hc]
  exact hlook

theorem use_caching (hwf : m.program.WellFormed) (hix : m.program.Indexed)
    (hp : m'.program = m.program) (hc : m'.catalog = m.catalog)
    (h : Arena.Caching m.program m.arena leaders m'.arena) (u : Use) :
    Arena.Caching m.program m.arena (m.lead leaders u) (m'.use u).arena ∧
      m'.arena.Keeps (m'.use u).arena := by
  have hframe : ∀ {α : Type} {step : Arranging α},
      Meets step m'.arena (fun _ => m'.arena.SameTables) m'.arena.SameTables →
      Arena.Caching m.program m.arena leaders (m'.onArena step).2.arena ∧
        m'.arena.Keeps (m'.onArena step).2.arena := by
    intro α step hstep
    have hsame := hstep.leaves
    rw [onArena_snd]
    exact ⟨h.frame hsame.valueNodes hsame.size hsame.fieldPointers,
      fun _ _ hu => hsame.valueNodes ▸ hu⟩
  cases u with
  | valueNode v =>
    cases hr : m.arena.request m.program m.catalog v with
    | none =>
      have hlead : m.lead leaders (.valueNode v) = leaders := by simp only [lead, hr]
      obtain ⟨_, hsame⟩ := nodeOf_of_settled hwf hix hp hc h hr
      rw [hsame, hlead]
      exact ⟨h, fun _ _ hu => hu⟩
    | some r =>
      have hlead : m.lead leaders (.valueNode v) = r.lead leaders := by simp only [lead, hr]
      obtain ⟨_, _, hcaching, hkeeps, _⟩ := nodeOf_of_request hwf hix hp hc h hr
      rw [hlead]
      exact ⟨hcaching, hkeeps⟩
  | objectNode v =>
    exact hframe (Arena.meets_ask (fun _ _ => Arena.SameTables.refl _)
      (fun _ _ => Arena.SameTables.refl _))
  | merge into other => exact hframe (Arena.merge_sameTables _ into other)
  | target n => exact hframe (Arena.target_sameTables _ n)
  | clearFieldPointers => exact ⟨h.clear, fun _ _ hu => hu⟩
  | taint n => exact hframe (Arena.taint_sameTables _ n)

theorem use_catalog (m : MemoryModel) (u : Use) : (m.use u).catalog = m.catalog := by
  cases u with
  | clearFieldPointers => rfl
  | _ => simp only [use, onArena_snd]

theorem after_caching (hwf : m.program.WellFormed) (hix : m.program.Indexed)
    (hp : m'.program = m.program) (hc : m'.catalog = m.catalog)
    (h : Arena.Caching m.program m.arena leaders m'.arena) (uses : List Use) :
    Arena.Caching m.program m.arena (uses.foldl m.lead leaders) (m'.after uses).arena ∧
      m'.arena.Keeps (m'.after uses).arena ∧ (m'.after uses).program = m.program ∧
      (m'.after uses).catalog = m.catalog := by
  induction uses generalizing m' leaders with
  | nil => exact ⟨h, fun _ _ hu => hu, hp, hc⟩
  | cons u rest ih =>
    obtain ⟨hstep, hkeeps⟩ := use_caching hwf hix hp hc h u
    obtain ⟨hrest, hkeeps', hprogram, hcatalog⟩ :=
      ih ((use_program m' u).trans hp) ((use_catalog m' u).trans hc) hstep
    exact ⟨hrest, fun w n hw => hkeeps' w n (hkeeps w n hw), hprogram, hcatalog⟩

theorem build_caching (h : build p config = .ok m) :
    Arena.Caching m.program m.arena (fun _ => none) m.arena := by
  obtain ⟨hunshared, hfields⟩ :=
    build_moves (Arena.lasting_fresh _) (p.grants_all _) h Arena.fresh_empty
  refine ⟨hunshared, Arena.Agrees.refl _ _, ?_, fun _ _ hw => by cases hw⟩
  intro key _
  rw [hfields]
  rfl

/-- A leader leads until it is deposed. -/
theorem lead_of_not_clear (m : MemoryModel) {key : Nat × Nat} {w : Nat} {uses : List Use}
    (hclear : .clearFieldPointers ∉ uses) (h : leaders key = some w) :
    uses.foldl m.lead leaders key = some w := by
  induction uses generalizing leaders with
  | nil => exact h
  | cons u rest ih =>
    rw [List.mem_cons, not_or] at hclear
    refine ih hclear.2 ?_
    cases u with
    | valueNode v =>
      cases hr : m.arena.request m.program m.catalog v with
      | none => simpa [lead, hr] using h
      | some r =>
        simp only [lead, hr, FieldRequest.lead]
        split
        · rw [h, Option.getD_some]
        · exact h
    | clearFieldPointers => exact absurd rfl hclear.1
    | _ => exact h

/-- Two answers for a value are the same exactly if the field it asks for has the
same leader both times, which is the constant address itself if there is none.
So a value keeps its node until the nodes for fields are forgotten, and after
that unless another address was the first to ask. -/
theorem value_node_kept {layout : DataLayout} {commands : List Command}
    (hp : ((Draft.start layout).runScript commands).2.program = p) (h : build p config = .ok m)
    (v : Nat) (before between : List Use) {x y : Option Nat}
    (hx : (m.after before).nodeOf v = .ok x)
    (hy : (m.after (before ++ .valueNode v :: between)).nodeOf v = .ok y) :
    (x = y ↔ ∀ r, m.arena.request p m.catalog v = some r →
      (m.leadersAfter before r.key).getD r.address =
        (m.leadersAfter (before ++ .valueNode v :: between) r.key).getD r.address) ∧
    (.clearFieldPointers ∉ between → x = y) := by
  have hwf : p.WellFormed := hp ▸ Draft.runScript_wellFormed layout commands
  have hix : p.Indexed := hp ▸ Draft.runScript_indexed layout commands
  obtain ⟨rfl, _⟩ := build_population h
  obtain ⟨h₁, _, hp₁, hc₁⟩ := after_caching hwf hix rfl rfl (build_caching h) before
  rw [← leadersAfter] at h₁
  have hafter : m.after (before ++ .valueNode v :: between) =
      ((m.after before).use (.valueNode v)).after between := List.foldl_append ..
  have hleaders : m.leadersAfter (before ++ .valueNode v :: between) =
      between.foldl m.lead (m.lead (m.leadersAfter before) (.valueNode v)) := List.foldl_append ..
  obtain ⟨hcache, _⟩ := use_caching hwf hix hp₁ hc₁ h₁ (.valueNode v)
  obtain ⟨h₂, hkeeps, hp₂, hc₂⟩ := after_caching hwf hix ((use_program _ _).trans hp₁)
    ((use_catalog _ _).trans hc₁) hcache between
  rw [hafter] at hy
  cases hr : m.arena.request m.program m.catalog v with
  | none =>
    have hxy : x = y := by
      rw [(nodeOf_of_settled hwf hix hp₁ hc₁ h₁ hr).1] at hx
      rw [(nodeOf_of_settled hwf hix hp₂ hc₂ h₂ hr).1] at hy
      exact Except.ok.inj (hx.symm.trans hy)
    exact ⟨iff_of_true hxy (by simp), fun _ => hxy⟩
  | some r =>
    obtain ⟨n, hn, _, _, hnode⟩ := nodeOf_of_request hwf hix hp₁ hc₁ h₁ hr
    obtain ⟨k, hk, hcache₂, hkeeps₂, hnode₂⟩ := nodeOf_of_request hwf hix hp₂ hc₂ h₂ hr
    obtain rfl := Except.ok.inj (hx.symm.trans hn)
    obtain rfl := Except.ok.inj (hy.symm.trans hk)
    rw [← hleaders] at hnode₂
    -- the first leader still has its node when the second answer is given
    have hnode := hkeeps₂ _ _ (hkeeps _ _ hnode)
    have hiff : some n = some k ↔ (m.leadersAfter before r.key).getD r.address =
        (m.leadersAfter (before ++ .valueNode v :: between) r.key).getD r.address := by
      constructor
      · intro hnk
        rw [← hnk] at hnode₂
        exact hcache₂.injective _ _ _ hnode hnode₂
      · intro hlead
        rw [hlead, hnode₂] at hnode
        exact hnode.symm
    refine ⟨by simpa using hiff, fun hclear => hiff.mpr ?_⟩
    have hled : m.lead (m.leadersAfter before) (.valueNode v) r.key =
        some ((m.leadersAfter before r.key).getD r.address) := by
      simp [lead, hr, FieldRequest.lead]
    rw [hleaders, lead_of_not_clear m hclear hled, Option.getD_some]

/-- A global pair of numbers, and two addresses of its second field. -/
def twinning : List Command := [
  .addModule "a.o",
  .int 32,
  .defineStruct "struct.s" [0, 0],
  .global "g" 1 false,
  .constantAddress 1 0 [0, 1],
  .constantAddress 1 0 [0, 1]]

def twin : Program :=
  ((Draft.start {}).runScript twinning).2.program

/-- Although all is forgotten in between, the first address leads again. -/
theorem value_node_kept_twin : ∃ m, build twin {} = .ok m ∧
    (m.after [.valueNode 3]).nodeOf 6 = .ok (some 8) ∧
    (m.after [.valueNode 3, .valueNode 6, .clearFieldPointers, .valueNode 3]).nodeOf 6 =
      .ok (some 8) ∧
    (m.leadersAfter [.valueNode 3] (5, 1)).getD 6 =
      (m.leadersAfter [.valueNode 3, .valueNode 6, .clearFieldPointers, .valueNode 3]
        (5, 1)).getD 6 := by
  obtain ⟨m, hb, hfacts⟩ := exists_built twin {} (fun m =>
    decide (m.arena.request twin m.catalog 6 = some ⟨6, 5, 1⟩ ∧
      (m.after [.valueNode 3]).nodeOf 6 = .ok (some 8) ∧
      (m.after [.valueNode 3, .valueNode 6, .clearFieldPointers, .valueNode 3]).nodeOf 6 =
        .ok (some 8))) (by decide +kernel)
  obtain ⟨hrequest, hx, hy⟩ := of_decide_eq_true hfacts
  have hp : ((Draft.start {}).runScript twinning).2.program = twin := rfl
  obtain ⟨hiff, _⟩ := value_node_kept hp hb 6 [.valueNode 3] [.clearFieldPointers, .valueNode 3]
    hx hy
  exact ⟨m, hb, hx, hy, hiff.mp rfl _ hrequest⟩

/-- The second address shares the node of the first, and has another one after
all is forgotten. -/
theorem value_node_lost_twin : ∃ m, build twin {} = .ok m ∧
    (m.after [.valueNode 3]).nodeOf 6 = .ok (some 8) ∧
    (m.after [.valueNode 3, .valueNode 6, .clearFieldPointers]).nodeOf 6 = .ok (some 9) := by
  obtain ⟨m, hb, hfacts⟩ := exists_built twin {} (fun m =>
    decide ((m.after [.valueNode 3]).nodeOf 6 = .ok (some 8) ∧
      (m.after [.valueNode 3, .valueNode 6, .clearFieldPointers]).nodeOf 6 = .ok (some 9)))
    (by decide +kernel)
  exact ⟨m, hb, of_decide_eq_true hfacts⟩

end MemoryModel

end AbstractMemory
