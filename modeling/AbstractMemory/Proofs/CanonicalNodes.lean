import AbstractMemory.Proofs.FieldPointers
import Mathlib

/-! One node for each field of a base. The node of a field belongs to the address
that leads the field, and an address leads only the field that it asks for
itself. So fields with one node are one field, and the table of what nodes were
made for reads the table of nodes for fields backwards. -/

namespace AbstractMemory

open Steps

namespace Arena

variable {p : Program} {c : Catalog} {a a' a₀ : Arena} {leaders : Nat × Nat → Option Nat}

/-- The nodes of values are value nodes. -/
def ValueKinds (a : Arena) : Prop :=
  ∀ u n : Nat, a.valueNodes[u]? = some n → ∃ node, a.get? n = some node ∧ node.kind = .value

theorem ValueKinds.frame (h : a.ValueKinds)
    (hkeeps : ∀ n node, a.get? n = some node → ∃ link, a'.get? n = some { node with link := link })
    (hvalues : a'.valueNodes = a.valueNodes) : a'.ValueKinds := by
  intro u n hu
  obtain ⟨node, hn, hkind⟩ := h u n (hvalues ▸ hu)
  obtain ⟨link, hn'⟩ := hkeeps n node hn
  exact ⟨_, hn', hkind⟩

theorem ValueKinds.insert (h : a.ValueKinds) {v : Nat} {node : MemoryNode}
    (hnodes : a'.nodes = a.nodes.push node) (hkind : node.kind = .value)
    (hvalues : a'.valueNodes = a.valueNodes.insert v a.size) : a'.ValueKinds := by
  intro u n hu
  rw [hvalues, getElem?_insert_node] at hu
  split at hu
  · obtain rfl := Option.some.inj hu
    exact ⟨node, by rw [get?_push hnodes, if_pos rfl], hkind⟩
  · obtain ⟨old, hn, hold⟩ := h u n hu
    obtain ⟨link, hn'⟩ := keeps_push hnodes n old hn
    exact ⟨_, hn', hold⟩

theorem lasting_kinds (may : Nat → Prop) :
    Lasting may fun a a' => a.ValueKinds → a'.ValueKinds where
  refl := fun _ h => h
  trans := fun _ _ _ h h' hk => h' (h hk)
  value := fun _ _ => meets_createValue (fun _ => trivial) fun _ h => h.insert rfl rfl rfl
  object := fun _ _ _ _ _ => meets_createObject (fun _ _ h => h) fun _ h =>
    h.frame (keeps_push rfl) rfl
  field := fun _ _ _ _ _ => meets_createField (fun _ => trivial) fun _ _ h =>
    h.frame (keeps_push rfl) rfl
  result := fun _ _ => meets_createReturn (fun _ => trivial) fun _ h =>
    h.frame (keeps_push rfl) rfl
  variadic := fun _ _ => meets_createVariadic (fun _ => trivial) fun _ h =>
    h.frame (keeps_push rfl) rfl
  standIn := fun a _ _ _ => meets_aliasObject (fun _ => trivial) fun h =>
    h.frame (Extends.refl a).keeps rfl

theorem requestAt_address {w : Nat} {r : FieldRequest} (h : a.requestAt p c w = some r) :
    r.address = w := by
  unfold requestAt at h
  split at h
  · cases h
  · split at h
    · split at h
      · cases h
      · rw [← Option.some.inj h]
    · cases h

/-- An address leads the field that it asks for, and the node of a field was made
for it. -/
structure Traced (p : Program) (c : Catalog) (a₀ : Arena) (leaders : Nat × Nat → Option Nat)
    (a : Arena) : Prop extends Caching p a₀ leaders a where
  own : ∀ key w, leaders key = some w →
    p.IsConstantAddress w ∧ a₀.requestAt p c w = some ⟨w, key.1, key.2⟩
  origin : ∀ key n, a.fieldPointers.lookup key = some n → a.fieldPointerOrigins[n]? = some key
  kinds : a.ValueKinds

theorem Traced.frame (h : Traced p c a₀ leaders a) (hsame : a.SameTables a')
    (hkeeps : a.Extends a') : Traced p c a₀ leaders a' where
  toCaching := h.toCaching.frame hsame.valueNodes hsame.size hsame.fieldPointers
  own := h.own
  origin := by
    rw [hsame.fieldPointers, hsame.fieldPointerOrigins]
    exact h.origin
  kinds := h.kinds.frame hkeeps.keeps hsame.valueNodes

theorem Traced.clear (h : Traced p c a₀ leaders a) :
    Traced p c a₀ (fun _ => none) a.clearFieldPointers where
  toCaching := h.toCaching.clear
  own := fun _ _ hw => by cases hw
  origin := fun _ _ hn => by cases hn
  kinds := h.kinds.frame (Extends.refl a).keeps rfl

theorem Traced.own_lead (h : Traced p c a₀ leaders a) {r : FieldRequest}
    (haddress : p.IsConstantAddress r.address) (hr : a₀.requestAt p c r.address = some r)
    (key : Nat × Nat) (w : Nat) (hw : r.lead leaders key = some w) :
    p.IsConstantAddress w ∧ a₀.requestAt p c w = some ⟨w, key.1, key.2⟩ := by
  unfold FieldRequest.lead at hw
  split at hw
  · rename_i hkey
    cases hleader : leaders key with
    | some w' =>
      rw [hleader, Option.getD_some] at hw
      exact h.own key w (hleader.trans hw)
    | none =>
      rw [hleader, Option.getD_none] at hw
      obtain rfl := Option.some.inj hw
      rw [hr, hkey]
      exact ⟨haddress, rfl⟩
  · exact h.own key w hw

theorem Traced.eq_of_led (h : Traced p c a₀ leaders a) {key key' : Nat × Nat} {w : Nat}
    (hw : leaders key = some w) (hw' : leaders key' = some w) : key = key' := by
  have hsame := (h.own key w hw).2.symm.trans (h.own key' w hw').2
  simp only [Option.some.injEq, FieldRequest.mk.injEq, true_and] at hsame
  exact Prod.ext hsame.1 hsame.2

/-- A node for a field is found, or entered in both tables. -/
theorem fieldPointer_entered (v base field : Nat) :
    Meets (fieldPointer v base field) a (fun n a' => a' = a ∨
      (a.ValueKinds → a'.ValueKinds) ∧ a'.valueNodes[v]? = some n ∧
        a'.fieldPointers = ((base, field), n) :: a.fieldPointers ∧
        a'.fieldPointerOrigins = a.fieldPointerOrigins.insert n (base, field)) (fun _ => True) := by
  refine meets_fieldPointer (fun _ _ => .inl rfl) ?_ ?_
  · intro n _ hn
    exact .inr ⟨fun h => h.frame (Extends.refl a).keeps rfl, hn, rfl, rfl⟩
  · intro _ _
    exact .inr ⟨fun h => h.insert rfl rfl rfl, getElem?_insert_node.trans (if_pos rfl), rfl, rfl⟩

theorem fieldPointer_traced (h : Traced p c a₀ leaders a) {r : FieldRequest}
    (hr : a₀.requestAt p c r.address = some r) (haddress : p.IsConstantAddress r.address) :
    Meets (fieldPointer r.address r.base r.field) a
      (fun _ => Traced p c a₀ (r.lead leaders)) (fun _ => False) := by
  refine ((fieldPointer_caching h.toCaching haddress).and (fieldPointer_entered _ _ _)).mono ?_
    (fun _ hbad => hbad.1)
  rintro n a' ⟨⟨hcaching, hkeeps, _⟩, hentered⟩
  refine ⟨hcaching, h.own_lead haddress hr, ?_, ?_⟩
  · rcases hentered with rfl | ⟨_, hn, hfields, horigins⟩
    · exact h.origin
    · intro key m hm
      rw [hfields, List.lookup_cons] at hm
      by_cases hkey : key = (r.base, r.field)
      · rw [hkey, beq_self_eq_true] at hm
        obtain rfl := Option.some.inj hm
        simp [horigins, hkey]
      · rw [beq_false_of_ne hkey] at hm
        -- a node that both fields had would be that of one address, which asks for one field
        have hne : n ≠ m := by
          rintro rfl
          cases hleader : leaders key with
          | none => simp [h.unled key hleader] at hm
          | some w =>
            obtain ⟨m, hm', hw⟩ := h.led key w hleader
            obtain rfl := Option.some.inj (hm.symm.trans hm')
            obtain rfl := hcaching.injective w r.address n (hkeeps w n hw) hn
            have hsame := Option.some.inj ((h.own key _ hleader).2.symm.trans hr)
            exact hkey (by rw [← hsame])
        rw [horigins, Std.TreeMap.getElem?_insert, if_neg (by simpa using hne)]
        exact h.origin key m hm
  · rcases hentered with rfl | ⟨hkinds, _⟩
    · exact h.kinds
    · exact hkinds h.kinds

theorem fieldPointer_known {v base field n : Nat}
    (h : a.fieldPointers.lookup (base, field) = some n) :
    leaves (fieldPointer v base field) a = a := by
  have hrun : fieldPointer v base field a = .ok n a := by
    unfold fieldPointer
    simp [bind, EStateM.bind, get, getThe, MonadStateOf.get, EStateM.get, h, pure, EStateM.pure]
  rw [leaves, hrun]

/-- The node for a field of what a base node points to: the base itself for the
first field, and else the node of the address that leads the field. -/
inductive Stands (p : Program) (leaders : Nat × Nat → Option Nat) (a : Arena) :
    Nat × Nat → Nat → Prop
  | start {b d : Nat} (hd : ¬ p.IsConstantAddress d) (hb : a.valueNodes[d]? = some b) :
      Stands p leaders a (b, 0) b
  | led {b f w n : Nat} (hf : f ≠ 0) (hw : leaders (b, f) = some w)
      (hn : a.valueNodes[w]? = some n) : Stands p leaders a (b, f) n

theorem Stands.mono {leaders' : Nat × Nat → Option Nat} {key : Nat × Nat} {n : Nat}
    (h : Stands p leaders a key n) (hkeeps : a.Keeps a')
    (hleaders : ∀ key w, leaders key = some w → leaders' key = some w) :
    Stands p leaders' a' key n := by
  cases h with
  | start hd hb => exact .start hd (hkeeps _ _ hb)
  | led hf hw hn => exact .led hf (hleaders _ _ hw) (hkeeps _ _ hn)

theorem Traced.stands_iff (h : Traced p c a₀ leaders a) {key key' : Nat × Nat} {n k : Nat}
    (hn : Stands p leaders a key n) (hk : Stands p leaders a key' k) : n = k ↔ key = key' := by
  -- a leader is a constant address, and the node of an object is not that of one
  have hapart : ∀ {key : Nat × Nat} {w d n : Nat}, leaders key = some w →
      a.valueNodes[w]? = some n → ¬ p.IsConstantAddress d → a.valueNodes[d]? ≠ some n := by
    intro key w d n hw hn hd hdn
    exact hd (h.injective w d n hn hdn ▸ (h.own key w hw).1)
  cases hn with
  | start hd hb =>
    cases hk with
    | start hd' hb' => simp
    | led hf hw hk =>
      refine iff_of_false ?_ (by simp [hf.symm])
      rintro rfl
      exact hapart hw hk hd hb
  | led hf hw hn =>
    cases hk with
    | start hd hb =>
      refine iff_of_false ?_ (by simp [hf])
      rintro rfl
      exact hapart hw hn hd hb
    | led hf' hw' hk =>
      constructor
      · rintro rfl
        obtain rfl := h.injective _ _ _ hn hk
        exact h.eq_of_led hw hw'
      · intro hkey
        rw [hkey, hw'] at hw
        obtain rfl := Option.some.inj hw
        exact Option.some.inj (hn.symm.trans hk)

/-- A leaf has the node of a value that is no constant address, or a sentinel. -/
theorem exists_value_of_definition (hwf : p.WellFormed) (hix : p.Indexed) {o b : Nat}
    {value : Value} (ho : p.values.get? o = some value) (hself : ¬ p.IsConstantAddress o)
    (hb : answers (σ := Arena) (do
      match ← askProgram (p.definitionOf o) with
      | some d => return (← get).valueNodes[d]?
      | none => return some universalPointer) a = .ok (some b))
    (hreal : isSentinel b = false) : ∃ d, ¬ p.IsConstantAddress d ∧ a.valueNodes[d]? = some b := by
  cases hd : p.definitionOf o with
  | error e =>
    rw [hd] at hb
    cases hb
  | ok found =>
    rw [hd] at hb
    cases found with
    | none =>
      obtain rfl : universalPointer = b := Option.some.inj (Except.ok.inj hb)
      cases hreal
    | some d =>
      exact ⟨d, Program.not_isConstantAddress_of_definitionOf hwf hix ho hself hd,
        Except.ok.inj hb⟩

theorem exists_value_of_leaf (hwf : p.WellFormed) (hix : p.Indexed) {o b : Nat} {value : Value}
    (ho : p.values.get? o = some value) (hleaf : value.IsLeaf)
    (hb : answers (valueNode p c o) a = .ok (some b)) (hreal : isSentinel b = false) :
    ∃ d, ¬ p.IsConstantAddress d ∧ a.valueNodes[d]? = some b := by
  have hself : ¬ p.IsConstantAddress o := by
    intro haddress
    obtain ⟨e, he⟩ := haddress.kind ho
    simpa [Value.elementAddress?, he] using hleaf.address
  have hsentinel : ∀ n, isSentinel n = true → some n ≠ some b := by
    intro n hn hsame
    rw [← Option.some.inj hsame, hn] at hreal
    cases hreal
  have hget : p.values.get o = .ok value := by simp [ValueTable.get, ho]
  rw [valueNode, hget] at hb
  simp only [askProgram_ok, pure_bind] at hb
  split at hb
  · rename_i k hk
    split at hb
    · exact absurd (Except.ok.inj hb) (hsentinel _ rfl)
    · split at hb
      · exact absurd (Except.ok.inj hb) (hsentinel _ rfl)
      · exact absurd (Except.ok.inj hb) (hsentinel _ rfl)
      · exact absurd (Except.ok.inj hb) (hsentinel _ rfl)
      · refine absurd (Except.ok.inj hb) (hsentinel _ ?_)
        split <;> rfl
      · exact absurd ⟨value, _, ho, by simp [Value.constantExpr?, hk]; rfl⟩ hself
      · rename_i kind source
        have hkeeps := hleaf.cast kind source (by simp [Value.cast?, hk])
        rw [if_neg (by simp [hkeeps])] at hb
        split at hb
        · exact absurd (Except.ok.inj hb) (hsentinel _ rfl)
        · cases hb
      · cases hb
  · exact exists_value_of_definition hwf hix ho hself hb hreal
  · exact exists_value_of_definition hwf hix ho hself hb hreal
  · exact ⟨o, hself, Except.ok.inj hb⟩

end Arena

namespace MemoryModel

variable {p : Program} {config : Config} {m m' : MemoryModel}
  {leaders : Nat × Nat → Option Nat}

theorem arena_use_of_request (hwf : m.program.WellFormed) (hix : m.program.Indexed)
    (hp : m'.program = m.program) (hc : m'.catalog = m.catalog)
    (h : Arena.Agrees m.program m.arena m'.arena) {v : Nat} {r : FieldRequest}
    (hr : m.arena.request m.program m.catalog v = some r) : (m'.use (.valueNode v)).arena =
      leaves (Arena.fieldPointer r.address r.base r.field) m'.arena := by
  have hlook := Arena.looksUp (c := m.catalog) hwf hix h v
  unfold Arena.LooksUp at hlook
  rw [hr] at hlook
  dsimp only at hlook
  rw [arena_use_valueNode, hp, hc, leaves, leaves, hlook]
  cases hrun : Arena.fieldPointer r.address r.base r.field m'.arena <;>
    simp [Functor.map, EStateM.map, hrun]

theorem use_traced (hwf : m.program.WellFormed) (hix : m.program.Indexed)
    (hp : m'.program = m.program) (hc : m'.catalog = m.catalog)
    (h : Arena.Traced m.program m.catalog m.arena leaders m'.arena) (u : Use) :
    Arena.Traced m.program m.catalog m.arena (m.lead leaders u) (m'.use u).arena := by
  have hframe : ∀ {α : Type} {step : Arranging α}, (m'.onArena step).2 = m'.use u →
      Meets step m'.arena (fun _ => m'.arena.SameTables) m'.arena.SameTables →
      Arena.Traced m.program m.catalog m.arena leaders (m'.use u).arena := by
    intro α step hstep hsame
    refine h.frame ?_ (m'.use_retains u).toExtends
    rw [← hstep, onArena_snd]
    exact hsame.leaves
  cases u with
  | valueNode v =>
    cases hr : m.arena.request m.program m.catalog v with
    | none =>
      have hlead : m.lead leaders (.valueNode v) = leaders := by simp only [lead, hr]
      rw [(nodeOf_of_settled hwf hix hp hc h.toCaching hr).2, hlead]
      exact h
    | some r =>
      have hlead : m.lead leaders (.valueNode v) = r.lead leaders := by simp only [lead, hr]
      rw [arena_use_of_request hwf hix hp hc h.agrees hr, hlead]
      obtain ⟨w, _, hw⟩ := Option.bind_eq_some_iff.mp hr
      have hown : m.arena.requestAt m.program m.catalog r.address = some r := by
        rw [Arena.requestAt_address hw, hw]
      exact ((Arena.fieldPointer_traced h hown (Arena.isConstantAddress_of_request hr)).mono
        (fun _ _ h' => h') (fun _ hbad => hbad.elim)).leaves
  | objectNode v =>
    exact hframe rfl (Arena.meets_ask (fun _ _ => Arena.SameTables.refl _)
      (fun _ _ => Arena.SameTables.refl _))
  | merge into other => exact hframe rfl (Arena.merge_sameTables _ into other)
  | target n => exact hframe rfl (Arena.target_sameTables _ n)
  | clearFieldPointers => exact h.clear
  | taint n => exact hframe rfl (Arena.taint_sameTables _ n)

theorem after_traced (hwf : m.program.WellFormed) (hix : m.program.Indexed)
    (hp : m'.program = m.program) (hc : m'.catalog = m.catalog)
    (h : Arena.Traced m.program m.catalog m.arena leaders m'.arena) (uses : List Use) :
    Arena.Traced m.program m.catalog m.arena (uses.foldl m.lead leaders)
      (m'.after uses).arena := by
  induction uses generalizing m' leaders with
  | nil => exact h
  | cons u rest ih =>
    exact ih ((use_program m' u).trans hp) ((use_catalog m' u).trans hc)
      (use_traced hwf hix hp hc h u)

theorem build_traced (h : build p config = .ok m) :
    Arena.Traced m.program m.catalog m.arena (fun _ => none) m.arena where
  toCaching := build_caching h
  own := fun _ _ hw => by cases hw
  origin := fun key n hn => by simp [(build_caching h).unled key rfl] at hn
  kinds := build_moves (Arena.lasting_kinds _) (p.grants_all _) h fun u n hu => by simp at hu

/-- A constant address of pointer type, with the node of the object it starts
from and the field it comes to there. -/
structure Addresses (m : MemoryModel) (v b f : Nat) : Prop where
  address : ∃ value e, m.program.values.get? v = some value ∧
    value.constantExpr? = some (.elementAddress e) ∧ m.program.types.isPointer value.type = true
  base : ∃ o, m.program.underlying v = .ok o ∧ m.nodeOf o = .ok (some b)
  real : isSentinel b = false
  field : ∃ r, m.catalog.constantField m.program v = .ok r ∧ r.index = f

instance (m : MemoryModel) (v b f : Nat) : Decidable (m.Addresses v b f) :=
  decidable_of_iff
    ((m.program.values.get? v).any (fun value => m.program.types.isPointer value.type &&
        value.constantExpr?.any fun | .elementAddress _ => true | _ => false) = true ∧
      (∃ o ∈ (m.program.underlying v).toOption, m.nodeOf o = .ok (some b)) ∧
      isSentinel b = false ∧
      ∃ r ∈ (m.catalog.constantField m.program v).toOption, r.index = f) <| by
    have hok : ∀ {ε α : Type} (x : Except ε α) (y : α), y ∈ x.toOption ↔ x = .ok y := by
      intro ε α x y
      cases x <;> simp [Except.toOption]
    simp only [Option.any_eq_true, hok, Bool.and_eq_true]
    constructor
    · rintro ⟨⟨value, hv, hpointer, expr, hexpr, haddress⟩, hbase, hreal, hfield⟩
      cases expr with
      | elementAddress e => exact ⟨⟨value, e, hv, hexpr, hpointer⟩, hbase, hreal, hfield⟩
      | cast => cases haddress
      | other => cases haddress
    · rintro ⟨⟨value, e, hv, hexpr, hpointer⟩, hbase, hreal, hfield⟩
      exact ⟨⟨value, hv, hpointer, _, hexpr, rfl⟩, hbase, hreal, hfield⟩

variable {v b f : Nat}

theorem Addresses.not_pointer (h : m.Addresses v b f) :
    b ≠ nullPointer ∧ b ≠ universalPointer := by
  have hreal := h.real
  constructor
  · rintro rfl
    cases hreal
  · rintro rfl
    cases hreal

theorem Addresses.requestAt (h : m.Addresses v b f) :
    m.arena.requestAt m.program m.catalog v = if f = 0 then none else some ⟨v, b, f⟩ := by
  obtain ⟨o, ho, hb⟩ := h.base
  obtain ⟨r, hr, rfl⟩ := h.field
  obtain ⟨hnull, huniversal⟩ := h.not_pointer
  rw [nodeOf_eq] at hb
  simp [Arena.requestAt, ho, hb, hr, hnull, huniversal]

theorem Addresses.request (h : m.Addresses v b f) :
    m.arena.request m.program m.catalog v = if f = 0 then none else some ⟨v, b, f⟩ := by
  obtain ⟨value, e, hv, hexpr, hpointer⟩ := h.address
  rw [Arena.request_of_address hv hexpr hpointer, h.requestAt]

/-- The object of an address has a node that no address leads. -/
theorem Addresses.exists_value (h : m.Addresses v b f) (hwf : m.program.WellFormed)
    (hix : m.program.Indexed) :
    ∃ d, ¬ m.program.IsConstantAddress d ∧ m.arena.valueNodes[d]? = some b := by
  obtain ⟨value, e, hv, _, _⟩ := h.address
  obtain ⟨o, ho, hb⟩ := h.base
  obtain ⟨o', found, ho', hfound, hleaf⟩ := hwf.exists_underlying hv
  obtain rfl := Except.ok.inj (ho.symm.trans ho')
  exact Arena.exists_value_of_leaf hwf hix hfound hleaf (nodeOf_eq m o ▸ hb) h.real

theorem Addresses.nodeOf_start (h : m.Addresses v b 0) (hwf : m.program.WellFormed)
    (hix : m.program.Indexed) : m.nodeOf v = .ok (some b) := by
  obtain ⟨value, e, hv, hexpr, hpointer⟩ := h.address
  obtain ⟨o, ho, hb⟩ := h.base
  obtain ⟨r, hr, hzero⟩ := h.field
  obtain ⟨o', found, ho', hfound, hleaf⟩ := hwf.exists_underlying hv
  obtain rfl := Except.ok.inj (ho.symm.trans ho')
  have hlt : o < v := by
    refine Nat.lt_of_le_of_ne (Program.underlying_le ho) ?_
    rintro rfl
    obtain rfl := Option.some.inj (hv.symm.trans hfound)
    exact (hleaf.plain _ hpointer).1 e hexpr
  have hsettled := Arena.valueNode_plain (c := m.catalog) hwf hix
    (Arena.Agrees.refl m.program m.arena) hfound (hleaf.plain _)
  rw [nodeOf_eq] at hb ⊢
  rw [Arena.valueNode_address hv hexpr hpointer ho hlt, answers, bind_of_leaves hsettled.2, hb]
  dsimp only
  rw [if_neg (not_or.mpr h.not_pointer), hr, Arena.askProgram_ok, pure_bind, if_pos hzero]
  rfl

theorem Addresses.nodeOf_stands (h : m.Addresses v b f) (hwf : m.program.WellFormed)
    (hix : m.program.Indexed) (hp : m'.program = m.program) (hc : m'.catalog = m.catalog)
    (htraced : Arena.Traced m.program m.catalog m.arena leaders m'.arena) :
    ∃ n, m'.nodeOf v = .ok (some n) ∧ Arena.Stands m.program (m.lead leaders (.valueNode v))
      (m'.use (.valueNode v)).arena (b, f) n := by
  have hr := h.request
  by_cases hf : f = 0
  · subst hf
    rw [if_pos rfl] at hr
    obtain ⟨hsame, harena⟩ := nodeOf_of_settled hwf hix hp hc htraced.toCaching hr
    obtain ⟨d, hd, hb⟩ := h.exists_value hwf hix
    refine ⟨b, hsame.trans (h.nodeOf_start hwf hix), .start hd ?_⟩
    rw [harena, htraced.agrees d hd, hb]
  · rw [if_neg hf] at hr
    obtain ⟨n, hn, _, _, hled⟩ := nodeOf_of_request hwf hix hp hc htraced.toCaching hr
    refine ⟨n, hn, .led hf ?_ hled⟩
    simp [lead, hr, FieldRequest.lead, FieldRequest.key]

/-- What has its node already is asked for without a change. -/
theorem Addresses.use_known (h : m.Addresses v b f) (hwf : m.program.WellFormed)
    (hix : m.program.Indexed) (hp : m'.program = m.program) (hc : m'.catalog = m.catalog)
    (htraced : Arena.Traced m.program m.catalog m.arena leaders m'.arena) {n : Nat}
    (hn : Arena.Stands m.program leaders m'.arena (b, f) n) : m'.use (.valueNode v) = m' := by
  have harena : (m'.use (.valueNode v)).arena = m'.arena := by
    have hr := h.request
    by_cases hf : f = 0
    · rw [if_pos hf] at hr
      exact (nodeOf_of_settled hwf hix hp hc htraced.toCaching hr).2
    · rw [if_neg hf] at hr
      cases hn with
      | start => exact absurd rfl hf
      | led _ hw _ =>
        obtain ⟨k, hlookup, _⟩ := htraced.led _ _ hw
        rw [arena_use_of_request hwf hix hp hc htraced.agrees hr]
        exact Arena.fieldPointer_known hlookup
  simp only [use, onArena_snd] at harena ⊢
  rw [harena]

theorem nodeOf_of_not_pointer {value : Value} {e : ElementAddress}
    (hv : m.program.values.get? v = some value)
    (hexpr : value.constantExpr? = some (.elementAddress e))
    (hpointer : m.program.types.isPointer value.type = false) :
    m.nodeOf v = .ok (some constantInteger) := by
  have hget : m.program.values.get v = .ok value := by simp [ValueTable.get, hv]
  rw [nodeOf_eq, Arena.valueNode, hget]
  simp only [Arena.askProgram_ok, pure_bind, value.kind_of_constantExpr? hexpr, hpointer,
    Bool.not_false, if_true]
  rfl

/-- While the nodes for fields are not forgotten, two constant addresses have the
same node exactly if they come to the same field of the same base node. The first
field is the base itself, any other one has a value node that is known to be for
it, and asking again changes nothing. A constant address that is no pointer has
the node of a number, whatever it comes to. -/
theorem address_nodes_canonical {layout : DataLayout} {commands : List Command}
    (hp : ((Draft.start layout).runScript commands).2.program = p) (h : build p config = .ok m)
    (before between : List Use) (hkept : .clearFieldPointers ∉ between) {w b' f' : Nat}
    (hv : m.Addresses v b f) (hw : m.Addresses w b' f') :
    (∃ n k, (m.after before).nodeOf v = .ok (some n) ∧
      (m.after (before ++ .valueNode v :: between)).nodeOf w = .ok (some k) ∧
      (n = k ↔ (b, f) = (b', f')) ∧ (f = 0 → n = b) ∧
      (f ≠ 0 → ∃ node, (m.after (before ++ .valueNode v :: between)).arena.get? n = some node ∧
        node.kind = .value ∧
        (m.after (before ++ .valueNode v :: between)).arena.fieldPointerOrigins[n]? =
          some (b, f)) ∧
      (m.after (before ++ .valueNode v :: between)).use (.valueNode v) =
        m.after (before ++ .valueNode v :: between)) ∧
    ∀ u value e uses, p.values.get? u = some value →
      value.constantExpr? = some (.elementAddress e) → p.types.isPointer value.type = false →
      (m.after uses).nodeOf u = .ok (some constantInteger) := by
  have hwf : p.WellFormed := hp ▸ Draft.runScript_wellFormed layout commands
  have hix : p.Indexed := hp ▸ Draft.runScript_indexed layout commands
  obtain ⟨rfl, _⟩ := build_population h
  refine ⟨?_, ?_⟩
  · have hafter : m.after (before ++ .valueNode v :: between) =
        ((m.after before).use (.valueNode v)).after between := List.foldl_append ..
    rw [hafter]
    have htraced := after_traced hwf hix rfl rfl (build_traced h) before
    obtain ⟨_, _, hp₁, hc₁⟩ := after_caching hwf hix rfl rfl (build_caching h) before
    generalize m.after before = m₁ at *
    generalize before.foldl m.lead _ = leaders at *
    obtain ⟨n, hn, hstands⟩ := hv.nodeOf_stands hwf hix hp₁ hc₁ htraced
    have htraced₁ := use_traced hwf hix hp₁ hc₁ htraced (.valueNode v)
    have hp₂ := (use_program m₁ (.valueNode v)).trans hp₁
    have hc₂ := (use_catalog m₁ (.valueNode v)).trans hc₁
    have htraced₂ := after_traced hwf hix hp₂ hc₂ htraced₁ between
    obtain ⟨_, hkeeps, hp₃, hc₃⟩ := after_caching hwf hix hp₂ hc₂ htraced₁.toCaching between
    have hstands := hstands.mono hkeeps fun key x => lead_of_not_clear m hkept
    obtain ⟨k, hk, hstands'⟩ := hw.nodeOf_stands hwf hix hp₃ hc₃ htraced₂
    have htraced₃ := use_traced hwf hix hp₃ hc₃ htraced₂ (.valueNode w)
    obtain ⟨_, hkeeps'⟩ := use_caching hwf hix hp₃ hc₃ htraced₂.toCaching (.valueNode w)
    have hlater := hstands.mono hkeeps' fun key x =>
      lead_of_not_clear m (show .clearFieldPointers ∉ [Use.valueNode w] by simp)
    refine ⟨n, k, hn, hk, htraced₃.stands_iff hlater hstands', ?_, ?_,
      hv.use_known hwf hix hp₃ hc₃ htraced₂ hstands⟩
    · rintro rfl
      cases hstands with
      | start => rfl
      | led hf => exact absurd rfl hf
    · intro hf
      cases hstands with
      | start => exact absurd rfl hf
      | led _ hlead hnode =>
        obtain ⟨node, hget, hkind⟩ := htraced₂.kinds _ _ hnode
        obtain ⟨n', hlookup, hnode'⟩ := htraced₂.led _ _ hlead
        obtain rfl := Option.some.inj (hnode.symm.trans hnode')
        exact ⟨node, hget, hkind, htraced₂.origin _ _ hlookup⟩
  · intro u value e uses hu hexpr hpointer
    rw [← (m.after_retains uses).2] at hu hpointer
    exact nodeOf_of_not_pointer hu hexpr hpointer

/-- A global triple of numbers that a second module declares. Its last field is
addressed at once, and over the field before it. The last value is such an address
with the type of a number. -/
def sharing : List Command := [
  .addModule "a.o",
  .int 32,
  .defineStruct "struct.s" [0, 0, 0],
  .global "g" 1 false,
  .constantAddress 1 0 [0, 2],
  .addModule "b.o",
  .enterModule 1,
  .global "g" 1 true,
  .constantAddress 1 4 [0, 1],
  .constantAddress 0 7 [1],
  .value 0 none (.constant (.expr (.elementAddress ⟨1, 0, [1, 2]⟩)))]

def shared : Program :=
  ((Draft.start {}).runScript sharing).2.program

/-- The address over the declaration gets the node, and the other one finds it
although nodes were merged in between. -/
theorem address_nodes_canonical_shared : ∃ m n, build shared {} = .ok m ∧
    (m.after [.valueNode 7, .clearFieldPointers]).nodeOf 9 = .ok (some n) ∧
    (m.after [.valueNode 7, .clearFieldPointers, .valueNode 9, .merge 5 6]).nodeOf 3 =
      .ok (some n) := by
  obtain ⟨m, hb, hfacts⟩ := exists_built shared {} (fun m =>
    decide (m.Addresses 9 5 2 ∧ m.Addresses 3 5 2)) (by decide +kernel)
  obtain ⟨hfirst, hsecond⟩ := of_decide_eq_true hfacts
  have hp : ((Draft.start {}).runScript sharing).2.program = shared := rfl
  obtain ⟨⟨n, k, hn, hk, hiff, _⟩, _⟩ := address_nodes_canonical hp hb
    [.valueNode 7, .clearFieldPointers] [.merge 5 6] (by decide) hfirst hsecond
  obtain rfl := hiff.mpr rfl
  exact ⟨m, n, hb, hn, hk⟩

/-- Two constant addresses of the same field, of which one is no pointer. -/
theorem address_nodes_apart_shared : ∃ m, build shared {} = .ok m ∧
    (shared.values.get? 3).bind Value.constantExpr? = some (.elementAddress ⟨1, 0, [1, 2]⟩) ∧
    (shared.values.get? 10).bind Value.constantExpr? = some (.elementAddress ⟨1, 0, [1, 2]⟩) ∧
    shared.underlying 3 = .ok 0 ∧ shared.underlying 10 = .ok 0 ∧ m.nodeOf 0 = .ok (some 5) ∧
    m.catalog.constantField shared 3 = .ok ⟨2, true⟩ ∧
    m.catalog.constantField shared 10 = .ok ⟨2, true⟩ ∧
    m.nodeOf 3 = .ok (some 9) ∧ (m.after [.valueNode 3]).nodeOf 10 = .ok (some 4) := by
  obtain ⟨m, hb, hfacts⟩ := exists_built shared {} (fun m =>
    decide ((shared.values.get? 3).bind Value.constantExpr? =
        some (.elementAddress ⟨1, 0, [1, 2]⟩) ∧
      (shared.values.get? 10).bind Value.constantExpr? = some (.elementAddress ⟨1, 0, [1, 2]⟩) ∧
      shared.underlying 3 = .ok 0 ∧ shared.underlying 10 = .ok 0 ∧ m.nodeOf 0 = .ok (some 5) ∧
      m.catalog.constantField shared 3 = .ok ⟨2, true⟩ ∧
      m.catalog.constantField shared 10 = .ok ⟨2, true⟩ ∧
      m.nodeOf 3 = .ok (some 9) ∧ (m.after [.valueNode 3]).nodeOf 10 = .ok (some 4)))
    (by decide +kernel)
  exact ⟨m, hb, of_decide_eq_true hfacts⟩

end MemoryModel

end AbstractMemory
