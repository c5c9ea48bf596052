import AbstractMemory.Proofs.Descent
import AbstractMemory.Proofs.Reasons

/-! The recursions of a catalog with nothing remembered of the way down. Each is
unrolled to a depth, and what it would do below that depth is left open: an answer
that does not depend on it was reached within the depth. A struct in progress has
an unfinished record in the catalog, by which it is recognised. -/

namespace AbstractMemory

open Steps

/-- How far recursions are unrolled, and what they do below. A text that gets there
ends with an error of its own. -/
structure Floor where
  depth : Nat
  strip : Nat → Nat
  text : ProgramError
  extent : Nat → Except ProgramError (Option Extent)
  embed : Nat → Nat → Nat → Catalog → Except ProgramError Catalog
  record : Nat → Cataloguing Nat
  field : Nat → Nat → Nat → Nat → Except ProgramError ResolvedField

/-- The error in place of one that says that there is no end. -/
def Floor.reword (f : Floor) : RecordError → RecordError
  | .program (.halted .endless) => .program f.text
  | e => e

theorem Floor.reword_eq (f : Floor) {e : RecordError} (h : e ≠ .program (.halted .endless)) :
    f.reword e = e := by
  unfold reword
  split
  · exact (h rfl).elim
  · rfl

theorem unseen_le (n : Nat) (seen : List Nat) : unseen n seen ≤ n := by
  unfold unseen
  exact (List.length_filter_le _ _).trans_eq List.length_range

namespace Unrolled

def stripStep (types : TypeTable) (inner : Nat → Nat) (t : Nat) : Nat :=
  match types.get? t with
  | some (.array element _) => inner element
  | _ => t

def embedStep (p : Program) (outer : Nat)
    (inside : Nat → Nat → Catalog → Except ProgramError Catalog) (inner offset : Nat)
    (c : Catalog) : Except ProgramError Catalog :=
  match c.records[inner]? with
  | none => .ok c
  | some r =>
    let c := { c with records := c.records.insert inner (r.addContainer outer offset) }
    match p.types.get? inner with
    | some (.struct s) =>
      (c.memberPlaces p s inner).foldlM
        (fun c place => do inside place.1 (← p.dataLayout.overflow.count (place.2 + offset)) c) c
    | _ => .ok c

variable (f : Floor) (p : Program)

def strip : Nat → Nat :=
  (stripStep p.types)^[f.depth] f.strip

def text : Nat → Except ProgramError String :=
  p.types.textStep^[f.depth] fun _ => .error f.text

def extent : Nat → Except ProgramError (Option Extent) :=
  (p.dataLayout.extentStep p.types)^[f.depth] f.extent

def size? (t : Nat) : Except ProgramError (Option Nat) :=
  (extent f p t).map (Option.map Extent.size)

def structLayout (t : Nat) : Except ProgramError (Option StructLayout) :=
  match p.types.struct? t with
  | none => .error (.wrongType .struct t)
  | some s =>
    match s.body with
    | none => .ok none
    | some members => placeMembers p.dataLayout.overflow s (extent f p) {} members

def embed (outer : Nat) : Nat → Nat → Catalog → Except ProgramError Catalog :=
  (embedStep p outer)^[f.depth] (f.embed outer)

def embedMember (outer inner offset : Nat) : Cataloguing Unit := do
  set (← Catalog.ask (embed f p outer inner offset (← get)))

def sizeOrZero (t : Nat) : Cataloguing Nat := do
  return (← Catalog.ask (size? f p t)).getD 0

def addMember (record : Nat → Cataloguing Nat) (r : FieldRecord) (placed : Nat × Nat) :
    Cataloguing FieldRecord := do
  let (m, offset) := placed
  let stripped := p.types.stripArrays m
  let first := r.fieldCount
  let mapped := r.mapMember first
  let extended ←
    if p.types.isStruct stripped then do
      let sub ← Catalog.member record r.name stripped
      embedMember f p r.type sub offset
      match (← get).records[sub]? with
      | some inner => Catalog.ask (mapped.splice p.dataLayout.overflow inner offset)
      | none => pure mapped
    else do
      let size ← sizeOrZero f p m
      pure (mapped.push
        { offset, size, isArray := p.types.isArray m, isPointer := p.types.isPointer stripped,
          isUnion := false })
  return if first < extended.fieldCount then extended.addElementType first stripped else extended

def flattenStruct (record : Nat → Cataloguing Nat) (name : String) (t : Nat)
    (members : List Nat) : Cataloguing FieldRecord := do
  for m in members do
    let stripped := p.types.stripArrays m
    if p.types.isStruct stripped then
      let _ ← Catalog.member record name stripped
  match ← Catalog.ask (structLayout f p t) with
  | none => throw (.program (.unsizedType t))
  | some placed =>
    let r ← (members.zip placed.offsets).foldlM (addMember f p record) { name, type := t }
    Catalog.finish (if r.fields.isEmpty then r else r.addElementType 0 t) placed.size

def overlayMember (record : Nat → Cataloguing Nat) (t : Nat) (name : String)
    (o : Catalog.Overlay) (m : Nat) : Cataloguing Catalog.Overlay := do
  let stripped := p.types.stripArrays m
  let o := { o with isArray := o.isArray || p.types.isArray m, types := o.types ++ [stripped] }
  if p.types.isStruct stripped then do
    let sub ← Catalog.member record name stripped
    embedMember f p t sub 0
    match (← get).records[sub]? with
    | none => return o
    | some inner =>
      return {
        isArray := o.isArray || inner.fields.any Field.isArray
        isPointer := o.isPointer || inner.fields.any Field.isPointer
        types := o.types ++
          (inner.elementTypes.filter fun pair => decide (pair.1 < inner.fieldCount)).map Prod.snd }
  else
    return { o with isPointer := o.isPointer || p.types.isPointer stripped }

def flattenUnion (record : Nat → Cataloguing Nat) (name : String) (t : Nat)
    (members : List Nat) : Cataloguing FieldRecord := do
  let blank : FieldRecord := { name, type := t, isUnion := true }
  if members.isEmpty then Catalog.finish blank 0
  else
    let o ← members.foldlM (overlayMember f p record t name) {}
    let size ← sizeOrZero f p t
    let r := { blank with memberFields := members.map fun _ => 0 }.push
      { offset := 0, size, isArray := o.isArray, isPointer := o.isPointer, isUnion := true }
    Catalog.finish ((t :: o.types).foldl (fun r u => r.addElementType 0 u) r) size

/-- The record of a struct that is being flattened. -/
def unfinished (c : Catalog) (name : String) (t : Nat) : FieldRecord :=
  { name, type := t, isUnion := c.isUnion p t }

/-- A struct that has an unfinished record is met inside itself. The unfinished
record gives way to the finished one, or goes when there is none. -/
def ensureStep (record : Nat → Cataloguing Nat) (t : Nat) : Cataloguing Nat := do
  match p.types.struct? t with
  | none => throw (.notStruct t)
  | some s =>
    modify fun c => c.register s t
    let c ← get
    let key := c.standIn s t
    match c.records[key]? with
    | some r => if r.isFinal then return key else throw (.containsItself r.name)
    | none =>
      match p.types.struct? key with
      | none => throw (.notStruct key)
      | some shape =>
        let name ← Catalog.ask (text f p key)
        match shape.body with
        | none =>
          modify fun c => { c with records := c.records.insert key (.bodiless name key) }
          return key
        | some members =>
          modify fun c => { c with records := c.records.insert key (unfinished p c name key) }
          let flatten := if c.treatsAsUnion shape then flattenUnion else flattenStruct
          try
            let r ← flatten f p record name key members
            modify fun c => c.keep key r
            pure key
          catch e =>
            modify fun c => { c with records := c.records.erase key }
            throw e

def ensure : Nat → Cataloguing Nat :=
  (ensureStep f p)^[f.depth] f.record

def layoutOf (t : Nat) : Cataloguing FieldRecord := do
  let key ← ensure f p t
  match (← get).records[key]? with
  | some r => return r
  | none => throw (.notStruct t)

def coverStruct (t : Nat) : Cataloguing Unit := do
  match p.types.struct? t with
  | none => throw (.notStruct t)
  | some s =>
    match s.name, s.body with
    | none, _ => let _ ← ensure f p t
    | some name, some _ =>
      unless (← get).scopes.contains (scopeName name) do
        modify fun c => c.register s t
        let _ ← ensure f p t
    | some _, none => pure ()

def coverModule (index : Nat) : Cataloguing Unit := do
  let used ← Catalog.ask (p.usedStructs index)
  used.forM (coverStruct f p)

def coverProgram : Cataloguing Unit :=
  (List.range p.modules.size).forM (coverModule f p)

def descendStep (c : Catalog) (inside : Nat → Nat → Nat → Nat → Except ProgramError ResolvedField)
    (t index outer offset : Nat) : Except ProgramError ResolvedField :=
  if offset = 0 then .ok ⟨index, true⟩
  else
    let stripped := p.types.stripArrays t
    if p.types.isStruct stripped then
      match c.record? p stripped with
      | none => .ok ⟨outer, false⟩
      | some r =>
        if r.isOpaque || r.size == 0 then .ok ⟨index, false⟩
        else if r.isUnion then .ok ⟨index, true⟩
        else
          match structLayout f p r.type with
          | .error e => .error e
          | .ok none => .ok ⟨index, false⟩
          | .ok (some placed) =>
            match p.types.get? r.type with
            | some (.struct s) =>
              let rest := offset % r.size
              let m := placed.memberAt rest
              inside (s.members[m]?.getD stripped) (index + r.memberFields[m]?.getD 0) index
                (rest - placed.offsets[m]?.getD 0)
            | _ => .ok ⟨index, false⟩
    else
      match size? f p stripped with
      | .error e => .error e
      | .ok size =>
        let size := size.getD 0
        if size = 0 then .ok ⟨outer, false⟩
        else if offset % size = 0 then .ok ⟨index, true⟩
        else .ok ⟨outer, false⟩

def descend (c : Catalog) : Nat → Nat → Nat → Nat → Except ProgramError ResolvedField :=
  (descendStep f p c)^[f.depth] f.field

def fieldInType (c : Catalog) (t : Nat) (offset : Int) : Except ProgramError ResolvedField :=
  if offset < 0 then .ok ⟨0, false⟩
  else
    match p.types.struct? t with
    | none => descend f p c t 0 0 offset.toNat
    | some s =>
      if c.treatsAsUnion s then .ok ⟨0, true⟩
      else if s.body.isNone && (c.record? p t).all FieldRecord.isOpaque then .ok ⟨0, false⟩
      else descend f p c t 0 0 offset.toNat

end Unrolled

namespace TypeTable

/-- A type is the element of another, which is an array. -/
def Element (types : TypeTable) (t u : Nat) : Prop :=
  ∃ length, types.get? t = some (.array u length)

/-- No array is inside itself through arrays alone. -/
def ArraysEnd (types : TypeTable) : Prop :=
  ∀ t, ¬ Relation.TransGen types.Element t t

theorem arraysEnd_of_lt {types : TypeTable}
    (h : ∀ t < types.size, ∀ u ∈ (types.get? t).bind Ty.element?, u < t) : types.ArraysEnd := by
  have hless : ∀ t u, Relation.TransGen types.Element t u → u < t := by
    intro t u htu
    have hstep : ∀ t u, types.Element t u → u < t := by
      rintro t u ⟨length, ht⟩
      exact h t (lt_size_of_get? ht) u (by simp [ht, Ty.element?])
    induction htu with
    | single hu => exact hstep _ _ hu
    | tail _ hu ih => exact (hstep _ _ hu).trans ih
  exact fun t ht => Nat.lt_irrefl t (hless t t ht)

/-- What a type holds by value comes to an end. -/
def Founded (types : TypeTable) (t : Nat) : Prop :=
  Acc (fun u t => types.Part t u) t

variable {types : TypeTable} {t u : Nat} {path : List Nat}

theorem Founded.part (h : types.Founded t) (hu : types.Part t u) : types.Founded u :=
  h.inv hu

theorem Founded.byValue (h : types.Founded t) (hu : types.ByValue t u) : types.Founded u := by
  induction hu with
  | refl => exact h
  | tail _ hstep ih => exact ih.part hstep

theorem Founded.not_inside_self (h : types.Founded t) : ¬ Relation.TransGen types.Part t t := by
  induction h with
  | intro t _ ih =>
    intro hcycle
    -- the cycle also leads from the first part of it back to that part
    obtain ⟨u, hu, hback⟩ := Relation.TransGen.head'_iff.mp hcycle
    exact ih u hu (Relation.TransGen.tail' hback hu)

theorem ArraysEnd.inside (h : types.ArraysEnd) {element length : Nat}
    (ht : types.get? t = some (.array element length))
    (hpath : ∀ x ∈ path, Relation.TransGen types.Element x t) :
    t ∉ path ∧ ∀ x ∈ t :: path, Relation.TransGen types.Element x element := by
  refine ⟨fun hm => h t (hpath t hm), fun x hx => ?_⟩
  rcases List.mem_cons.mp hx with rfl | hx
  · exact .single ⟨length, ht⟩
  · exact (hpath x hx).tail ⟨length, ht⟩

theorem stripArraysFrom_eq_step (hp : t ∉ path) :
    types.stripArraysFrom path t = Unrolled.stripStep types (types.stripArraysFrom (t :: path)) t := by
  rw [stripArraysFrom]
  split <;> rename_i hget
  · simp only [Unrolled.stripStep, hget, hp, dite_false]
  · unfold Unrolled.stripStep
    split
    · rename_i element length ht
      exact (hget element length ht).elim
    · rfl

theorem ArraysEnd.acc (h : types.ArraysEnd)
    (hpath : ∀ x ∈ path, Relation.TransGen types.Element x t) :
    Acc (fun u t => types.Element t u) t := by
  induction hn : unseen types.size path using Nat.strong_induction_on generalizing path t with
  | _ n ih =>
    subst hn
    refine .intro t ?_
    rintro element ⟨length, ht⟩
    obtain ⟨hp, hin⟩ := h.inside ht hpath
    exact ih _ (unseen_cons_lt (lt_size_of_get? ht) hp) hin rfl

/-- Induction over the dimensions of arrays. -/
theorem ArraysEnd.induction (h : types.ArraysEnd) {motive : Nat → Prop}
    (array : ∀ t element length, types.get? t = some (.array element length) →
      motive element → motive t)
    (other : ∀ t, (∀ element length, types.get? t ≠ some (.array element length)) → motive t)
    (t : Nat) : motive t := by
  have hacc : Acc (fun u t => types.Element t u) t := h.acc (List.forall_mem_nil _)
  induction hacc with
  | intro t _ ih =>
    by_cases ht : ∃ element length, types.get? t = some (.array element length)
    · obtain ⟨element, length, ht⟩ := ht
      exact array t element length ht (ih element ⟨length, ht⟩)
    · exact other t fun element length hget => ht ⟨element, length, hget⟩

theorem ArraysEnd.stripStep_eq (h : types.ArraysEnd) (below : Nat → Nat) {depth : Nat}
    (hpath : ∀ x ∈ path, Relation.TransGen types.Element x t)
    (hdepth : unseen types.size path < depth) :
    (Unrolled.stripStep types)^[depth] below t = types.stripArraysFrom path t := by
  induction depth generalizing path t with
  | zero => omega
  | succ depth ih =>
    rw [Function.iterate_succ_apply']
    by_cases ht : ∃ element length, types.get? t = some (.array element length)
    · obtain ⟨element, length, ht⟩ := ht
      obtain ⟨hp, hin⟩ := h.inside ht hpath
      have hlt := unseen_cons_lt (lt_size_of_get? ht) hp
      rw [stripArraysFrom_eq_step hp]
      simp only [Unrolled.stripStep, ht]
      exact ih hin (by omega)
    · have ht : ∀ element length, types.get? t ≠ some (.array element length) := by
        simpa using ht
      rw [stripArraysFrom_self path ht]
      unfold Unrolled.stripStep
      split
      · rename_i element length hget
        exact (ht element length hget).elim
      · rfl

theorem ArraysEnd.stripArrays_element (h : types.ArraysEnd) {element length : Nat}
    (ht : types.get? t = some (.array element length)) :
    types.stripArrays t = types.stripArrays element := by
  have hnil : ∀ u, ∀ x ∈ ([] : List Nat), Relation.TransGen types.Element x u := by simp
  obtain ⟨hp, hin⟩ := h.inside ht (hnil t)
  have hlt := unseen_cons_lt (lt_size_of_get? ht) hp
  rw [stripArrays, stripArraysFrom_array ht hp,
    ← h.stripStep_eq id hin (Nat.lt_succ_of_lt hlt), h.stripStep_eq id (hnil element) (Nat.lt_succ_self _)]
  rfl

theorem ArraysEnd.not_array (h : types.ArraysEnd) (t element length : Nat) :
    types.get? (types.stripArrays t) ≠ some (.array element length) := by
  induction t using h.induction with
  | array t element' length' ht ih => rwa [h.stripArrays_element ht]
  | other t ht =>
    rw [stripArrays, stripArraysFrom_self [] ht]
    exact ht element length

theorem ArraysEnd.founded (h : types.ArraysEnd) (hst : types.Founded (types.stripArrays t)) :
    types.Founded t := by
  induction t using h.induction with
  | array t element length ht ih =>
    refine .intro t fun u hu => ?_
    cases hu with
    | element hget =>
      obtain rfl : element = u := by
        rw [ht] at hget
        cases hget
        rfl
      exact ih (h.stripArrays_element ht ▸ hst)
    | member hs => simp [get?_of_struct? hs] at ht
  | other t ht => rwa [stripArrays, stripArraysFrom_self [] ht] at hst

end TypeTable

theorem mapM_mapError {ε ε' α β : Type} {f : α → Except ε β} {g : ε → ε'} {l : List α} :
    (l.mapM fun a => (f a).mapError g) = (l.mapM f).mapError g := by
  induction l with
  | nil => rfl
  | cons a rest ih =>
    rw [List.mapM_cons, List.mapM_cons, ih]
    cases f a with
    | error e => rfl
    | ok b => cases rest.mapM f <;> rfl

/-- Whatever goes wrong in a text goes wrong in a part of it. -/
theorem TypeTable.textStep_mapError {types : TypeTable}
    {inner : Nat → Except ProgramError String} {g : ProgramError → ProgramError} {t : Nat} :
    types.textStep (fun u => (inner u).mapError g) t = (types.textStep inner t).mapError g := by
  unfold textStep
  split
  · rfl
  · rename_i ty _
    rw [mapM_mapError]
    cases ty.writtenParts.mapM inner <;> rfl

theorem TypeTable.iterate_textStep_error {types : TypeTable} (e e' : ProgramError) (depth t : Nat) :
    types.textStep^[depth] (fun _ => .error e') t =
      (types.textStep^[depth] (fun _ => .error e) t).mapError fun _ => e' := by
  induction depth generalizing t with
  | zero => rfl
  | succ depth ih =>
    rw [Function.iterate_succ_apply', Function.iterate_succ_apply', ← textStep_mapError,
      ← funext ih]

namespace Unrolled

variable {f : Floor} {p : Program} {t : Nat}

theorem strip_eq (h : p.types.ArraysEnd) (hf : p.types.size < f.depth) (t : Nat) :
    strip f p t = p.types.stripArrays t :=
  h.stripStep_eq f.strip (by simp) ((unseen_le _ _).trans_lt hf)

/-- A text that ends is the same, and one that does not gets to the floor. -/
theorem text_eq (hf : p.types.size < f.depth) (t : Nat) :
    text f p t = (p.types.text t).mapError fun _ => f.text := by
  have hguards := p.types.text_guards
  have heq : p.types.text t = _ := hguards.eq_unrolled hf t
  rw [heq]
  exact TypeTable.iterate_textStep_error _ _ _ _

theorem extent_ne_endless (h : p.types.Founded t) :
    p.dataLayout.extent p.types t ≠ .error (.halted .endless) := by
  intro he
  obtain ⟨u, hu, hcycle⟩ := DataLayout.extentFrom_endless (by simp) he
  exact (h.byValue hu).not_inside_self hcycle

theorem extent_eq (h : p.types.Founded t) (hf : p.types.size < f.depth) :
    extent f p t = p.dataLayout.extent p.types t := by
  have hbelow := (p.dataLayout.extent_guards p.types).below_unrolled f.extent
    ((unseen_le _ []).trans_lt hf) t
  exact (hbelow.eq (extent_ne_endless h)).symm

theorem size?_eq (h : p.types.Founded t) (hf : p.types.size < f.depth) :
    size? f p t = p.dataLayout.size? p.types t := by
  rw [size?, extent_eq h hf]
  rfl

theorem size?_ne_endless (h : p.types.Founded t) :
    p.dataLayout.size? p.types t ≠ .error (.halted .endless) :=
  fun he => extent_ne_endless h (DataLayout.size?_eq_error.mp he)

theorem structLayout_ne_endless (h : p.types.Founded t) :
    p.dataLayout.structLayout p.types t ≠ .error (.halted .endless) := by
  intro he
  cases hs : p.types.struct? t with
  | none => simp [DataLayout.structLayout, hs] at he
  | some s =>
    refine extent_ne_endless h ?_
    rw [DataLayout.extent_eq_structLayout hs, he]
    rfl

theorem structLayout_eq (h : p.types.Founded t) (hf : p.types.size < f.depth) :
    structLayout f p t = p.dataLayout.structLayout p.types t := by
  have hne := structLayout_ne_endless h
  unfold structLayout DataLayout.structLayout at *
  cases hs : p.types.struct? t with
  | none => rfl
  | some s =>
    cases hb : s.body with
    | none => simp only [hb]
    | some members =>
      simp only [hs, hb] at hne ⊢
      refine ((DataLayout.placeMembers_below ?_ {} members).eq hne).symm
      exact (p.dataLayout.extent_guards p.types).below_unrolled f.extent
        ((unseen_le _ _).trans_lt hf)

end Unrolled

end AbstractMemory
