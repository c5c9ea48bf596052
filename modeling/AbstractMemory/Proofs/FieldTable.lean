import AbstractMemory.Proofs.Counting
import AbstractMemory.Record.Catalog

/-! The field table of a struct, said by recursion on what the struct is
written with. No record is asked for, so it does not matter what was flattened
before; only the stand-ins of the members are taken from the catalog. -/

namespace AbstractMemory

namespace Field

variable {overflow : Overflow} {bytes : Nat} {f f' : Field}

/-- The field at an offset that is larger by some bytes, modulo the largest count. -/
def shifted (f : Field) (bytes : Nat) : Field :=
  { f with offset := (bytes + f.offset) % 0x10000000000000000 }

theorem offset_shifted (h : bytes + f.offset ≤ maxByteCount) :
    (f.shifted bytes).offset = bytes + f.offset :=
  Nat.mod_eq_of_lt (Nat.lt_succ_of_le h)

@[simp] theorem size_shifted (f : Field) (bytes : Nat) : (f.shifted bytes).size = f.size :=
  rfl

theorem shift_eq_ok :
    f.shift overflow bytes = .ok f' ↔
      f' = f.shifted bytes ∧ (overflow = .stops → bytes + f.offset ≤ maxByteCount) := by
  unfold shift
  cases hcount : overflow.count (bytes + f.offset) with
  | error e =>
    obtain ⟨hstops, hlt, _⟩ := Overflow.count_eq_error.mp hcount
    simp [bind, Except.bind, hstops, Nat.not_le.mpr hlt]
  | ok n =>
    obtain ⟨rfl, hfits⟩ := Overflow.count_eq_ok.mp hcount
    rw [and_iff_left hfits]
    exact ⟨fun h => (Except.ok.inj h).symm, fun h => congrArg Except.ok h.symm⟩

theorem mapM_shift_eq_ok {fields moved : List Field} :
    fields.mapM (shift overflow bytes) = .ok moved ↔
      moved = fields.map (·.shifted bytes) ∧
        (overflow = .stops → ∀ f ∈ fields, bytes + f.offset ≤ maxByteCount) := by
  induction fields generalizing moved with
  | nil => simp [pure, Except.pure, eq_comm]
  | cons f rest ih =>
    rw [List.mapM_cons]
    constructor
    · intro h
      cases hf : f.shift overflow bytes with
      | error e => rw [hf] at h; cases h
      | ok f' =>
        cases hr : rest.mapM (shift overflow bytes) with
        | error e => rw [hf, hr] at h; cases h
        | ok rest' =>
          rw [hf, hr] at h
          obtain ⟨rfl, hfits⟩ := shift_eq_ok.mp hf
          obtain ⟨rfl, hall⟩ := ih.mp hr
          exact ⟨(Except.ok.inj h).symm,
            fun hstops => List.forall_mem_cons.mpr ⟨hfits hstops, hall hstops⟩⟩
    · rintro ⟨rfl, hfits⟩
      rw [shift_eq_ok.mpr ⟨rfl, fun hstops => hfits hstops f (by simp)⟩,
        ih.mpr ⟨rfl, fun hstops g hg => hfits hstops g (by simp [hg])⟩]
      rfl

end Field

structure FieldTable where
  fields : List Field
  /-- The first field of each declared member. -/
  memberFields : List Nat
  size : Nat
deriving DecidableEq, Repr

namespace FieldTable

/-- How many fields come before each part. -/
def starts (parts : List (List Field)) : List Nat :=
  (List.range parts.length).map fun i => (parts.take i).flatten.length

theorem getElem?_starts {parts : List (List Field)} {i : Nat} (hi : i < parts.length) :
    (starts parts)[i]? = some (parts.take i).flatten.length := by
  simp [starts, hi]

theorem length_take_add_le {parts : List (List Field)} {i : Nat} {part : List Field}
    (h : parts[i]? = some part) :
    (parts.take i).flatten.length + part.length ≤ parts.flatten.length := by
  obtain ⟨hi, rfl⟩ := List.getElem?_eq_some_iff.mp h
  have hsplit := congrArg (fun l => (List.flatten l).length) (List.take_append_drop i parts)
  simp only [List.flatten_append, List.length_append, List.drop_eq_getElem_cons hi,
    List.flatten_cons] at hsplit
  omega

/-- The parts follow each other, each shifted to its offset. -/
def sequential (parts : List (List Field)) (placed : StructLayout) : FieldTable where
  fields := (List.zipWith (fun part offset => part.map (·.shifted offset)) parts
    placed.offsets).flatten
  memberFields := starts parts
  size := placed.size

theorem getElem?_sequential {parts : List (List Field)} {placed : StructLayout} {i : Nat}
    {f : Field} (hf : (sequential parts placed).fields[i]? = some f) :
    ∃ j part o i' f', parts[j]? = some part ∧ placed.offsets[j]? = some o ∧
      part[i']? = some f' ∧ f = f'.shifted o ∧ i = (parts.take j).flatten.length + i' := by
  simp only [sequential] at hf
  generalize placed.offsets = offsets at hf ⊢
  induction parts generalizing offsets i with
  | nil => simp at hf
  | cons part rest ih =>
    cases offsets with
    | nil => simp at hf
    | cons o offsets =>
      rw [List.zipWith_cons_cons, List.flatten_cons, List.getElem?_append, List.length_map] at hf
      split at hf
      · rw [List.getElem?_map] at hf
        obtain ⟨f', hf', rfl⟩ := Option.map_eq_some_iff.mp hf
        exact ⟨0, part, o, i, f', rfl, rfl, hf', rfl, by simp⟩
      · rename_i hlt
        obtain ⟨j, part', o', i', f', hp, ho, hf', rfl, hi⟩ := ih offsets hf
        refine ⟨j + 1, part', o', i', f', hp, ho, hf', rfl, ?_⟩
        simp only [List.take_succ_cons, List.flatten_cons, List.length_append]
        omega

/-- All parts share one field. -/
def overlaid (isArray : Bool) (parts : List (List Field)) (size : Nat) : FieldTable where
  fields := [{
    offset := 0
    size := size
    isArray := isArray || parts.any (·.any Field.isArray)
    isPointer := parts.any (·.any Field.isPointer)
    isUnion := true }]
  memberFields := parts.map fun _ => 0
  size := size

end FieldTable

/-- What a record says of the fields of its struct. -/
def FieldRecord.table (r : FieldRecord) : FieldTable :=
  ⟨r.fields, r.memberFields, r.size⟩

namespace Program

/-- The size of a type, zero if it has none. -/
def byteCount (p : Program) (t : Nat) : Nat :=
  match p.dataLayout.size? p.types t with
  | .ok (some n) => n
  | _ => 0

/-- The one field of a member that is no struct. -/
def leafField (p : Program) (m : Nat) : Field where
  offset := 0
  size := p.byteCount m
  isArray := p.types.isArray m
  isPointer := p.types.isPointer (p.types.stripArrays m)
  isUnion := false

end Program

namespace Catalog

/-- The table of a struct whose members have the given fields. -/
def tableOver (c : Catalog) (p : Program) (t : Nat) (s : StructType) (members : List Nat)
    (parts : List (List Field)) : Option FieldTable :=
  if c.treatsAsUnion s then
    some (if members.isEmpty then ⟨[], [], 0⟩
      else .overlaid (members.any p.types.isArray) parts (p.byteCount t))
  else
    match p.dataLayout.structLayout p.types t with
    | .ok (some placed) => some (.sequential parts placed)
    | _ => none

/-- The table of a struct met inside the structs of `path`. A struct inside
itself has none. -/
def tableFrom (c : Catalog) (p : Program) (path : List Nat) (t : Nat) : Option FieldTable :=
  match _h : p.types.get? t with
  | some (.struct s) =>
    if _hp : t ∈ path then none
    else
      match s.body with
      | none => none
      | some members =>
        (members.mapM fun m =>
          match c.canonical? p (p.types.stripArrays m) with
          | none => some [p.leafField m]
          | some sub => (c.tableFrom p (t :: path) sub).map FieldTable.fields).bind
            (c.tableOver p t s members)
  | _ => none
termination_by unseen p.types.size path
decreasing_by exact unseen_cons_lt (TypeTable.lt_size_of_get? _h) _hp

/-- The table of a struct with a body. -/
def table? (c : Catalog) (p : Program) (t : Nat) : Option FieldTable :=
  c.tableFrom p [] t

end Catalog

end AbstractMemory
