import AbstractMemory.Config.Format
import Mathlib.Data.List.Forall2

/-! Formats that read what they write. A tree is not read as such: its text is
taken apart into nodes, and each node gives its part of the data when asked for
the right kind of it. -/

namespace AbstractMemory

open Yaml (Tree)

namespace TextFormat

mutual

/-- Whether a tree is data for texts. Its numbers have 32 bits, and its keys are
some of those given. -/
def Writable (keys : String → Prop) : Tree → Prop
  | .number n => n < 0x100000000
  | .list items => WritableItems keys items
  | .map entries => WritableEntries keys entries
  | _ => True

def WritableItems (keys : String → Prop) : List Tree → Prop
  | [] => True
  | item :: rest => Writable keys item ∧ WritableItems keys rest

def WritableEntries (keys : String → Prop) : List (String × Tree) → Prop
  | [] => True
  | (key, value) :: rest => keys key ∧ Writable keys value ∧ WritableEntries keys rest

end

mutual

theorem Writable.mono {keys keys' : String → Prop} (h : ∀ key, keys key → keys' key) (t : Tree)
    (ht : Writable keys t) : Writable keys' t :=
  match t with
  | .null | .bool _ | .number _ | .text _ => ht
  | .list items => WritableItems.mono h items ht
  | .map entries => WritableEntries.mono h entries ht

theorem WritableItems.mono {keys keys' : String → Prop} (h : ∀ key, keys key → keys' key)
    (items : List Tree) (hitems : WritableItems keys items) : WritableItems keys' items :=
  match items with
  | [] => trivial
  | item :: rest => ⟨Writable.mono h item hitems.1, WritableItems.mono h rest hitems.2⟩

theorem WritableEntries.mono {keys keys' : String → Prop} (h : ∀ key, keys key → keys' key)
    (entries : List (String × Tree)) (hentries : WritableEntries keys entries) :
    WritableEntries keys' entries :=
  match entries with
  | [] => trivial
  | (key, value) :: rest =>
    ⟨h key hentries.1, Writable.mono h value hentries.2.1,
      WritableEntries.mono h rest hentries.2.2⟩

end

/-- A node gives the data of a tree, and asking it leaves the state as it was. -/
inductive Reads (F : TextFormat) : F.Node → Tree → Prop
  | null {n : F.Node} (h : F.asOptionalNumber n = pure none) : Reads F n .null
  | bool {n : F.Node} {b : Bool} (h : F.asBool n = pure b) : Reads F n (.bool b)
  | number {n : F.Node} {v : Nat} (h : F.asOptionalNumber n = pure (some v)) :
      Reads F n (.number v)
  | text {n : F.Node} {s : String} (h : F.asText n = pure s) : Reads F n (.text s)
  | list {n : F.Node} {nodes : List F.Node} {items : List Tree} (h : F.asItems n = pure nodes)
      (hitems : List.Forall₂ (Reads F) nodes items) : Reads F n (.list items)
  | map {n : F.Node} {nodes : List (F.Node × F.Node)} {entries : List (String × Tree)}
      (h : F.asEntries n = pure nodes)
      (hkeys : List.Forall₂ (fun node entry => F.asText node.1 = pure entry.1) nodes entries)
      (hvalues : List.Forall₂ (fun node entry => Reads F node.2 entry.2) nodes entries) :
      Reads F n (.map entries)

/-- The text of a map is read as that map, if it is data with such keys. -/
def Inverts (F : TextFormat) (keys : String → Prop) : Prop :=
  ∀ entries, entries ≠ [] → WritableEntries keys entries →
    ∃ n state, F.parse (F.emit entries) = some (some n, state) ∧ F.Reads n (.map entries)

theorem Inverts.mono {F : TextFormat} {keys keys' : String → Prop} (h : F.Inverts keys')
    (hkeys : ∀ key, keys key → keys' key) : F.Inverts keys :=
  fun entries hne hentries => h entries hne (WritableEntries.mono hkeys entries hentries)

end TextFormat

end AbstractMemory
