import AbstractMemory.Ident
import Std.Data.TreeMap

/-! Sparse sets of nodes. The ids are kept in blocks of 128 bits, and a block
is kept only if it has an element. -/

namespace AbstractMemory

abbrev Block := BitVec 128

def blockKey (n : Nat) : Nat := n / 128

def blockBit (n : Nat) : Block := BitVec.twoPow 128 (n % 128)

structure ObjectSet where
  blocks : Std.TreeMap Nat Block := {}
deriving Inhabited

namespace ObjectSet

def empty : ObjectSet := {}

def block (s : ObjectSet) (key : Nat) : Block :=
  s.blocks.getD key 0

def contains (s : ObjectSet) (n : Nat) : Bool :=
  (s.block (blockKey n)).getLsbD (n % 128)

/-- Whether the set grew, and the set with the element. -/
def insert (s : ObjectSet) (n : Nat) : Bool × ObjectSet :=
  (!s.contains n,
    { blocks := s.blocks.insert (blockKey n) (s.block (blockKey n) ||| blockBit n) })

/-- Whether the element was there, and the set without it. -/
def remove (s : ObjectSet) (n : Nat) : Bool × ObjectSet :=
  if s.blocks.contains (blockKey n) then
    let rest := s.block (blockKey n) &&& ~~~blockBit n
    (s.contains n,
      { blocks := if rest = 0 then s.blocks.erase (blockKey n)
                  else s.blocks.insert (blockKey n) rest })
  else (false, s)

/-- Whether the set grew, and the set with all the elements. -/
def insertAll (s : ObjectSet) (ns : List Nat) : Bool × ObjectSet :=
  ns.foldl (fun (grown, s) n => let (new, s) := s.insert n; (grown || new, s)) (false, s)

def singleton (n : Nat) : ObjectSet :=
  (empty.insert n).2

def ofList (ns : List Nat) : ObjectSet :=
  (empty.insertAll ns).2

/-- How many ids there are. -/
def idCount : Nat := 4294967296

/-- The set that a list of numbers is read as, if all of them are ids. -/
def ofNumbers? (ns : List Int) : Option ObjectSet :=
  if ns.all fun n => decide (0 ≤ n ∧ n < idCount) then some (ofList (ns.map Int.toNat)) else none

def isEmpty (s : ObjectSet) : Bool :=
  s.blocks.isEmpty

/-- The places of the bits of a block, ascending. -/
def bits (b : Block) : List Nat :=
  (List.range 128).filter b.getLsbD

def size (s : ObjectSet) : Nat :=
  s.blocks.toList.foldr (fun (_, b) n => (bits b).length + n) 0

/-- The place of the lowest bit, or 128 if there is none. -/
def lowestBit (b : Block) : Nat :=
  (List.range 128).findIdx b.getLsbD

/-- The least element. -/
def first? (s : ObjectSet) : Option Nat :=
  s.blocks.minKey?.map fun key => key * 128 + lowestBit (s.block key)

/-- A block without its lowest bit. -/
def dropLowest (b : Block) : Block := b &&& (b - 1)

theorem toNat_dropLowest_lt {b : Block} (h : b ≠ 0) : (dropLowest b).toNat < b.toNat := by
  have hpos : 0 < b.toNat := Nat.pos_of_ne_zero fun hz => h (BitVec.eq_of_toNat_eq hz)
  have hle : (dropLowest b).toNat ≤ (b - 1).toNat := by
    rw [dropLowest, BitVec.toNat_and]
    exact Nat.and_le_right
  have hsub : (b - 1).toNat = b.toNat - 1 := BitVec.toNat_sub_of_le hpos
  omega

/-- How far the elements of a set have been gone through. -/
structure Cursor where
  /-- The key of the block at hand, and the bits of it that are to come. -/
  current : Option (Nat × Block) := none
  /-- The keys of the blocks after it, ascending. -/
  keys : List Nat
deriving Inhabited

def cursor (s : ObjectSet) : Cursor := { keys := s.blocks.keys }

/-- The next element, and the cursor after it. A block without a bit gives way
to the one of the next key. -/
def next? (s : ObjectSet) (current : Option (Nat × Block)) (keys : List Nat) :
    Option (Nat × Cursor) :=
  match current.filter fun entry => entry.2 != 0 with
  | some (key, b) =>
    some (key * 128 + lowestBit b, { current := some (key, dropLowest b), keys })
  | none =>
    match keys with
    | [] => none
    | key :: rest => s.next? (s.blocks[key]?.map fun b => (key, b)) rest

/-- The numbers that the blocks from a cursor on stand for, added up. -/
def weight (s : ObjectSet) (current : Option (Nat × Block)) (keys : List Nat) : Nat :=
  (current.map fun entry => entry.2.toNat).getD 0 +
    keys.foldr (fun key n => (s.block key).toNat + n) 0

theorem next?_of_ne_zero {s : ObjectSet} {key : Nat} {b : Block} {keys : List Nat} (h : b ≠ 0) :
    s.next? (some (key, b)) keys =
      some (key * 128 + lowestBit b, { current := some (key, dropLowest b), keys }) := by
  rw [next?.eq_def, Option.filter_some, if_pos (by simpa using h)]

/-- Whether the block at hand, if there is one, has no bit left. -/
def Spent (current : Option (Nat × Block)) : Prop :=
  ∀ entry, current = some entry → entry.2 = 0

theorem Spent.filter_eq {current : Option (Nat × Block)} (h : Spent current) :
    (current.filter fun entry => entry.2 != 0) = none := by
  cases current with
  | none => rfl
  | some entry => simp [Option.filter_some, h entry rfl]

theorem next?_nil {s : ObjectSet} {current : Option (Nat × Block)} (h : Spent current) :
    s.next? current [] = none := by
  rw [next?, h.filter_eq]

theorem next?_cons {s : ObjectSet} {current : Option (Nat × Block)} {key : Nat} {rest : List Nat}
    (h : Spent current) :
    s.next? current (key :: rest) = s.next? (s.blocks[key]?.map fun b => (key, b)) rest := by
  rw [next?, h.filter_eq]

theorem spent_or_ne_zero (current : Option (Nat × Block)) :
    Spent current ∨ ∃ key b, current = some (key, b) ∧ b ≠ 0 := by
  cases current with
  | none => exact .inl fun entry h => nomatch h
  | some entry =>
    by_cases h : entry.2 = 0
    · exact .inl fun other heq => Option.some.inj heq ▸ h
    · exact .inr ⟨entry.1, entry.2, rfl, h⟩

theorem weight_cons (s : ObjectSet) (current : Option (Nat × Block)) (key : Nat)
    (rest : List Nat) : s.weight (s.blocks[key]?.map fun b => (key, b)) rest ≤
      s.weight current (key :: rest) := by
  have hblock : (((s.blocks[key]?.map fun b => (key, b)).map fun entry => entry.2.toNat).getD 0) =
      (s.block key).toNat := by
    rw [block, Std.TreeMap.getD_eq_getD_getElem?]
    cases s.blocks[key]? with
    | none => rfl
    | some b => rfl
  rw [weight, weight, hblock, List.foldr_cons]
  omega

theorem weight_next?_lt {s : ObjectSet} {current : Option (Nat × Block)} {keys : List Nat}
    {n : Nat} {c : Cursor} (h : s.next? current keys = some (n, c)) :
    s.weight c.current c.keys < s.weight current keys := by
  induction keys generalizing current with
  | nil =>
    rcases spent_or_ne_zero current with hspent | ⟨key, b, rfl, hb⟩
    · rw [next?_nil hspent] at h
      cases h
    · rw [next?_of_ne_zero hb] at h
      cases h
      exact Nat.add_lt_add_right (toNat_dropLowest_lt hb) _
  | cons key rest ih =>
    rcases spent_or_ne_zero current with hspent | ⟨key', b, rfl, hb⟩
    · rw [next?_cons hspent] at h
      exact Nat.lt_of_lt_of_le (ih h) (s.weight_cons current key rest)
    · rw [next?_of_ne_zero hb] at h
      cases h
      exact Nat.add_lt_add_right (toNat_dropLowest_lt hb) _

/-- The elements from a cursor on. -/
def drain (s : ObjectSet) (c : Cursor) : List Nat :=
  match _h : s.next? c.current c.keys with
  | none => []
  | some (n, rest) => n :: s.drain rest
termination_by s.weight c.current c.keys
decreasing_by exact weight_next?_lt _h

/-- The elements, ascending. -/
def toList (s : ObjectSet) : List Nat :=
  s.drain s.cursor

def unionBlock (acc : Bool × ObjectSet) (entry : Nat × Block) : Bool × ObjectSet :=
  let old := acc.2.block entry.1
  let joined := old ||| entry.2
  (acc.1 || joined != old, { blocks := acc.2.blocks.insert entry.1 joined })

/-- Whether the first set grew, and the union of the two. -/
def union (s other : ObjectSet) : Bool × ObjectSet :=
  other.blocks.toList.foldl unionBlock (false, s)

/-- Whether every element of the second set is in the first. -/
def containsAll (s other : ObjectSet) : Bool :=
  other.blocks.size ≤ s.blocks.size &&
    other.blocks.toList.all fun (key, b) => s.blocks[key]?.any fun mine => mine &&& b == b

/-- Whether the two sets share an element. -/
def intersects (s other : ObjectSet) : Bool :=
  let (small, large) :=
    if s.blocks.size ≤ other.blocks.size then (s, other) else (other, s)
  small.blocks.toList.any fun (key, b) => large.block key &&& b != 0

/-- Whether the two sets are made of the same blocks. -/
def same (s other : ObjectSet) : Bool :=
  s.blocks.toList == other.blocks.toList

/-- The elements in braces. -/
def text (s : ObjectSet) : String :=
  "\x7b" ++ ", ".intercalate (s.toList.map toString) ++ "\x7d"

end ObjectSet

end AbstractMemory
