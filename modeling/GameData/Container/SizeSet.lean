/-!
Sets of sizes kept in a table of slots.

A size belongs into the slot that its remainder modulo the length of the table gives. When that is taken, the next
nine are tried if they all exist, and then another slot is computed. A table that is three fifths full is replaced by
one more than four times as long as the set is large, or twice as long for a large set. The order of the slots is the
order in which the set is listed.
-/
namespace GameData.Container

structure SizeSet where
  slots : List (Option Nat) := List.replicate 8 none

namespace SizeSet

def toList (s : SizeSet) : List Nat := s.slots.filterMap id

/-- The slots to be tried from slot `i` on. -/
def neighbours (length i : Nat) : List Nat := if i + 9 < length then (List.range 10).map (i + ·) else [i]

def isFree (slots : List (Option Nat)) (i : Nat) : Bool := slots[i]? == some none

/-- The first free slot. In each round the size is divided by 32 and takes part in the choice of the next slot; once
it is used up every slot gets its turn. -/
def freeSlot (slots : List (Option Nat)) : Nat → Nat → Nat → Nat
  | 0, i, _ => i
  | rounds + 1, i, rest =>
    match (neighbours slots.length i).find? (isFree slots) with
    | some free => free
    | none => freeSlot slots rounds ((i * 5 + 1 + rest / 32) % slots.length) (rest / 32)

/-- Puts a size that is not there into its slot. -/
def place (slots : List (Option Nat)) (n : Nat) : List (Option Nat) :=
  slots.set (freeSlot slots (slots.length + 64) (n % slots.length) n) (some n)

/-- The smallest power of two from eight on that exceeds `n`. -/
def lengthFor (n : Nat) : Nat := max 8 (Nat.pow 2 (n.log2 + 1))

/-- How much a table for that many sizes has to exceed. -/
def spread (used : Nat) : Nat := if 50000 < used then used * 2 else used * 4

def insert (s : SizeSet) (n : Nat) : SizeSet :=
  if s.slots.contains (some n) then s
  else
    let slots := place s.slots n
    let used := (slots.filterMap id).length
    if used * 5 < (slots.length - 1) * 3 then ⟨slots⟩
    else ⟨(slots.filterMap id).foldl place (List.replicate (lengthFor (spread used)) none)⟩

end SizeSet

end GameData.Container
