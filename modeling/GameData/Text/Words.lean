import GameData.Fault

/-!
Readable words in binary data: the longest runs of printable characters of at least a given length. A run at the
very end is not a word, because nothing ends it.
-/
namespace GameData.Words

/-- Printable characters: those with a glyph, the space, tab, and the four line breaks. -/
def isPrintable (b : UInt8) : Bool := (0x20 ≤ b && b < 0x7f) || (0x09 ≤ b && b ≤ 0x0d)

/-- The words in data; `run` holds the characters of the current run in reverse. -/
def search (least : Nat) (run : Bytes) : Bytes → List Bytes
  | [] => []
  | b :: rest =>
    if isPrintable b then search least (b :: run) rest
    else if least ≤ run.length then run.reverse :: search least [] rest
    else search least [] rest

/-- How words are told apart. A length or a set of characters that was given as a text fits nothing it is compared
with. -/
structure Criteria where
  least : Option Nat := some 2
  charactersGiven : Bool := false

/-- The words in data. -/
def find (c : Criteria) (data : Bytes) : Except Fault (List Bytes) :=
  if c.charactersGiven ∧ data ≠ [] then .error .mismatch
  else
    match c.least with
    | some least => .ok (search least [] data)
    | none => if data.all isPrintable then .ok [] else .error .mismatch

/-- The words one a line. -/
def lines (words : List Bytes) : Bytes := words.flatMap fun w => w ++ [10]

end GameData.Words
