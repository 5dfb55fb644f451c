import GameData.Bytes.Field

/-!
Lists of terrain commands. A command has four counts and three runs of data, the first of which consists of
groups of four bytes and the others of words.
-/
namespace GameData.Terrain

structure Command where
  groupCount : Value
  label : Value
  firstCount : Value
  secondCount : Value
  groups : List (List Value)
  first : List Value
  second : List Value
  deriving Inhabited

namespace Command

def words (b : Bytes) : List Value := (Bytes.words 4 b).map fun (n : Nat) => .int n

def bytesOf (b : Bytes) : List Value := b.map fun x => .int x.toNat

/-- The groups in a string of `count` of them. -/
def readGroups : Nat → Bytes → Except Fault (List (List Value) × Bytes)
  | 0, rest => .ok ([], rest)
  | count + 1, rest => do
    let group ← Bytes.exactly 4 (rest.take 4)
    let (more, rest) ← readGroups count (rest.drop 4)
    .ok (bytesOf group :: more, rest)

/-- The words in a run of `count` of them. -/
def readWords (count : Nat) (rest : Bytes) : Except Fault (List Value × Bytes) := do
  let run ← Bytes.exactly (4 * count) (rest.take (4 * count))
  .ok (words run, rest.drop (4 * count))

/-- The command whose head is given and whose runs start the string. -/
def readBody (head rest : Bytes) : Except Fault (Command × Bytes) := do
  let w := head.u16 0
  let l := head.u16 2
  let x := head.u16 4
  let y := head.u16 6
  let (groups, rest) ← readGroups w rest
  let (first, rest) ← readWords x rest
  let (second, rest) ← readWords y rest
  .ok (⟨.int w, .int l, .int x, .int y, groups, first, second⟩, rest)

/-- The commands of a file, up to `fuel` of them; a command takes at least eight bytes. -/
def readAll : Nat → Bytes → List Command × Except Fault Unit
  | 0, _ => ([], .ok ())
  | _ + 1, [] => ([], .ok ())
  | fuel + 1, data =>
    match Bytes.exactly 8 (data.take 8) with
    | .error f => ([], .error f)
    | .ok head =>
      match readBody head (data.drop 8) with
      | .error f => ([], .error f)
      | .ok (c, rest) =>
        let (more, outcome) := readAll fuel rest
        (c :: more, outcome)

/-- Adds the commands of a file to those there are. -/
def load (data : Bytes) (commands : List Command) : Except Fault Unit × List Command :=
  let (added, outcome) := readAll (data.length + 1) data
  (outcome, commands ++ added)

/-- The number of words that a run is said to have. -/
def countOf : Value → Nat
  | .int n => n.toNat
  | .bool true => 1
  | _ => 0

def encode (c : Command) : Except Fault Bytes := do
  let head ← Field.u16.packMany 4 [c.groupCount, c.label, c.firstCount, c.secondCount]
  let groups ← c.groups.mapM (Field.u8.packMany 4)
  let first ← Field.u32.packMany (countOf c.firstCount) c.first
  let second ← Field.u32.packMany (countOf c.secondCount) c.second
  .ok (head ++ groups.flatten ++ first ++ second)

def save (commands : List Command) : Except Fault Bytes := (commands.mapM encode).map List.flatten

end Command

end GameData.Terrain
