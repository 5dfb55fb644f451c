import GameData.Batch.Request
import GameData.Container.SizeSet
import GameData.Container.Walk

/-!
Jobs that look at the chunks of container files.
-/
namespace GameData.Batch.Containers

open Files Container

/-- The heads of the chunks of a file. -/
def readHeads (path : String) : Shell (List Head) := do
  let data ← Shell.readBytes path
  let (heads, outcome) := Walk.heads { data := data, kind := .disk }
  Filling.attempt outcome
  pure heads

def decodeMark (mark : Bytes) : Except Fault String :=
  match Utf8.decode mark with
  | .ok s => .ok s
  | .error m => .error (.notUtf8 m)

/-- The sequences of marks that occur, with how often they do. -/
def countSequences (r : Request) : Shell Unit := do
  let counts ← r.foldFiltered ([] : List (List Bytes × Nat)) fun counts p => do
    let heads ← readHeads p
    pure (update (heads.map (·.fourcc)) 0 (· + 1) counts)
  counts.forM fun (marks, n) => do
    let names ← Filling.attempt (marks.mapM decodeMark)
    Shell.say (padRight 5 (toString n) ++ " " ++ " ".intercalate names)

/-- The sizes of the chunks with each mark. -/
def collectSizes (r : Request) : Shell (List (Bytes × SizeSet)) :=
  r.foldFiltered [] fun sizes p => do
    let heads ← readHeads p
    pure (heads.foldl (fun sizes h => update h.fourcc {} (·.insert h.size) sizes) sizes)

/-- The numbers from one on that divide all of some numbers, up to the largest of these. -/
def commonDivisors (numbers : List Int) : Except Fault (List Nat) :=
  match numbers.max? with
  | none => .error (.value .emptyMaximum)
  | some most => .ok (((List.range most.toNat).map (· + 1)).filter fun d => numbers.all fun n => n % d == 0)

def listLiteral (parts : List String) : String := "[" ++ ", ".intercalate parts ++ "]"

/-- What divides the sizes of all chunks with a mark; empty chunks do not count. -/
def showDivisors (r : Request) : Shell Unit := do
  let sizes ← collectSizes r
  sizes.forM fun (mark, set) => do
    let divisors ← Filling.attempt (commonDivisors ((set.toList.filter (· != 0)).map Int.ofNat))
    Shell.say (Literal.ofBytes mark ++ " " ++ listLiteral (divisors.map toString))

/-- A set as it is printed: its members in the order of their texts. -/
def setLiteral (members : List String) : String :=
  if members.isEmpty then "set()"
  else "\x7b" ++ ", ".intercalate (members.mergeSort fun a b => decide (a ≤ b)) ++ "\x7d"

/-- The sizes of the chunks with each mark. Of ten and more only the first ten are shown. -/
def showSizes (r : Request) : Shell Unit := do
  let sizes ← collectSizes r
  sizes.forM fun (mark, set) =>
    let members := set.toList.map toString
    Shell.say (Literal.ofBytes mark ++ " "
      ++ (if members.length < 10 then setLiteral members else listLiteral (members.take 10)))

end GameData.Batch.Containers
