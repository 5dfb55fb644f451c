import GameData.Fault

/-!
Paths as texts.

A path is parsed into a root, which is empty, one slash or two, and its parts; empty parts and single dots do not
count.
-/
namespace GameData

structure Path where
  root : String
  parts : List String
  deriving DecidableEq

namespace Path

/-- The pieces between slashes. -/
def pieces (s : String) : List String := (s.toList.splitOn '/').map String.ofList

def isPart (s : String) : Bool := s != "" && s != "."

def parse (s : String) : Path :=
  let slashes := (s.toList.takeWhile (· == '/')).length
  ⟨if slashes = 0 then "" else if slashes = 2 then "//" else "/", (pieces s).filter isPart⟩

/-- The text of a path; one without root and parts is a dot. -/
def text (p : Path) : String :=
  if p.root == "" && p.parts.isEmpty then "." else p.root ++ "/".intercalate p.parts

/-- The last part, empty when there is none. -/
def name (p : Path) : String := p.parts.getLast?.getD ""

/-- A name before and after its last point. A point in front or at the end does not divide. -/
def splitSuffix (name : String) : String × String :=
  let cs := name.toList
  let tail := cs.reverse.takeWhile (· != '.')
  let before := cs.length - tail.length
  if tail.length = cs.length ∨ tail.isEmpty ∨ before ≤ 1 then (name, "")
  else (String.ofList (cs.take (before - 1)), String.ofList (cs.drop (before - 1)))

/-- The path with another suffix in place of the one it has. -/
def withSuffix (p : Path) (suffix : String) : Except Fault Path :=
  if suffix.toList.contains '/' then .error (.value (.suffix suffix))
  else if (suffix != "" && !suffix.startsWith ".") || suffix == "." then .error (.value (.suffix suffix))
  else if p.name == "" then .error (.value (.emptyName p.text))
  else .ok { p with parts := p.parts.dropLast ++ [(splitSuffix p.name).1 ++ suffix] }

/-- The path of something inside. -/
def child (p : Path) (name : String) : Path := { p with parts := p.parts ++ [name] }

/-- The path without its last part. -/
def parent (p : Path) : Path := { p with parts := p.parts.dropLast }

end Path

/-- The place of the first occurrence of a text in another: what stands before and after it. -/
def cutAt (old : List Char) : List Char → Option (List Char × List Char)
  | [] => if old.isEmpty then some ([], []) else none
  | c :: cs =>
    if old.isPrefixOf (c :: cs) then some ([], (c :: cs).drop old.length)
    else (cutAt old cs).map fun (before, after) => (c :: before, after)

/-- The text with the first occurrence of `old` replaced. -/
def replaceFirst (s old new : String) : String :=
  match cutAt old.toList s.toList with
  | some (before, after) => String.ofList before ++ new ++ String.ofList after
  | none => s

/-- The characters with every occurrence of `old`, which is not empty, replaced from left to right. -/
def replaceChars (old new : List Char) : List Char → List Char
  | [] => []
  | c :: cs =>
    if old.isPrefixOf (c :: cs) then new ++ replaceChars old new (cs.drop (old.length - 1))
    else c :: replaceChars old new cs
termination_by s => s.length
decreasing_by
  all_goals simp only [List.length_drop, List.length_cons]
  all_goals omega

/-- The text with every occurrence of `old` replaced, from left to right; an empty `old` stands between all
characters and at both ends. -/
def replaceAll (s old new : String) : String :=
  if old.isEmpty then new ++ String.join (s.toList.map fun c => String.singleton c ++ new)
  else String.ofList (replaceChars old.toList new.toList s.toList)

namespace Path

/-- Where a file goes that is taken from one folder to another and gets another suffix. -/
def moved (source sourceFolder targetFolder : Path) (suffix : String) : Except Fault Path :=
  (parse (replaceFirst source.text sourceFolder.text targetFolder.text)).withSuffix suffix

/-- Two paths one after the other; one that starts with a slash stands alone. -/
def join (a b : String) : String :=
  if b.startsWith "/" then b
  else if a == "" || a.endsWith "/" then a ++ b
  else a ++ "/" ++ b

/-- The characters up to the last slash, that included, and those after it. -/
def cut (s : String) : String × String :=
  let cs := s.toList
  let tail := (cs.reverse.takeWhile (· != '/')).reverse
  (String.ofList (cs.take (cs.length - tail.length)), String.ofList tail)

/-- What stands after the last slash. -/
def baseName (s : String) : String := (cut s).2

/-- What stands before the last slash, without slashes at its end unless there is nothing else. -/
def folderName (s : String) : String :=
  let head := (cut s).1
  if head.toList.all (· == '/') then head
  else String.ofList ((head.toList.reverse.dropWhile (· == '/')).reverse)

/-- The suffix of the last part with its point; points in front do not count. -/
def extension (s : String) : String :=
  let cs := (baseName s).toList.dropWhile (· == '.')
  let tail := cs.reverse.takeWhile (· != '.')
  if tail.length = cs.length then "" else String.ofList ('.' :: tail.reverse)

end Path

end GameData
