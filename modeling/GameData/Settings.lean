import GameData.Files.Shell
import GameData.Schema.Rule
import GameData.Text.Blank

/-!
Settings from an environment and a file of assignments.

A line of the file assigns a value to a name: `NAME = value`, with or without `export` in front. A value may stand in
single or double quotes, in which a backslash escapes; without quotes it ends before a comment. In a value `${NAME}`
stands for what is known of that name, and `${NAME:-default}` gives a default.
-/
namespace GameData.Settings

open Text

/-- White space that does not end a line. -/
def isGap (c : Char) : Bool := isBlank c && c != '\n'

/-- Every way to end a line made into one. -/
def unifyLines : List Char → List Char
  | '\r' :: '\n' :: rest => '\n' :: unifyLines rest
  | c :: rest => (if c == '\r' then '\n' else c) :: unifyLines rest
  | [] => []

def quote : Char := Char.ofNat 39

/-- The text up to a closing quote, which may be escaped inside, and what follows; nothing when there is none. -/
def quoted? (q : Char) : List Char → Option (List Char × List Char)
  | [] => none
  | '\\' :: c :: rest =>
    if c == q then
      match quoted? q rest with
      | some (body, after) => some ('\\' :: c :: body, after)
      | none => some (['\\'], rest)
    else (quoted? q (c :: rest)).map fun (body, after) => ('\\' :: body, after)
  | c :: rest => if c == q then some ([], rest) else (quoted? q rest).map fun (body, after) => (c :: body, after)

/-- What an escaped character stands for in double quotes. -/
def escaped? : Char → Option Char
  | '\\' => some '\\' | '"' => some '"' | 'a' => some (Char.ofNat 7) | 'b' => some (Char.ofNat 8)
  | 'f' => some (Char.ofNat 12) | 'n' => some '\n' | 'r' => some '\r' | 't' => some '\t' | 'v' => some (Char.ofNat 11)
  | c => if c == quote then some c else none

def unescapeDouble : List Char → List Char
  | '\\' :: c :: rest =>
    match escaped? c with
    | some d => d :: unescapeDouble rest
    | none => '\\' :: unescapeDouble (c :: rest)
  | c :: rest => c :: unescapeDouble rest
  | [] => []

def unescapeSingle : List Char → List Char
  | '\\' :: c :: rest =>
    if c == '\\' || c == quote then c :: unescapeSingle rest else '\\' :: unescapeSingle (c :: rest)
  | c :: rest => c :: unescapeSingle rest
  | [] => []

def trimRight (cs : List Char) : List Char := (cs.reverse.dropWhile isBlank).reverse

/-- A value without quotes: it ends before a blank that a comment follows. -/
def bare (blankBefore : Bool) : List Char → List Char
  | [] => []
  | c :: rest => if c == '#' && blankBefore then [] else c :: bare (isBlank c) rest

/-- Reads something off the front of a text. Where it is not as it should be, the text from there on is left. -/
abbrev Reader (α : Type) := List Char → Except (List Char) (α × List Char)

/-- The rest of a line after a value: a comment or nothing, and the end of the line. -/
def endOfLine : Reader Unit := fun cs =>
  let gapless := cs.dropWhile isGap
  let cs := if gapless.head? == some '#' then gapless.dropWhile (· != '\n') else gapless
  match cs with
  | [] => .ok ((), [])
  | '\n' :: rest => .ok ((), rest)
  | cs => .error cs

/-- The value after an equals sign. -/
def value : Reader (List Char)
  | [] => .ok ([], [])
  | c :: rest =>
    if c == '"' || c == quote then
      match quoted? c rest with
      | some (v, after) => .ok (if c == quote then unescapeSingle v else unescapeDouble v, after)
      | none => .error (c :: rest)
    else
      let line := (c :: rest).takeWhile (· != '\n')
      .ok (trimRight (bare false line), (c :: rest).drop line.length)

/-- The name at the front of an assignment; a comment has none. -/
def name : Reader (Option (List Char))
  | [] => .error []
  | c :: rest =>
    if c == '#' then .ok (none, c :: rest)
    else if c == quote then
      let body := rest.takeWhile (· != quote)
      match rest.drop body.length with
      | _ :: after => if body.isEmpty then .error (c :: rest) else .ok (some body, after)
      | [] => .error (c :: rest)
    else
      let body := (c :: rest).takeWhile fun c => c != '=' && c != '#' && !isBlank c
      if body.isEmpty then .error (c :: rest) else .ok (some body, (c :: rest).drop body.length)

def withoutExport (cs : List Char) : List Char :=
  let word := "export".toList
  if word.isPrefixOf cs then
    let rest := cs.drop word.length
    let gap := rest.takeWhile isGap
    if gap.isEmpty then cs else rest.drop gap.length
  else cs

/-- One assignment or comment with its line. -/
def assignment : Reader (Option (String × Option String)) := fun cs => do
  let (name, rest) ← name (withoutExport cs)
  let rest := rest.dropWhile isGap
  let (value, rest) ←
    match rest with
    | '=' :: rest => (value (rest.dropWhile isGap)).map fun (v, rest) => (some (String.ofList v), rest)
    | rest => .ok (none, rest)
  let ((), rest) ← endOfLine rest
  .ok (name.map fun n => (String.ofList n, value), rest)

/-- What follows the line at the front. -/
def afterLine (cs : List Char) : List Char := (cs.dropWhile (· != '\n')).drop 1

/-- The assignments of a file. Where something is wrong the rest of the line is passed over. There are no more lines
than characters. -/
def assignments : Nat → List Char → List (String × Option String)
  | 0, _ => []
  | lines + 1, cs =>
    match cs.dropWhile isBlank with
    | [] => []
    | cs =>
      match assignment cs with
      | .ok (some a, rest) => a :: assignments lines rest
      | .ok (none, rest) => assignments lines rest
      | .error rest => assignments lines (afterLine rest)

/-- Puts in what is known of the names in a value. -/
def expand (known : String → Option String) : Nat → List Char → List Char
  | 0, cs => cs
  | _ + 1, [] => []
  | fuel + 1, '$' :: c :: rest =>
    if c.toNat = 0x7b then
      let isClose (c : Char) : Bool := c.toNat = 0x7d
      let inner := rest.takeWhile (!isClose ·)
      let name := inner.takeWhile (· != ':')
      match rest.drop inner.length, inner.drop name.length with
      | _ :: after, [] => ((known (String.ofList name)).getD "").toList ++ expand known fuel after
      | _ :: after, ':' :: '-' :: default =>
        ((known (String.ofList name)).getD (String.ofList default)).toList ++ expand known fuel after
      | _, _ => '$' :: expand known fuel (c :: rest)
    else '$' :: expand known fuel (c :: rest)
  | fuel + 1, c :: rest => c :: expand known fuel rest

/-- Adds a value under its name, in the place of an earlier one. -/
def put (name : String) (value : Option String) : List (String × Option String) → List (String × Option String)
  | [] => [(name, value)]
  | (k, v) :: rest => if k == name then (k, value) :: rest else (k, v) :: put name value rest

/-- The values of a file with what is known of other names put in. -/
def values (environment : List (String × String)) (file : String) : List (String × Option String) :=
  (assignments (file.length + 1) (unifyLines file.toList)).foldl (fun known (name, value) =>
    let lookUp (n : String) : Option String :=
      match known.lookup n with
      | some v => some (v.getD "")
      | none => environment.lookup n
    put name (value.map fun v => String.ofList (expand lookUp (v.length + 1) v.toList)) known) []

def lower (s : String) : String := String.ofList (s.toList.map Char.toLower)

/-- The last value under a name, however it is capitalised. -/
def find? (values : List (String × Option String)) (name : String) : Option String :=
  ((values.reverse.find? fun (k, _) => lower k == lower name).map (·.2)).join

/-- The folder of the game: the environment counts before the file. -/
def gameRoot (environment : List (String × String)) (file : Option String) : Except Fault Path :=
  let fromEnvironment := find? (environment.map fun (k, v) => (k, some v)) "GAME_ROOT"
  let fromFile := find? (values environment (file.getD "")) "GAME_ROOT"
  match fromEnvironment, fromFile with
  | some v, _ => .ok (Path.parse v)
  | none, some v => .ok (Path.parse v)
  | none, none => .error (.invalid [Schema.missing [.field "GAME_ROOT"]])

/-- The folder of the game, from the environment and the file if there is one. -/
def load (file : String) (environment : List (String × String)) : Files.Shell Path := do
  let text ←
    if ← Files.Shell.isFile file then do
      let b ← Files.Shell.readBytes file
      match Utf8.decode b with
      | .ok s => pure (some s)
      | .error m => throw (.notUtf8 m)
    else pure none
  Filling.attempt (gameRoot environment text)

end GameData.Settings
