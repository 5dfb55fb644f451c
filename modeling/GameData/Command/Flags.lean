import GameData.Fault

/-!
Command lines with flags that have an opposite, such as `--verbose` and `--no-verbose`.

Options are never abbreviated. Two dashes alone end them. In a group of commands the first word that is no option
names the command, and what follows belongs to it.
-/
namespace GameData.Command.Flags

/-- A flag with its value when it is not given. -/
structure Flag where
  name : String
  initial : Bool

/-- Words as they were read: the values of flags, the other words, and whether help was asked for. -/
structure Reading where
  flags : List (String × Bool) := []
  words : List String := []
  help : Bool := false

def isOption (w : String) : Bool := w.startsWith "-" && w != "-"

/-- The name of an option, without a value attached to it. -/
def optionName (w : String) : String := String.ofList (w.toList.takeWhile (· != '='))

/-- The flag and the value that an option gives it. -/
def findFlag (flags : List Flag) (name : String) : Option (Flag × Bool) :=
  flags.findSome? fun f =>
    if name == "--" ++ f.name then some (f, true)
    else if name == "--no-" ++ f.name then some (f, false)
    else none

/-- What is wrong with an option that is not known: a single dash takes its characters one by one. -/
def unknownOption (w : String) : Fault :=
  if w.startsWith "--" then .usage (.noOption (optionName w))
  else .usage (.noOption (String.ofList (w.toList.take 2)))

/-- Reads words up to the end, or, when `stops`, up to the first that is no option. -/
def read (flags : List Flag) (stops : Bool) (r : Reading) : List String → Except Fault Reading
  | [] => .ok r
  | w :: rest =>
    if w == "--" then .ok { r with words := r.words ++ rest }
    else if isOption w then
      let name := optionName w
      let attached := decide (name ≠ w)
      let refuseValue : Except Fault Reading := .error (.usage (.needlessValue name))
      if name == "--help" then (if attached then refuseValue else read flags stops { r with help := true } rest)
      else
        match findFlag flags name with
        | some (f, value) =>
          if attached then refuseValue
          else read flags stops { r with flags := (f.name, value) :: r.flags } rest
        | none => .error (unknownOption w)
    else if stops then .ok { r with words := r.words ++ w :: rest }
    else read flags stops { r with words := r.words ++ [w] } rest

/-- What a command takes: its arguments, all of which have to be given, and its flags. -/
structure Form where
  arguments : List String
  flags : List Flag := []

/-- A command that was read: its arguments and the values of its flags, or a request for help. -/
inductive Call where
  | help
  | call (arguments : List String) (flag : String → Bool)

def missing? (arguments words : List String) : Option String := (arguments.drop words.length).head?

/-- Reads the words of a command. -/
def Form.read (c : Form) (words : List String) : Except Fault Call := do
  let r ← Flags.read c.flags false {} words
  if r.help then .ok .help
  else
    match missing? c.arguments r.words with
    | some name => .error (.usage (.missing name))
    | none =>
      if c.arguments.length < r.words.length then .error (.usage (.extra (r.words.drop c.arguments.length)))
      else
        .ok (.call r.words fun name =>
          (r.flags.lookup name).getD ((c.flags.find? fun f => f.name == name).elim false (·.initial)))

/-- The first word that names a command in a group, and the words for it; nothing when help was asked for. -/
def group (words : List String) : Except Fault (Option (String × List String)) := do
  let r ← Flags.read [] true {} words
  if r.help then .ok none
  else
    match r.words with
    | [] => .error (.usage (.other "Missing command."))
    | name :: rest => .ok (some (name, rest))

end GameData.Command.Flags
