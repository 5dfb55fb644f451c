/-!
Command lines with options that may be abbreviated.

A word is an option when it starts with a dash, unless it looks like a negative number or holds a space; after two
dashes alone every word is an argument. An option may be shortened to any beginning that fits no other one, and its
value follows it as the next word or after an equals sign. Arguments and options may come in any order.
-/
namespace GameData.Command.Arguments

/-- An option and whether a value follows it. -/
structure Switch where
  name : String
  takesValue : Bool

/-- What a command line may hold: options, named arguments in their order, and after these a subcommand with words
of its own. -/
structure Grammar where
  switches : List Switch := []
  arguments : List String := []
  hasSubcommand : Bool := false

/-- What a word is. -/
inductive Mark where
  | argument
  /-- Two dashes alone. -/
  | divider
  /-- Help is asked for; characters may follow in the same word. -/
  | help (attached : Option String)
  | switch (s : Switch) (attached : Option String)
  | unknown

def isDigit (c : Char) : Bool := '0' ≤ c && c ≤ '9'

/-- A dash before digits, or before a fraction. -/
def looksNegative (word : String) : Bool :=
  match word.toList with
  | '-' :: rest =>
    let whole := rest.takeWhile isDigit
    match rest.drop whole.length with
    | [] => !whole.isEmpty
    | '.' :: fraction => !fraction.isEmpty && fraction.all isDigit
    | _ => false
  | _ => false

/-- The name before an equals sign and the value after it. -/
def splitEquals (word : String) : String × Option String :=
  let cs := word.toList
  let name := cs.takeWhile (· != '=')
  match cs.drop name.length with
  | _ :: value => (String.ofList name, some (String.ofList value))
  | [] => (word, none)

/-- The long names, help among them. -/
def longNames (g : Grammar) : List (String × Option Switch) :=
  ("--help", none) :: g.switches.map fun s => (s.name, some s)

def markOf (found : Option Switch) (attached : Option String) : Mark :=
  match found with
  | none => .help attached
  | some s => .switch s attached

/-- What a word before the divider is; nothing when it could be several options. -/
def classify (g : Grammar) (word : String) : Option Mark :=
  if !word.startsWith "-" || word == "-" then some .argument
  else if word == "-h" then some (.help none)
  else
    match (longNames g).lookup word with
    | some found => some (markOf found none)
    | none =>
      let (name, attached) := splitEquals word
      match attached, (longNames g).lookup name, decide (name = "-h") with
      | some v, some found, _ => some (markOf found (some v))
      | some v, none, true => some (.help (some v))
      | _, _, _ =>
        let candidates : List Mark :=
          if word.startsWith "--" then
            ((longNames g).filter fun (long, _) => long.startsWith name).map fun (_, found) => markOf found attached
          else if word.startsWith "-h" then [.help (some (String.ofList (word.toList.drop 2)))]
          else []
        match candidates with
        | [one] => some one
        | [] =>
          if looksNegative word || word.toList.contains ' ' then some .argument else some .unknown
        | _ => none

/-- The words with what they are. -/
def classifyAll (g : Grammar) : List String → Option (List (String × Mark))
  | [] => some []
  | "--" :: rest => some (("--", .divider) :: rest.map fun w => (w, .argument))
  | w :: rest =>
    match classify g w, classifyAll g rest with
    | some m, some ms => some ((w, m) :: ms)
    | _, _ => none

inductive Outcome where
  | refused
  | help
  /-- The values of arguments and options, the words of a subcommand, and whether words were left over. -/
  | accepted (values : List (String × String)) (rest : Option (List String)) (leftOver : Bool)

/-- What has been read of a command line. -/
structure Reading where
  pending : List String
  awaitsSubcommand : Bool
  values : List (String × String) := []
  /-- The word before was an argument. -/
  afterArgument : Bool := false
  leftOver : Bool := false

/-- Puts the value of an argument or option in place of an earlier one. -/
def Reading.put (r : Reading) (name value : String) : Reading :=
  { r with values := (name, value) :: r.values.filter fun (k, _) => k != name }

/-- The help option with characters after it in the same word: only further help options may follow. -/
def helpOutcome (attached : Option String) : Outcome :=
  match attached with
  | none => .help
  | some cs => if cs != "" && cs.toList.all (· == 'h') then .help else .refused

/-- Reads the words one after the other. A divider belongs to the argument before or after it, and one in front of a
subcommand to the words of that. -/
def read (r : Reading) (words : List (String × Mark)) : Outcome :=
  match words with
  | [] => if r.pending.isEmpty then .accepted r.values none r.leftOver else .refused
  | (w, .argument) :: rest =>
    match r.pending with
    | name :: more => read ({ r with pending := more, afterArgument := true }.put name w) rest
    | [] =>
      if r.awaitsSubcommand then .accepted r.values (some (w :: rest.map (·.1))) r.leftOver
      else read { r with leftOver := true, afterArgument := false } rest
  | (w, .divider) :: rest =>
    if !r.pending.isEmpty || r.afterArgument then read r rest
    else if r.awaitsSubcommand && !rest.isEmpty then .accepted r.values (some (w :: rest.map (·.1))) r.leftOver
    else read { r with leftOver := true } rest
  | (_, .help attached) :: _ => helpOutcome attached
  | (_, .unknown) :: rest => read { r with leftOver := true, afterArgument := false } rest
  | (_, .switch s (some v)) :: rest =>
    if s.takesValue then read ({ r with afterArgument := false }.put s.name v) rest else .refused
  | (_, .switch s none) :: rest =>
    if s.takesValue then
      match rest with
      | (v, .argument) :: rest' => read ({ r with afterArgument := false }.put s.name v) rest'
      | _ => .refused
    else read ({ r with afterArgument := false }.put s.name "") rest
termination_by words.length

/-- Reads a command line. -/
def parse (g : Grammar) (words : List String) : Outcome :=
  match classifyAll g words with
  | none => .refused
  | some marked => read { pending := g.arguments, awaitsSubcommand := g.hasSubcommand } marked

end GameData.Command.Arguments
