import GameData.Fault
import GameData.Value

/-!
Supervised work.

An outcome records how work went. Work runs under a manager, which catches every failure and notes it; inside,
a handler turns failures of the kinds it names into an interruption with a reason.
-/
namespace GameData

/-- The kinds of failures that handlers tell apart. -/
inductive FailureKind where
  | general
  | arithmetic | divisionByZero | overflow
  | lookup | index | key
  | system | notFound | alreadyThere | notDirectory | isDirectory | permission
  | value | undecodable | invalid
  | runtime | notImplemented | tooDeep | exporting | interrupt
  | type | attribute | name | unassigned | assertion | endOfFile | memory
  | record | wave
  deriving DecidableEq

namespace FailureKind

def text : FailureKind → String
  | .general => "Exception"
  | .arithmetic => "ArithmeticError" | .divisionByZero => "ZeroDivisionError" | .overflow => "OverflowError"
  | .lookup => "LookupError" | .index => "IndexError" | .key => "KeyError"
  | .system => "OSError" | .notFound => "FileNotFoundError" | .alreadyThere => "FileExistsError"
  | .notDirectory => "NotADirectoryError" | .isDirectory => "IsADirectoryError" | .permission => "PermissionError"
  | .value => "ValueError" | .undecodable => "UnicodeDecodeError" | .invalid => "ValidationError"
  | .runtime => "RuntimeError" | .notImplemented => "NotImplementedError" | .tooDeep => "RecursionError"
  | .exporting => "ExportingError" | .interrupt => "Interrupt"
  | .type => "TypeError" | .attribute => "AttributeError" | .name => "NameError" | .unassigned => "UnboundLocalError"
  | .assertion => "AssertionError" | .endOfFile => "EOFError" | .memory => "MemoryError"
  | .record => "error" | .wave => "Error"

def all : List FailureKind :=
  [.general, .arithmetic, .divisionByZero, .overflow, .lookup, .index, .key, .system, .notFound, .alreadyThere,
   .notDirectory, .isDirectory, .permission, .value, .undecodable, .invalid, .runtime, .notImplemented, .tooDeep,
   .exporting, .interrupt, .type, .attribute, .name, .unassigned, .assertion, .endOfFile, .memory, .record, .wave]

def ofText? (s : String) : Option FailureKind := all.find? fun k => k.text == s

/-- The wider kind that a kind belongs to. -/
def wider : FailureKind → FailureKind
  | .divisionByZero | .overflow => .arithmetic
  | .index | .key => .lookup
  | .notFound | .alreadyThere | .notDirectory | .isDirectory | .permission => .system
  | .undecodable | .invalid => .value
  | .notImplemented | .tooDeep | .exporting | .interrupt => .runtime
  | .unassigned => .name
  | _ => .general

/-- A failure of kind `k` is also one of kind `w`. No kind is more than two steps below the widest. -/
def isA (k w : FailureKind) : Bool := k == w || k.wider == w || k.wider.wider == w

/-- The narrow kind of a system failure with a number. -/
def ofSystemNumber? : Int → Option FailureKind
  | 1 | 13 => some .permission
  | 2 => some .notFound
  | 17 => some .alreadyThere
  | 20 => some .notDirectory
  | 21 => some .isDirectory
  | _ => none

end FailureKind

structure Failure where
  kind : FailureKind
  /-- The failure as it is reported. -/
  report : String
  deriving DecidableEq

namespace Failure

/-- A failure with arguments. System failures of a known number get the kind of that number, and show a number and
a text at most. -/
def make (k : FailureKind) (arguments : List Value) : Failure :=
  let several := decide (2 ≤ arguments.length ∧ arguments.length ≤ 5)
  let k' :=
    match k, several, arguments with
    | .system, true, .int n :: _ => (FailureKind.ofSystemNumber? n).getD .system
    | k, _, _ => k
  let shown :=
    match k.isA .system && several, arguments with
    | true, a :: b :: .null :: rest => a :: b :: .null :: rest
    | true, a :: b :: _ => [a, b]
    | _, all => all
  ⟨k', k'.text ++ "(" ++ ", ".intercalate (Value.literals shown) ++ ")"⟩

/-- A failure that says something. -/
def saying (k : FailureKind) (s : String) : Failure := make k [.text s]

def stepLiteral : Step → String
  | .field name => Literal.ofText name
  | .position n => toString n

/-- A tuple of literals; one with a single part ends in a comma. -/
def tupleLiteral : List String → String
  | [one] => "(" ++ one ++ ",)"
  | parts => "(" ++ ", ".intercalate parts ++ ")"

def issueLiteral (i : Issue) : String :=
  "\x7b'loc': " ++ tupleLiteral (i.place.map stepLiteral) ++ ", 'msg': " ++ Literal.ofText i.message ++ ", 'type': "
    ++ Literal.ofText i.code ++ (if i.context.isEmpty then "" else ", 'ctx': " ++ i.context) ++ "\x7d"

def systemNumber : SystemFault → Option (FailureKind × Int)
  | .notFound => some (.notFound, 2)
  | .alreadyThere => some (.alreadyThere, 17)
  | .notDirectory => some (.notDirectory, 20)
  | .isDirectory => some (.isDirectory, 21)
  | .notEmpty => some (.system, 39)
  | .invalidArgument => some (.system, 22)
  | .cannotSeek | .imageMode .. | .unknownExtension _ | .sameFile .. => none

/-- The failure that a fault is. Records that do not pass their check are reported for the model `model`. -/
def ofFault (model : String) : Fault → Failure
  | .record f => saying .record f.message
  | .check c => saying .assertion c.message
  | .value v => if v.message.isEmpty then make .value [] else saying .value v.message
  | .index i => saying .index i.message
  | .key literal => ⟨.key, "KeyError(" ++ literal ++ ")"⟩
  | f@(.unset ..) | f@(.noMember ..) => saying .attribute f.message
  | f@(.undefined _) => saying .name f.message
  | f@(.unassigned _) => saying .unassigned f.message
  | .mismatch => make .type []
  | .overflow => make .overflow []
  | .endOfFile => make .endOfFile []
  | .outsideChunk => make .runtime []
  | f@.displacedTable => saying .runtime f.message
  | f@(.notUtf8 _) => saying .undecodable f.message
  | .system f =>
    match systemNumber f with
    | some (k, n) => make k [.int n, .text f.message]
    | none => saying .system f.message
  | f@.divisionByZero => saying .divisionByZero f.message
  | .notImplemented => make .notImplemented []
  | .exporting text => saying .exporting text
  | .wave text => saying .wave text
  | .unidentifiedImage => make .system []
  | .invalid issues =>
    ⟨.invalid, "ValidationError(model=" ++ Literal.ofText model ++ ", errors=["
      ++ ", ".intercalate (issues.map issueLiteral) ++ "])"⟩
  | f@(.exit _) | f@(.usage _) => saying .general f.message
  | .tooDeep => make .tooDeep []

end Failure

/-- How supervised work went, with results of type `ρ`. -/
structure Outcome (ρ : Type) where
  success : Option Bool := none
  message : Option String := none
  results : Option ρ := none
  failure : Option Failure := none
  interrupt : Option String := none

/-- Supervised work that also acts on a state of type `τ`. -/
abbrev Managed (ρ τ α : Type) := ExceptT Failure (StateM (Outcome ρ × τ)) α

namespace Outcome

variable {ρ τ α : Type}

/-- The failure is shown unless the work succeeded. -/
def shownFailure (p : Outcome ρ) : Option (Option String × Option String) :=
  if p.success = some true then none else some (p.failure.map (·.report), p.interrupt)

def setResults (r : ρ) : Managed ρ τ Unit := modify fun (p, t) => ({ p with results := some r }, t)

/-- Runs work and notes how it ended; nothing fails beyond this point. -/
def manage (work : Managed ρ τ Unit) : Managed ρ τ Unit := fun s =>
  match (ExceptT.run work).run s with
  | (.ok (), p, t) => (.ok (), { p with success := some true, message := some "Finished successful." }, t)
  | (.error f, p, t) =>
    if f.kind = .interrupt then (.ok (), { p with success := some false, message := some "Handled interruption." }, t)
    else (.ok (), { p with success := some false, message := some "Internal error.", failure := some f }, t)

/-- Runs work in which failures of some kinds become an interruption. -/
def handle (reason : String) (kinds : List FailureKind) (work : Managed ρ τ α) : Managed ρ τ α := fun s =>
  match (ExceptT.run work).run s with
  | (.ok a, s) => (.ok a, s)
  | (.error f, p, t) =>
    if kinds.any fun k => f.kind.isA k then
      (.error (Failure.saying .interrupt reason), { p with failure := some f, interrupt := some reason }, t)
    else (.error f, p, t)

end Outcome

/-- What supervised work consists of. -/
inductive Action (ρ : Type) where
  | results (r : ρ)
  | fail (f : Failure)
  | handler (reason : String) (kinds : List FailureKind) (body : List (Action ρ))
  | manager (body : List (Action ρ))

namespace Action

variable {ρ : Type}

mutual

def run : Action ρ → Managed ρ Unit Unit
  | .results r => Outcome.setResults r
  | .fail f => throw f
  | .handler reason kinds body => Outcome.handle reason kinds (runAll body)
  | .manager body => Outcome.manage (runAll body)

def runAll : List (Action ρ) → Managed ρ Unit Unit
  | [] => pure ()
  | a :: rest => do
    run a
    runAll rest

end

/-- The outcome after a run of actions under a manager. -/
def supervise (p : Outcome ρ) (actions : List (Action ρ)) : Outcome ρ :=
  ((ExceptT.run (Outcome.manage (runAll actions))).run (p, ())).2.1

end Action

end GameData
