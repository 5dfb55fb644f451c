import GameData.Batch.Job
import GameData.Command.Arguments
import GameData.Text.Words
import GameData.Texture.Terrain

/-!
Three command lines: the jobs over folders, the terrain textures, and the search for words.
-/
namespace GameData.Command

open Files Batch

def refused : Fault := .exit 2

def helped : Fault := .exit 0

namespace Tools

/-- The grammar of a job. -/
def grammar (j : Job) : Arguments.Grammar where
  switches := if j.hasFilter then [⟨"--filter", true⟩] else []
  arguments := "src" :: if j.hasTarget then ["dst"] else []

/-- The request that the words of a job make. -/
def request (j : Job) (words : List String) (leftOver : Bool) : Except Fault Request :=
  match Arguments.parse (grammar j) words with
  | .refused => .error refused
  | .help => .error helped
  | .accepted values _ more =>
    if leftOver || more then .error refused
    else .ok {
      source := values.lookup "src", target := values.lookup "dst",
      filter := if j.hasFilter then some ((values.lookup "--filter").getD "*") else none }

/-- The words after a subcommand; without one nothing can be run. -/
def subcommand (leftOver : Bool) (known : List String) (rest : Option (List String)) :
    Except Fault (String × List String) :=
  match rest with
  | none => .error (if leftOver then refused else .unset "Namespace" "func")
  | some [] => .error refused
  | some (name :: words) => if known.contains name then .ok (name, words) else .error refused

/-- What a command line asks for: a job and its request. -/
def plan (words : List String) : Except Fault (Job × Request) :=
  match Arguments.parse { switches := [⟨"--devmode", false⟩], hasSubcommand := true } words with
  | .refused => .error refused
  | .help => .error helped
  | .accepted _ rest leftOver => do
    let (group, words) ← subcommand leftOver Job.groups rest
    match Arguments.parse { hasSubcommand := true } words with
    | .refused => .error refused
    | .help => .error helped
    | .accepted _ rest more => do
      let leftOver := leftOver || more
      let (command, words) ← subcommand leftOver (Job.commands group) rest
      match Job.find? group command with
      | none => .error refused
      | some j => (request j words leftOver).map fun r => (j, r)

def run (words : List String) : Shell Unit := do
  let (job, request) ← Filling.attempt (plan words)
  job.run request

end Tools

namespace Terrain

/-- The folder with the images and the file to be made; an empty name counts as none. -/
def plan (words : List String) : Except Fault (String × String) :=
  match Arguments.parse { switches := [⟨"--layers", true⟩, ⟨"--output", true⟩] } words with
  | .refused => .error refused
  | .help => .error helped
  | .accepted values _ leftOver =>
    let choice (name initial : String) : String :=
      match values.lookup name with
      | some v => if v == "" then initial else v
      | none => initial
    if leftOver then .error refused else .ok (choice "--layers" ".", choice "--output" "terrain.tex")

def run (words : List String) : Shell Unit := do
  let (folder, target) ← Filling.attempt (plan words)
  Texture.TerrainSheet.replace folder target

end Terrain

namespace Search

structure Plan where
  input : String
  output : String
  criteria : Words.Criteria

def plan (words : List String) : Except Fault Plan :=
  let grammar : Arguments.Grammar :=
    { switches := [⟨"--minword", true⟩, ⟨"--charset", true⟩], arguments := ["input", "output"] }
  match Arguments.parse grammar words with
  | .refused => .error refused
  | .help => .error helped
  | .accepted values _ leftOver =>
    match leftOver, values.lookup "input", values.lookup "output" with
    | false, some input, some output =>
      .ok ⟨input, output, {
        least := if (values.lookup "--minword").isSome then none else some 2,
        charactersGiven := (values.lookup "--charset").isSome }⟩
    | _, _, _ => .error refused

/-- Writes the words of a file into another one. -/
def run (words : List String) : Shell Unit := do
  let p ← Filling.attempt (plan words)
  let data ← Shell.readBytes p.input
  let found ← Filling.attempt (Words.find p.criteria data)
  Shell.writeBytes p.output (Words.lines found)

end Search

end GameData.Command
