import GameData.Files.Shell

/-!
What a job over folders is asked to do. A job fails when it comes to need something it was not given.
-/
namespace GameData.Batch

open Files

structure Request where
  source : Option String := none
  target : Option String := none
  filter : Option String := none
  /-- Only say what would be made. -/
  debug : Option Bool := none

namespace Request

def need {α : Type} (field : String) (value : Option α) : Shell α := Filling.attempt (demand "Namespace" field value)

def sourceFolder (r : Request) : Shell String := need "src" r.source

def targetFolder (r : Request) : Shell String := need "dst" r.target

def pattern (r : Request) : Shell String := need "filter" r.filter

def onlySay (r : Request) : Shell Bool := need "debug" r.debug

/-- Where something goes from the source folder to the target folder. -/
def moved (r : Request) (path : String) : Shell String := do
  let source ← r.sourceFolder
  let target ← r.targetFolder
  pure (replaceFirst path source target)

/-- Does something with every file of the source folder whose name agrees with one of the patterns. -/
def forSources (r : Request) (patterns : List String) (visit : String → Shell Unit) : Shell Unit := do
  let source ← r.sourceFolder
  Shell.forFiles source patterns visit

def foldSources {β : Type} (r : Request) (patterns : List String) (b : β) (visit : β → String → Shell β) :
    Shell β := do
  let source ← r.sourceFolder
  Shell.foldFiles source patterns b visit

/-- The same with the pattern of the request. -/
def foldFiltered {β : Type} (r : Request) (b : β) (visit : β → String → Shell β) : Shell β := do
  let source ← r.sourceFolder
  let pattern ← r.pattern
  Shell.foldFiles source [pattern] b visit

end Request

/-- The text filled up with spaces on the right. -/
def padRight (width : Nat) (s : String) : String := s ++ String.ofList (List.replicate (width - s.length) ' ')

/-- The text filled up with spaces on the left. -/
def padLeft (width : Nat) (s : String) : String := String.ofList (List.replicate (width - s.length) ' ') ++ s

/-- A number with leading zeros. -/
def zeroPadded (width n : Nat) : String :=
  let digits := toString n
  String.ofList (List.replicate (width - digits.length) '0') ++ digits

/-- A table of counts or collections, in the order in which the keys first came. -/
def update {κ ν : Type} [BEq κ] (key : κ) (first : ν) (f : ν → ν) : List (κ × ν) → List (κ × ν)
  | [] => [(key, f first)]
  | (k, v) :: rest => if k == key then (k, f v) :: rest else (k, v) :: update key first f rest

end GameData.Batch
