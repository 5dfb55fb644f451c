import GameData.Files.Shell
import GameData.Outcome
import GameData.Sound.Clip

/-!
Supervised commands on sound clips: check one, make a wave file of one, or of all below a folder.
-/
namespace GameData.Command.Clips

open Files Sound

/-- How often something happened, in the order in which it first did. -/
abbrev Counts := List (String × Nat)

def Counts.add (key : String) : Counts → Counts
  | [] => [(key, 1)]
  | (k, n) :: rest => if k == key then (k, n + 1) :: rest else (k, n) :: Counts.add key rest

abbrev Job (α : Type) := Managed Counts Session α

/-- A step on the file tree as part of a job. -/
def onFiles {α : Type} (work : Shell α) : Job α := fun (p, s) =>
  match work.fill s with
  | (.ok a, s) => (.ok a, p, s)
  | (.error f, s) => (.error (Failure.ofFault "WAV" f), p, s)

def refuseUnless (holds : Bool) (f : Failure) : Job Unit := if holds then pure () else throw f

def literalOf (l : Option String) : String :=
  match l with
  | some s => Literal.ofText s
  | none => "None"

/-- An outcome as it is printed. -/
def details (p : Outcome Counts) : String :=
  let success := match p.success with | some true => "True" | some false => "False" | none => "None"
  let results :=
    match p.results with
    | some counts =>
      "\x7b" ++ ", ".intercalate (counts.map fun (k, n) => Literal.ofText k ++ ": " ++ toString n) ++ "\x7d"
    | none => "None"
  let failed :=
    match p.shownFailure with
    | some (failure, interrupt) => ", 'exception': " ++ literalOf failure ++ ", 'interrupt': " ++ literalOf interrupt
    | none => ""
  "\x7b'success': " ++ success ++ ", 'message': " ++ literalOf p.message ++ ", 'results': " ++ results ++ failed ++ "\x7d"

/-- Runs a job under supervision, and prints its outcome when asked to. -/
def supervise (verbose : Bool) (job : Job Unit) : Shell (Outcome Counts) := fun s =>
  let (_, p, s) := (ExceptT.run (Outcome.manage job)).run (({} : Outcome Counts), s)
  (.ok p, if verbose then { s with printed := s.printed ++ details p ++ "\n" } else s)

def findSource (source : Path) : Job Unit :=
  Outcome.handle "Failed at src argument validation" [.notFound] do
    let there ← onFiles (Shell.isFile source.text)
    refuseUnless there (.saying .notFound s!"File {source.text} not found.")

def loadSource (source : Path) : Job Clip :=
  Outcome.handle "Failed at serialization." [.invalid] do
    let data ← onFiles (Shell.readBytes source.text)
    onFiles (Filling.attempt (Clip.load data))

/-- Checks a clip. A clip that passed would have to give its summary, and there is none. -/
def serialize (source : Path) (verbose : Bool) : Shell (Outcome Counts) :=
  supervise verbose do
    findSource source
    let _ ← loadSource source
    throw (Failure.saying .attribute "'WAV' object has no attribute 'meta'")

/-- How files are made. -/
structure Options where
  verbose : Bool := true
  /-- Compressed clips are written as they are. -/
  enforce : Bool := false
  /-- Files that are there are replaced. -/
  overwrite : Bool := false

/-- Makes a wave file of a clip. -/
def exportOne (source target : Path) (o : Options) : Shell (Outcome Counts) :=
  supervise o.verbose do
    findSource source
    Outcome.handle "Failed at dst argument validation" [.alreadyThere] do
      let there ← onFiles (Shell.isFile target.text)
      refuseUnless (!there || o.overwrite)
        (.saying .alreadyThere s!"Destination file {target.text} already exists.")
    let clip ← loadSource source
    let data ← Outcome.handle "Failed at exporting." [.exporting] (onFiles (Filling.attempt (Wave.ofClip o.enforce clip)))
    onFiles do
      Shell.settlePath target.parent
      Shell.writeBytes target.text data

def findFolder (reason title : String) (folder : Path) : Job Unit :=
  Outcome.handle reason [.value] do
    let there ← onFiles (Shell.isFolder folder.text)
    refuseUnless there (.saying .value s!"{title} directory {folder.text} not found.")

/-- The files below a folder. -/
def filesBelow (folder : String) : Shell (List Path) :=
  Shell.foldFiles folder ["*"] [] fun found p => pure (found ++ [Path.parse p])

/-- Makes wave files of the clips among some files, and counts how that went. -/
def exportEach (sourceFolder targetFolder : Path) (o : Options) : Counts → List Path → Job Counts
  | counts, [] => pure counts
  | counts, source :: rest =>
    let counts := counts.add "total"
    if Pattern.accepts "*.wav" source.text then do
      let counts := counts.add "match"
      let target ← onFiles (Filling.attempt (Path.moved source sourceFolder targetFolder ".wav"))
      let done ← onFiles (exportOne source target { o with verbose := false })
      if o.verbose then onFiles (Shell.say (details done))
      exportEach sourceFolder targetFolder o (counts.add (if done.success = some true then "success" else "failed")) rest
    else exportEach sourceFolder targetFolder o counts rest

/-- Makes wave files of all clips below a folder. -/
def exportFolder (sourceFolder targetFolder : Path) (o : Options) : Shell (Outcome Counts) :=
  supervise o.verbose do
    findFolder "Failed at src_dir argument validation." "Source" sourceFolder
    findFolder "Failed at dst_dir argument validation." "Destination" targetFolder
    let sources ← onFiles (filesBelow sourceFolder.text)
    let counts ← exportEach sourceFolder targetFolder o [] sources
    Outcome.setResults counts

end GameData.Command.Clips
