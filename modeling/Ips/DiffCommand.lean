import Ips.ComponentOutput
import Ips.ComponentReplacements
import Ips.PortsRuns

/-!
# Comparing a component with its sample manifest

`diff_component` (`pkg6dev/src/main.rs`) reads the manifests in the directory
of a component and the sample manifest below it, prints the files that one
side has and the other has not, and writes those that the manifests miss to a
file.  It is a program over what it asks of the system.  The order in which
the map of replacements is iterated is a parameter: it is the same for both
searches, as the map does not change between them.
-/

namespace Ips.ComponentDiff

open Interaction
open Ports (joinPath extension)

/-! ## The system -/

inductive ManifestFileError where
  | ioError
  | actionError (error : ActionError)
  deriving DecidableEq

inductive DiffError where
  | ioError
  | manifestError (error : ManifestFileError)
  deriving DecidableEq

inductive Request where
  | readDir (path : Text)
  | readToString (path : Text)
  | println (line : Text)
  | pathExists (path : Text)
  | openTruncated (path : OsPath)
  | write (path : OsPath) (text : Text)

/-- An entry of a directory that cannot be read has no path. -/
abbrev System : Interface where
  Request := Request
  Reply
    | .readDir _ => List (Option OsPath)
    | .readToString _ => Text
    | .println _ => Unit
    | .pathExists _ => Bool
    | .openTruncated _ => Unit
    | .write _ _ => Unit
  Failure
    | .println _ => Empty
    | .pathExists _ => Empty
    | _ => Unit

/-- A request of the system, as it stands in front of a `?`. -/
def call {ε : Type} (request : Request)
    (onFailure : System.Failure request → ε) :
    Prog System ε (System.Reply request) :=
  Prog.attempt (I := System) request onFailure

/-! ## Reading manifests -/

/-- The separators of a path are the same bytes in any encoding. -/
def hasManifestExtension : OsPath → Bool
  | .text path => extension path = some "p5m".toList
  | .raw bytes =>
      extension (bytes.map fun b => Char.ofNat b.toNat) =
        some "p5m".toList

def pushPath {ε : Type} (done : List Text) (path : OsPath) :
    Outcome ε (List Text) :=
  match path.toStr with
  | some text => .ok (done ++ [text])
  | none => .panic "called `Result::unwrap()` on an `Err` value"

/-- The manifests in a directory; a name that is not Unicode is unwrapped. -/
def manifestFiles {ε : Type} (files : List (Option OsPath)) :
    Outcome ε (List Text) :=
  Outcome.fold pushPath []
    ((files.filterMap id).filter fun path => hasManifestExtension path)

/-- `Manifest::parse_file`. -/
def parseFile (path : Text) : Prog System ManifestFileError Manifest := do
  let content ← call (.readToString path) fun _ => .ioError
  Prog.done ((Manifest.parseString content).mapErr .actionError)

def collectManifest (done : List Manifest) (path : Text) :
    Prog System ManifestFileError (List Manifest) := do
  let manifest ← parseFile path
  return done ++ [manifest]

def sampleManifestFile (componentPath : Text) : Text :=
  joinPath componentPath "manifests/sample-manifest.p5m".toList

/-- Errors in the manifests are looked at when the sample has been read. -/
def readManifests (componentPath : Text) :
    Prog System DiffError (Manifest × List Manifest) := do
  let files ← call (.readDir componentPath) fun _ => .ioError
  let manifestFiles ← Prog.done (manifestFiles files)
  let manifestsRes ← (Prog.fold collectManifest [] manifestFiles).kept
  let sampleManifest ←
    (parseFile (sampleManifestFile componentPath)).mapErr .manifestError
  let manifests ← Prog.done (Outcome.unwrap manifestsRes)
  return (sampleManifest, manifests)

/-! ## The searches and their output -/

def missingLine (f : File) : Text :=
  "file ".toList ++ f.path ++ " is missing in the manifests".toList

def removedLine (f : File) : Text :=
  "file path=".toList ++ f.path ++
    " has been removed from the sample-manifest".toList

def printLine (_ : Unit) (line : Text) : Prog System DiffError Unit :=
  call (.println line) Empty.elim

/-- One round of `find_removed_files`: only a file that is not found is looked
for in the component. -/
def searchRemoved (fMap : HashMap File) (componentPath : Text)
    (replacements : Replacements) (removed : List File) (f : File) :
    Prog System DiffError (List File) :=
  match f.getOriginalPath with
  | some path =>
      if replaceFunc path replacements ∉ fMap then do
        let present ← call (.pathExists (joinPath componentPath path))
          Empty.elim
        return if present then removed else removed ++ [f]
      else return removed
  | none =>
      if replaceFunc f.path replacements ∉ fMap then return removed ++ [f]
      else return removed

/-- The three pieces that the line is formatted from. -/
def writeAction (path : OsPath) (_ : Unit) (action : File) :
    Prog System DiffError Unit := do
  call (.write path "file path=".toList) fun _ => .ioError
  call (.write path action.path) fun _ => .ioError
  call (.write path "\n".toList) fun _ => .ioError

def writeOutput (missingFiles : List File) :
    Option OsPath → Prog System DiffError Unit
  | none => return ()
  | some path => do
      call (.openTruncated path) fun _ => .ioError
      Prog.fold (writeAction path) () missingFiles

def reportFiles (componentPath : Text) (replacements : Replacements)
    (outputManifest : Option OsPath) (sampleManifest : Manifest)
    (manifests : List Manifest) : Prog System DiffError Unit := do
  let missingFiles :=
    findFilesMissingInManifests sampleManifest manifests replacements
  Prog.fold printLine () (missingFiles.map missingLine)
  let removedFiles ← Prog.fold
    (searchRemoved (makeFileMap sampleManifest.files) componentPath
      replacements) [] (allFiles manifests)
  Prog.fold printLine () (removedFiles.map removedLine)
  writeOutput missingFiles outputManifest

def diffComponent (iterate : HashMap Text → List (Text × Text))
    (componentPath : Text) (replacements : Option (List Text))
    (outputManifest : Option OsPath) : Prog System DiffError Unit := do
  let replacements :=
    replacements.map fun pairs => iterate (parseTrippletReplacements pairs)
  let (sampleManifest, manifests) ← readManifests componentPath
  reportFiles componentPath replacements outputManifest sampleManifest
    manifests

end Ips.ComponentDiff
