import Ips.Interaction
import Ips.Macros
import Ips.SpecFile
import Ips.Workspace

/-!
# The package command of ports

`run_package_command` (`ports/src/main.rs`) reads a spec file, lays out a
workspace, fetches and unpacks the sources, expands the build script, runs it
and packages the files that it has installed.  The parts of this are
`Source::new` (`ports/src/sources.rs`) and the methods of `Workspace`
(`ports/src/workspace.rs`).  What they ask of the system is an interface, and
the command is a program over it.

The paths of the workspace are made from text, so they are text here, with the
spelling that the macros and the arguments of commands have, and `to_str`
always succeeds on them.  Parsing a URL is left to a parameter.
-/

namespace Ips.Ports

open Interaction

/-! ## Paths as text -/

/-- `Path::join`. -/
def joinPath (base p : Text) : Text :=
  if p.head? = some '/' then p
  else if base = [] ∨ base.getLast? = some '/' then base ++ p
  else base ++ '/' :: p

/-- `Path::file_name`: the last component, if it is a name. -/
def fileName (p : Text) : Option Text :=
  let parts := (splitAt '/' p).filter fun part =>
    part ≠ [] ∧ part ≠ ".".toList
  parts.getLast?.filter fun part => part ≠ "..".toList

/-- The text behind the last dot. -/
def behindLastDot (name : Text) : Text :=
  (name.reverse.takeWhile (· ≠ '.')).reverse

/-- `Path::extension`: a name that only starts with a dot has none. -/
def extension (p : Text) : Option Text :=
  (fileName p).bind fun name =>
    if '.' ∈ name.tail then some (behindLastDot name) else none

/-! ## Sources -/

/-- What the url crate keeps of a URL that it has parsed. -/
structure Url where
  asStr : Text
  path : Text
  deriving DecidableEq

inductive SourceError where
  | cantCreateSource (url : Text)
  | urlParseError (error : Text)
  deriving DecidableEq

structure Source where
  url : Url
  localName : Text
  deriving DecidableEq

def Source.new (parseUrl : Text → Except Text Url)
    (urlString localBase : Text) : Except SourceError Source := do
  let url ← (parseUrl urlString).mapError .urlParseError
  match (splitAt '/' url.path).getLast? with
  | some localName => return { url, localName := joinPath localBase localName }
  | none => throw (.cantCreateSource url.asStr)

/-! ## The system -/

inductive WorkspaceError where
  | nonZeroCommandExitCode (command : Text) (code : ℤ)
  | unextractableSource (source : Source)
  | invalidStatusCode
  | ioError
  | variableLookupError (cause : Text)
  | sourceError (error : SourceError)
  | reqwestError
  | pathLookupError
  | ipsActionError (error : FileReadError)
  deriving DecidableEq

/-- The environment of a command is inherited, or cleared and filled. -/
structure Command where
  program : OsPath
  args : List Text
  env : Option (HashMap Text) := none
  deriving DecidableEq

/-- A process that was stopped by a signal has no code. -/
structure ExitStatus where
  code : Option ℤ
  deriving DecidableEq

def ExitStatus.success (status : ExitStatus) : Bool := status.code = some 0

/-- Reading the body can fail behind a response. -/
structure Response where
  status : ℕ
  bytes : Option Bytes
  deriving DecidableEq

inductive Request where
  | readToString (path : OsPath)
  | shellexpand (input : Text)
  | createDirAll (dir : Text)
  | get (url : Text)
  | create (path : Text)
  | write (path : Text) (bytes : Bytes)
  | spawn (command : Command)
  | wait (command : Command)
  | which (binary : Text)
  | vars
  | currentDir
  | setCurrentDir (dir : Path)
  | read (path : OsPath)
  | println (manifest : Manifest)

abbrev System : Interface where
  Request := Request
  Reply
    | .readToString _ => Text
    | .shellexpand _ => Text
    | .createDirAll _ => Unit
    | .get _ => Response
    | .create _ => Unit
    | .write _ _ => Unit
    | .spawn _ => Unit
    | .wait _ => ExitStatus
    | .which _ => OsPath
    | .vars => List (OsPath × OsPath)
    | .currentDir => Path
    | .setCurrentDir _ => Unit
    | .read _ => Bytes
    | .println _ => Unit
  Failure
    | .shellexpand _ => Text
    | .vars => Empty
    | .println _ => Empty
    | _ => Unit

abbrev Ask (α : Type) := Prog System WorkspaceError α

/-- A request of the system, as it stands in front of a `?`. -/
def call {ε : Type} (request : Request)
    (onFailure : System.Failure request → ε) :
    Prog System ε (System.Reply request) :=
  Prog.attempt (I := System) request onFailure

/-- The UTF-8 encoding of a text. -/
def utf8 (s : Text) : Bytes := s.flatMap String.utf8EncodeChar

/-! ## The workspace -/

structure Workspace where
  root : Text
  sourceDir : Text
  buildDir : Text
  protoDir : Text
  deriving DecidableEq

def defaultWorkspaceRoot : Text := "~/.ports/wks".toList

def defaultArch : Text := "i386".toList

def defaultTar : Text := "gtar".toList

def defaultShebang : Text := "#!/usr/bin/env bash".toList

namespace Workspace

/-- The directories below an expanded root. -/
def ofRoot (root : Text) : Workspace where
  root := root
  buildDir := joinPath (joinPath root "build".toList) defaultArch
  sourceDir := joinPath root "sources".toList
  protoDir := joinPath (joinPath root "build".toList) "proto".toList

def initRoot (ws : Workspace) : Ask Unit := do
  call (.createDirAll ws.root) fun _ => .ioError
  call (.createDirAll ws.buildDir) fun _ => .ioError
  call (.createDirAll ws.sourceDir) fun _ => .ioError
  call (.createDirAll ws.protoDir) fun _ => .ioError

def new (root : Text) : Ask Workspace := do
  let rootDir := if root = [] then defaultWorkspaceRoot else root
  let expandedRootDir ←
    call (.shellexpand rootDir) .variableLookupError
  let ws := ofRoot expandedRootDir
  ws.initRoot
  return ws

/-- The map that `run_package_command` hands to the macro parser: it copies
what `get_macros` returns, entry by entry. -/
def getMacros (ws : Workspace) : HashMap Text :=
  ((Finmap.singleton "proto_dir".toList ws.protoDir).insert
    "build_dir".toList ws.buildDir).insert "source_dir".toList ws.sourceDir

/-- One round of `get_sources`.  The status of the response is not looked
at. -/
def getSource (parseUrl : Text → Except Text Url) (ws : Workspace)
    (srcVec : List Source) (src : Text) : Ask (List Source) :=
  match Source.new parseUrl src ws.sourceDir with
  | .error error => .done (.err (.sourceError error))
  | .ok srcStruct => do
      let response ←
        call (.get srcStruct.url.asStr) fun _ => .reqwestError
      match response.bytes with
      | none => .done (.err .reqwestError)
      | some bytes => do
          call (.create srcStruct.localName) fun _ => .ioError
          call (.write srcStruct.localName bytes) fun _ => .ioError
          return srcVec ++ [srcStruct]

def getSources (parseUrl : Text → Except Text Url) (ws : Workspace)
    (sources : List Text) : Ask (List Source) :=
  Prog.fold (ws.getSource parseUrl) [] sources

/-- A command has to exit with zero. -/
def runCommand (command : Command) (name : Text) : Ask Unit := do
  call (.spawn command) fun _ => .ioError
  let status ← call (.wait command) fun _ => .ioError
  if ExitStatus.success status then pure ()
  else match ExitStatus.code status with
    | none => .done (.err .invalidStatusCode)
    | some code => .done (.err (.nonZeroCommandExitCode name code))

def tarCommand (ws : Workspace) (src : Source) : Command where
  program := .text defaultTar
  args := ["-C".toList, ws.buildDir, "-xaf".toList, src.localName,
    "--strip-components=1".toList]

def unpackSource (ws : Workspace) (src : Source) : Ask Unit :=
  match extension src.localName with
  | some ext =>
      if "tar".toList <:+: ext then
        runCommand (ws.tarCommand src) "tar".toList
      else .done (.err (.unextractableSource src))
  | none => .done (.err (.unextractableSource src))

def unpackAllSources (ws : Workspace) (sources : List Source) : Ask Unit :=
  Prog.fold (fun _ src => ws.unpackSource src) () sources

/-- The names of the variables that the build script gets. -/
def keptVariables : List Text :=
  ["TERM".toList, "TZ".toList, "LANG".toList, "PATH".toList]

/-- One round of the loop over `env::vars`, which panics at a name or a value
that is not Unicode. -/
def keepVariable (env : HashMap Text) (entry : OsPath × OsPath) :
    Outcome WorkspaceError (HashMap Text) :=
  match entry.1.toStr, entry.2.toStr with
  | some k, some v => .ok (if k ∈ keptVariables then env.insert k v else env)
  | _, _ => .panic "called `Result::unwrap()` on an `Err` value"

def filteredEnv (vars : List (OsPath × OsPath)) :
    Outcome WorkspaceError (HashMap Text) :=
  Outcome.fold keepVariable ∅ vars

def buildScriptPath (ws : Workspace) : Text :=
  joinPath ws.buildDir "build_script.sh".toList

def bashCommand (ws : Workspace) (bash : OsPath) (env : HashMap Text) :
    Command where
  program := bash
  args := ["-ex".toList, ws.buildScriptPath]
  env := some env

def build (ws : Workspace) (buildScript : Text) : Ask Unit := do
  let file := ws.buildScriptPath
  call (.create file) fun _ => .ioError
  call (.write file (utf8 defaultShebang)) fun _ => .ioError
  call (.write file (utf8 "\n".toList)) fun _ => .ioError
  call (.write file (utf8 buildScript)) fun _ => .ioError
  call (.write file (utf8 "\n".toList)) fun _ => .ioError
  let bash ← call (.which "bash".toList) fun _ => .pathLookupError
  let vars ← call .vars Empty.elim
  let env ← Prog.done (filteredEnv vars)
  runCommand (ws.bashCommand bash env) "build_script".toList

/-- `File::read_from_path`, on a path of text. -/
def readFromPath (crates : Crates) (path : Text) : Ask File := do
  let bytes ← call (.read (.text path)) fun _ =>
    .ipsActionError (.payloadError .ioError)
  match Payload.ofBytes crates bytes with
  | .error error => .done (.err (.ipsActionError (.payloadError error)))
  | .ok payload => return { path := path, payload := some payload }

/-- One round of the loop of `package`: one leading slash is removed. -/
def packageFile (crates : Crates) (manifest : Manifest) (f : Text) :
    Ask Manifest := do
  let file ←
    if f.head? = some '/' then readFromPath crates f.tail
    else readFromPath crates f
  return manifest.addFile file

def package (crates : Crates) (ws : Workspace) (fileList : List Text) :
    Ask Unit := do
  let cwd ← call .currentDir fun _ => .ioError
  call (.setCurrentDir (.ofText ws.protoDir)) fun _ => .ioError
  let manifest ← Prog.fold (packageFile crates) {} fileList
  call (.setCurrentDir cwd) fun _ => .ioError
  call (.println manifest) Empty.elim

end Workspace

/-! ## The command -/

inductive CommandError where
  | ioError
  | specError (error : SpecError)
  | workspaceError (error : WorkspaceError)
  | macroParserError (error : Macros.MacroParserError)
  deriving DecidableEq

/-- The crates that the command calls, and whether it was built with overflow
checks. -/
structure Toolchain where
  crates : Crates
  parseUrl : Text → Except Text Url
  overflowChecks : Bool

def runPackageCommand (tools : Toolchain) (specFile : OsPath) :
    Prog System CommandError Unit := do
  let contentString ← call (.readToString specFile) fun _ => .ioError
  let spec ← Prog.done
    ((SpecFile.parse tools.overflowChecks contentString).mapErr .specError)
  let ws ← (Workspace.new []).mapErr .workspaceError
  let downloaded ←
    (ws.getSources tools.parseUrl spec.sources).mapErr .workspaceError
  (ws.unpackAllSources downloaded).mapErr .workspaceError
  let buildScript ← Prog.done
    ((Macros.parse ws.getMacros spec.buildScript).mapErr .macroParserError)
  (ws.build buildScript).mapErr .workspaceError
  (ws.package tools.crates spec.files).mapErr .workspaceError

end Ips.Ports
