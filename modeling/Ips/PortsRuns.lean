import Ips.Ports

/-!
# The runs of the package command

Each part of the command is described by its runs that end with a value: the
requests are fixed by the input and by the replies so far.  For the runs that
end otherwise, the requests of each part are collected.
-/

namespace Ips.Ports

open Interaction Prog

/-- A request that got its reply. -/
def replied (request : Request) (reply : System.Reply request) :
    Event System :=
  ⟨request, .ok reply⟩

theorem runs_call_ok_iff {ε : Type} {request : Request}
    {onFailure : System.Failure request → ε} {events : List (Event System)}
    {reply : System.Reply request} :
    Runs (call request onFailure) events (.ok reply) ↔
      events = [replied request reply] :=
  runs_attempt_ok_iff (I := System)

/-- A request in front of the rest of a part. -/
theorem runs_call_bind_ok_iff {ε β : Type} {request : Request}
    {onFailure : System.Failure request → ε}
    {f : System.Reply request → Prog System ε β}
    {events : List (Event System)} {b : β} :
    Runs (call request onFailure >>= f) events (.ok b) ↔
      ∃ reply rest, events = replied request reply :: rest ∧
        Runs (f reply) rest (.ok b) :=
  runs_attempt_bind_ok_iff (I := System)

/-! ## Sources -/

/-- A source with the response that was stored for it. -/
structure Fetched where
  source : Source
  status : ℕ
  bytes : Bytes

def Fetched.events (f : Fetched) : List (Event System) :=
  [replied (.get f.source.url.asStr) { status := f.status, bytes := f.bytes },
    replied (.create f.source.localName) (),
    replied (.write f.source.localName f.bytes) ()]

namespace Workspace

variable {parseUrl : Text → Except Text Url} {ws : Workspace}
  {events : List (Event System)}

theorem runs_getSource_ok_iff (srcVec : List Source) (src : Text)
    (events : List (Event System)) (out : List Source) :
    Runs (ws.getSource parseUrl srcVec src) events (.ok out) ↔
      ∃ f : Fetched, Source.new parseUrl src ws.sourceDir = .ok f.source ∧
        events = f.events ∧ out = srcVec ++ [f.source] := by
  unfold getSource
  cases hnew : Source.new parseUrl src ws.sourceDir with
  | error error =>
      rw [runs_done_iff]
      simp
  | ok source =>
      dsimp only
      rw [runs_call_bind_ok_iff]
      constructor
      · rintro ⟨⟨status, bytes⟩, rest, rfl, h⟩
        dsimp only at h
        cases bytes with
        | none =>
            obtain ⟨-, heq⟩ := runs_done_iff.mp h
            cases heq
        | some bytes =>
            obtain ⟨⟨⟩, rest, rfl, hcreated⟩ := runs_call_bind_ok_iff.mp h
            obtain ⟨⟨⟩, rest, rfl, hwritten⟩ :=
              runs_call_bind_ok_iff.mp hcreated
            obtain ⟨rfl, heq⟩ := runs_pure_iff.mp hwritten
            cases heq
            exact ⟨⟨source, status, bytes⟩, rfl, rfl, rfl⟩
      · rintro ⟨⟨source', status, bytes⟩, heq, rfl, rfl⟩
        cases heq
        refine ⟨⟨status, some bytes⟩, _, rfl, ?_⟩
        exact runs_call_bind_ok_iff.mpr ⟨(), _, rfl,
          runs_call_bind_ok_iff.mpr ⟨(), _, rfl, runs_pure_iff.mpr ⟨rfl, rfl⟩⟩⟩

theorem foldl_sources (fetched : List Fetched) (srcVec : List Source) :
    fetched.foldl (fun srcVec f => srcVec ++ [f.source]) srcVec =
      srcVec ++ fetched.map Fetched.source := by
  induction fetched generalizing srcVec with
  | nil => simp
  | cons f fetched ih => simp [ih]

/-- The sources are fetched and stored one after the other. -/
theorem runs_getSources_ok_iff {sources : List Text} {out : List Source} :
    Runs (ws.getSources parseUrl sources) events (.ok out) ↔
      ∃ fetched : List Fetched,
        List.Forall₂ (fun src f =>
          Source.new parseUrl src ws.sourceDir = .ok f.source)
            sources fetched ∧
        events = fetched.flatMap Fetched.events ∧
        out = fetched.map Fetched.source := by
  unfold getSources
  rw [runs_fold_ok_iff runs_getSource_ok_iff]
  simp only [foldl_sources, List.nil_append]

/-! ## Commands -/

def commandEvents (command : Command) : List (Event System) :=
  [replied (.spawn command) (), replied (.wait command) ⟨some 0⟩]

theorem runs_runCommand_ok_iff {command : Command} {name : Text} {u : Unit} :
    Runs (runCommand command name) events (.ok u) ↔
      events = commandEvents command := by
  unfold runCommand commandEvents
  constructor
  · intro h
    obtain ⟨⟨⟩, rest, rfl, hspawned⟩ := runs_call_bind_ok_iff.mp h
    obtain ⟨⟨code⟩, rest, rfl, hwaited⟩ :=
      runs_call_bind_ok_iff.mp hspawned
    split_ifs at hwaited with hsuccess
    · obtain ⟨rfl, -⟩ := runs_pure_iff.mp hwaited
      have hcode : code = some 0 := by
        simpa [ExitStatus.success] using hsuccess
      rw [hcode]
    · cases code with
      | none =>
          obtain ⟨-, heq⟩ := runs_done_iff.mp hwaited
          cases heq
      | some code =>
          obtain ⟨-, heq⟩ := runs_done_iff.mp hwaited
          cases heq
  · rintro rfl
    refine runs_call_bind_ok_iff.mpr ⟨(), _, rfl, ?_⟩
    refine runs_call_bind_ok_iff.mpr ⟨⟨some 0⟩, _, rfl, ?_⟩
    rw [if_pos (by rfl)]
    exact runs_pure_iff.mpr ⟨rfl, rfl⟩

end Workspace

/-- The extension of the file that a source is stored in mentions tar. -/
def Source.Unpackable (src : Source) : Prop :=
  ∃ ext, extension src.localName = some ext ∧ "tar".toList <:+: ext

namespace Workspace

variable {ws : Workspace} {events : List (Event System)}

theorem runs_unpackSource_ok_iff {src : Source} {u : Unit} :
    Runs (ws.unpackSource src) events (.ok u) ↔
      src.Unpackable ∧ events = commandEvents (ws.tarCommand src) := by
  unfold unpackSource Source.Unpackable
  cases extension src.localName with
  | none =>
      rw [runs_done_iff]
      simp
  | some ext =>
      dsimp only
      split_ifs with htar
      · rw [runs_runCommand_ok_iff]
        simpa using fun _ => htar
      · rw [runs_done_iff]
        simpa using fun h => absurd h htar

theorem forall₂_and_eq {α : Type} {P : α → Prop} {xs ys : List α} :
    List.Forall₂ (fun x y => P x ∧ y = x) xs ys ↔ (∀ x ∈ xs, P x) ∧ ys = xs := by
  induction xs generalizing ys with
  | nil => simp
  | cons x xs ih =>
      cases ys with
      | nil => simp
      | cons y ys =>
          rw [List.forall₂_cons, ih, List.forall_mem_cons, List.cons.injEq]
          tauto

theorem runs_unpackAllSources_ok_iff {sources : List Source} {u : Unit} :
    Runs (ws.unpackAllSources sources) events (.ok u) ↔
      (∀ src ∈ sources, src.Unpackable) ∧
        events = sources.flatMap fun src =>
          commandEvents (ws.tarCommand src) := by
  have hstep : ∀ (_ : Unit) (src : Source) (events : List (Event System))
      (u : Unit), Runs (ws.unpackSource src) events (.ok u) ↔
        ∃ src', (src.Unpackable ∧ src' = src) ∧
          events = commandEvents (ws.tarCommand src') ∧ u = () := by
    intro _ src events u
    rw [runs_unpackSource_ok_iff]
    simp
  unfold unpackAllSources
  rw [runs_fold_ok_iff hstep]
  simp only [forall₂_and_eq]
  constructor
  · rintro ⟨sources', ⟨hall, rfl⟩, rfl, -⟩
    exact ⟨hall, rfl⟩
  · rintro ⟨hall, rfl⟩
    exact ⟨sources, ⟨hall, rfl⟩, rfl, trivial⟩

/-! ## Directories and the script -/

/-- The directories of the workspace, in the order of their creation. -/
def dirs (ws : Workspace) : List Text :=
  [ws.root, ws.buildDir, ws.sourceDir, ws.protoDir]

def dirEvents (ws : Workspace) : List (Event System) :=
  ws.dirs.map fun dir => replied (.createDirAll dir) ()

theorem runs_initRoot_ok_iff {u : Unit} :
    Runs ws.initRoot events (.ok u) ↔ events = ws.dirEvents := by
  unfold initRoot dirEvents dirs
  constructor
  · intro h
    obtain ⟨⟨⟩, rest, rfl, hroot⟩ := runs_call_bind_ok_iff.mp h
    obtain ⟨⟨⟩, rest, rfl, hbuild⟩ := runs_call_bind_ok_iff.mp hroot
    obtain ⟨⟨⟩, rest, rfl, hsource⟩ := runs_call_bind_ok_iff.mp hbuild
    rw [runs_call_ok_iff.mp hsource]
    rfl
  · rintro rfl
    exact runs_call_bind_ok_iff.mpr ⟨(), _, rfl,
      runs_call_bind_ok_iff.mpr ⟨(), _, rfl,
        runs_call_bind_ok_iff.mpr ⟨(), _, rfl, runs_call_ok_iff.mpr rfl⟩⟩⟩

/-- The root that an empty argument stands for. -/
def rootOf (root : Text) : Text :=
  if root = [] then defaultWorkspaceRoot else root

theorem runs_new_ok_iff {root : Text} :
    Runs (new root) events (.ok ws) ↔
      ∃ expanded, ws = ofRoot expanded ∧
        events = replied (.shellexpand (rootOf root)) expanded ::
          ws.dirEvents := by
  unfold new
  constructor
  · intro h
    obtain ⟨expanded, rest, rfl, hexpanded⟩ := runs_call_bind_ok_iff.mp h
    obtain ⟨first, ⟨⟩, rest', hinit, hpure, rfl⟩ :=
      runs_bind_ok_iff.mp hexpanded
    obtain ⟨rfl, heq⟩ := runs_pure_iff.mp hpure
    cases heq
    rw [runs_initRoot_ok_iff.mp hinit, List.append_nil]
    exact ⟨expanded, rfl, rfl⟩
  · rintro ⟨expanded, rfl, rfl⟩
    refine runs_call_bind_ok_iff.mpr ⟨expanded, _, rfl, ?_⟩
    exact runs_bind_ok_iff.mpr ⟨_, (), [], runs_initRoot_ok_iff.mpr rfl,
      runs_pure_iff.mpr ⟨rfl, rfl⟩, (List.append_nil _).symm⟩

/-- The file of the build script is written in four pieces. -/
def scriptEvents (ws : Workspace) (script : Text) : List (Event System) :=
  replied (.create ws.buildScriptPath) () ::
    [defaultShebang, "\n".toList, script, "\n".toList].map fun piece =>
      replied (.write ws.buildScriptPath (utf8 piece)) ()

def lookupEvents (bash : OsPath) (vars : List (OsPath × OsPath)) :
    List (Event System) :=
  [replied (.which "bash".toList) bash, replied .vars vars]

/-- What `build` does in front of the shell. -/
def prepareBuild (ws : Workspace) (script : Text) : Ask Command := do
  let file := ws.buildScriptPath
  call (.create file) fun _ => .ioError
  call (.write file (utf8 defaultShebang)) fun _ => .ioError
  call (.write file (utf8 "\n".toList)) fun _ => .ioError
  call (.write file (utf8 script)) fun _ => .ioError
  call (.write file (utf8 "\n".toList)) fun _ => .ioError
  let bash ← call (.which "bash".toList) fun _ => .pathLookupError
  let vars ← call .vars Empty.elim
  let env ← Prog.done (filteredEnv vars)
  return ws.bashCommand bash env

theorem build_eq (ws : Workspace) (script : Text) :
    ws.build script = (ws.prepareBuild script >>= fun command =>
      runCommand command "build_script".toList) := by
  unfold build prepareBuild
  simp only [Prog.bind_assoc, Prog.pure_bind]

theorem runs_prepareBuild_ok_iff {script : Text} {command : Command} :
    Runs (ws.prepareBuild script) events (.ok command) ↔
      ∃ bash vars env, filteredEnv vars = .ok env ∧
        events = ws.scriptEvents script ++ lookupEvents bash vars ∧
        command = ws.bashCommand bash env := by
  unfold prepareBuild
  constructor
  · intro h
    obtain ⟨⟨⟩, rest, rfl, h₁⟩ := runs_call_bind_ok_iff.mp h
    obtain ⟨⟨⟩, rest, rfl, h₂⟩ := runs_call_bind_ok_iff.mp h₁
    obtain ⟨⟨⟩, rest, rfl, h₃⟩ := runs_call_bind_ok_iff.mp h₂
    obtain ⟨⟨⟩, rest, rfl, h₄⟩ := runs_call_bind_ok_iff.mp h₃
    obtain ⟨⟨⟩, rest, rfl, hwritten⟩ := runs_call_bind_ok_iff.mp h₄
    obtain ⟨bash, rest, rfl, hbash⟩ := runs_call_bind_ok_iff.mp hwritten
    obtain ⟨vars, rest, rfl, hvars⟩ := runs_call_bind_ok_iff.mp hbash
    obtain ⟨env, henv, hcommand⟩ := runs_done_bind_ok_iff.mp hvars
    obtain ⟨rfl, heq⟩ := runs_pure_iff.mp hcommand
    cases heq
    exact ⟨bash, vars, env, henv, rfl, rfl⟩
  · rintro ⟨bash, vars, env, henv, rfl, rfl⟩
    exact runs_call_bind_ok_iff.mpr ⟨(), _, rfl,
      runs_call_bind_ok_iff.mpr ⟨(), _, rfl,
        runs_call_bind_ok_iff.mpr ⟨(), _, rfl,
          runs_call_bind_ok_iff.mpr ⟨(), _, rfl,
            runs_call_bind_ok_iff.mpr ⟨(), _, rfl,
              runs_call_bind_ok_iff.mpr ⟨bash, _, rfl,
                runs_call_bind_ok_iff.mpr ⟨vars, _, rfl,
                  runs_done_bind_ok_iff.mpr ⟨env, henv,
                    runs_pure_iff.mpr ⟨rfl, rfl⟩⟩⟩⟩⟩⟩⟩⟩⟩

end Workspace

/-! ## Packages -/

/-- The payload of a file that was read. -/
def payloadOf (crates : Crates) (bytes : Bytes) : Payload where
  primaryIdentifier := {
    source := .primaryPayloadHash
    algorithm := .sha3512
    hash := crates.hashes.sha3512 bytes }
  additionalIdentifiers := []
  bitness := match crates.parseObject bytes with
    | some bin => if bin.is64 then .bits64 else .bits32
    | none => .independent
  architecture := match crates.parseObject bytes with
    | some bin =>
        match bin.architecture with
        | .x86_64 => .i386
        | .i386 => .i386
        | .aarch64 => .arm
        | .arm => .arm
        | .other => .noarch
    | none => .noarch

theorem ofBytes_eq (crates : Crates) (bytes : Bytes) :
    Payload.ofBytes crates bytes = .ok (payloadOf crates bytes) := by
  unfold Payload.ofBytes payloadOf
  cases crates.parseObject bytes <;> rfl

/-- An entry of the file list with what was read for it. -/
structure Packed where
  entry : Text
  bytes : Bytes

def Packed.event (p : Packed) : Event System :=
  replied (.read (.text (entryPath p.entry))) p.bytes

def Packed.file (crates : Crates) (p : Packed) : File :=
  { path := entryPath p.entry, payload := some (payloadOf crates p.bytes) }

namespace Workspace

variable {crates : Crates} {ws : Workspace} {events : List (Event System)}

theorem packageFile_eq (manifest : Manifest) (f : Text) :
    packageFile crates manifest f = do
      let file ← readFromPath crates (entryPath f)
      return manifest.addFile file := by
  unfold packageFile entryPath
  split_ifs <;> rfl

theorem runs_packageFile_ok_iff (manifest : Manifest) (f : Text)
    (events : List (Event System)) (out : Manifest) :
    Runs (packageFile crates manifest f) events (.ok out) ↔
      ∃ p : Packed, p.entry = f ∧ events = [p.event] ∧
        out = manifest.addFile (p.file crates) := by
  rw [packageFile_eq]
  unfold readFromPath
  constructor
  · intro h
    obtain ⟨first, file, rest, hread, hadd, rfl⟩ := runs_bind_ok_iff.mp h
    obtain ⟨bytes, rest', rfl, hfile⟩ := runs_call_bind_ok_iff.mp hread
    rw [ofBytes_eq] at hfile
    obtain ⟨rfl, heq⟩ := runs_pure_iff.mp hfile
    cases heq
    obtain ⟨rfl, heq⟩ := runs_pure_iff.mp hadd
    cases heq
    exact ⟨⟨f, bytes⟩, rfl, rfl, rfl⟩
  · rintro ⟨⟨entry, bytes⟩, rfl, rfl, rfl⟩
    refine runs_bind_ok_iff.mpr ⟨_, Packed.file crates ⟨entry, bytes⟩, [], ?_,
      runs_pure_iff.mpr ⟨rfl, rfl⟩, (List.append_nil _).symm⟩
    refine runs_call_bind_ok_iff.mpr ⟨bytes, [], rfl, ?_⟩
    rw [ofBytes_eq]
    exact runs_pure_iff.mpr ⟨rfl, rfl⟩

theorem forall₂_entry_iff {files : List Text} {packed : List Packed} :
    List.Forall₂ (fun f p => p.entry = f) files packed ↔
      packed.map Packed.entry = files := by
  induction packed generalizing files with
  | nil => simp [eq_comm]
  | cons p packed ih =>
      cases files with
      | nil => simp
      | cons f files => simp [ih]

/-- The manifest of the files that were read. -/
def manifestOf (crates : Crates) (packed : List Packed) : Manifest :=
  { files := packed.map (Packed.file crates) }

theorem foldl_addFile (packed : List Packed) (manifest : Manifest) :
    packed.foldl (fun manifest p => manifest.addFile (p.file crates))
        manifest =
      { manifest with
        files := manifest.files ++ packed.map (Packed.file crates) } := by
  induction packed generalizing manifest with
  | nil => simp
  | cons p packed ih =>
      rw [List.foldl_cons, ih]
      simp [Manifest.addFile]

/-- What `package` does in front of printing. -/
def packageManifest (crates : Crates) (ws : Workspace)
    (fileList : List Text) : Ask Manifest := do
  let cwd ← call .currentDir fun _ => .ioError
  call (.setCurrentDir (.ofText ws.protoDir)) fun _ => .ioError
  let manifest ← Prog.fold (packageFile crates) {} fileList
  call (.setCurrentDir cwd) fun _ => .ioError
  return manifest

theorem package_eq (crates : Crates) (ws : Workspace) (fileList : List Text) :
    ws.package crates fileList =
      (ws.packageManifest crates fileList >>= fun manifest =>
        call (.println manifest) Empty.elim) := by
  unfold package packageManifest
  simp only [Prog.bind_assoc, Prog.pure_bind]

def readEvents (ws : Workspace) (cwd : Path) (packed : List Packed) :
    List (Event System) :=
  replied .currentDir cwd ::
    replied (.setCurrentDir (.ofText ws.protoDir)) () ::
    (packed.map Packed.event ++ [replied (.setCurrentDir cwd) ()])

theorem runs_packageManifest_ok_iff {fileList : List Text}
    {manifest : Manifest} :
    Runs (ws.packageManifest crates fileList) events (.ok manifest) ↔
      ∃ cwd packed, packed.map Packed.entry = fileList ∧
        events = ws.readEvents cwd packed ∧
        manifest = manifestOf crates packed := by
  have hloop : ∀ events manifest,
      Runs (fold (packageFile crates) {} fileList) events (.ok manifest) ↔
        ∃ packed, packed.map Packed.entry = fileList ∧
          events = packed.map Packed.event ∧
          manifest = manifestOf crates packed := by
    intro events manifest
    rw [runs_fold_ok_iff runs_packageFile_ok_iff]
    simp only [forall₂_entry_iff, foldl_addFile, List.nil_append,
      ← List.map_eq_flatMap, manifestOf]
  unfold packageManifest
  constructor
  · intro h
    obtain ⟨cwd, rest, rfl, hcwd⟩ := runs_call_bind_ok_iff.mp h
    obtain ⟨⟨⟩, rest, rfl, hentered⟩ := runs_call_bind_ok_iff.mp hcwd
    obtain ⟨first, manifest', rest, hreads, hback, rfl⟩ :=
      runs_bind_ok_iff.mp hentered
    obtain ⟨packed, hentries, rfl, rfl⟩ := (hloop _ _).mp hreads
    obtain ⟨⟨⟩, rest, rfl, hpure⟩ := runs_call_bind_ok_iff.mp hback
    obtain ⟨rfl, heq⟩ := runs_pure_iff.mp hpure
    cases heq
    exact ⟨cwd, packed, hentries, rfl, rfl⟩
  · rintro ⟨cwd, packed, hentries, rfl, rfl⟩
    refine runs_call_bind_ok_iff.mpr ⟨cwd, _, rfl, ?_⟩
    refine runs_call_bind_ok_iff.mpr ⟨(), _, rfl, ?_⟩
    refine runs_bind_ok_iff.mpr ⟨_, _, _,
      (hloop _ _).mpr ⟨packed, hentries, rfl, rfl⟩, ?_, rfl⟩
    exact runs_call_bind_ok_iff.mpr ⟨(), _, rfl,
      runs_pure_iff.mpr ⟨rfl, rfl⟩⟩

/-- The manifest is printed when the directory has been changed back. -/
def packageEvents (crates : Crates) (ws : Workspace) (cwd : Path)
    (packed : List Packed) : List (Event System) :=
  ws.readEvents cwd packed ++
    [replied (.println (manifestOf crates packed)) ()]

theorem runs_package_ok_iff {fileList : List Text} {u : Unit} :
    Runs (ws.package crates fileList) events (.ok u) ↔
      ∃ cwd packed, packed.map Packed.entry = fileList ∧
        events = ws.packageEvents crates cwd packed := by
  rw [package_eq, runs_bind_ok_iff]
  constructor
  · rintro ⟨first, manifest, rest, hmanifest, hprint, rfl⟩
    obtain ⟨cwd, packed, hentries, rfl, rfl⟩ :=
      runs_packageManifest_ok_iff.mp hmanifest
    rw [runs_call_ok_iff.mp hprint]
    exact ⟨cwd, packed, hentries, rfl⟩
  · rintro ⟨cwd, packed, hentries, rfl⟩
    exact ⟨_, _, _, runs_packageManifest_ok_iff.mpr
      ⟨cwd, packed, hentries, rfl, rfl⟩, runs_call_ok_iff.mpr rfl, rfl⟩

end Workspace

/-! ## Requests -/

namespace Workspace

variable {P : Request → Prop} {ws : Workspace}

theorem within_call {ε : Type} {request : Request}
    {onFailure : System.Failure request → ε} (h : P request) :
    (call request onFailure).Within (I := System) P :=
  within_attempt (I := System) h

theorem within_call_bind {ε α : Type} {request : Request}
    {onFailure : System.Failure request → ε}
    {f : System.Reply request → Prog System ε α} (h : P request)
    (hf : ∀ reply, (f reply).Within P) :
    (call request onFailure >>= f).Within (I := System) P :=
  within_attempt_bind (I := System) h hf

theorem within_initRoot (h : ∀ dir ∈ ws.dirs, P (.createDirAll dir)) :
    ws.initRoot.Within (I := System) P := by
  simp only [dirs, List.forall_mem_cons] at h
  obtain ⟨hroot, hbuild, hsource, hproto, -⟩ := h
  refine within_call_bind hroot fun _ => ?_
  refine within_call_bind hbuild fun _ => ?_
  refine within_call_bind hsource fun _ => ?_
  exact within_call hproto

theorem within_new (hexpand : ∀ input, P (.shellexpand input))
    (hdir : ∀ dir, P (.createDirAll dir)) (root : Text) :
    (new root).Within (I := System) P := by
  refine within_call_bind (hexpand _) fun expanded => ?_
  exact (within_initRoot fun dir _ => hdir dir).bind fun _ _ _ => trivial

theorem within_getSources {parseUrl : Text → Except Text Url}
    (hget : ∀ url, P (.get url))
    (hstore : ∀ src source, Source.new parseUrl src ws.sourceDir = .ok source →
      P (.create source.localName) ∧
        ∀ bytes, P (.write source.localName bytes))
    (sources : List Text) :
    (ws.getSources parseUrl sources).Within (I := System) P := by
  refine Within.fold ?_ []
  intro srcVec src _
  unfold getSource
  cases hnew : Source.new parseUrl src ws.sourceDir with
  | error error => trivial
  | ok source =>
      obtain ⟨hcreate, hwrite⟩ := hstore src source hnew
      refine within_call_bind (hget _) ?_
      rintro ⟨status, _ | bytes⟩
      · trivial
      · exact within_call_bind hcreate fun _ =>
          within_call_bind (hwrite bytes) fun _ => trivial

theorem within_runCommand {command : Command} (hspawn : P (.spawn command))
    (hwait : P (.wait command)) (name : Text) :
    (runCommand command name).Within (I := System) P := by
  refine within_call_bind hspawn fun _ => ?_
  refine within_call_bind hwait ?_
  rintro ⟨code⟩
  split_ifs
  · trivial
  · cases code <;> trivial

theorem within_unpackAllSources
    (htar : ∀ src, P (.spawn (ws.tarCommand src)) ∧
      P (.wait (ws.tarCommand src))) (sources : List Source) :
    (ws.unpackAllSources sources).Within (I := System) P := by
  refine Within.fold ?_ ()
  intro _ src _
  unfold unpackSource
  cases extension src.localName with
  | none => trivial
  | some ext =>
      dsimp only
      split_ifs
      · exact within_runCommand (htar src).1 (htar src).2 _
      · trivial

theorem within_prepareBuild (hcreate : P (.create ws.buildScriptPath))
    (hwrite : ∀ bytes, P (.write ws.buildScriptPath bytes))
    (hwhich : P (.which "bash".toList)) (hvars : P .vars) (script : Text) :
    (ws.prepareBuild script).Within (I := System) P := by
  refine within_call_bind hcreate fun _ => ?_
  refine within_call_bind (hwrite _) fun _ => ?_
  refine within_call_bind (hwrite _) fun _ => ?_
  refine within_call_bind (hwrite _) fun _ => ?_
  refine within_call_bind (hwrite _) fun _ => ?_
  refine within_call_bind hwhich fun bash => ?_
  refine within_call_bind hvars fun vars => ?_
  exact Within.bind trivial fun env _ _ => trivial

theorem within_packageManifest {crates : Crates} (hcwd : P .currentDir)
    (hdir : ∀ dir, P (.setCurrentDir dir)) (hread : ∀ path, P (.read path))
    (fileList : List Text) :
    (ws.packageManifest crates fileList).Within (I := System) P := by
  refine within_call_bind hcwd fun cwd => ?_
  refine within_call_bind (hdir _) fun _ => ?_
  refine Within.bind ?_ fun manifest _ _ =>
    within_call_bind (hdir cwd) fun _ => trivial
  refine Within.fold ?_ _
  intro manifest f _
  rw [packageFile_eq]
  refine Within.bind ?_ fun file _ _ => trivial
  refine within_call_bind (hread _) fun bytes => ?_
  rw [ofBytes_eq]
  trivial

theorem within_package {crates : Crates} (hcwd : P .currentDir)
    (hdir : ∀ dir, P (.setCurrentDir dir)) (hread : ∀ path, P (.read path))
    (hprint : ∀ manifest, P (.println manifest)) (fileList : List Text) :
    (ws.package crates fileList).Within (I := System) P := by
  rw [package_eq]
  exact (within_packageManifest hcwd hdir hread fileList).bind
    fun manifest _ _ => within_call (hprint manifest)

end Workspace

end Ips.Ports
