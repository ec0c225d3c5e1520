import Ips.PortsShell

/-!
# Packages

What any run of the package command prints is a manifest of the files that the
spec file lists, with the digests of what the run has read.  On a disk that
does not change, the packaging of a workspace, as a program over the system,
does what the packaging over the state of the process does: the same result,
the same reads and the same current directory.
-/

namespace Ips.Ports

open Interaction

/-! ## The printed manifest -/

/-- The files that a run has read, with their bytes. -/
def filesRead (events : List (Event System)) : List (OsPath × Bytes) :=
  events.filterMap fun
    | ⟨.read path, .ok bytes⟩ => some (path, bytes)
    | _ => none

/-- What a manifest says about a file that was read: the digest of its bytes,
and that it is an object file exactly if it is none. -/
structure Describes (crates : Crates) (file : File) (path : OsPath)
    (bytes : Bytes) : Prop where
  path_eq : path = .text file.path
  digest : ∃ payload, file.payload = some payload ∧
    payload.primaryIdentifier = {
      source := .primaryPayloadHash
      algorithm := .sha3512
      hash := crates.hashes.sha3512 bytes } ∧
    (payload.isElf = true ↔ crates.parseObject bytes = none)

theorem isElf_payloadOf (crates : Crates) (bytes : Bytes) :
    (payloadOf crates bytes).isElf = true ↔
      crates.parseObject bytes = none := by
  unfold Payload.isElf payloadOf
  cases crates.parseObject bytes with
  | none => simp
  | some bin => cases hbits : bin.is64 <;> simp [hbits]

theorem Packed.describes (crates : Crates) (p : Packed) :
    Describes crates (p.file crates) (.text (entryPath p.entry)) p.bytes where
  path_eq := rfl
  digest := ⟨_, rfl, rfl, isElf_payloadOf crates p.bytes⟩

theorem filesRead_append (events rest : List (Event System)) :
    filesRead (events ++ rest) = filesRead events ++ filesRead rest :=
  List.filterMap_append

theorem filesRead_packed (packed : List Packed) :
    filesRead (packed.map Packed.event) =
      packed.map fun p => (.text (entryPath p.entry), p.bytes) := by
  unfold filesRead
  rw [List.filterMap_map]
  exact List.filterMap_eq_map_iff_forall_eq_some.mpr fun _ _ => rfl

theorem filesRead_readEvents (ws : Workspace) (cwd : Path)
    (packed : List Packed) :
    filesRead (ws.readEvents cwd packed) =
      packed.map fun p => (.text (entryPath p.entry), p.bytes) := by
  have hevents : ws.readEvents cwd packed =
      [replied .currentDir cwd,
        replied (.setCurrentDir (.ofText ws.protoDir)) ()] ++
      (packed.map Packed.event ++ [replied (.setCurrentDir cwd) ()]) := rfl
  rw [hevents, filesRead_append, filesRead_append, filesRead_packed]
  exact List.append_nil _

theorem Preparation.filesRead_events {tools : Toolchain}
    (b : Preparation tools) (specFile : OsPath) :
    filesRead (b.events specFile) = [] := rfl

theorem filesRead_commandEvents (command : Command) :
    filesRead (Workspace.commandEvents command) = [] := rfl

/-- What the command does in front of printing. -/
def assemble (tools : Toolchain) (specFile : OsPath) :
    Prog System CommandError Manifest := do
  let prepared ← prepare tools specFile
  (Workspace.runCommand prepared.2.2 "build_script".toList).mapErr
    .workspaceError
  (prepared.1.packageManifest tools.crates prepared.2.1).mapErr
    .workspaceError

theorem runPackageCommand_eq_assemble (tools : Toolchain)
    (specFile : OsPath) :
    runPackageCommand tools specFile =
      (assemble tools specFile >>= fun manifest =>
        (call (.println manifest) Empty.elim : Ask Unit).mapErr
          .workspaceError) := by
  rw [runPackageCommand_eq]
  unfold assemble finish
  simp only [Prog.bind_assoc, Workspace.package_eq, Prog.bind_mapErr]

def Request.Prints : Request → Prop
  | .println _ => True
  | _ => False

theorem assemble_prints_nothing (tools : Toolchain) (specFile : OsPath) :
    (assemble tools specFile).Within (I := System)
      fun request => ¬request.Prints := by
  refine (within_prepare (fun _ => id) (fun _ => id) (fun _ => id)
    (fun _ => id) (fun _ _ => id) (fun _ => id) id tools specFile).bind ?_
  rintro prepared events -
  exact Prog.Within.bind (Prog.Within.mapErr (Workspace.within_runCommand
    id id _)) fun _ _ _ => Prog.Within.mapErr
      (Workspace.within_packageManifest id (fun _ => id) (fun _ => id) _)

theorem runs_assemble_ok_iff {tools : Toolchain} {specFile : OsPath}
    {events : List (Event System)} {manifest : Manifest} :
    Prog.Runs (assemble tools specFile) events (.ok manifest) ↔
      ∃ (b : Preparation tools) (cwd : Path) (packed : List Packed),
        packed.map Packed.entry = b.spec.files ∧
        events = b.events specFile ++
          (Workspace.commandEvents b.command ++ b.ws.readEvents cwd packed) ∧
        manifest = Workspace.manifestOf tools.crates packed := by
  unfold assemble
  rw [Prog.runs_bind_ok_iff]
  constructor
  · rintro ⟨first, prepared, rest, hprepare, hfinish, rfl⟩
    obtain ⟨b, rfl, rfl⟩ := runs_prepare_ok_iff.mp hprepare
    obtain ⟨first, ⟨⟩, rest, hrun, hmanifest, rfl⟩ :=
      runs_mapErr_bind_ok_iff.mp hfinish
    rw [Workspace.runs_runCommand_ok_iff.mp hrun]
    obtain ⟨cwd, packed, hentries, rfl, rfl⟩ :=
      Workspace.runs_packageManifest_ok_iff.mp
        (Prog.runs_mapErr_ok_iff.mp hmanifest)
    exact ⟨b, cwd, packed, hentries, rfl, rfl⟩
  · rintro ⟨b, cwd, packed, hentries, rfl, rfl⟩
    refine ⟨_, _, _, runs_prepare_ok_iff.mpr ⟨b, rfl, rfl⟩, ?_, rfl⟩
    exact runs_mapErr_bind_ok_iff.mpr ⟨_, (), _,
      Workspace.runs_runCommand_ok_iff.mpr rfl,
      Prog.runs_mapErr_ok_iff.mpr (Workspace.runs_packageManifest_ok_iff.mpr
        ⟨cwd, packed, hentries, rfl, rfl⟩), rfl⟩

theorem runs_print {manifest manifest' : Manifest}
    {before after : List (Event System)}
    {answer : System.Answer (.println manifest)}
    {outcome : Outcome CommandError Unit}
    (h : Prog.Runs ((call (.println manifest') Empty.elim : Ask Unit).mapErr
      CommandError.workspaceError)
      (before ++ ⟨.println manifest, answer⟩ :: after) outcome) :
    manifest = manifest' ∧ before = [] ∧ after = [] ∧ outcome = .ok () := by
  obtain ⟨answer', rest, heq, hrest⟩ := Prog.runs_ask_iff.mp h
  cases answer' with
  | error failure => cases failure
  | ok reply =>
      obtain ⟨rfl, rfl⟩ := Prog.runs_done_iff.mp hrest
      cases before with
      | nil =>
          cases heq
          exact ⟨rfl, rfl, rfl, rfl⟩
      | cons e before => simp at heq

theorem describes_packed (crates : Crates) (packed : List Packed) :
    List.Forall₂ (fun file read => Describes crates file read.1 read.2)
      (packed.map (Packed.file crates))
      (packed.map fun p => (OsPath.text (entryPath p.entry), p.bytes)) := by
  induction packed with
  | nil => exact .nil
  | cons p packed ih => exact .cons (p.describes crates) ih

/-- A manifest is printed only at the end of a run that succeeds.  It has the
files of the spec file that the run has read, in their order and without a
leading slash, each with the digest of the bytes that were read for it, and
nothing else. -/
theorem printed_manifest {tools : Toolchain} {specFile : OsPath}
    {before after : List (Event System)} {manifest : Manifest}
    {answer : System.Answer (.println manifest)}
    {outcome : Outcome CommandError Unit}
    (h : Prog.Runs (runPackageCommand tools specFile)
      (before ++ ⟨.println manifest, answer⟩ :: after) outcome) :
    after = [] ∧ outcome = .ok () ∧
      ∃ content spec,
        replied (.readToString specFile) content ∈ before ∧
        SpecFile.parse tools.overflowChecks content = .ok spec ∧
        manifest.files.map File.path = spec.files.map entryPath ∧
        List.Forall₂ (fun file read =>
          Describes tools.crates file read.1 read.2)
          manifest.files (filesRead before) ∧
        manifest = { files := manifest.files } := by
  rw [runPackageCommand_eq_assemble] at h
  obtain ⟨first, manifest', rest, hassemble, rfl, hprint⟩ :=
    h.exists_first (assemble_prints_nothing tools specFile)
      (not_not_intro trivial)
  obtain ⟨rfl, rfl, rfl, rfl⟩ := runs_print hprint
  obtain ⟨b, cwd, packed, hentries, rfl, rfl⟩ :=
    runs_assemble_ok_iff.mp hassemble
  refine ⟨rfl, rfl, b.content, b.spec, by simp [Preparation.events],
    b.parsed, ?_, ?_, rfl⟩
  · rw [← hentries]
    simp [Workspace.manifestOf, Packed.file]
  · rw [List.append_nil, filesRead_append, filesRead_append,
      b.filesRead_events, filesRead_commandEvents, filesRead_readEvents]
    exact describes_packed tools.crates packed

def emptyManifest : Manifest where
  files := [{
    path := "etc/motd".toList
    payload := some (payloadOf emptyCrates []) }]

/-- What happens in front of printing when the installed file is empty. -/
def helloReads : List (Event System) :=
  helloPreparation.events helloSpec ++
    (Workspace.commandEvents helloPreparation.command ++
      helloPreparation.ws.readEvents home [⟨"/etc/motd".toList, []⟩])

theorem runs_helloReads :
    Prog.Runs (runPackageCommand helloTools helloSpec)
      (helloReads ++ [⟨.println emptyManifest, .ok ()⟩]) (.ok ()) := by
  rw [runPackageCommand_eq_assemble]
  exact Prog.runs_bind_ok_iff.mpr ⟨_, _, _,
    runs_assemble_ok_iff.mpr ⟨helloPreparation, home,
      [⟨"/etc/motd".toList, []⟩], rfl, rfl, rfl⟩,
    Prog.runs_mapErr_ok_iff.mpr (runs_call_ok_iff.mpr rfl), rfl⟩

theorem printed_manifest_hello :
    ([] : List (Event System)) = [] ∧
      (.ok () : Outcome CommandError Unit) = .ok () ∧
      ∃ content spec,
        replied (.readToString helloSpec) content ∈ helloReads ∧
        SpecFile.parse true content = .ok spec ∧
        emptyManifest.files.map File.path = spec.files.map entryPath ∧
        List.Forall₂ (fun file read =>
          Describes emptyCrates file read.1 read.2)
          emptyManifest.files (filesRead helloReads) ∧
        emptyManifest = { files := emptyManifest.files } :=
  printed_manifest runs_helloReads

/-! ## Paths -/

/-- The parts of a path that are not empty. -/
def rawParts (p : Text) : List Text :=
  (splitAt '/' p).filter fun part => part ≠ []

theorem rawParts_append_slash (p q : Text) :
    rawParts (p ++ '/' :: q) = rawParts p ++ rawParts q := by
  unfold rawParts splitAt
  rw [List.splitOn_append_cons_self, List.filter_append]

theorem rawParts_joinPath (base : Text) {p : Text} (h : '/' ∉ p)
    (hne : p ≠ []) : rawParts (joinPath base p) = rawParts base ++ [p] := by
  have hp : rawParts p = [p] := by
    unfold rawParts
    rw [splitAt_of_not_mem h]
    exact List.filter_cons_of_pos (by simpa using hne)
  rw [joinPath_eq base h, ← hp]
  exact map_separated (by decide) rawParts_append_slash base p

theorem ofText_of_slash {p : Text} (h : p.head? = some '/') :
    Path.ofText p = {
      absolute := true
      components := (rawParts p).filter fun part => part ≠ ['.'] } := by
  unfold Path.ofText rawParts
  rw [if_pos h]

theorem ofText_of_no_slash {p : Text} (h : p.head? ≠ some '/') :
    Path.ofText p = {
      components := (rawParts p).take 1 ++
        ((rawParts p).drop 1).filter fun part => part ≠ ['.'] } := by
  unfold Path.ofText rawParts
  rw [if_neg h]

/-- Joining text and joining components is the same for a name. -/
theorem ofText_joinPath (base : Text) {name : Text} (h : '/' ∉ name)
    (hne : name ≠ []) (hdot : name ≠ ['.']) :
    Path.ofText (joinPath base name) =
      (Path.ofText base).join (Path.ofText name) := by
  have hname : Path.ofText name = { components := [name] } := by
    have hraw : rawParts name = [name] := by
      unfold rawParts
      rw [splitAt_of_not_mem h]
      exact List.filter_cons_of_pos (by simpa using hne)
    rw [ofText_of_no_slash fun heq => h (List.mem_of_head? heq), hraw]
    rfl
  have hkeep : [name].filter (fun part => decide (part ≠ ['.'])) = [name] :=
    List.filter_cons_of_pos (by simpa using hdot)
  rw [hname]
  by_cases hslash : base.head? = some '/'
  · rw [ofText_of_slash ((head?_joinPath base h).mpr hslash),
      ofText_of_slash hslash, rawParts_joinPath base h hne, List.filter_append,
      hkeep]
    rfl
  · rw [ofText_of_no_slash (mt (head?_joinPath base h).mp hslash),
      ofText_of_no_slash hslash, rawParts_joinPath base h hne]
    cases rawParts base with
    | nil => rfl
    | cons part rest =>
        rw [List.cons_append, List.take_succ_cons, List.drop_succ_cons,
          List.take_zero, List.drop_zero, List.filter_append, hkeep]
        rfl

/-- The directories of a workspace by their components. -/
def Workspace.paths (ws : Workspace) : Ips.Workspace where
  root := .ofText ws.root
  sourceDir := .ofText ws.sourceDir
  buildDir := .ofText ws.buildDir
  protoDir := .ofText ws.protoDir

theorem paths_ofRoot (root : Text) :
    (Workspace.ofRoot root).paths = Ips.Workspace.ofRoot (.ofText root) := by
  unfold Workspace.paths Workspace.ofRoot Ips.Workspace.ofRoot defaultArch
  dsimp only
  rw [ofText_joinPath root (by decide) (by decide) (by decide),
    ofText_joinPath _ (by decide) (by decide) (by decide),
    ofText_joinPath root (by decide) (by decide) (by decide),
    ofText_joinPath _ (by decide) (by decide) (by decide),
    ofText_joinPath root (by decide) (by decide) (by decide)]

/-! ## Simulation -/

section Simulation

variable (disk : Disk)

/-- A disk answers what packaging asks; it has no network, no commands and no
variables. -/
def diskHandler : Handler System ProcessState
  | .currentDir, s =>
      (if disk.IsCurrent s.cwd then .ok s.cwd else .error (), s)
  | .setCurrentDir dir, s =>
      match disk.enter s.cwd dir with
      | none => (.error (), s)
      | some entered => (.ok (), { s with cwd := entered })
  | .read path, s =>
      (match disk.read s.cwd path with
        | none => .error ()
        | some bytes => .ok bytes,
        { s with reads := s.reads ++ [(s.cwd, path)] })
  | .println _, s => (.ok (), s)
  | .vars, s => (.ok [], s)
  | .readToString _, s => (.error (), s)
  | .shellexpand _, s => (.error [], s)
  | .createDirAll _, s => (.error (), s)
  | .get _, s => (.error (), s)
  | .create _, s => (.error (), s)
  | .write _ _, s => (.error (), s)
  | .spawn _, s => (.error (), s)
  | .wait _, s => (.error (), s)
  | .which _, s => (.error (), s)

def reportError : Ips.WorkspaceError → WorkspaceError
  | .ioError => .ioError
  | .ipsActionError error => .ipsActionError error

def toOutcome {α : Type} :
    Except Ips.WorkspaceError α → Outcome WorkspaceError α
  | .ok a => .ok a
  | .error error => .err (reportError error)

/-- On the disk, the program has the result and the effects of the packaging
over the state of the process. -/
def Simulates {α : Type} (p : Ask α) (x : Packaging α) : Prop :=
  ∀ s, p.exec (diskHandler disk) s =
    (toOutcome (Ips.exec x s).1, (Ips.exec x s).2)

variable {disk}

theorem simulates_pure {α : Type} (a : α) :
    Simulates disk (pure a) (pure a) := fun _ => rfl

theorem Simulates.bind {α β : Type} {p : Ask α} {x : Packaging α}
    {f : α → Ask β} {g : α → Packaging β} (hp : Simulates disk p x)
    (hf : ∀ a, Simulates disk (f a) (g a)) :
    Simulates disk (p >>= f) (x >>= g) := by
  intro s
  have hs := hp s
  rcases hx : Ips.exec x s with ⟨result, s'⟩
  rw [hx] at hs
  cases result with
  | ok a =>
      rw [Prog.exec_bind_of_ok hs, exec_bind_of_ok hx]
      exact hf a s'
  | error error =>
      have hstop : p.exec (diskHandler disk) s =
          ((Stop.err (reportError error)).outcome, s') := hs
      rw [Prog.exec_bind_of_stop hstop, exec_bind_of_error hx]
      rfl

theorem Simulates.fold {α β : Type} {step : β → α → Ask β}
    {step' : β → α → Packaging β}
    (h : ∀ b a, Simulates disk (step b a) (step' b a)) (as : List α) (b : β) :
    Simulates disk (Prog.fold step b as) (as.foldlM step' b) := by
  induction as generalizing b with
  | nil => exact simulates_pure b
  | cons a as ih =>
      rw [List.foldlM_cons]
      exact (h b a).bind ih

theorem simulates_currentDir :
    Simulates disk (call .currentDir fun _ => .ioError)
      (Ips.currentDir disk) := by
  intro s
  unfold Ips.currentDir
  rw [Ips.exec_bind_of_ok (exec_get s)]
  by_cases h : disk.IsCurrent s.cwd
  · have hanswer : diskHandler disk .currentDir s = (.ok s.cwd, s) := by
      simp [diskHandler, h]
    rw [if_pos h]
    exact Prog.exec_attempt_of_ok hanswer _
  · have hanswer : diskHandler disk .currentDir s = (.error (), s) := by
      simp [diskHandler, h]
    rw [if_neg h]
    exact Prog.exec_attempt_of_error hanswer _

theorem simulates_setCurrentDir (dir : Path) :
    Simulates disk (call (.setCurrentDir dir) fun _ => .ioError)
      (Ips.setCurrentDir disk dir) := by
  intro s
  cases h : disk.enter s.cwd dir with
  | none =>
      have hanswer : diskHandler disk (.setCurrentDir dir) s =
          (.error (), s) := by
        simp [diskHandler, h]
      rw [exec_setCurrentDir_of_none disk h]
      exact Prog.exec_attempt_of_error hanswer _
  | some entered =>
      have hanswer : diskHandler disk (.setCurrentDir dir) s =
          (.ok (), { s with cwd := entered }) := by
        simp [diskHandler, h]
      rw [exec_setCurrentDir_of_some disk h]
      exact Prog.exec_attempt_of_ok hanswer _

theorem simulates_println (manifest : Manifest) :
    Simulates disk (call (.println manifest) Empty.elim) (pure ()) :=
  fun _ => rfl

variable (crates : Crates)

/-- The record of the reads has grown by the path, whatever is there. -/
theorem simulates_readFromPath (path : Text) :
    Simulates disk (Workspace.readFromPath crates path)
      (File.readFromPath crates disk (.text path)) := by
  intro s
  have hanswer : diskHandler disk (.read (.text path)) s =
      (match disk.read s.cwd (.text path) with
        | none => .error ()
        | some bytes => .ok bytes,
        { s with reads := s.reads ++ [(s.cwd, .text path)] }) := rfl
  unfold File.readFromPath Payload.computePayload
  rw [Ips.exec_bind_of_ok (exec_get s), Ips.exec_bind_of_ok (exec_set s _)]
  unfold Workspace.readFromPath
  cases h : disk.read s.cwd (.text path) with
  | none =>
      rw [h] at hanswer
      exact Prog.exec_bind_of_stop (Prog.exec_attempt_of_error hanswer _) _
  | some bytes =>
      rw [h] at hanswer
      refine (Prog.exec_bind_of_ok
        (Prog.exec_attempt_of_ok hanswer _) _).trans ?_
      dsimp only [OsPath.toStr]
      cases Payload.ofBytes crates bytes <;> rfl

theorem simulates_packageFile (manifest : Manifest) (f : Text) :
    Simulates disk (Workspace.packageFile crates manifest f)
      (Ips.packageFile crates disk manifest f) := by
  unfold Workspace.packageFile Ips.packageFile
  split_ifs
  · exact (simulates_readFromPath crates f.tail).bind
      fun file => simulates_pure _
  · exact (simulates_readFromPath crates f).bind fun file => simulates_pure _

/-- The packaging of a workspace, as a program, has on a disk the result, the
reads and the current directory that it has over the state of the process. -/
theorem simulates_package (ws : Workspace) (fileList : List Text) :
    Simulates disk (ws.package crates fileList) do
      let _ ← ws.paths.package crates disk fileList
      return () := by
  unfold Workspace.package Ips.Workspace.package
  simp only [bind_assoc, pure_bind]
  apply simulates_currentDir.bind
  intro cwd
  apply (simulates_setCurrentDir _).bind
  rintro ⟨⟩
  apply (Simulates.fold (simulates_packageFile crates) fileList {}).bind
  intro manifest
  apply (simulates_setCurrentDir cwd).bind
  rintro ⟨⟩
  exact simulates_println manifest

/-- In the workspace of a root, what packaging returns, what it reads and where
it stays do not depend on the level that it is looked at. -/
theorem package_on_disk (root : Text) (fileList : List Text)
    (s : ProcessState) :
    ((Workspace.ofRoot root).package crates fileList).exec
        (diskHandler disk) s =
      (toOutcome (Ips.exec ((Ips.Workspace.ofRoot (.ofText root)).package
          crates disk fileList) s).1 >>= fun _ => .ok (),
        (Ips.exec ((Ips.Workspace.ofRoot (.ofText root)).package
          crates disk fileList) s).2) := by
  rw [simulates_package crates (Workspace.ofRoot root) fileList s,
    paths_ofRoot]
  rcases hexec : Ips.exec ((Ips.Workspace.ofRoot (.ofText root)).package
    crates disk fileList) s with ⟨result, s'⟩
  cases result with
  | ok manifest =>
      rw [Ips.exec_bind_of_ok hexec]
      rfl
  | error error =>
      rw [exec_bind_of_error hexec]
      rfl

end Simulation

end Ips.Ports
