import Ips.MakefileFiles
import Ips.ManifestParse

/-!
# Packaging the files of a workspace

`Workspace::package` enters the proto area, reads every listed file relative
to it and returns to the directory it was called from
(`ports/src/workspace.rs`).  The current directory is a state of the process
that errors do not undo, and so is the record of the paths that were handed to
`File::read_from_path`.
-/

namespace Ips

open Makefile (Files)

abbrev Bytes := List UInt8

/-! ## Payloads of files -/

/-- The hash functions of the sha2 and sha3 crates, printed in hexadecimal. -/
structure Hashes where
  sha256 : Bytes → Text
  sha512Trunc256 : Bytes → Text
  sha512 : Bytes → Text
  sha3256 : Bytes → Text
  sha3512 : Bytes → Text

def Digest.fromBytes (hashes : Hashes) (b : Bytes) (algo : DigestAlgorithm)
    (src : DigestSource) : Except DigestError Digest := do
  let hash ← match algo with
    | .sha256 => .ok (hashes.sha256 b)
    | .sha512Half => .ok (hashes.sha512Trunc256 b)
    | .sha512 => .ok (hashes.sha512 b)
    | .sha3512Half => .ok (hashes.sha3256 b)
    | .sha3256 => .ok (hashes.sha3256 b)
    | .sha3512 => .ok (hashes.sha3512 b)
    | .sha1 => .error (.unknownAlgorithm algo.toText)
  return { source := src, algorithm := algo, hash := hash }

inductive ObjectArchitecture where
  | x86_64
  | i386
  | aarch64
  | arm
  | other

structure ObjectFile where
  is64 : Bool
  architecture : ObjectArchitecture

/-- What the hash crates and the object crate compute from the bytes of a
file. -/
structure Crates where
  hashes : Hashes
  parseObject : Bytes → Option ObjectFile

inductive PayloadError where
  | ioError
  | digestError (error : DigestError)
  deriving DecidableEq, Repr

/-- A path is Unicode text or not. -/
inductive OsPath where
  | text (s : Text)
  | raw (bytes : Bytes)
  deriving DecidableEq

def OsPath.toStr : OsPath → Option Text
  | .text s => some s
  | .raw _ => none

def Payload.ofBytes (crates : Crates) (f : Bytes) :
    Except PayloadError Payload := do
  let (bitness, architecture) := match crates.parseObject f with
    | some bin =>
        let bitness : PayloadBits := if bin.is64 then .bits64 else .bits32
        let architecture : PayloadArchitecture := match bin.architecture with
          | .x86_64 => .i386
          | .i386 => .i386
          | .aarch64 => .arm
          | .arm => .arm
          | .other => .noarch
        (bitness, architecture)
    | none => (.independent, .noarch)
  let digest ← (Digest.fromBytes crates.hashes f .sha3512
    .primaryPayloadHash).mapError .digestError
  return {
    primaryIdentifier := digest
    additionalIdentifiers := []
    bitness := bitness
    architecture := architecture }

/-- The condition is that of a file that is no object file. -/
def Payload.isElf (p : Payload) : Bool :=
  p.architecture = .noarch && p.bitness = .independent

/-- A file system that does not change, with what can be read under a path
from a current directory. -/
structure Disk where
  files : Files
  read : Path → OsPath → Option Bytes

def Payload.computePayload (crates : Crates) (disk : Disk) (cwd : Path)
    (path : OsPath) : Except PayloadError Payload :=
  match disk.read cwd path with
  | none => .error .ioError
  | some f => Payload.ofBytes crates f

/-! ## The process -/

/-- The errors of an action that reading a file can give. -/
inductive FileReadError where
  | payloadError (error : PayloadError)
  | filePathIsNoString
  deriving DecidableEq, Repr

inductive WorkspaceError where
  | ioError
  | ipsActionError (error : FileReadError)
  deriving DecidableEq, Repr

structure ProcessState where
  cwd : Path
  reads : List (Path × OsPath) := []

abbrev Packaging := ExceptT WorkspaceError (StateM ProcessState)

structure Workspace where
  root : Path
  sourceDir : Path
  buildDir : Path
  protoDir : Path

/-- The directories that `Workspace::new` lays out below an expanded root. -/
def Workspace.ofRoot (root : Path) : Workspace where
  root := root
  buildDir := (root.join (.ofText "build".toList)).join
    (.ofText "i386".toList)
  sourceDir := root.join (.ofText "sources".toList)
  protoDir := (root.join (.ofText "build".toList)).join
    (.ofText "proto".toList)

section Calls

variable (crates : Crates) (disk : Disk)

/-- The canonical path of an existing directory. -/
def Disk.IsCurrent (cwd : Path) : Prop :=
  disk.files.resolve cwd = some cwd ∧ disk.files.isDir cwd = true

instance (cwd : Path) : Decidable (disk.IsCurrent cwd) :=
  inferInstanceAs (Decidable (_ ∧ _))

/-- The directory that a path leads to. -/
def Disk.enter (cwd dir : Path) : Option Path :=
  disk.files.toFileSystem.setCurrentDir cwd dir

def currentDir : Packaging Path := do
  let s ← get
  if disk.IsCurrent s.cwd then return s.cwd else throw .ioError

def setCurrentDir (dir : Path) : Packaging Unit := do
  let s ← get
  match disk.enter s.cwd dir with
  | none => throw .ioError
  | some entered => set { s with cwd := entered }

def File.readFromPath (p : OsPath) : Packaging File := do
  let s ← get
  set { s with reads := s.reads ++ [(s.cwd, p)] }
  match p.toStr with
  | none => throw (.ipsActionError .filePathIsNoString)
  | some str =>
      match Payload.computePayload crates disk s.cwd p with
      | .error error => throw (.ipsActionError (.payloadError error))
      | .ok payload => return { path := str, payload := some payload }

/-- One round of the loop of `package`: one leading slash is removed. -/
def packageFile (manifest : Manifest) (f : Text) : Packaging Manifest := do
  if f.head? = some '/' then
    let file ← File.readFromPath crates disk (.text f.tail)
    return manifest.addFile file
  else
    let file ← File.readFromPath crates disk (.text f)
    return manifest.addFile file

/-- The manifest is printed and not kept. -/
def Workspace.package (ws : Workspace) (fileList : List Text) :
    Packaging Manifest := do
  let cwd ← currentDir disk
  setCurrentDir disk ws.protoDir
  let manifest ← fileList.foldlM (packageFile crates disk) {}
  setCurrentDir disk cwd
  return manifest

end Calls

/-! ## Runs -/

/-- What a call returns, and the state that it leaves behind. -/
def exec {α : Type} (x : Packaging α) (s : ProcessState) :
    Except WorkspaceError α × ProcessState :=
  x.run.run s

section Exec

variable {α β : Type} {x : Packaging α} {s s' : ProcessState}

theorem exec_pure (a : α) (s : ProcessState) :
    exec (pure a) s = (.ok a, s) := rfl

theorem exec_bind_of_ok {a : α} (h : exec x s = (.ok a, s'))
    (f : α → Packaging β) : exec (x >>= f) s = exec (f a) s' := by
  unfold exec at h ⊢
  rw [ExceptT.run_bind, StateT.run_bind, h]
  rfl

theorem exec_bind_of_error {error : WorkspaceError}
    (h : exec x s = (.error error, s')) (f : α → Packaging β) :
    exec (x >>= f) s = (.error error, s') := by
  unfold exec at h ⊢
  rw [ExceptT.run_bind, StateT.run_bind, h]
  rfl

end Exec

section Package

variable (crates : Crates) (disk : Disk)

theorem exec_get (s : ProcessState) : exec get s = (.ok s, s) := rfl

theorem exec_set (s s' : ProcessState) : exec (set s') s = (.ok (), s') := rfl

theorem exec_currentDir {s : ProcessState} (h : disk.IsCurrent s.cwd) :
    exec (currentDir disk) s = (.ok s.cwd, s) := by
  unfold currentDir
  rw [exec_bind_of_ok (exec_get s), if_pos h]
  rfl

theorem exec_setCurrentDir_of_none {s : ProcessState} {dir : Path}
    (h : disk.enter s.cwd dir = none) :
    exec (setCurrentDir disk dir) s = (.error .ioError, s) := by
  unfold setCurrentDir
  rw [exec_bind_of_ok (exec_get s), h]
  rfl

theorem exec_setCurrentDir_of_some {s : ProcessState} {dir entered : Path}
    (h : disk.enter s.cwd dir = some entered) :
    exec (setCurrentDir disk dir) s = (.ok (), { s with cwd := entered }) := by
  unfold setCurrentDir
  rw [exec_bind_of_ok (exec_get s), h]
  rfl

/-! ## The loop -/

/-- The path that an entry of the list is read under. -/
def entryPath (f : Text) : Text := if f.head? = some '/' then f.tail else f

def Disk.Reads (dir : Path) (f : Text) : Prop :=
  (disk.read dir (.text (entryPath f))).isSome

instance (dir : Path) (f : Text) : Decidable (disk.Reads dir f) :=
  inferInstanceAs (Decidable (_ = true))

def ProcessState.record (s : ProcessState) (files : List Text) :
    ProcessState :=
  { s with
    reads := s.reads ++ files.map fun f => (s.cwd, .text (entryPath f)) }

/-- The entries that the loop gets to: it stops at the first one that cannot
be read. -/
def Disk.reached (dir : Path) : List Text → List Text
  | [] => []
  | f :: files => f :: if disk.Reads dir f then reached dir files else []

theorem packageFile_eq (manifest : Manifest) (f : Text) :
    packageFile crates disk manifest f = do
      let file ← File.readFromPath crates disk (.text (entryPath f))
      return manifest.addFile file := by
  unfold packageFile entryPath
  split_ifs <;> rfl

theorem exec_packageFile (manifest : Manifest) (f : Text) (s : ProcessState) :
    ∃ result, exec (packageFile crates disk manifest f) s =
        (result, s.record [f]) ∧
      ((∃ manifest', result = .ok manifest') ↔ disk.Reads s.cwd f) := by
  have hread : ∃ result,
      exec (File.readFromPath crates disk (.text (entryPath f))) s =
        (result, s.record [f]) ∧
      ((∃ file, result = .ok file) ↔ disk.Reads s.cwd f) := by
    unfold File.readFromPath Payload.computePayload Disk.Reads
    rw [exec_bind_of_ok (exec_get s), exec_bind_of_ok (exec_set s _)]
    cases disk.read s.cwd (.text (entryPath f)) with
    | none => exact ⟨.error _, rfl, by simp⟩
    | some bytes => exact ⟨.ok _, rfl, by simp⟩
  obtain ⟨result, hexec, hok⟩ := hread
  rw [packageFile_eq]
  cases result with
  | ok file =>
      rw [exec_bind_of_ok hexec]
      refine ⟨.ok _, rfl, ?_⟩
      rw [← hok]
      simp
  | error error =>
      rw [exec_bind_of_error hexec]
      refine ⟨.error error, rfl, ?_⟩
      rw [← hok]
      simp

theorem exec_packageFiles (files : List Text) (manifest : Manifest)
    (s : ProcessState) :
    ∃ result, exec (files.foldlM (packageFile crates disk) manifest) s =
        (result, s.record (disk.reached s.cwd files)) ∧
      ((∃ manifest', result = .ok manifest') ↔
        ∀ f ∈ files, disk.Reads s.cwd f) := by
  induction files generalizing manifest s with
  | nil =>
      refine ⟨.ok manifest, ?_, by simp⟩
      simp [Disk.reached, ProcessState.record, exec_pure]
  | cons f files ih =>
      obtain ⟨result, hexec, hok⟩ := exec_packageFile crates disk manifest f s
      rw [List.foldlM_cons]
      cases result with
      | ok manifest' =>
          have hreads := hok.mp ⟨manifest', rfl⟩
          obtain ⟨result, hrest, hall⟩ := ih manifest' (s.record [f])
          rw [exec_bind_of_ok hexec, hrest]
          refine ⟨result, ?_, ?_⟩
          · simp [Disk.reached, ProcessState.record, hreads]
          · rw [hall]
            simp [ProcessState.record, hreads]
      | error error =>
          have hreads : ¬disk.Reads s.cwd f := by
            rw [← hok]
            simp
          rw [exec_bind_of_error hexec]
          refine ⟨.error error, ?_, ?_⟩
          · simp [Disk.reached, hreads]
          · simp [hreads]

/-! ## The way back -/

theorem Disk.enter_current {cwd : Path} (h : disk.IsCurrent cwd)
    (dir : Path) : disk.enter dir cwd = some cwd := by
  have habsolute : cwd.absolute = true := disk.files.resolve_absolute _ _ h.1
  unfold enter
  simp [Files.toFileSystem, Files.lookup, Path.join, habsolute, h.1, h.2]

theorem exec_package_of_not_entered (ws : Workspace) (fileList : List Text)
    {s : ProcessState} (h : disk.IsCurrent s.cwd)
    (hdir : disk.enter s.cwd ws.protoDir = none) :
    exec (ws.package crates disk fileList) s = (.error .ioError, s) := by
  unfold Workspace.package
  rw [exec_bind_of_ok (exec_currentDir disk h)]
  exact exec_bind_of_error (exec_setCurrentDir_of_none disk hdir) _

/-- Behind the loop the directory is changed back; an error in the loop leaves
it where it is. -/
theorem exec_package_of_entered (ws : Workspace) (fileList : List Text)
    {s : ProcessState} (h : disk.IsCurrent s.cwd) {dir : Path}
    (hdir : disk.enter s.cwd ws.protoDir = some dir) :
    ∃ result, exec (ws.package crates disk fileList) s =
      (result, {
        cwd := if ∀ f ∈ fileList, disk.Reads dir f then s.cwd else dir
        reads := ({ s with cwd := dir }.record
          (disk.reached dir fileList)).reads }) := by
  obtain ⟨result, hexec, hok⟩ :=
    exec_packageFiles crates disk fileList {} { s with cwd := dir }
  unfold Workspace.package
  rw [exec_bind_of_ok (exec_currentDir disk h),
    exec_bind_of_ok (exec_setCurrentDir_of_some disk hdir)]
  cases result with
  | ok manifest =>
      have hback := exec_setCurrentDir_of_some disk
        (s := { s with cwd := dir }.record (disk.reached dir fileList))
        (disk.enter_current h dir)
      rw [exec_bind_of_ok hexec, exec_bind_of_ok hback,
        if_pos (hok.mp ⟨manifest, rfl⟩)]
      exact ⟨_, rfl⟩
  | error error =>
      have hnot : ¬∀ f ∈ fileList, disk.Reads dir f := by
        rw [← hok]
        simp
      -- The call returns here, in front of the way back.
      rw [exec_bind_of_error hexec, if_neg hnot]
      exact ⟨_, rfl⟩

/-- From an existing directory the call returns to it exactly when the proto
area cannot be entered, is that directory, or has all the files. -/
theorem package_restores_iff (ws : Workspace) (fileList : List Text)
    {s : ProcessState} (h : disk.IsCurrent s.cwd) :
    (exec (ws.package crates disk fileList) s).2.cwd = s.cwd ↔
      ∀ dir, disk.enter s.cwd ws.protoDir = some dir →
        dir = s.cwd ∨ ∀ f ∈ fileList, disk.Reads dir f := by
  cases hdir : disk.enter s.cwd ws.protoDir with
  | none =>
      rw [exec_package_of_not_entered crates disk ws fileList h hdir]
      simp
  | some dir =>
      obtain ⟨result, hexec⟩ :=
        exec_package_of_entered crates disk ws fileList h hdir
      rw [hexec]
      dsimp only
      by_cases hall : ∀ f ∈ fileList, disk.Reads dir f
      · rw [if_pos hall]
        refine iff_of_true rfl ?_
        rintro _ ⟨⟩
        exact .inr hall
      · rw [if_neg hall]
        constructor
        · rintro heq _ ⟨⟩
          exact .inl heq
        · intro hdirs
          exact (hdirs dir rfl).resolve_right hall

end Package

/-! ## A small disk -/

/-- The digests of the empty file. -/
def emptyHashes : Hashes where
  sha256 := fun _ =>
    ("e3b0c44298fc1c149afbf4c8996fb924" ++
      "27ae41e4649b934ca495991b7852b855").toList
  sha512Trunc256 := fun _ =>
    ("c672b8d1ef56ed28ab87c3622c511406" ++
      "9bdd3ad7b8f9737498d0c01ecef0967a").toList
  sha512 := fun _ =>
    ("cf83e1357eefb8bdf1542850d66d8007" ++
      "d620e4050b5715dc83f4a921d36ce9ce" ++
      "47d0d13c5d85f2b0ff8318d2877eec2f" ++
      "63b931bd47417a81a538327af927da3e").toList
  sha3256 := fun _ =>
    ("a7ffc6f8bf1ed76651c14756a061d662" ++
      "f580ff4de43b49fa82d80a4b80f8434a").toList
  sha3512 := fun _ =>
    ("a69f73cca23a9ac5c8b567dc185a756e" ++
      "97c982164fe25859e0d1dcc1475c80a6" ++
      "15b2123af1f5f94c11e3e9402c3ac558" ++
      "f500199d95b6d3e301758586281dcd26").toList

/-- Empty bytes are no object file. -/
def emptyCrates : Crates where
  hashes := emptyHashes
  parseObject := fun _ => none

def home : Path := .ofText "/home".toList

def wks : Workspace := .ofRoot (.ofText "/wks".toList)

/-- Two directories, and an empty file `etc/motd` in the proto area. -/
def motdDisk : Disk where
  files := {
    resolve := fun p => if p ∈ [home, wks.protoDir] then some p else none
    isDir := fun p => p ∈ [home, wks.protoDir]
    content := fun _ => none
    resolve_absolute := by
      intro p q h
      split_ifs at h with hmem
      cases h
      revert p
      exact forall_mem_of_all (by decide) }
  read := fun cwd path =>
    if cwd = wks.protoDir ∧ path = .text "etc/motd".toList then some []
    else none

theorem package_restores_home :
    (exec (wks.package emptyCrates motdDisk ["/etc/motd".toList])
      { cwd := home }).2.cwd = home := by
  apply (package_restores_iff emptyCrates motdDisk wks _
    (by decide +kernel)).mpr
  intro dir hdir
  right
  have hproto : motdDisk.enter home wks.protoDir = some wks.protoDir := by
    decide +kernel
  cases hproto.symm.trans hdir
  decide +kernel

/-- A missing file makes the call return from inside the proto area. -/
theorem package_stays_in_proto :
    motdDisk.IsCurrent home ∧
      (exec (wks.package emptyCrates motdDisk ["/etc/passwd".toList])
        { cwd := home }).1 =
          .error (.ipsActionError (.payloadError .ioError)) ∧
      (exec (wks.package emptyCrates motdDisk ["/etc/passwd".toList])
        { cwd := home }).2.cwd = wks.protoDir ∧
      wks.protoDir ≠ home := by
  decide +kernel

end Ips
