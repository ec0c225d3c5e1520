import Ips.PortsRuns

/-!
# The phases of the package command

The command prepares the build, runs the shell on the build script and
packages the files.  The parser of spec files never fills in the sources, so
the phases that fetch and unpack them have nothing to do.  A preparation that
went through is a value with the proofs of what was checked on the way, and its
events are exactly what stands in front of the shell in any run, also in the
runs that fail later on.
-/

namespace Ips.Ports

open Interaction Prog

/-! ## The sources of a spec file -/

section Sources

open SpecFile

theorem sources_setVariable (spec : SpecFile) (control : KnownVariableControl)
    (name value : Text) :
    (setVariable spec control name value).sources = spec.sources := by
  cases control <;> rfl

theorem sources_readVariablePair (st : VariableState) (p : Peg.Pair Rule) :
    (readVariablePair st p).spec.sources = st.spec.sources := by
  unfold readVariablePair
  split
  · split <;> rfl
  · exact sources_setVariable ..
  · rfl

theorem sources_variablePairs (pairs : List (Peg.Pair Rule))
    (st : VariableState) :
    (pairs.foldl readVariablePair st).spec.sources = st.spec.sources := by
  induction pairs generalizing st with
  | nil => rfl
  | cons p pairs ih => rw [List.foldl_cons, ih, sources_readVariablePair]

theorem sources_pushLine {overflowChecks : Bool} {st st' : SectionState}
    {push : SpecFile → Text → SpecFile} {line : Text}
    (h : SpecFile.pushLine overflowChecks st push line = .ok st')
    (hpush : ∀ spec text, (push spec text).sources = spec.sources) :
    st'.spec.sources = st.spec.sources := by
  obtain ⟨count, -, heq⟩ := Outcome.bind_eq_ok_iff.mp h
  cases heq
  exact hpush _ _

theorem sources_storeLine {overflowChecks : Bool} {st st' : SectionState}
    {line : Text} (h : storeLine overflowChecks st line = .ok st') :
    st'.spec.sources = st.spec.sources := by
  unfold storeLine at h
  split at h
  · exact sources_pushLine h fun _ _ => rfl
  · exact sources_pushLine h fun _ _ => rfl
  · exact sources_pushLine h fun _ _ => rfl
  · cases h
    rfl
  · exact sources_pushLine h fun _ _ => rfl
  · exact sources_pushLine h fun _ _ => rfl
  · cases h

theorem sources_readSectionPair {overflowChecks : Bool}
    {st st' : SectionState} {p : Peg.Pair Rule}
    (h : readSectionPair overflowChecks st p = .ok st') :
    st'.spec.sources = st.spec.sources := by
  unfold readSectionPair at h
  split at h
  · cases h
    rfl
  · refine Outcome.fold_invariant _ (P := fun st' =>
      st'.spec.sources = st.spec.sources) ?_ rfl h
    intro st₁ line _ st₂ hst₁ hline
    unfold readLineOrComment at hline
    split_ifs at hline
    · rw [sources_storeLine hline, hst₁]
    · cases hline
      exact hst₁
  · cases h

theorem sources_readPair {overflowChecks : Bool} {spec spec' : SpecFile}
    {p : Peg.Pair Rule} (h : readPair overflowChecks spec p = .ok spec') :
    spec'.sources = spec.sources := by
  unfold readPair at h
  split at h
  · cases h
    exact sources_variablePairs _ _
  · obtain ⟨st, hst, heq⟩ := Outcome.bind_eq_ok_iff.mp h
    cases heq
    refine Outcome.fold_invariant _ (P := fun st =>
      st.spec.sources = spec.sources) ?_ rfl hst
    intro st₁ pair _ st₂ hst₁ hpair
    rw [sources_readSectionPair hpair, hst₁]
  · cases h
    rfl
  · cases h

/-- No spec file has sources. -/
theorem sources_eq_nil {overflowChecks : Bool} {content : Text}
    {spec : SpecFile} (h : SpecFile.parse overflowChecks content = .ok spec) :
    spec.sources = [] := by
  unfold SpecFile.parse at h
  split at h
  · cases h
  · refine Outcome.fold_invariant _ (P := fun spec => spec.sources = []) ?_
      rfl h
    intro spec₁ pair _ spec₂ hspec₁ hpair
    rw [sources_readPair hpair, hspec₁]

end Sources

/-! ## Phases -/

/-- What is done in a workspace in front of the shell. -/
def prepareIn (spec : SpecFile) (ws : Workspace) :
    Prog System CommandError (Workspace × List Text × Command) := do
  let buildScript ← Prog.done
    ((Macros.parse ws.getMacros spec.buildScript).mapErr .macroParserError)
  let command ← (ws.prepareBuild buildScript).mapErr .workspaceError
  return (ws, spec.files, command)

/-- What is done with the text of a spec file in front of the shell. -/
def prepareSpec (tools : Toolchain) (content : Text) :
    Prog System CommandError (Workspace × List Text × Command) := do
  let spec ← Prog.done
    ((SpecFile.parse tools.overflowChecks content).mapErr .specError)
  let ws ← (Workspace.new []).mapErr .workspaceError
  prepareIn spec ws

/-- What `run_package_command` does in front of the shell. -/
def prepare (tools : Toolchain) (specFile : OsPath) :
    Prog System CommandError (Workspace × List Text × Command) := do
  let content ← call (.readToString specFile) fun _ => .ioError
  prepareSpec tools content

/-- The shell and what comes behind it. -/
def finish (tools : Toolchain)
    (prepared : Workspace × List Text × Command) :
    Prog System CommandError Unit := do
  (Workspace.runCommand prepared.2.2 "build_script".toList).mapErr
    .workspaceError
  (prepared.1.package tools.crates prepared.2.1).mapErr .workspaceError

theorem done_bind_congr {ε α β : Type} {x : Outcome ε α}
    {f g : α → Prog System ε β} (h : ∀ a, x = .ok a → f a = g a) :
    (Prog.done x >>= f) = (Prog.done x >>= g) := by
  cases x with
  | ok a => exact h a rfl
  | err error => rfl
  | panic message => rfl

/-- There are no sources to fetch. -/
theorem runPackageCommand_eq (tools : Toolchain) (specFile : OsPath) :
    runPackageCommand tools specFile =
      (prepare tools specFile >>= finish tools) := by
  unfold runPackageCommand prepare prepareSpec prepareIn finish
  simp only [Prog.bind_assoc, Prog.pure_bind, Workspace.build_eq,
    Prog.bind_mapErr]
  congr 1
  funext content
  refine done_bind_congr ?_
  intro spec hspec
  rw [sources_eq_nil (Outcome.mapErr_eq_ok_iff.mp hspec)]
  rfl

/-! ## Preparations -/

structure Preparation (tools : Toolchain) where
  content : Text
  spec : SpecFile
  root : Text
  script : Text
  bash : OsPath
  vars : List (OsPath × OsPath)
  env : HashMap Text
  parsed : SpecFile.parse tools.overflowChecks content = .ok spec
  expanded : Macros.parse (Workspace.ofRoot root).getMacros
    spec.buildScript = .ok script
  filtered : Workspace.filteredEnv vars = .ok env

namespace Preparation

variable {tools : Toolchain}

def ws (b : Preparation tools) : Workspace := .ofRoot b.root

def command (b : Preparation tools) : Command :=
  b.ws.bashCommand b.bash b.env

def events (b : Preparation tools) (specFile : OsPath) :
    List (Event System) :=
  replied (.readToString specFile) b.content ::
    replied (.shellexpand defaultWorkspaceRoot) b.root ::
    (b.ws.dirEvents ++ (b.ws.scriptEvents b.script ++
      Workspace.lookupEvents b.bash b.vars))

end Preparation

section Runs

variable {tools : Toolchain} {specFile : OsPath}
  {events : List (Event System)}

theorem runs_done_mapErr_bind_ok_iff {ε δ α β : Type} {x : Outcome ε α}
    {g : ε → δ} {f : α → Prog System δ β} {b : β} :
    Runs (Prog.done (x.mapErr g) >>= f) events (.ok b) ↔
      ∃ a, x = .ok a ∧ Runs (f a) events (.ok b) := by
  rw [runs_done_bind_ok_iff]
  simp only [Outcome.mapErr_eq_ok_iff]

theorem runs_mapErr_bind_ok_iff {ε δ α β : Type} {p : Prog System ε α}
    {g : ε → δ} {f : α → Prog System δ β} {b : β} :
    Runs (p.mapErr g >>= f) events (.ok b) ↔
      ∃ first a rest, Runs p first (.ok a) ∧ Runs (f a) rest (.ok b) ∧
        events = first ++ rest := by
  rw [runs_bind_ok_iff]
  simp only [runs_mapErr_ok_iff]

theorem runs_prepare_ok_iff
    {prepared : Workspace × List Text × Command} :
    Runs (prepare tools specFile) events (.ok prepared) ↔
      ∃ b : Preparation tools, events = b.events specFile ∧
        prepared = (b.ws, b.spec.files, b.command) := by
  unfold prepare prepareSpec prepareIn
  constructor
  · intro h
    obtain ⟨content, rest, rfl, hread⟩ := runs_call_bind_ok_iff.mp h
    obtain ⟨spec, hparsed, hspec⟩ := runs_done_mapErr_bind_ok_iff.mp hread
    obtain ⟨first, ws, rest, hnew, hws, rfl⟩ :=
      runs_mapErr_bind_ok_iff.mp hspec
    obtain ⟨root, rfl, rfl⟩ := Workspace.runs_new_ok_iff.mp hnew
    obtain ⟨script, hexpanded, hscript⟩ :=
      runs_done_mapErr_bind_ok_iff.mp hws
    obtain ⟨first, command, rest, hprepare, hpure, rfl⟩ :=
      runs_mapErr_bind_ok_iff.mp hscript
    obtain ⟨bash, vars, env, hfiltered, rfl, rfl⟩ :=
      Workspace.runs_prepareBuild_ok_iff.mp hprepare
    obtain ⟨rfl, heq⟩ := runs_pure_iff.mp hpure
    cases heq
    refine ⟨⟨content, spec, root, script, bash, vars, env, hparsed,
      hexpanded, hfiltered⟩, ?_, rfl⟩
    simp only [Preparation.events, Preparation.ws, List.append_nil,
      List.cons_append]
    rfl
  · rintro ⟨b, rfl, rfl⟩
    refine runs_call_bind_ok_iff.mpr ⟨b.content, _, rfl, ?_⟩
    refine runs_done_mapErr_bind_ok_iff.mpr ⟨b.spec, b.parsed, ?_⟩
    refine runs_mapErr_bind_ok_iff.mpr ⟨_, b.ws, _,
      Workspace.runs_new_ok_iff.mpr ⟨b.root, rfl, rfl⟩, ?_, rfl⟩
    refine runs_done_mapErr_bind_ok_iff.mpr ⟨b.script, b.expanded, ?_⟩
    exact runs_mapErr_bind_ok_iff.mpr ⟨_, b.command, [],
      Workspace.runs_prepareBuild_ok_iff.mpr
        ⟨b.bash, b.vars, b.env, b.filtered, rfl, rfl⟩,
      runs_pure_iff.mpr ⟨rfl, rfl⟩, (List.append_nil _).symm⟩

theorem runs_finish_ok_iff {prepared : Workspace × List Text × Command}
    {u : Unit} :
    Runs (finish tools prepared) events (.ok u) ↔
      ∃ cwd packed, packed.map Packed.entry = prepared.2.1 ∧
        events = Workspace.commandEvents prepared.2.2 ++
          prepared.1.packageEvents tools.crates cwd packed := by
  unfold finish
  rw [runs_mapErr_bind_ok_iff]
  constructor
  · rintro ⟨first, ⟨⟩, rest, hrun, hpackage, rfl⟩
    rw [Workspace.runs_runCommand_ok_iff.mp hrun]
    obtain ⟨cwd, packed, hentries, rfl⟩ :=
      Workspace.runs_package_ok_iff.mp (runs_mapErr_ok_iff.mp hpackage)
    exact ⟨cwd, packed, hentries, rfl⟩
  · rintro ⟨cwd, packed, hentries, rfl⟩
    exact ⟨_, (), _, Workspace.runs_runCommand_ok_iff.mpr rfl,
      runs_mapErr_ok_iff.mpr (Workspace.runs_package_ok_iff.mpr
        ⟨cwd, packed, hentries, rfl⟩), rfl⟩

/-- The command succeeds exactly in the runs that go through all phases: a
preparation, the shell, and a package of all files of the spec file. -/
theorem runPackageCommand_ok_iff {u : Unit} :
    Runs (runPackageCommand tools specFile) events (.ok u) ↔
      ∃ (b : Preparation tools) (cwd : Path) (packed : List Packed),
        packed.map Packed.entry = b.spec.files ∧
        events = b.events specFile ++
          (Workspace.commandEvents b.command ++
            b.ws.packageEvents tools.crates cwd packed) := by
  rw [runPackageCommand_eq, runs_bind_ok_iff]
  constructor
  · rintro ⟨first, prepared, rest, hprepare, hfinish, rfl⟩
    obtain ⟨b, rfl, rfl⟩ := runs_prepare_ok_iff.mp hprepare
    obtain ⟨cwd, packed, hentries, rfl⟩ := runs_finish_ok_iff.mp hfinish
    exact ⟨b, cwd, packed, hentries, rfl⟩
  · rintro ⟨b, cwd, packed, hentries, rfl⟩
    exact ⟨_, _, _, runs_prepare_ok_iff.mpr ⟨b, rfl, rfl⟩,
      runs_finish_ok_iff.mpr ⟨cwd, packed, hentries, rfl⟩, rfl⟩

end Runs

/-! ## The shell -/

/-- Tar gets other arguments. -/
def Command.IsShell (command : Command) : Prop :=
  command.args.head? = some "-ex".toList

def Request.SpawnsShell : Request → Prop
  | .spawn command => command.IsShell
  | _ => False

theorem Preparation.isShell_command {tools : Toolchain}
    (b : Preparation tools) : b.command.IsShell := rfl

theorem within_prepare {P : Request → Prop}
    (hread : ∀ path, P (.readToString path))
    (hexpand : ∀ input, P (.shellexpand input))
    (hdir : ∀ dir, P (.createDirAll dir)) (hcreate : ∀ path, P (.create path))
    (hwrite : ∀ path bytes, P (.write path bytes))
    (hwhich : ∀ binary, P (.which binary)) (hvars : P .vars)
    (tools : Toolchain) (specFile : OsPath) :
    (prepare tools specFile).Within (I := System) P := by
  refine Workspace.within_call_bind (hread _) fun content => ?_
  refine Within.bind trivial fun spec _ _ => ?_
  refine Within.bind (Within.mapErr (Workspace.within_new hexpand hdir _))
    fun ws _ _ => ?_
  refine Within.bind trivial fun script _ _ => ?_
  exact Within.bind (Within.mapErr (Workspace.within_prepareBuild (hcreate _)
    (hwrite _) (hwhich _) hvars _)) fun command _ _ => trivial

theorem prepare_spawns_no_shell (tools : Toolchain) (specFile : OsPath) :
    (prepare tools specFile).Within (I := System)
      fun request => ¬request.SpawnsShell :=
  within_prepare (fun _ => id) (fun _ => id) (fun _ => id) (fun _ => id)
    (fun _ _ => id) (fun _ => id) id tools specFile

/-- The shell is the first request behind a preparation, and there is no other
one. -/
theorem finish_spawns_shell {tools : Toolchain}
    {prepared : Workspace × List Text × Command}
    {before after : List (Event System)} {e : Event System}
    {outcome : Outcome CommandError Unit}
    (h : Runs (finish tools prepared) (before ++ e :: after) outcome)
    (he : e.request.SpawnsShell) :
    before = [] ∧ e.request = .spawn prepared.2.2 := by
  refine Runs.eq_first (P := fun request => ¬Request.SpawnsShell request) h ?_
    (not_not_intro he)
  intro answer
  cases answer with
  | error failure => trivial
  | ok reply =>
      refine Within.bind (Within.mapErr ?_) fun _ _ _ =>
        Within.mapErr (Workspace.within_package id (fun _ => id)
          (fun _ => id) (fun _ => id) _)
      refine Within.bind trivial fun _ _ _ => ?_
      refine Workspace.within_call_bind id ?_
      rintro ⟨code⟩
      split_ifs
      · trivial
      · cases code <;> trivial

/-- A run that ends at a shell that cannot be spawned. -/
theorem Preparation.runs_not_spawned {tools : Toolchain}
    (b : Preparation tools) (specFile : OsPath) :
    Runs (runPackageCommand tools specFile)
      (b.events specFile ++ [⟨.spawn b.command, .error ()⟩])
      (.err (.workspaceError .ioError)) := by
  have hcommand : Runs (Workspace.runCommand b.command
      "build_script".toList) [⟨.spawn b.command, .error ()⟩]
        (.err .ioError) := by
    exact runs_bind_iff.mpr (.inr (.inl
      ⟨_, runs_ask_iff.mpr ⟨.error (), [], rfl, .done _⟩, rfl⟩))
  rw [runPackageCommand_eq]
  refine runs_bind_iff.mpr (.inl ⟨_, _, _,
    runs_prepare_ok_iff.mpr ⟨b, rfl, rfl⟩, ?_, rfl⟩)
  exact runs_bind_iff.mpr (.inr (.inl
    ⟨_, runs_mapErr_iff.mpr ⟨_, hcommand, rfl⟩, rfl⟩))

theorem shell_behind_preparation {tools : Toolchain} {specFile : OsPath}
    {before after : List (Event System)} {command : Command}
    {answer : System.Answer (.spawn command)}
    {outcome : Outcome CommandError Unit}
    (h : Runs (runPackageCommand tools specFile)
      (before ++ ⟨.spawn command, answer⟩ :: after) outcome)
    (hshell : command.IsShell) :
    ∃ b : Preparation tools,
      before = b.events specFile ∧ command = b.command := by
  rw [runPackageCommand_eq] at h
  obtain ⟨first, prepared, rest, hprepare, rfl, hfinish⟩ :=
    h.exists_first (prepare_spawns_no_shell tools specFile)
      (not_not_intro hshell)
  obtain ⟨b, rfl, rfl⟩ := runs_prepare_ok_iff.mp hprepare
  obtain ⟨rfl, heq⟩ := finish_spawns_shell hfinish hshell
  cases heq
  exact ⟨b, List.append_nil _, rfl⟩

/-- In any run, the shell is spawned only behind a preparation that went
through, with its script, and behind nothing else. -/
theorem shell_spawned_iff (tools : Toolchain) (specFile : OsPath)
    (before : List (Event System)) (command : Command) :
    (command.IsShell ∧ ∃ answer after outcome,
      Runs (runPackageCommand tools specFile)
        (before ++ ⟨.spawn command, answer⟩ :: after) outcome) ↔
      ∃ b : Preparation tools,
        before = b.events specFile ∧ command = b.command := by
  constructor
  · rintro ⟨hshell, answer, after, outcome, h⟩
    exact shell_behind_preparation h hshell
  · rintro ⟨b, rfl, rfl⟩
    exact ⟨b.isShell_command, .error (), [], _, b.runs_not_spawned specFile⟩

end Ips.Ports
