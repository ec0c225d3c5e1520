import Ips.PortsPhases

/-!
# Failures of the package command

Every answer that the command cannot go on with is the last one of its run, and
it decides what the run ends with.  A run that fails without such an answer was
stopped by a check of the command itself.
-/

namespace Ips.Ports

open Interaction Prog

instance (command : Command) : Decidable command.IsShell :=
  inferInstanceAs (Decidable (_ = _))

/-- The name of a command in the error for its exit code. -/
def Command.reportedName (command : Command) : Text :=
  if command.IsShell then "build_script".toList else "tar".toList

def Unicode (entry : OsPath × OsPath) : Prop :=
  entry.1.toStr ≠ none ∧ entry.2.toStr ≠ none

instance (entry : OsPath × OsPath) : Decidable (Unicode entry) :=
  inferInstanceAs (Decidable (_ ∧ _))

def notUnicode : Stop WorkspaceError :=
  .panic "called `Result::unwrap()` on an `Err` value"

/-- What a part of the workspace ends with behind an answer that it cannot go
on with. -/
def blame : Event System → Option (Stop WorkspaceError)
  | ⟨.readToString _, _⟩ => none
  | ⟨.shellexpand _, .error cause⟩ => some (.err (.variableLookupError cause))
  | ⟨.shellexpand _, .ok _⟩ => none
  | ⟨.createDirAll _, .error _⟩ => some (.err .ioError)
  | ⟨.createDirAll _, .ok _⟩ => none
  | ⟨.get _, .error _⟩ => some (.err .reqwestError)
  | ⟨.get _, .ok ⟨_, none⟩⟩ => some (.err .reqwestError)
  | ⟨.get _, .ok ⟨_, some _⟩⟩ => none
  | ⟨.create _, .error _⟩ => some (.err .ioError)
  | ⟨.create _, .ok _⟩ => none
  | ⟨.write _ _, .error _⟩ => some (.err .ioError)
  | ⟨.write _ _, .ok _⟩ => none
  | ⟨.spawn _, .error _⟩ => some (.err .ioError)
  | ⟨.spawn _, .ok _⟩ => none
  | ⟨.wait _, .error _⟩ => some (.err .ioError)
  | ⟨.wait _, .ok ⟨none⟩⟩ => some (.err .invalidStatusCode)
  | ⟨.wait command, .ok ⟨some code⟩⟩ =>
      if code = 0 then none
      else some (.err (.nonZeroCommandExitCode command.reportedName code))
  | ⟨.which _, .error _⟩ => some (.err .pathLookupError)
  | ⟨.which _, .ok _⟩ => none
  | ⟨.vars, .ok vars⟩ =>
      if ∀ entry ∈ vars, Unicode entry then none else some notUnicode
  | ⟨.currentDir, .error _⟩ => some (.err .ioError)
  | ⟨.currentDir, .ok _⟩ => none
  | ⟨.setCurrentDir _, .error _⟩ => some (.err .ioError)
  | ⟨.setCurrentDir _, .ok _⟩ => none
  | ⟨.read _, .error _⟩ => some (.err (.ipsActionError (.payloadError .ioError)))
  | ⟨.read _, .ok _⟩ => none
  | ⟨.println _, _⟩ => none

/-! ## Variables -/

namespace Workspace

theorem keepVariable_cases (env : HashMap Text) (entry : OsPath × OsPath) :
    (Unicode entry ∧ ∃ env', keepVariable env entry = .ok env') ∨
      (¬Unicode entry ∧ keepVariable env entry = notUnicode.outcome) := by
  unfold keepVariable Unicode
  cases entry.1.toStr with
  | none => exact .inr ⟨by simp, rfl⟩
  | some k =>
      cases entry.2.toStr with
      | none => exact .inr ⟨by simp, rfl⟩
      | some v => exact .inl ⟨by simp, _, rfl⟩

/-- The variables are collected, unless one of them is not Unicode. -/
theorem filteredEnv_cases (vars : List (OsPath × OsPath)) :
    ((∀ entry ∈ vars, Unicode entry) ∧ ∃ env, filteredEnv vars = .ok env) ∨
      (¬(∀ entry ∈ vars, Unicode entry) ∧
        filteredEnv vars = notUnicode.outcome) := by
  unfold filteredEnv
  generalize (∅ : HashMap Text) = env
  induction vars generalizing env with
  | nil => exact .inl ⟨by simp, env, rfl⟩
  | cons entry vars ih =>
      rw [Outcome.fold_cons, List.forall_mem_cons]
      rcases keepVariable_cases env entry with ⟨hunicode, env', henv'⟩ |
          ⟨hraw, hpanic⟩
      · rw [henv', Outcome.ok_bind]
        rcases ih env' with ⟨hall, hok⟩ | ⟨hnot, hpanic⟩
        · exact .inl ⟨⟨hunicode, hall⟩, hok⟩
        · exact .inr ⟨fun h => hnot h.2, hpanic⟩
      · rw [hpanic]
        exact .inr ⟨fun h => hraw h.1, rfl⟩

/-! ## The parts of the workspace -/

variable {tools : Toolchain} {ws : Workspace}
  {R : Stop WorkspaceError → Prop}

theorem accounted_call {request : Request}
    {onFailure : System.Failure request → WorkspaceError}
    (hfail : ∀ failure, blame ⟨request, .error failure⟩ =
      some (.err (onFailure failure)))
    (hreply : ∀ reply, blame ⟨request, .ok reply⟩ = none) :
    (call request onFailure).Accounted blame R :=
  accounted_attempt (I := System) hfail hreply

theorem accounted_call_bind {α : Type} {request : Request}
    {onFailure : System.Failure request → WorkspaceError}
    {f : System.Reply request → Ask α}
    (hfail : ∀ failure, blame ⟨request, .error failure⟩ =
      some (.err (onFailure failure)))
    (hreply : ∀ reply, blame ⟨request, .ok reply⟩ = none)
    (hf : ∀ reply, (f reply).Accounted blame R) :
    (call request onFailure >>= f).Accounted blame R :=
  (accounted_call hfail hreply).bind fun reply _ _ => hf reply

theorem accounted_new (root : Text) : (new root).Accounted blame R := by
  refine accounted_call_bind (fun _ => rfl) (fun _ => rfl) fun expanded => ?_
  refine Accounted.bind ?_ fun _ _ _ => accounted_pure _
  refine accounted_call_bind (fun _ => rfl) (fun _ => rfl) fun _ => ?_
  refine accounted_call_bind (fun _ => rfl) (fun _ => rfl) fun _ => ?_
  refine accounted_call_bind (fun _ => rfl) (fun _ => rfl) fun _ => ?_
  exact accounted_call (fun _ => rfl) fun _ => rfl

theorem accounted_getSources {sources : List Text}
    (h : ∀ src ∈ sources, ∀ error,
      Source.new tools.parseUrl src ws.sourceDir = .error error →
        R (.err (.sourceError error))) :
    (ws.getSources tools.parseUrl sources).Accounted blame R := by
  refine Accounted.fold ?_ _
  intro srcVec src hsrc
  unfold getSource
  cases hnew : Source.new tools.parseUrl src ws.sourceDir with
  | error error => exact accounted_err (h src hsrc error hnew)
  | ok source =>
      refine accounted_attempt_bind (I := System) (fun _ => rfl) ?_
      rintro ⟨status, _ | bytes⟩
      · exact .inr ⟨.err .reqwestError, rfl, rfl⟩
      · refine .inl ⟨rfl, ?_⟩
        refine accounted_call_bind (fun _ => rfl) (fun _ => rfl) fun _ => ?_
        refine accounted_call_bind (fun _ => rfl) (fun _ => rfl) fun _ => ?_
        exact accounted_pure _

theorem accounted_runCommand {command : Command} {name : Text}
    (hname : command.reportedName = name) :
    (runCommand command name).Accounted blame R := by
  refine accounted_call_bind (fun _ => rfl) (fun _ => rfl) fun _ => ?_
  refine accounted_attempt_bind (I := System) (fun _ => rfl) ?_
  rintro ⟨_ | code⟩
  · exact .inr ⟨.err .invalidStatusCode, rfl, rfl⟩
  · by_cases hcode : code = 0
    · subst hcode
      exact .inl ⟨rfl, accounted_pure ()⟩
    · refine .inr ⟨.err (.nonZeroCommandExitCode name code), ?_, ?_⟩
      · simp [blame, hcode, hname]
      · simp [ExitStatus.success, hcode, Stop.outcome]

theorem accounted_unpackAllSources {downloaded : List Source}
    (h : ∀ src ∈ downloaded, ¬src.Unpackable →
      R (.err (.unextractableSource src))) :
    (ws.unpackAllSources downloaded).Accounted blame R := by
  refine Accounted.fold ?_ _
  intro _ src hsrc
  have hname : (ws.tarCommand src).reportedName = "tar".toList := by
    unfold Command.reportedName Command.IsShell tarCommand
    simp
  unfold unpackSource
  cases hext : extension src.localName with
  | none =>
      refine accounted_err (h src hsrc ?_)
      rintro ⟨ext, heq, -⟩
      cases hext.symm.trans heq
  | some ext =>
      dsimp only
      split_ifs with htar
      · exact accounted_runCommand hname
      · refine accounted_err (h src hsrc ?_)
        rintro ⟨ext', heq, htar'⟩
        cases hext.symm.trans heq
        exact htar htar'

theorem accounted_prepareBuild (script : Text) :
    (ws.prepareBuild script).Accounted blame R := by
  refine accounted_call_bind (fun _ => rfl) (fun _ => rfl) fun _ => ?_
  refine accounted_call_bind (fun _ => rfl) (fun _ => rfl) fun _ => ?_
  refine accounted_call_bind (fun _ => rfl) (fun _ => rfl) fun _ => ?_
  refine accounted_call_bind (fun _ => rfl) (fun _ => rfl) fun _ => ?_
  refine accounted_call_bind (fun _ => rfl) (fun _ => rfl) fun _ => ?_
  refine accounted_call_bind (fun _ => rfl) (fun _ => rfl) fun bash => ?_
  refine accounted_attempt_bind (I := System) (fun failure => failure.elim) ?_
  intro vars
  rcases filteredEnv_cases vars with ⟨hall, env, henv⟩ | ⟨hnot, hpanic⟩
  · refine .inl ⟨?_, ?_⟩
    · simp only [blame, if_pos hall]
    · rw [henv]
      exact accounted_pure _
  · refine .inr ⟨notUnicode, ?_, ?_⟩
    · simp only [blame, if_neg hnot]
    · rw [hpanic]
      rfl

theorem accounted_package (crates : Crates) (fileList : List Text) :
    (ws.package crates fileList).Accounted blame R := by
  refine accounted_call_bind (fun _ => rfl) (fun _ => rfl) fun cwd => ?_
  refine accounted_call_bind (fun _ => rfl) (fun _ => rfl) fun _ => ?_
  refine Accounted.bind ?_ fun manifest _ _ =>
    accounted_call_bind (fun _ => rfl) (fun _ => rfl) fun _ =>
      accounted_call (fun failure => failure.elim) fun _ => rfl
  refine Accounted.fold ?_ _
  intro manifest f _
  rw [packageFile_eq]
  refine Accounted.bind ?_ fun file _ _ => accounted_pure _
  refine accounted_call_bind (fun _ => rfl) (fun _ => rfl) fun bytes => ?_
  rw [ofBytes_eq]
  exact accounted_pure _

end Workspace

/-! ## The command -/

/-- Only reading the spec file is not a part of the workspace. -/
def commandBlame : Event System → Option (Stop CommandError)
  | ⟨.readToString _, .error _⟩ => some (.err .ioError)
  | e => (blame e).map (Stop.mapErr .workspaceError)

/-- What the command rejects on its own account: the text of a spec file, or
its build script. -/
inductive CommandRejects (tools : Toolchain) (content : Text) :
    Stop CommandError → Prop
  | spec {stop : Stop SpecError}
      (h : SpecFile.parse tools.overflowChecks content = stop.outcome) :
      CommandRejects tools content (stop.mapErr .specError)
  | macros {spec : SpecFile} {root : Text}
      {stop : Stop Macros.MacroParserError}
      (hspec : SpecFile.parse tools.overflowChecks content = .ok spec)
      (h : Macros.parse (Workspace.ofRoot root).getMacros spec.buildScript =
        stop.outcome) :
      CommandRejects tools content (stop.mapErr .macroParserError)

def Request.IsWorkspace : Request → Prop
  | .readToString _ => False
  | _ => True

section Command

variable {R : Stop CommandError → Prop}

theorem accounted_workspace {α : Type} {p : Ask α}
    (hp : p.Accounted blame fun stop => R (stop.mapErr .workspaceError))
    (hwithin : p.Within (I := System) Request.IsWorkspace) :
    (p.mapErr CommandError.workspaceError).Accounted commandBlame R := by
  refine hp.mapErr hwithin ?_ fun stop h => h
  rintro ⟨request, answer⟩ hrequest
  cases request with
  | readToString path => exact hrequest.elim
  | _ => rfl

theorem accounted_check {ε α : Type} {x : Outcome ε α} {g : ε → CommandError}
    (h : ∀ stop : Stop ε, x = stop.outcome → R (stop.mapErr g)) :
    (Prog.done (x.mapErr g) : Prog System CommandError α).Accounted
      commandBlame R := by
  cases x with
  | ok a => exact accounted_pure a
  | err error => exact accounted_err (h (.err error) rfl)
  | panic message => exact accounted_panic (h (.panic message) rfl)

end Command

theorem accounted_prepareSpec (tools : Toolchain) (content : Text) :
    (prepareSpec tools content).Accounted commandBlame
      (CommandRejects tools content) := by
  unfold prepareSpec prepareIn
  refine (accounted_check fun stop h => .spec h).bind ?_
  intro spec events hspec
  have hparsed := Outcome.mapErr_eq_ok_iff.mp (runs_done_iff.mp hspec).2.symm
  refine (accounted_workspace (Workspace.accounted_new _)
    (Workspace.within_new (fun _ => trivial) (fun _ => trivial) _)).bind ?_
  intro ws events hws
  obtain ⟨root, rfl, -⟩ :=
    Workspace.runs_new_ok_iff.mp (runs_mapErr_ok_iff.mp hws)
  refine (accounted_check fun stop h => .macros hparsed h).bind
    fun script _ _ => ?_
  refine (accounted_workspace (Workspace.accounted_prepareBuild _)
    (Workspace.within_prepareBuild trivial (fun _ => trivial) trivial trivial
      _)).bind fun command _ _ => ?_
  exact accounted_pure _

theorem accounted_finish {tools : Toolchain}
    {prepared : Workspace × List Text × Command}
    (hshell : prepared.2.2.IsShell) {R : Stop CommandError → Prop} :
    (finish tools prepared).Accounted commandBlame R := by
  have hname : prepared.2.2.reportedName = "build_script".toList :=
    if_pos hshell
  refine (accounted_workspace (Workspace.accounted_runCommand hname)
    (Workspace.within_runCommand trivial trivial _)).bind fun _ _ _ => ?_
  exact accounted_workspace (Workspace.accounted_package _ _)
    (Workspace.within_package trivial (fun _ => trivial) (fun _ => trivial)
      (fun _ => trivial) _)

theorem accounted_behindRead (tools : Toolchain) (content : Text) :
    (prepareSpec tools content >>= finish tools).Accounted commandBlame
      (CommandRejects tools content) := by
  refine (accounted_prepareSpec tools content).bind ?_
  intro prepared events hrun
  have hprepare : Runs (prepare tools (.text []))
      (replied (.readToString (.text [])) content :: events)
        (.ok prepared) :=
    runs_call_bind_ok_iff.mpr ⟨content, events, rfl, hrun⟩
  obtain ⟨b, -, rfl⟩ := runs_prepare_ok_iff.mp hprepare
  exact accounted_finish b.isShell_command

end Ips.Ports
