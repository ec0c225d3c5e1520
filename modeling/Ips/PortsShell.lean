import Ips.PortsArchives
import Ips.PortsFailures

/-!
# The shell

What the shell is given in any run of the package command: the file with the
expanded build script, and an environment with four names.  The spec file and
the root of the workspace decide whether a run can get there at all.
-/

namespace Ips.Ports

open Interaction

/-! ## The script -/

theorem utf8_append (s t : Text) : utf8 (s ++ t) = utf8 s ++ utf8 t :=
  List.flatMap_append

theorem stored_script (files : FileContents) (ws : Workspace)
    (script : Text) :
    stored files (ws.scriptEvents script) ws.buildScriptPath =
      some (utf8 (defaultShebang ++ "\n".toList ++ script ++ "\n".toList)) := by
  rw [utf8_append, utf8_append, utf8_append]
  unfold Workspace.scriptEvents stored replied
  simp [store]

theorem Preparation.stored_buildScript {tools : Toolchain}
    (b : Preparation tools) (specFile : OsPath) :
    stored (fun _ => none) (b.events specFile) b.ws.buildScriptPath =
      some (utf8 (defaultShebang ++ "\n".toList ++ b.script ++
        "\n".toList)) := by
  have hevents : b.events specFile =
      (replied (.readToString specFile) b.content ::
        replied (.shellexpand defaultWorkspaceRoot) b.root ::
          b.ws.dirEvents) ++
        (b.ws.scriptEvents b.script ++
          Workspace.lookupEvents b.bash b.vars) := rfl
  rw [hevents, stored_append, stored_append]
  exact stored_script _ b.ws b.script

/-- Whenever a run gets to the shell, the file that the shell is given holds
the shebang and the build script of the spec file that the run has read, with
the macros of the workspace that the run has laid out. -/
theorem shell_runs_script {tools : Toolchain} {specFile : OsPath}
    {before after : List (Event System)} {command : Command}
    {answer : System.Answer (.spawn command)}
    {outcome : Outcome CommandError Unit}
    (h : Prog.Runs (runPackageCommand tools specFile)
      (before ++ ⟨.spawn command, answer⟩ :: after) outcome)
    (hshell : command.IsShell) :
    ∃ content spec root script file,
      replied (.readToString specFile) content ∈ before ∧
      SpecFile.parse tools.overflowChecks content = .ok spec ∧
      replied (.shellexpand defaultWorkspaceRoot) root ∈ before ∧
      Macros.parse (Workspace.ofRoot root).getMacros spec.buildScript =
        .ok script ∧
      command.args = ["-ex".toList, file] ∧
      stored (fun _ => none) before file =
        some (utf8 (defaultShebang ++ "\n".toList ++ script ++
          "\n".toList)) := by
  obtain ⟨b, rfl, rfl⟩ := shell_behind_preparation h hshell
  refine ⟨b.content, b.spec, b.root, b.script, b.ws.buildScriptPath, ?_,
    b.parsed, ?_, b.expanded, rfl, b.stored_buildScript specFile⟩
  · exact List.mem_cons_self
  · exact List.mem_cons_of_mem _ List.mem_cons_self

/-! ## The environment -/

/-- The value of a variable of the process: a later entry counts. -/
def lastValue (vars : List (OsPath × OsPath)) (k : Text) : Option Text :=
  ((vars.filter fun entry => entry.1 = .text k).getLast?).bind
    fun entry => entry.2.toStr

theorem OsPath.toStr_eq_some_iff {p : OsPath} {s : Text} :
    p.toStr = some s ↔ p = .text s := by
  cases p with
  | text t => simp [OsPath.toStr]
  | raw bytes => simp [OsPath.toStr]

theorem keepVariable_eq_ok {env env' : HashMap Text}
    {entry : OsPath × OsPath}
    (h : Workspace.keepVariable env entry = .ok env') :
    ∃ k v, entry = (.text k, .text v) ∧
      env' = if k ∈ Workspace.keptVariables then env.insert k v else env := by
  obtain ⟨name, value⟩ := entry
  cases name with
  | raw bytes => cases h
  | text k =>
      cases value with
      | raw bytes => cases h
      | text v =>
          cases h
          exact ⟨k, v, rfl, rfl⟩

theorem lookup_filteredEnv {vars : List (OsPath × OsPath)} {env : HashMap Text}
    (h : Workspace.filteredEnv vars = .ok env) (k : Text) :
    env.lookup k =
      if k ∈ Workspace.keptVariables then lastValue vars k else none := by
  unfold Workspace.filteredEnv at h
  induction vars using List.reverseRecOn generalizing env with
  | nil =>
      cases h
      split_ifs <;> rfl
  | append_singleton vars entry ih =>
      rw [Outcome.fold_append] at h
      obtain ⟨env₁, henv₁, hlast⟩ := Outcome.bind_eq_ok_iff.mp h
      obtain ⟨env₂, hkeep, heq⟩ := Outcome.bind_eq_ok_iff.mp hlast
      cases heq
      obtain ⟨name, value, rfl, rfl⟩ := keepVariable_eq_ok hkeep
      have hbefore := ih henv₁
      unfold lastValue at hbefore ⊢
      rw [List.filter_append]
      by_cases hname : name = k
      · subst hname
        by_cases hkept : name ∈ Workspace.keptVariables
        · rw [if_pos hkept, if_pos hkept, Finmap.lookup_insert]
          simp [OsPath.toStr]
        · rw [if_neg hkept, if_neg hkept, hbefore, if_neg hkept]
      · have hfilter : [(OsPath.text name, OsPath.text value)].filter
            (fun entry => decide (entry.1 = .text k)) = [] := by
          simp [hname]
        rw [hfilter, List.append_nil, ← hbefore]
        split_ifs
        · exact Finmap.lookup_insert_of_ne _ (Ne.symm hname)
        · rfl

/-- Whenever a run gets to the shell, all variables of the process are Unicode,
and the shell sees the last values of the four names and nothing else. -/
theorem shell_environment {tools : Toolchain} {specFile : OsPath}
    {before after : List (Event System)} {command : Command}
    {answer : System.Answer (.spawn command)}
    {outcome : Outcome CommandError Unit}
    (h : Prog.Runs (runPackageCommand tools specFile)
      (before ++ ⟨.spawn command, answer⟩ :: after) outcome)
    (hshell : command.IsShell) :
    ∃ vars env, replied .vars vars ∈ before ∧
      (∀ entry ∈ vars, Unicode entry) ∧ command.env = some env ∧
      ∀ k, env.lookup k =
        if k ∈ ["TERM".toList, "TZ".toList, "LANG".toList, "PATH".toList] then
          lastValue vars k
        else none := by
  obtain ⟨b, rfl, rfl⟩ := shell_behind_preparation h hshell
  refine ⟨b.vars, b.env, ?_, ?_, rfl, lookup_filteredEnv b.filtered⟩
  · simp [Preparation.events, Workspace.lookupEvents]
  · rcases Workspace.filteredEnv_cases b.vars with ⟨hall, -⟩ | ⟨-, hpanic⟩
    · exact hall
    · cases b.filtered.symm.trans hpanic

/-! ## What is asked -/

/-- Nothing is fetched, and no other command than the shell is run. -/
def Request.IsLocal : Request → Prop
  | .get _ => False
  | .spawn command => command.IsShell
  | _ => True

def helloTools : Toolchain where
  crates := emptyCrates
  parseUrl := fun _ => .error "relative URL without a base".toList
  overflowChecks := true

def helloContent : Text := "Name: hello

%files
/etc/motd
".toList

/-- A spec file with one file and nothing to build. -/
def helloPreparation : Preparation helloTools where
  content := helloContent
  spec := { name := "hello".toList, files := ["/etc/motd".toList] }
  root := "/wks".toList
  script := []
  bash := .text "/usr/bin/bash".toList
  vars := [(.text "TZ".toList, .text "UTC".toList)]
  env := Finmap.singleton "TZ".toList "UTC".toList
  parsed := by decide +kernel
  expanded := by decide +kernel
  filtered := by decide +kernel

def helloSpec : OsPath := .text "hello.spec".toList

theorem shell_runs_script_hello :
    ∃ content spec root script file,
      replied (.readToString helloSpec) content ∈
        helloPreparation.events helloSpec ∧
      SpecFile.parse true content = .ok spec ∧
      replied (.shellexpand defaultWorkspaceRoot) root ∈
        helloPreparation.events helloSpec ∧
      Macros.parse (Workspace.ofRoot root).getMacros spec.buildScript =
        .ok script ∧
      helloPreparation.command.args = ["-ex".toList, file] ∧
      stored (fun _ => none) (helloPreparation.events helloSpec) file =
        some (utf8 (defaultShebang ++ "\n".toList ++ script ++
          "\n".toList)) :=
  shell_runs_script (helloPreparation.runs_not_spawned helloSpec)
    helloPreparation.isShell_command

theorem shell_environment_hello :
    ∃ vars env, replied .vars vars ∈ helloPreparation.events helloSpec ∧
      (∀ entry ∈ vars, Unicode entry) ∧
      helloPreparation.command.env = some env ∧
      ∀ k, env.lookup k =
        if k ∈ ["TERM".toList, "TZ".toList, "LANG".toList, "PATH".toList] then
          lastValue vars k
        else none :=
  shell_environment (helloPreparation.runs_not_spawned helloSpec)
    helloPreparation.isShell_command

end Ips.Ports
