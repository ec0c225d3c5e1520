import Ips.PortsRuns
import Ips.WorkspaceConfinement

/-!
# Sources

A source is stored under the last segment of its URL, in the directory for
sources.  The segment decides whether tar is tried on it, and since it has no
slashes, nothing that a workspace creates or writes lies outside its root.  All
sources are stored before the first one is unpacked, so what tar reads is the
last source that was stored under the name.
-/

namespace Ips.Ports

open Interaction TreeWalk

/-! ## Joined paths -/

/-- A path in front of the name that is joined to it. -/
def separated (base : Text) : Text :=
  if base = [] ∨ base.getLast? = some '/' then base else base ++ ['/']

theorem joinPath_eq (base : Text) {p : Text} (h : '/' ∉ p) :
    joinPath base p = separated base ++ p := by
  have hhead : p.head? ≠ some '/' := fun heq => h (List.mem_of_head? heq)
  unfold joinPath separated
  rw [if_neg hhead]
  split_ifs <;> simp

theorem joinPath_injective (base : Text) {p q : Text} (hp : '/' ∉ p)
    (hq : '/' ∉ q) : joinPath base p = joinPath base q ↔ p = q := by
  rw [joinPath_eq base hp, joinPath_eq base hq]
  exact List.append_right_inj _

theorem separated_cases (base : Text) :
    (base = [] ∧ separated base = []) ∨
      ∃ before, separated base = before ++ ['/'] ∧
        (base = before ∨ base = before ++ ['/']) := by
  unfold separated
  by_cases hnil : base = []
  · exact .inl ⟨hnil, by simp [hnil]⟩
  · right
    by_cases hlast : base.getLast? = some '/'
    · obtain ⟨before, rfl⟩ := List.getLast?_eq_some_iff.mp hlast
      exact ⟨before, by simp, .inr rfl⟩
    · exact ⟨base, by simp [hnil, hlast], .inl rfl⟩

/-- What is read off the parts of a path is put together when paths are. -/
theorem map_separated {β : Type} {F : Text → List β} (hnil : F [] = [])
    (hslash : ∀ p q, F (p ++ '/' :: q) = F p ++ F q) (base p : Text) :
    F (separated base ++ p) = F base ++ F p := by
  rcases separated_cases base with ⟨rfl, heq⟩ | ⟨before, heq, rfl | rfl⟩
  · rw [heq, List.nil_append, hnil, List.nil_append]
  · rw [heq, List.append_assoc, List.singleton_append, hslash]
  · rw [heq, List.append_assoc, List.singleton_append, hslash, hslash, hnil,
      List.append_nil]

/-- The parts of a path that count. -/
def parts (p : Text) : List Text :=
  (splitAt '/' p).filter fun part => part ≠ [] ∧ part ≠ ".".toList

theorem parts_append_slash (p q : Text) :
    parts (p ++ '/' :: q) = parts p ++ parts q := by
  unfold parts splitAt
  rw [List.splitOn_append_cons_self, List.filter_append]

theorem parts_nil : parts [] = [] := by decide

theorem parts_joinPath (base : Text) {p : Text} (h : '/' ∉ p) :
    parts (joinPath base p) = parts base ++ parts p := by
  rw [joinPath_eq base h]
  exact map_separated parts_nil parts_append_slash base p

theorem parts_of_no_slash {p : Text} (h : '/' ∉ p) :
    parts p = if p = [] ∨ p = ".".toList then [] else [p] := by
  unfold parts
  rw [splitAt_of_not_mem h]
  by_cases hp : p = [] ∨ p = ".".toList
  · rw [if_pos hp]
    rcases hp with rfl | rfl <;> decide
  · rw [if_neg hp]
    exact List.filter_cons_of_pos (by simpa using hp)

/-! ## The last segment -/

/-- What `Source::new` names a file after. -/
def lastSegment (path : Text) : Text :=
  ((splitAt '/' path).getLast?).getD []

theorem getLast?_splitAt (path : Text) :
    (splitAt '/' path).getLast? = some (lastSegment path) := by
  obtain ⟨rest, hrest⟩ := exists_splitAt_eq_cons '/' path
  unfold lastSegment
  rw [hrest]
  simp [List.getLast?_eq_some_getLast]

theorem slash_not_mem_lastSegment (path : Text) : '/' ∉ lastSegment path := by
  intro hmem
  have hpiece := List.mem_of_getLast? (getLast?_splitAt path)
  exact (mem_of_mem_splitAt hpiece hmem).2 rfl

/-- The error for a URL without segments is never given. -/
theorem sourceNew_eq_ok_iff {parseUrl : Text → Except Text Url}
    {src localBase : Text} {source : Source} :
    Source.new parseUrl src localBase = .ok source ↔
      ∃ url, parseUrl src = .ok url ∧
        source = ⟨url, joinPath localBase (lastSegment url.path)⟩ := by
  unfold Source.new
  cases hurl : parseUrl src with
  | error error =>
      refine iff_of_false (by rintro ⟨⟩) ?_
      rintro ⟨url, ⟨⟩, -⟩
  | ok url =>
      simp only [Except.mapError, bind, Except.bind, getLast?_splitAt]
      simp [pure, Except.pure, eq_comm]

/-- The text behind the last dot of a name mentions tar, and the dot is not its
first character. -/
def NamesTar (name : Text) : Prop :=
  '.' ∈ name.tail ∧ "tar".toList <:+: behindLastDot name

instance (name : Text) : Decidable (NamesTar name) :=
  inferInstanceAs (Decidable (_ ∧ _))

theorem fileName_eq (p : Text) :
    fileName p = (parts p).getLast?.filter fun part => part ≠ "..".toList :=
  rfl

theorem extension_sourceDir (root : Text) :
    extension (Workspace.ofRoot root).sourceDir = none := by
  have hparts : parts (Workspace.ofRoot root).sourceDir =
      parts root ++ ["sources".toList] := by
    unfold Workspace.ofRoot
    dsimp only
    rw [parts_joinPath root (by decide)]
    rfl
  have hname : fileName (Workspace.ofRoot root).sourceDir =
      some "sources".toList := by
    rw [fileName_eq, hparts, List.getLast?_concat]
    rfl
  unfold extension
  rw [hname]
  rfl

/-- The names of the source files alone decide whether they are unpacked. -/
theorem unpackable_iff (root : Text) {url : Url} {name : Text}
    (h : '/' ∉ name) :
    (Source.mk url (joinPath (Workspace.ofRoot root).sourceDir
      name)).Unpackable ↔ NamesTar name := by
  unfold Source.Unpackable
  dsimp only
  have hparts := parts_joinPath (Workspace.ofRoot root).sourceDir h
  rw [parts_of_no_slash h] at hparts
  by_cases hempty : name = [] ∨ name = ".".toList
  · -- The path of the directory itself.
    rw [if_pos hempty, List.append_nil] at hparts
    have hnone : extension (joinPath (Workspace.ofRoot root).sourceDir name) =
        none := by
      rw [← extension_sourceDir root]
      unfold extension
      rw [fileName_eq, fileName_eq, hparts]
    rw [hnone]
    refine iff_of_false (by simp) ?_
    rcases hempty with rfl | rfl <;> decide
  · rw [if_neg hempty] at hparts
    have hname : fileName (joinPath (Workspace.ofRoot root).sourceDir name) =
        if name = "..".toList then none else some name := by
      rw [fileName_eq, hparts, List.getLast?_concat]
      split_ifs with hup
      · rw [hup]
        rfl
      · simpa using hup
    unfold extension NamesTar
    rw [hname]
    by_cases hup : name = "..".toList
    · subst hup
      decide
    · rw [if_neg hup, Option.bind_some]
      split_ifs with hdot <;> simp [hdot]

/-- Behind the last dot of the usual archives there is no tar. -/
example : NamesTar "gcc-10.tar".toList ∧ ¬NamesTar "gcc-10.tar.gz".toList := by
  decide

/-! ## Confinement -/

theorem moves_append_slash (p q : Text) :
    moves (p ++ '/' :: q) = moves p ++ moves q := by
  unfold moves splitAt
  rw [List.splitOn_append_cons_self, List.filterMap_append]

theorem moves_joinPath (base : Text) {p : Text} (h : '/' ∉ p) :
    moves (joinPath base p) = moves base ++ moves p := by
  rw [joinPath_eq base h]
  exact map_separated (by decide) moves_append_slash base p

theorem moves_of_no_slash {p : Text} (h : '/' ∉ p) :
    moves p = [] ∨ moves p = [.up] ∨ moves p = [.down p] := by
  unfold moves
  rw [splitAt_of_not_mem h, List.filterMap_cons]
  split_ifs <;> simp

theorem head?_joinPath (base : Text) {p : Text} (h : '/' ∉ p) :
    (joinPath base p).head? = some '/' ↔ base.head? = some '/' := by
  have hp : p.head? ≠ some '/' := fun heq => h (List.mem_of_head? heq)
  rw [joinPath_eq base h]
  unfold separated
  cases base with
  | nil => simpa using hp
  | cons c base => split_ifs <;> simp

theorem resolve_joinPath (dir : List Text) (base : Text) {p : Text}
    (h : '/' ∉ p) : resolve dir (joinPath base p) =
      walk (resolve dir base) (moves p) := by
  unfold resolve
  rw [moves_joinPath base h]
  simp only [head?_joinPath base h]
  exact List.foldl_append

/-- The path lies below the root, whatever directory both are seen from. -/
def Inside (root path : Text) : Prop :=
  ∀ dir, resolve dir root <+: resolve dir path

theorem inside_self (root : Text) : Inside root root :=
  fun _ => List.prefix_rfl

theorem Inside.join {root path name : Text} (hpath : Inside root path)
    (hslash : '/' ∉ name) (hname : moves name = [.down name]) :
    Inside root (joinPath path name) := by
  intro dir
  rw [resolve_joinPath dir path hslash, hname]
  exact (hpath dir).trans (List.prefix_append _ _)

theorem inside_buildDir (root : Text) :
    Inside root (Workspace.ofRoot root).buildDir := by
  unfold Workspace.ofRoot
  dsimp only
  exact ((inside_self root).join (by decide) (by decide)).join (by decide)
    (by decide)

theorem inside_sourceDir (root : Text) :
    Inside root (Workspace.ofRoot root).sourceDir := by
  unfold Workspace.ofRoot
  dsimp only
  exact (inside_self root).join (by decide) (by decide)

theorem inside_protoDir (root : Text) :
    Inside root (Workspace.ofRoot root).protoDir := by
  unfold Workspace.ofRoot
  dsimp only
  exact ((inside_self root).join (by decide) (by decide)).join (by decide)
    (by decide)

/-- A source called like the parent directory is put into the root. -/
theorem inside_source (root : Text) {name : Text} (h : '/' ∉ name) :
    Inside root (joinPath (Workspace.ofRoot root).sourceDir name) := by
  intro dir
  rw [resolve_joinPath dir _ h]
  rcases moves_of_no_slash h with hmoves | hmoves | hmoves
  · rw [hmoves]
    exact inside_sourceDir root dir
  · have hsources : resolve dir (Workspace.ofRoot root).sourceDir =
        resolve dir root ++ ["sources".toList] := by
      unfold Workspace.ofRoot
      dsimp only
      rw [resolve_joinPath dir root (by decide)]
      rfl
    rw [hmoves, hsources]
    unfold walk
    rw [List.foldl_cons, List.foldl_nil, Move.apply, List.dropLast_concat]
  · rw [hmoves]
    exact (inside_sourceDir root dir).trans (List.prefix_append _ _)

/-- The path that a request creates or writes. -/
def Request.touched : Request → Option Text
  | .createDirAll dir => some dir
  | .create path => some path
  | .write path _ => some path
  | _ => none

def Request.TouchesInside (root : Text) (request : Request) : Prop :=
  ∀ path, request.touched = some path → Inside root path

theorem touchesInside_of_none {root : Text} {request : Request}
    (h : request.touched = none) : request.TouchesInside root := by
  intro path hpath
  rw [h] at hpath
  cases hpath

theorem touchesInside_of_some {root path : Text} {request : Request}
    (h : request.touched = some path) (hinside : Inside root path) :
    request.TouchesInside root := by
  intro path' hpath
  rw [h] at hpath
  cases hpath
  exact hinside

section Methods

variable (root : Text)

theorem initRoot_inside : (Workspace.ofRoot root).initRoot.Within (I := System)
    (Request.TouchesInside root) := by
  refine Workspace.within_initRoot ?_
  simp only [Workspace.dirs, List.forall_mem_cons]
  exact ⟨touchesInside_of_some rfl (inside_self root),
    touchesInside_of_some rfl (inside_buildDir root),
    touchesInside_of_some rfl (inside_sourceDir root),
    touchesInside_of_some rfl (inside_protoDir root), by simp⟩

theorem getSources_inside (parseUrl : Text → Except Text Url)
    (sources : List Text) :
    ((Workspace.ofRoot root).getSources parseUrl sources).Within (I := System)
      (Request.TouchesInside root) := by
  refine Workspace.within_getSources (fun _ => touchesInside_of_none rfl) ?_ _
  intro src source hnew
  obtain ⟨url, -, rfl⟩ := sourceNew_eq_ok_iff.mp hnew
  have hinside := inside_source root (slash_not_mem_lastSegment url.path)
  exact ⟨touchesInside_of_some rfl hinside,
    fun bytes => touchesInside_of_some rfl hinside⟩

theorem unpackAllSources_inside (sources : List Source) :
    ((Workspace.ofRoot root).unpackAllSources sources).Within (I := System)
      (Request.TouchesInside root) :=
  Workspace.within_unpackAllSources (fun _ =>
    ⟨touchesInside_of_none rfl, touchesInside_of_none rfl⟩) _

theorem prepareBuild_inside (script : Text) :
    ((Workspace.ofRoot root).prepareBuild script).Within (I := System)
      (Request.TouchesInside root) := by
  have hscript : Inside root (Workspace.ofRoot root).buildScriptPath := by
    unfold Workspace.buildScriptPath
    exact (inside_buildDir root).join (by decide) (by decide)
  exact Workspace.within_prepareBuild (touchesInside_of_some rfl hscript)
    (fun _ => touchesInside_of_some rfl hscript) (touchesInside_of_none rfl)
    (touchesInside_of_none rfl) _

theorem runCommand_inside (command : Command) (name : Text) :
    (Workspace.runCommand command name).Within (I := System)
      (Request.TouchesInside root) :=
  Workspace.within_runCommand (touchesInside_of_none rfl)
    (touchesInside_of_none rfl) _

theorem package_inside (crates : Crates) (fileList : List Text) :
    ((Workspace.ofRoot root).package crates fileList).Within (I := System)
      (Request.TouchesInside root) :=
  Workspace.within_package (touchesInside_of_none rfl)
    (fun _ => touchesInside_of_none rfl) (fun _ => touchesInside_of_none rfl)
    (fun _ => touchesInside_of_none rfl) _

/-- Whatever the URLs, the scripts and the answers are, the methods of a
workspace create and write nothing outside its root. -/
theorem methods_inside (parseUrl : Text → Except Text Url) (crates : Crates)
    (urls fileList : List Text) (sources : List Source) (script : Text) :
    let ws := Workspace.ofRoot root
    ws.initRoot.Within (I := System) (Request.TouchesInside root) ∧
    (ws.getSources parseUrl urls).Within (I := System)
      (Request.TouchesInside root) ∧
    (ws.unpackAllSources sources).Within (I := System)
      (Request.TouchesInside root) ∧
    (ws.build script).Within (I := System) (Request.TouchesInside root) ∧
    (ws.package crates fileList).Within (I := System)
      (Request.TouchesInside root) := by
  refine ⟨initRoot_inside root, getSources_inside root parseUrl urls,
    unpackAllSources_inside root sources, ?_,
    package_inside root crates fileList⟩
  rw [Workspace.build_eq]
  exact (prepareBuild_inside root script).bind fun command _ _ =>
    runCommand_inside root command _

end Methods

/-! ## Fetching and unpacking -/

/-- What `run_package_command` does with the sources of a spec file. -/
def provideSources (parseUrl : Text → Except Text Url) (ws : Workspace)
    (sources : List Text) : Ask Unit := do
  let downloaded ← ws.getSources parseUrl sources
  ws.unpackAllSources downloaded

/-- The source resolves to the place where it was stored, and is unpacked. -/
def Provides (parseUrl : Text → Except Text Url) (ws : Workspace)
    (src : Text) (f : Fetched) : Prop :=
  Source.new parseUrl src ws.sourceDir = .ok f.source ∧ f.source.Unpackable

def unpackEvents (ws : Workspace) (fetched : List Fetched) :
    List (Event System) :=
  fetched.flatMap fun f => Workspace.commandEvents (ws.tarCommand f.source)

theorem runs_provideSources_ok_iff {parseUrl : Text → Except Text Url}
    {ws : Workspace} {sources : List Text} {events : List (Event System)} :
    Prog.Runs (provideSources parseUrl ws sources) events (.ok ()) ↔
      ∃ fetched, List.Forall₂ (Provides parseUrl ws) sources fetched ∧
        events = fetched.flatMap Fetched.events ++ unpackEvents ws fetched := by
  unfold provideSources
  rw [Prog.runs_bind_ok_iff]
  constructor
  · rintro ⟨first, downloaded, rest, hget, hunpack, rfl⟩
    obtain ⟨fetched, hresolved, rfl, rfl⟩ :=
      Workspace.runs_getSources_ok_iff.mp hget
    obtain ⟨hunpackable, rfl⟩ :=
      Workspace.runs_unpackAllSources_ok_iff.mp hunpack
    refine ⟨fetched, ?_, by rw [List.flatMap_map]; rfl⟩
    apply List.forall₂_iff_get.mpr
    obtain ⟨hlength, hget⟩ := List.forall₂_iff_get.mp hresolved
    refine ⟨hlength, ?_⟩
    intro i h₁ h₂
    exact ⟨hget i h₁ h₂, hunpackable _
      (List.mem_map_of_mem (List.get_mem fetched ⟨i, h₂⟩))⟩
  · rintro ⟨fetched, hall, rfl⟩
    refine ⟨_, _, _, Workspace.runs_getSources_ok_iff.mpr
      ⟨fetched, hall.imp fun _ _ h => h.1, rfl, rfl⟩,
      Workspace.runs_unpackAllSources_ok_iff.mpr ⟨?_, ?_⟩, rfl⟩
    · intro src hsrc
      obtain ⟨f, hf, rfl⟩ := List.mem_map.mp hsrc
      obtain ⟨_, -, -, hunpackable⟩ := exists_of_forall₂ hall.flip f hf
      exact hunpackable
    · rw [List.flatMap_map]
      rfl

end Ips.Ports
