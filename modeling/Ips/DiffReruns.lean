import Ips.DiffWorld

/-!
# Runs on the output of runs

The output manifest may lie in the component itself.  Then it is one of the
manifests of the next run, and every run reads what the run before it has
written.  The runs are the steps of a machine whose state is the text of that
file: it is written anew from what the other manifests and this text miss, and
a text that does not parse stops the machine for good.
-/

namespace Ips.ComponentDiff

open Interaction Manifest

/-! ## Reading the written lines -/

theorem lineAction_original {path : Text} {f : File}
    (hquote : Unquoted path)
    (h : File.fromAction (lineAction path) = .ok f) :
    f.getOriginalPath = none := by
  by_cases hpayload : path = [] ∨ path.head? = some '#'
  · have hne : "path=".toList ++ path ≠ [] := by simp
    have hequals : '=' ∈ "path=".toList ++ path :=
      List.mem_append_left _ (by decide)
    unfold lineAction File.fromAction File.takePayload at h
    rw [if_pos hpayload] at h
    dsimp only at h
    rw [if_neg hne, if_pos hequals] at h
    split_ifs at h
    · obtain ⟨value, hsplit, -⟩ := splitProperty_line path hquote
      rw [hsplit] at h
      cases h
      rfl
    · obtain ⟨⟨file, p, props⟩, htake, hfile⟩ := Outcome.bind_eq_ok_iff.mp h
      obtain ⟨digest, -, heq⟩ := Outcome.bind_eq_ok_iff.mp htake
      cases heq
      cases hfile
      rfl
  · unfold lineAction at h
    rw [if_neg hpayload] at h
    cases h
    rfl

/-- The files of the written lines are known by their paths. -/
theorem parseString_writeLines_keys {paths : List Text} (hne : paths ≠ [])
    (hquote : ∀ path ∈ paths, Unquoted path) (hwritable : Writable paths) :
    ∃ m, parseString (writeLines paths) = .ok m ∧
      m.files.map fileKey = paths := by
  obtain ⟨m, hparse, hpaths⟩ :=
    (parseString_writeLines hne hquote).mpr hwritable
  obtain ⟨hsep, hhash, -⟩ := hwritable
  have hread : readActions (writeLines paths) =
      some (paths.map lineAction) :=
    (readActions_eq_some_iff (skip_writeLines_ne_nil hne) _).mpr
      (holdsActions_writeLines hquote hsep hhash)
  refine ⟨m, hparse, ?_⟩
  rw [← hpaths]
  apply List.map_congr_left
  intro f hf
  obtain ⟨actions, act, hactions, hact, hfile⟩ := exists_file_action hparse hf
  cases hread.symm.trans hactions
  obtain ⟨path, hpath, rfl⟩ := List.mem_map.mp hact
  have hnone := lineAction_original (hquote path hpath) hfile
  unfold fileKey
  rw [hnone]

theorem HashOnlyLast.sublist {paths paths' : List Text}
    (hsub : paths'.Sublist paths) (h : HashOnlyLast paths) :
    HashOnlyLast paths' := by
  induction hsub with
  | slnil => trivial
  | @cons l₁ l₂ path hsub ih =>
      cases l₂ with
      | nil =>
          cases hsub
          trivial
      | cons next rest => exact ih h.2
  | @cons_cons l₁ l₂ path hsub ih =>
      cases l₁ with
      | nil => trivial
      | cons path' rest' =>
          cases l₂ with
          | nil => cases hsub
          | cons next rest => exact ⟨h.1, ih h.2⟩

theorem Writable.sublist {paths paths' : List Text}
    (hsub : paths'.Sublist paths) (h : Writable paths) : Writable paths' :=
  ⟨fun path hpath => h.1 path (hsub.subset hpath), h.2.1.sublist hsub,
    fun path hpath => h.2.2 path (hsub.subset hpath)⟩

theorem allFiles_append_singleton (others : List Manifest) (m : Manifest) :
    allFiles (others ++ [m]) = allFiles others ++ m.files := by
  simp [allFiles]

/-- One more manifest takes the files away that it has. -/
theorem missing_append (sample : Manifest) (others : List Manifest)
    (replacements : Replacements) (m : Manifest) :
    findFilesMissingInManifests sample (others ++ [m]) replacements =
      (findFilesMissingInManifests sample others replacements).filter fun f =>
        replacedKey replacements f ∉ m.files.map fileKey := by
  rw [findFilesMissingInManifests_eq, findFilesMissingInManifests_eq,
    List.filter_filter]
  apply List.filter_congr
  intro f _
  rw [Bool.eq_iff_iff]
  simp only [decide_eq_true_eq, Bool.and_eq_true, allFiles_append_singleton,
    List.mem_append, List.mem_map, or_and_right, exists_or, not_or]
  exact and_comm

/-! ## A component beside its output -/

/-- The component without its output manifest: it can be read, and the output
manifest is a file of its own that becomes one of its manifests. -/
structure Beside (w : World) (componentPath output : Text)
    (files : List (Option OsPath)) (paths : List Text) (sample : Manifest)
    (others : List Manifest) : Prop where
  opens : w.opens (.text output) = true
  held : w.holds componentPath (.text output) = true
  isManifest : hasManifestExtension (.text output) = true
  not_sample : output ≠ sampleManifestFile componentPath
  fresh : some (.text output) ∉ files
  named : ((files.filterMap id).filter fun path =>
    hasManifestExtension path) = paths.map .text
  parsed : List.Forall₂ (fun path manifest => w.parseFile path = .ok manifest)
    paths others
  sampled : w.parseFile (sampleManifestFile componentPath) = .ok sample

/-- Behind a first run, the output manifest is listed and holds a text. -/
structure Stage (w : World) (componentPath output : Text)
    (files : List (Option OsPath)) (paths : List Text) (sample : Manifest)
    (others : List Manifest) (text : Text) : Prop where
  beside : Beside w componentPath output files paths sample others
  listed : w.entries componentPath = some (files ++ [some (.text output)])
  content : w.content (.text output) = some text

section Stages

variable {w : World} {componentPath output : Text}
  {files : List (Option OsPath)} {paths : List Text} {sample : Manifest}
  {others : List Manifest} {text : Text}

theorem Beside.output_not_mem
    (h : Beside w componentPath output files paths sample others) :
    output ∉ paths := by
  intro hmem
  have hnamed : OsPath.text output ∈
      (files.filterMap id).filter fun path => hasManifestExtension path := by
    rw [h.named]
    exact List.mem_map_of_mem hmem
  apply h.fresh
  simpa using (List.mem_filter.mp hnamed).1

theorem World.parseFile_store_of_ne (w : World) {path output : Text}
    (text : Text) (h : path ≠ output) :
    (w.store (.text output) text).parseFile path = w.parseFile path := by
  have hne : OsPath.text path ≠ OsPath.text output := by simpa using h
  unfold World.parseFile World.store
  dsimp only
  rw [Function.update_of_ne hne]

theorem Beside.store
    (h : Beside w componentPath output files paths sample others)
    (text : Text) :
    Beside (w.store (.text output) text) componentPath output files paths
      sample others where
  opens := h.opens
  held := h.held
  isManifest := h.isManifest
  not_sample := h.not_sample
  fresh := h.fresh
  named := h.named
  parsed := by
    have hne : ∀ path ∈ paths, path ≠ output := by
      rintro path hpath rfl
      exact h.output_not_mem hpath
    refine ((List.forall₂_and_left paths others).mpr
      ⟨hne, h.parsed⟩).imp ?_
    rintro path manifest ⟨hne, hparse⟩
    rw [w.parseFile_store_of_ne text hne, hparse]
  sampled := by
    rw [w.parseFile_store_of_ne text h.not_sample.symm, h.sampled]

theorem Beside.printLines
    (h : Beside w componentPath output files paths sample others)
    (lines : List Text) :
    Beside (w.printLines lines) componentPath output files paths sample
      others :=
  ⟨h.opens, h.held, h.isManifest, h.not_sample, h.fresh, h.named, h.parsed,
    h.sampled⟩

theorem Beside.reads
    (h : Beside w componentPath output files paths sample others)
    (hlisted : w.entries componentPath = some files) :
    w.Reads componentPath paths sample others :=
  ⟨⟨files, hlisted, h.named⟩, h.parsed, h.sampled⟩

/-- The names with the output manifest. -/
theorem Beside.named_output
    (h : Beside w componentPath output files paths sample others) :
    (((files ++ [some (OsPath.text output)]).filterMap id).filter fun path =>
      hasManifestExtension path) = (paths ++ [output]).map OsPath.text := by
  rw [List.filterMap_append, List.filter_append, h.named, List.map_append]
  congr 1
  exact List.filter_cons_of_pos h.isManifest

theorem Stage.reads
    (h : Stage w componentPath output files paths sample others text)
    {m : Manifest} (hm : parseString text = .ok m) :
    w.Reads componentPath (paths ++ [output]) sample (others ++ [m]) := by
  have hparse : w.parseFile output = .ok m := by
    unfold World.parseFile
    rw [h.content]
    dsimp only
    rw [hm]
    rfl
  exact ⟨⟨_, h.listed, h.beside.named_output⟩,
    List.rel_append h.beside.parsed (.cons hparse .nil), h.beside.sampled⟩

/-- A text that does not parse is unwrapped behind the sample manifest. -/
theorem Stage.readManifests_panics
    (h : Stage w componentPath output files paths sample others text)
    (hm : ∀ m, parseString text ≠ .ok m) :
    ∃ message, w.readManifests componentPath = .panic message := by
  have hparse : ∀ m, w.parseFile output ≠ .ok m := by
    intro m hok
    unfold World.parseFile at hok
    rw [h.content] at hok
    exact hm m (Outcome.mapErr_eq_ok_iff.mp hok)
  have hcollect : Outcome.fold w.collectManifest [] (paths ++ [output]) =
      (w.collectManifest others output >>= fun done => .ok done) := by
    rw [Outcome.fold_append,
      fold_collectManifest_ok_iff.mpr h.beside.parsed]
    rfl
  unfold World.readManifests
  rw [h.listed]
  dsimp only
  rw [manifestFiles_ok_iff.mpr h.beside.named_output, Outcome.ok_bind,
    hcollect, h.beside.sampled]
  unfold World.collectManifest
  cases hfile : w.parseFile output with
  | ok m => exact absurd hfile (hparse m)
  | err error => exact ⟨_, rfl⟩
  | panic message => exact ⟨_, rfl⟩

end Stages

/-! ## Runs one after the other -/

section Runs

variable (iterate : HashMap Text → List (Text × Text)) (componentPath : Text)
  (pairs : Option (List Text)) (output : Text)

/-- A run of the command with the output manifest. -/
def run (w : World) : Outcome DiffError Unit × World :=
  (diffComponent iterate componentPath pairs (some (.text output))).exec
    World.handler w

/-- The world behind a number of runs. -/
def worldAfter (w : World) (n : ℕ) : World :=
  (fun w => (run iterate componentPath pairs output w).2)^[n] w

variable {componentPath output} {w : World}
  {files : List (Option OsPath)} {paths : List Text} {sample : Manifest}
  {others : List Manifest} {text : Text}

theorem worldAfter_succ (n : ℕ) :
    worldAfter iterate componentPath pairs output w (n + 1) =
      (run iterate componentPath pairs output
        (worldAfter iterate componentPath pairs output w n)).2 :=
  Function.iterate_succ_apply' _ n w

theorem run_of_reads {manifests : List Manifest} {paths' : List Text}
    (hreads : w.Reads componentPath paths' sample manifests)
    (hopens : w.opens (.text output) = true) :
    ∃ lines, run iterate componentPath pairs output w =
      (.ok (), (w.printLines lines).store (.text output)
        (writeMissing (findFilesMissingInManifests sample manifests
          (replacementsOf iterate pairs)))) := by
  have hall : ∀ path, some (OsPath.text output) = some path →
      w.opens path = true := by
    rintro _ ⟨⟩
    exact hopens
  have hrun := exec_diffComponent_of_read iterate pairs
    (some (OsPath.text output)) (readManifests_ok_iff.mpr ⟨paths', hreads⟩)
  rw [exec_writeOutput (w.printLines _) _ hall] at hrun
  exact ⟨_, hrun⟩

/-- The first run creates the output manifest. -/
theorem Beside.run
    (h : Beside w componentPath output files paths sample others)
    (hlisted : w.entries componentPath = some files) :
    ∃ w', ComponentDiff.run iterate componentPath pairs output w =
        (.ok (), w') ∧
      Stage w' componentPath output files paths sample others
        (writeMissing (findFilesMissingInManifests sample others
          (replacementsOf iterate pairs))) := by
  obtain ⟨lines, hrun⟩ := run_of_reads iterate pairs (h.reads hlisted) h.opens
  refine ⟨_, hrun, (h.printLines lines).store _, ?_,
    Function.update_self _ _ _⟩
  have hcreated : (w.printLines lines).created (.text output) componentPath
      files = files ++ [some (.text output)] :=
    if_pos ⟨h.held, h.fresh⟩
  change (w.entries componentPath).map _ = _
  rw [hlisted, Option.map_some, hcreated]

/-- A later run writes the output manifest anew. -/
theorem Stage.run
    (h : Stage w componentPath output files paths sample others text)
    {m : Manifest} (hm : parseString text = .ok m) :
    ∃ w', ComponentDiff.run iterate componentPath pairs output w =
        (.ok (), w') ∧
      Stage w' componentPath output files paths sample others
        (writeMissing (findFilesMissingInManifests sample (others ++ [m])
          (replacementsOf iterate pairs))) := by
  obtain ⟨lines, hrun⟩ := run_of_reads iterate pairs (h.reads hm) h.beside.opens
  refine ⟨_, hrun, (h.beside.printLines lines).store _, ?_,
    Function.update_self _ _ _⟩
  have hcreated : (w.printLines lines).created (.text output) componentPath
      (files ++ [some (.text output)]) = files ++ [some (.text output)] :=
    if_neg fun hnew => hnew.2 (by simp)
  change (w.entries componentPath).map _ = _
  rw [h.listed, Option.map_some, hcreated]

/-- From a text that does not parse, all runs panic. -/
theorem Stage.panics
    (h : Stage w componentPath output files paths sample others text)
    (hm : ∀ m, parseString text ≠ .ok m) (n : ℕ) :
    worldAfter iterate componentPath pairs output w n = w ∧
      ∃ message, (ComponentDiff.run iterate componentPath pairs output
        (worldAfter iterate componentPath pairs output w n)).1 =
          .panic message := by
  obtain ⟨message, hread⟩ := h.readManifests_panics hm
  have hstop : w.readManifests componentPath =
      (Stop.panic message).outcome := hread
  have hrun : ComponentDiff.run iterate componentPath pairs output w =
      (.panic message, w) :=
    exec_diffComponent_of_stop iterate pairs _ hstop
  have hafter : worldAfter iterate componentPath pairs output w n = w := by
    induction n with
    | zero => rfl
    | succ n ih => rw [worldAfter_succ, ih, hrun]
  rw [hafter, hrun]
  exact ⟨rfl, message, rfl⟩

theorem worldAfter_run {w' : World} {outcome : Outcome DiffError Unit}
    (h : ComponentDiff.run iterate componentPath pairs output w =
      (outcome, w')) (n : ℕ) :
    worldAfter iterate componentPath pairs output w (n + 1) =
      worldAfter iterate componentPath pairs output w' n := by
  unfold worldAfter
  rw [Function.iterate_succ_apply, h]

/-! ## Three runs -/

/-- The written lines stand for the files that they are written for: every one
of them is found under the path of one of them. -/
def Covered (replacements : Replacements) (missingFiles : List File) : Prop :=
  ∀ f ∈ missingFiles, replacedKey replacements f ∈ missingFiles.map File.path

instance (replacements : Replacements) (missingFiles : List File) :
    Decidable (Covered replacements missingFiles) :=
  inferInstanceAs (Decidable (∀ f ∈ missingFiles, _))

theorem parseString_nil (m : Manifest) : parseString [] ≠ .ok m := by
  have hnil : parseString [] = .err .parserError := by decide +kernel
  rw [hnil]
  exact fun h => by cases h

/-- What the second run finds missing behind the first. -/
theorem missing_written {missingFiles : List File}
    (hmissing : missingFiles = findFilesMissingInManifests sample others
      (replacementsOf iterate pairs)) {m : Manifest}
    (hkeys : m.files.map fileKey = missingFiles.map File.path) :
    findFilesMissingInManifests sample (others ++ [m])
        (replacementsOf iterate pairs) = [] ↔
      Covered (replacementsOf iterate pairs) missingFiles := by
  rw [missing_append, ← hmissing, hkeys, List.filter_eq_nil_iff]
  simp [Covered]

theorem Beside.unquoted
    (h : Beside w componentPath output files paths sample others)
    (replacements : Replacements) :
    ∀ path ∈ (findFilesMissingInManifests sample others replacements).map
      File.path, Unquoted path := by
  have hsampled := h.sampled
  unfold World.parseFile at hsampled
  split at hsampled
  · cases hsampled
  · intro path hpath
    obtain ⟨f, hf, rfl⟩ := List.mem_map.mp hpath
    rw [findFilesMissingInManifests_eq] at hf
    exact unquoted_path (Outcome.mapErr_eq_ok_iff.mp hsampled) f
      (List.mem_of_mem_filter hf)

/-- The two runs behind the first one, when its lines can be read back. -/
theorem Stage.reruns {missingFiles : List File}
    (h : Stage w componentPath output files paths sample others
      (writeMissing missingFiles))
    (hmissing : missingFiles = findFilesMissingInManifests sample others
      (replacementsOf iterate pairs))
    (hne : missingFiles ≠ [])
    (hwritable : Writable (missingFiles.map File.path)) :
    (ComponentDiff.run iterate componentPath pairs output w).1 = .ok () ∧
    ((∃ message, (ComponentDiff.run iterate componentPath pairs output
        (worldAfter iterate componentPath pairs output w 1)).1 =
          .panic message) ↔
      Covered (replacementsOf iterate pairs) missingFiles) ∧
    (Covered (replacementsOf iterate pairs) missingFiles → ∀ n, ∃ message,
      (ComponentDiff.run iterate componentPath pairs output
        (worldAfter iterate componentPath pairs output w (n + 1))).1 =
          .panic message) := by
  have hquote : ∀ path ∈ missingFiles.map File.path, Unquoted path :=
    hmissing ▸ h.beside.unquoted _
  have hpaths : missingFiles.map File.path ≠ [] := by simpa using hne
  obtain ⟨m, hm, hkeys⟩ := parseString_writeLines_keys hpaths hquote hwritable
  rw [← writeMissing_eq] at hm
  obtain ⟨w', hrun, hstage⟩ := h.run iterate pairs hm
  have hagain := missing_written iterate pairs hmissing hkeys
  refine ⟨by rw [hrun], ⟨?_, ?_⟩, ?_⟩
  · rintro ⟨message, hpanic⟩
    by_contra hnot
    rw [← hagain] at hnot
    -- The second run has written some of the paths, and they read back.
    have hsub : ((findFilesMissingInManifests sample (others ++ [m])
        (replacementsOf iterate pairs)).map File.path).Sublist
          (missingFiles.map File.path) := by
      rw [missing_append, ← hmissing]
      exact List.filter_sublist.map File.path
    obtain ⟨m', hm', -⟩ := parseString_writeLines_keys
      (by simpa using hnot) (fun path hpath => hquote path (hsub.subset hpath))
      (hwritable.sublist hsub)
    rw [← writeMissing_eq] at hm'
    obtain ⟨w'', hrun', -⟩ := hstage.run iterate pairs hm'
    rw [worldAfter_run iterate pairs hrun] at hpanic
    cases hpanic.symm.trans (congrArg Prod.fst hrun')
  · intro hcovered
    rw [worldAfter_run iterate pairs hrun]
    rw [hagain.mpr hcovered] at hstage
    exact (hstage.panics iterate pairs parseString_nil 0).2
  · intro hcovered n
    rw [worldAfter_run iterate pairs hrun]
    rw [hagain.mpr hcovered] at hstage
    exact (hstage.panics iterate pairs parseString_nil n).2

end Runs

/-! ## A component that is compared three times -/

def libz : File := { path := "usr/lib/libz.so".toList }

def zlibHeader : File := { path := "usr/include/zlib.h".toList }

theorem beside_zlib : Beside zlibWorld "zlib".toList
    "zlib/missing.p5m".toList [some zlibPath, some makefilePath]
    ["zlib/zlib.p5m".toList] { files := [libz, zlibHeader] }
    [{ files := [libz] }] where
  opens := by decide
  held := by decide
  isManifest := by decide +kernel
  not_sample := by decide +kernel
  fresh := by decide
  named := by decide +kernel
  parsed := .cons (by decide +kernel) .nil
  sampled := by decide +kernel

theorem writable_zlib : Writable ([zlibHeader].map File.path) := by
  refine ⟨?_, trivial, forall_mem_of_all (by decide)⟩
  intro path hpath
  cases List.mem_singleton.mp hpath
  exact forall_mem_of_all (by decide)

end Ips.ComponentDiff
