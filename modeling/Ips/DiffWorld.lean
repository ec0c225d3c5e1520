import Ips.DiffRuns

/-!
# The comparison of a component in a world of files

A world has directories, files of text that can be read, and a screen.  In a
world the comparison is a function of the manifests that it reads: either they
can all be read, and the output says which files are missing and removed, or
the command stops and leaves the world as it is.
-/

namespace Ips.ComponentDiff

open Interaction
open Ports (joinPath)

/-! ## Worlds -/

/-- What a directory holds is asked of `entries`; `holds` says which files are
listed in it once they are created. -/
structure World where
  entries : Text → Option (List (Option OsPath))
  holds : Text → OsPath → Bool
  content : OsPath → Option Text
  opens : OsPath → Bool
  printed : List Text := []

namespace World

def print (w : World) (line : Text) : World :=
  { w with printed := w.printed ++ [line] }

def created (w : World) (path : OsPath) (dir : Text)
    (files : List (Option OsPath)) : List (Option OsPath) :=
  if w.holds dir path ∧ some path ∉ files then files ++ [some path] else files

/-- A file with this text is there, whether it was there before or not. -/
def store (w : World) (path : OsPath) (text : Text) : World :=
  { w with
    entries := fun dir => (w.entries dir).map (w.created path dir)
    content := Function.update w.content path (some text) }

def append (w : World) (path : OsPath) (text : Text) : World :=
  { w with
    content := Function.update w.content path
      (some ((w.content path).getD [] ++ text)) }

def handler : Handler System World
  | .readDir path, w =>
      (match w.entries path with
        | none => .error ()
        | some files => .ok files, w)
  | .readToString path, w =>
      (match w.content (.text path) with
        | none => .error ()
        | some content => .ok content, w)
  | .println line, w => (.ok (), w.print line)
  | .pathExists path, w => (.ok (w.content (.text path)).isSome, w)
  | .openTruncated path, w =>
      if w.opens path then (.ok (), w.store path []) else (.error (), w)
  | .write path text, w => (.ok (), w.append path text)

def parseFile (w : World) (path : Text) :
    Outcome ManifestFileError Manifest :=
  match w.content (.text path) with
  | none => .err .ioError
  | some content => (Manifest.parseString content).mapErr .actionError

def collectManifest (w : World) (done : List Manifest) (path : Text) :
    Outcome ManifestFileError (List Manifest) := do
  let manifest ← w.parseFile path
  return done ++ [manifest]

/-- The sample manifest of a component and its manifests. -/
def readManifests (w : World) (componentPath : Text) :
    Outcome DiffError (Manifest × List Manifest) :=
  match w.entries componentPath with
  | none => .err .ioError
  | some files => do
      let manifestFiles ← manifestFiles files
      let manifestsRes ←
        (Outcome.fold w.collectManifest [] manifestFiles).kept
      let sampleManifest ←
        (w.parseFile (sampleManifestFile componentPath)).mapErr .manifestError
      let manifests ← Outcome.unwrap manifestsRes
      return (sampleManifest, manifests)

/-- Whether a path below the component exists. -/
def inComponent (w : World) (componentPath path : Text) : Bool :=
  (w.content (.text (joinPath componentPath path))).isSome

end World

/-! ## The parts in a world -/

section Exec

variable (w : World)

theorem exec_readToString {ε : Type} (path : Text)
    (onFailure : System.Failure (.readToString path) → ε) :
    (call (.readToString path) onFailure).exec World.handler w =
      (match w.content (.text path) with
        | none => .err (onFailure ())
        | some content => .ok content, w) := by
  cases h : w.content (.text path) with
  | none =>
      have hanswer : World.handler (.readToString path) w =
          (.error (), w) := by
        simp [World.handler, h]
      exact Prog.exec_attempt_of_error hanswer _
  | some content =>
      have hanswer : World.handler (.readToString path) w =
          (.ok content, w) := by
        simp [World.handler, h]
      exact Prog.exec_attempt_of_ok hanswer _

theorem exec_readDir {ε : Type} (path : Text)
    (onFailure : System.Failure (.readDir path) → ε) :
    (call (.readDir path) onFailure).exec World.handler w =
      (match w.entries path with
        | none => .err (onFailure ())
        | some files => .ok files, w) := by
  cases h : w.entries path with
  | none =>
      have hanswer : World.handler (.readDir path) w = (.error (), w) := by
        simp [World.handler, h]
      exact Prog.exec_attempt_of_error hanswer _
  | some files =>
      have hanswer : World.handler (.readDir path) w = (.ok files, w) := by
        simp [World.handler, h]
      exact Prog.exec_attempt_of_ok hanswer _

theorem exec_parseFile (path : Text) :
    (parseFile path).exec World.handler w = (w.parseFile path, w) := by
  unfold parseFile World.parseFile
  rw [Prog.exec_bind_of_const (exec_readToString w path _) fun content => rfl]
  cases w.content (.text path) <;> rfl

theorem exec_collectManifest (done : List Manifest) (path : Text) :
    (collectManifest done path).exec World.handler w =
      (w.collectManifest done path, w) :=
  Prog.exec_bind_of_const (exec_parseFile w path) fun _ => rfl

theorem exec_readManifests (componentPath : Text) :
    (readManifests componentPath).exec World.handler w =
      (w.readManifests componentPath, w) := by
  have hmanifests : ∀ paths,
      ((Prog.fold collectManifest [] paths).kept :
          Prog System DiffError (Except ManifestFileError (List Manifest))).exec
          World.handler w =
        ((Outcome.fold w.collectManifest [] paths).kept, w) := by
    intro paths
    rw [Prog.kept, Prog.exec_mapOutcome,
      Prog.exec_fold_of_const (exec_collectManifest w)]
  have hsample : ((parseFile (sampleManifestFile componentPath)).mapErr
        DiffError.manifestError).exec World.handler w =
      ((w.parseFile (sampleManifestFile componentPath)).mapErr
        .manifestError, w) := by
    rw [Prog.mapErr, Prog.exec_mapOutcome, exec_parseFile]
  unfold readManifests World.readManifests
  rw [Prog.exec_bind_of_const (exec_readDir w componentPath _) fun files =>
    Prog.exec_bind_of_const rfl fun paths =>
      Prog.exec_bind_of_const (hmanifests paths) fun manifestsRes =>
        Prog.exec_bind_of_const hsample fun sample =>
          Prog.exec_bind_of_const rfl fun manifests => rfl]
  cases w.entries componentPath <;> rfl

/-! ## The output -/

def World.printLines (w : World) (lines : List Text) : World :=
  { w with printed := w.printed ++ lines }

theorem exec_printLines (lines : List Text) :
    (Prog.fold printLine () lines).exec World.handler w =
      (.ok (), w.printLines lines) := by
  have hprint : ∀ (_ : Unit) (line : Text) (w : World),
      (printLine () line).exec World.handler w = (.ok (), w.print line) :=
    fun _ _ _ => rfl
  have hlines : ∀ w : World,
      lines.foldl World.print w = w.printLines lines := by
    induction lines with
    | nil =>
        intro w
        simp [World.printLines]
    | cons line lines ih =>
        intro w
        rw [List.foldl_cons, ih]
        simp [World.printLines, World.print]
  rw [Prog.exec_fold_of_ok hprint, hlines]

theorem exec_pathExists (path : Text) :
    (call (.pathExists path) Empty.elim :
        Prog System DiffError Bool).exec World.handler w =
      (.ok (w.content (.text path)).isSome, w) := rfl

/-- The search in the world is the search that asks it. -/
theorem exec_searchRemoved (componentPath : Text) (replacements : Replacements)
    (sample : Manifest) (manifests : List Manifest) :
    (Prog.fold (searchRemoved (makeFileMap sample.files) componentPath
        replacements) [] (allFiles manifests)).exec World.handler w =
      (.ok (findRemovedFiles sample manifests (w.inComponent componentPath)
        replacements), w) := by
  have hround : ∀ removed f,
      (searchRemoved (makeFileMap sample.files) componentPath replacements
        removed f).exec World.handler w =
      (.ok (if replacedKey replacements f ∉ makeFileMap sample.files ∧
          ¬ Present (w.inComponent componentPath) f then removed ++ [f]
        else removed), w) := by
    intro removed f
    unfold searchRemoved
    rcases Option.eq_none_or_eq_some f.getOriginalPath with
      hpath | ⟨path, hpath⟩
    · simp only [replacedKey, fileKey, Present, hpath]
      by_cases hfound :
          replaceFunc f.path replacements ∉ makeFileMap sample.files
      · rw [if_pos hfound, if_pos ⟨hfound, by simp⟩]
        rfl
      · rw [if_neg hfound, if_neg (fun h => hfound h.1)]
        rfl
    · simp only [replacedKey, fileKey, Present, hpath, Option.any_some]
      by_cases hfound :
          replaceFunc path replacements ∉ makeFileMap sample.files
      · rw [if_pos hfound]
        refine (Prog.exec_bind_of_ok (exec_pathExists w _) _).trans ?_
        change (Outcome.ok (if w.inComponent componentPath path = true then
          removed else removed ++ [f]), w) = _
        by_cases hexists : w.inComponent componentPath path = true
        · simp [hexists]
        · simp [hexists, hfound]
      · rw [if_neg hfound, if_neg (fun h => hfound h.1)]
        rfl
  rw [Prog.exec_fold_of_const hround, Outcome.fold_pure,
    foldl_push_eq_filter, findRemovedFiles_eq]
  simp only [mem_makeFileMap, List.nil_append]

theorem World.append_append (path : OsPath) (text text' : Text) :
    (w.append path text).append path text' = w.append path (text ++ text') := by
  simp [World.append]

theorem World.store_append (path : OsPath) (text text' : Text) :
    (w.store path text).append path text' = w.store path (text ++ text') := by
  simp [World.append, World.store]

theorem exec_writeAction (path : OsPath) (action : File) :
    (writeAction path () action).exec World.handler w =
      (.ok (), w.append path (writeLine action.path)) := by
  have hwrites : (writeAction path () action).exec World.handler w =
      (.ok (), ((w.append path "file path=".toList).append path
        action.path).append path "\n".toList) := rfl
  rw [hwrites, World.append_append, World.append_append]
  rfl

theorem World.foldl_append (path : OsPath) (missingFiles : List File)
    (text : Text) :
    missingFiles.foldl (fun w f => w.append path (writeLine f.path))
        (w.store path text) =
      w.store path (text ++ writeMissing missingFiles) := by
  induction missingFiles generalizing text with
  | nil => simp [writeMissing]
  | cons f missingFiles ih =>
      rw [List.foldl_cons, World.store_append, ih]
      simp [writeMissing]

/-- The world with the output manifest, if one is wanted. -/
def World.written (w : World) (missingFiles : List File) :
    Option OsPath → World
  | none => w
  | some path => w.store path (writeMissing missingFiles)

theorem exec_writeOutput {outputManifest : Option OsPath}
    (missingFiles : List File)
    (hopens : ∀ path, outputManifest = some path → w.opens path = true) :
    (writeOutput missingFiles outputManifest).exec World.handler w =
      (.ok (), w.written missingFiles outputManifest) := by
  cases outputManifest with
  | none => rfl
  | some path =>
      have hanswer : World.handler (.openTruncated path) w =
          (.ok (), w.store path []) := by
        simp [World.handler, hopens path rfl]
      have hround : ∀ (_ : Unit) (action : File) (w : World),
          (writeAction path () action).exec World.handler w =
            (.ok (), w.append path (writeLine action.path)) :=
        fun _ action w => exec_writeAction w path action
      refine (Prog.exec_bind_of_ok
        (Prog.exec_attempt_of_ok hanswer _) _).trans ?_
      rw [Prog.exec_fold_of_ok hround, World.foldl_append]
      rfl

theorem exec_writeOutput_of_closed {path : OsPath}
    (missingFiles : List File) (hopens : w.opens path = false) :
    (writeOutput missingFiles (some path)).exec World.handler w =
      (.err .ioError, w) := by
  have hanswer : World.handler (.openTruncated path) w = (.error (), w) := by
    simp [World.handler, hopens]
  exact Prog.exec_bind_of_stop (Prog.exec_attempt_of_error hanswer _) _

/-! ## The command in a world -/

/-- The lines that are printed when the manifests have been read. -/
def reportLines (w : World) (componentPath : Text)
    (replacements : Replacements) (sample : Manifest)
    (manifests : List Manifest) : List Text :=
  (findFilesMissingInManifests sample manifests replacements).map
      missingLine ++
    (findRemovedFiles sample manifests (w.inComponent componentPath)
      replacements).map removedLine

theorem exec_reportFiles (componentPath : Text) (replacements : Replacements)
    (outputManifest : Option OsPath) (sample : Manifest)
    (manifests : List Manifest) :
    (reportFiles componentPath replacements outputManifest sample
        manifests).exec World.handler w =
      (writeOutput (findFilesMissingInManifests sample manifests replacements)
        outputManifest).exec World.handler
          (w.printLines (reportLines w componentPath replacements sample
            manifests)) := by
  unfold reportFiles
  dsimp only
  rw [Prog.exec_bind_of_ok (exec_printLines w _),
    Prog.exec_bind_of_ok (exec_searchRemoved _ componentPath replacements
      sample manifests),
    Prog.exec_bind_of_ok (exec_printLines _ _)]
  congr 1
  simp [World.printLines, reportLines]
  rfl

section Command

variable {w} (iterate : HashMap Text → List (Text × Text))
  {componentPath : Text} (pairs : Option (List Text))
  (outputManifest : Option OsPath)

theorem exec_diffComponent_of_stop {stop : Stop DiffError}
    (h : w.readManifests componentPath = stop.outcome) :
    (diffComponent iterate componentPath pairs outputManifest).exec
        World.handler w = (stop.outcome, w) := by
  have hread := exec_readManifests w componentPath
  rw [h] at hread
  exact Prog.exec_bind_of_stop hread _

theorem exec_diffComponent_of_read {sample : Manifest}
    {manifests : List Manifest}
    (h : w.readManifests componentPath = .ok (sample, manifests)) :
    (diffComponent iterate componentPath pairs outputManifest).exec
        World.handler w =
      (writeOutput (findFilesMissingInManifests sample manifests
        (replacementsOf iterate pairs)) outputManifest).exec World.handler
          (w.printLines (reportLines w componentPath
            (replacementsOf iterate pairs) sample manifests)) := by
  have hread := exec_readManifests w componentPath
  rw [h] at hread
  exact (Prog.exec_bind_of_ok hread _).trans
    (exec_reportFiles w componentPath _ outputManifest sample manifests)

end Command

end Exec

/-! ## What has to be there -/

theorem fold_collectManifest_ok_iff {w : World} {paths : List Text}
    {manifests : List Manifest} :
    Outcome.fold w.collectManifest [] paths = .ok manifests ↔
      List.Forall₂ (fun path manifest => w.parseFile path = .ok manifest)
        paths manifests := by
  have hfold : ∀ done, Outcome.fold w.collectManifest done paths =
        .ok manifests ↔
      ∃ more, manifests = done ++ more ∧
        List.Forall₂ (fun path manifest => w.parseFile path = .ok manifest)
          paths more := by
    induction paths with
    | nil =>
        intro done
        simp [eq_comm]
    | cons path paths ih =>
        intro done
        rw [Outcome.fold_cons, Outcome.bind_eq_ok_iff]
        constructor
        · rintro ⟨next, hnext, hfold⟩
          obtain ⟨manifest, hparse, heq⟩ := Outcome.bind_eq_ok_iff.mp hnext
          cases heq
          obtain ⟨more, rfl, hmore⟩ := (ih _).mp hfold
          exact ⟨manifest :: more, by simp, .cons hparse hmore⟩
        · rintro ⟨more, rfl, hmore⟩
          cases hmore with
          | @cons _ manifest _ more hparse hmore =>
              refine ⟨done ++ [manifest], ?_, ?_⟩
              · exact Outcome.bind_eq_ok_iff.mpr ⟨manifest, hparse, rfl⟩
              · exact (ih _).mpr ⟨more, by simp, hmore⟩
  rw [hfold]
  simp

/-- A component is read when its directory can be listed, the manifests in it
have Unicode names, and they and the sample can be read and parsed. -/
structure World.Reads (w : World) (componentPath : Text) (paths : List Text)
    (sample : Manifest) (manifests : List Manifest) : Prop where
  listed : ∃ files, w.entries componentPath = some files ∧
    ((files.filterMap id).filter fun path => hasManifestExtension path) =
      paths.map .text
  parsed : List.Forall₂ (fun path manifest => w.parseFile path = .ok manifest)
    paths manifests
  sampled : w.parseFile (sampleManifestFile componentPath) = .ok sample

theorem readManifests_ok_iff {w : World} {componentPath : Text}
    {sample : Manifest} {manifests : List Manifest} :
    w.readManifests componentPath = .ok (sample, manifests) ↔
      ∃ paths, w.Reads componentPath paths sample manifests := by
  unfold World.readManifests
  cases hentries : w.entries componentPath with
  | none =>
      constructor
      · rintro ⟨⟩
      · rintro ⟨paths, ⟨files, hfiles, -⟩, -, -⟩
        cases hentries.symm.trans hfiles
  | some files =>
      dsimp only
      constructor
      · intro h
        obtain ⟨paths, hpaths, h⟩ := Outcome.bind_eq_ok_iff.mp h
        obtain ⟨manifestsRes, hres, h⟩ := Outcome.bind_eq_ok_iff.mp h
        obtain ⟨sample', hsample, h⟩ := Outcome.bind_eq_ok_iff.mp h
        obtain ⟨manifests', hmanifests, h⟩ := Outcome.bind_eq_ok_iff.mp h
        cases h
        refine ⟨paths, ⟨files, hentries, manifestFiles_ok_iff.mp hpaths⟩, ?_,
          Outcome.mapErr_eq_ok_iff.mp hsample⟩
        rw [← fold_collectManifest_ok_iff]
        cases hfold : Outcome.fold w.collectManifest [] paths with
        | ok collected =>
            rw [hfold] at hres
            cases hres
            cases hmanifests
            rfl
        | err error =>
            rw [hfold] at hres
            cases hres
            cases hmanifests
        | panic message =>
            rw [hfold] at hres
            cases hres
      · rintro ⟨paths, ⟨files', hfiles, hpaths⟩, hparsed, hsampled⟩
        cases hentries.symm.trans hfiles
        rw [manifestFiles_ok_iff.mpr hpaths, Outcome.ok_bind,
          fold_collectManifest_ok_iff.mpr hparsed, hsampled]
        rfl

/-! ## Success -/

section Command

variable (w : World) (iterate : HashMap Text → List (Text × Text))
  (componentPath : Text) (pairs : Option (List Text))
  (outputManifest : Option OsPath)

/-- Either the component is read and compared, or nothing has happened. -/
theorem exec_diffComponent_cases :
    (∃ paths sample manifests, w.Reads componentPath paths sample manifests ∧
      (diffComponent iterate componentPath pairs outputManifest).exec
          World.handler w =
        (writeOutput (findFilesMissingInManifests sample manifests
          (replacementsOf iterate pairs)) outputManifest).exec World.handler
            (w.printLines (reportLines w componentPath
              (replacementsOf iterate pairs) sample manifests))) ∨
    ((∀ paths sample manifests,
      ¬ w.Reads componentPath paths sample manifests) ∧
      ∃ stop, (diffComponent iterate componentPath pairs outputManifest).exec
        World.handler w = (Stop.outcome stop, w)) := by
  by_cases hread : ∃ read, w.readManifests componentPath = .ok read
  · obtain ⟨⟨sample, manifests⟩, hread⟩ := hread
    obtain ⟨paths, hreads⟩ := readManifests_ok_iff.mp hread
    exact .inl ⟨paths, sample, manifests, hreads,
      exec_diffComponent_of_read iterate pairs outputManifest hread⟩
  · obtain ⟨stop, hstop⟩ :=
      Stop.exists_of_ne_ok fun read h => hread ⟨read, h⟩
    refine .inr ⟨?_, stop,
      exec_diffComponent_of_stop iterate pairs outputManifest hstop⟩
    intro paths sample manifests hreads
    exact hread ⟨_, readManifests_ok_iff.mpr ⟨paths, hreads⟩⟩

end Command

/-! ## The order of a directory -/

theorem exists_of_perm_map {α β : Type} {f : α → β} {ys : List β}
    {xs : List α} (h : ys.Perm (xs.map f)) :
    ∃ xs' : List α, ys = xs'.map f ∧ xs'.Perm xs := by
  have hmap : List.Forall₂ (fun y x => y = f x) (xs.map f) xs := by
    rw [List.forall₂_map_left_iff, List.forall₂_same]
    exact fun _ _ => rfl
  obtain ⟨xs', hxs', hperm⟩ := List.perm_comp_forall₂ h hmap
  refine ⟨xs', ?_, hperm⟩
  rwa [← List.forall₂_eq_eq_eq, List.forall₂_map_right_iff]

/-- The world in which a directory is listed like this. -/
def World.listing (w : World) (dir : Text) (files : List (Option OsPath)) :
    World :=
  { w with entries := Function.update w.entries dir (some files) }

theorem World.Reads.of_perm {w : World} {componentPath : Text}
    {files files' : List (Option OsPath)} {paths : List Text}
    {sample : Manifest} {manifests : List Manifest}
    (h : (w.listing componentPath files).Reads componentPath paths sample
      manifests) (hperm : files'.Perm files) :
    ∃ paths' manifests', manifests'.Perm manifests ∧
      (w.listing componentPath files').Reads componentPath paths' sample
        manifests' := by
  obtain ⟨⟨listed, hlisted, hpaths⟩, hparsed, hsampled⟩ := h
  have hfiles : files = listed := by
    have hupdate : (w.listing componentPath files).entries componentPath =
        some files := Function.update_self _ _ _
    exact Option.some.inj (hupdate.symm.trans hlisted)
  have hnames := (hperm.filterMap id).filter
    fun path => hasManifestExtension path
  rw [hfiles, hpaths] at hnames
  obtain ⟨paths', hpaths', hsame⟩ := exists_of_perm_map hnames
  obtain ⟨manifests', hparsed', hmanifests⟩ :=
    List.perm_comp_forall₂ hsame hparsed
  exact ⟨paths', manifests', hmanifests,
    ⟨files', Function.update_self _ _ _, hpaths'⟩, hparsed', hsampled⟩

theorem mem_allFiles_of_perm {manifests manifests' : List Manifest}
    (h : manifests'.Perm manifests) (f : File) :
    f ∈ allFiles manifests' ↔ f ∈ allFiles manifests :=
  (h.flatMap_right Manifest.files).mem_iff

theorem missing_of_perm (sample : Manifest) {manifests manifests' : List Manifest}
    (replacements : Replacements) (h : manifests'.Perm manifests) :
    findFilesMissingInManifests sample manifests' replacements =
      findFilesMissingInManifests sample manifests replacements := by
  rw [findFilesMissingInManifests_eq, findFilesMissingInManifests_eq]
  simp only [mem_allFiles_of_perm h]

theorem removed_of_perm (sample : Manifest) {manifests manifests' : List Manifest}
    (inComponent : Text → Bool) (replacements : Replacements)
    (h : manifests'.Perm manifests) :
    (findRemovedFiles sample manifests' inComponent replacements).Perm
      (findRemovedFiles sample manifests inComponent replacements) := by
  rw [findRemovedFiles_eq, findRemovedFiles_eq]
  exact (h.flatMap_right Manifest.files).filter _

/-- Two runs of the command tell the same: they print the same lines in some
order and leave the same files. -/
structure SameReport (x y : Outcome DiffError Unit × World) : Prop where
  ok_iff : x.1 = .ok () ↔ y.1 = .ok ()
  printed : x.2.printed.Perm y.2.printed
  content : x.2.content = y.2.content

theorem sameReport_writeOutput {w w' : World} (missingFiles : List File)
    (outputManifest : Option OsPath) (hopens : w.opens = w'.opens)
    (hprinted : w.printed.Perm w'.printed) (hcontent : w.content = w'.content) :
    SameReport ((writeOutput missingFiles outputManifest).exec World.handler w)
      ((writeOutput missingFiles outputManifest).exec World.handler w') := by
  cases outputManifest with
  | none => exact ⟨Iff.rfl, hprinted, hcontent⟩
  | some path =>
      cases hpath : w.opens path with
      | true =>
          have hall : ∀ path', some path = some path' →
              w.opens path' = true := by
            rintro _ ⟨⟩
            exact hpath
          rw [exec_writeOutput w _ hall,
            exec_writeOutput w' _ (hopens ▸ hall)]
          refine ⟨Iff.rfl, hprinted, ?_⟩
          simp [World.written, World.store, hcontent]
      | false =>
          rw [exec_writeOutput_of_closed w _ hpath,
            exec_writeOutput_of_closed w' _ (hopens ▸ hpath)]
          exact ⟨Iff.rfl, hprinted, hcontent⟩

/-- In which order a directory is listed does not matter. -/
theorem diffComponent_order (w : World)
    (iterate : HashMap Text → List (Text × Text)) (componentPath : Text)
    (pairs : Option (List Text)) (outputManifest : Option OsPath)
    {files files' : List (Option OsPath)} (h : files.Perm files') :
    SameReport
      ((diffComponent iterate componentPath pairs outputManifest).exec
        World.handler (w.listing componentPath files))
      ((diffComponent iterate componentPath pairs outputManifest).exec
        World.handler (w.listing componentPath files')) := by
  rcases exec_diffComponent_cases (w.listing componentPath files) iterate
    componentPath pairs outputManifest with
    ⟨paths, sample, manifests, hreads, hexec⟩ | ⟨hnone, stop, hexec⟩
  · obtain ⟨paths', manifests', hmanifests, hreads'⟩ := hreads.of_perm h.symm
    have hexec' := exec_diffComponent_of_read iterate pairs outputManifest
      (readManifests_ok_iff.mpr ⟨paths', hreads'⟩)
    rw [hexec, hexec', missing_of_perm sample _ hmanifests]
    refine sameReport_writeOutput _ outputManifest rfl ?_ rfl
    refine List.Perm.append_left _ ?_
    unfold reportLines
    rw [missing_of_perm sample _ hmanifests]
    exact List.Perm.append_left _ ((removed_of_perm sample _ _
      hmanifests).symm.map removedLine)
  · rcases exec_diffComponent_cases (w.listing componentPath files') iterate
      componentPath pairs outputManifest with
      ⟨paths', sample, manifests', hreads', -⟩ | ⟨-, stop', hexec'⟩
    · obtain ⟨paths, manifests, -, hreads⟩ := hreads'.of_perm h
      exact absurd hreads (hnone paths sample manifests)
    · rw [hexec, hexec']
      exact ⟨iff_of_false (stop.outcome_ne_ok ()) (stop'.outcome_ne_ok ()),
        List.Perm.rfl, rfl⟩

def zlibPath : OsPath := .text "zlib/zlib.p5m".toList

def makefilePath : OsPath := .text "zlib/Makefile".toList

/-- A component that has not packaged one of its two files, and may write to a
manifest of its own. -/
def zlibWorld : World where
  entries := fun dir =>
    if dir = "zlib".toList then some [some zlibPath, some makefilePath]
    else none
  holds := fun dir path =>
    dir = "zlib".toList && path = .text "zlib/missing.p5m".toList
  content := fun path =>
    if path = zlibPath then some "file path=usr/lib/libz.so\n".toList
    else if path = .text "zlib/manifests/sample-manifest.p5m".toList then
      some "file path=usr/lib/libz.so\nfile path=usr/include/zlib.h\n".toList
    else none
  opens := fun path => path = .text "zlib/missing.p5m".toList

theorem diffComponent_order_zlib :
    SameReport
      ((diffComponent (fun _ => []) "zlib".toList none none).exec
        World.handler (zlibWorld.listing "zlib".toList
          [some zlibPath, some makefilePath]))
      ((diffComponent (fun _ => []) "zlib".toList none none).exec
        World.handler (zlibWorld.listing "zlib".toList
          [some makefilePath, some zlibPath])) :=
  diffComponent_order zlibWorld (fun _ => []) "zlib".toList none none
    (List.Perm.swap _ _ _)

end Ips.ComponentDiff
