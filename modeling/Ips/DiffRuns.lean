import Ips.DiffCommand

/-!
# The runs of the comparison of a component

The output manifest is opened, and thereby emptied, only when the comparison
is complete: behind the replies with the directory of the component, all its
manifests and the sample.  From there on nothing else is touched, and a run
that succeeds has written the missing files.
-/

namespace Ips.ComponentDiff

open Interaction Prog

/-- A request that got its reply. -/
def replied (request : Request) (reply : System.Reply request) :
    Event System :=
  ⟨request, .ok reply⟩

section Calls

variable {ε β : Type} {request : Request}
  {onFailure : System.Failure request → ε}
  {events : List (Event System)}

theorem runs_call_ok_iff {reply : System.Reply request} :
    Runs (call request onFailure) events (.ok reply) ↔
      events = [replied request reply] :=
  runs_attempt_ok_iff (I := System)

theorem runs_call_bind_ok_iff {f : System.Reply request → Prog System ε β}
    {b : β} :
    Runs (call request onFailure >>= f) events (.ok b) ↔
      ∃ reply rest, events = replied request reply :: rest ∧
        Runs (f reply) rest (.ok b) :=
  runs_attempt_bind_ok_iff (I := System)

end Calls

/-! ## Reading -/

theorem manifestFiles_ok_iff {ε : Type} {files : List (Option OsPath)}
    {paths : List Text} :
    (manifestFiles files : Outcome ε (List Text)) = .ok paths ↔
      ((files.filterMap id).filter fun path => hasManifestExtension path) =
        paths.map .text := by
  have hfold : ∀ (listed : List OsPath) (done : List Text),
      (Outcome.fold pushPath done listed : Outcome ε (List Text)) =
          .ok paths ↔
        ∃ more, paths = done ++ more ∧ listed = more.map .text := by
    intro listed
    induction listed with
    | nil =>
        intro done
        simp [eq_comm]
    | cons path listed ih =>
        intro done
        rw [Outcome.fold_cons]
        cases path with
        | raw bytes =>
            constructor
            · rintro ⟨⟩
            · rintro ⟨more, -, hmore⟩
              cases more <;> cases hmore
        | text s =>
            change Outcome.fold pushPath (done ++ [s]) listed = .ok paths ↔ _
            rw [ih]
            constructor
            · rintro ⟨more, rfl, rfl⟩
              exact ⟨s :: more, by simp, rfl⟩
            · rintro ⟨more, rfl, hmore⟩
              cases more with
              | nil => cases hmore
              | cons t more =>
                  cases hmore
                  exact ⟨more, by simp, rfl⟩
  unfold manifestFiles
  rw [hfold]
  simp

/-- A file that a run has read and that parses as this manifest. -/
def Parsed (path : Text) (manifest : Manifest) (e : Event System) : Prop :=
  ∃ content, e = replied (.readToString path) content ∧
    Manifest.parseString content = .ok manifest

theorem runs_parseFile_ok_iff {path : Text} {manifest : Manifest}
    {events : List (Event System)} :
    Runs (parseFile path) events (.ok manifest) ↔
      ∃ e, Parsed path manifest e ∧ events = [e] := by
  unfold parseFile Parsed
  rw [runs_call_bind_ok_iff]
  constructor
  · rintro ⟨content, rest, rfl, h⟩
    obtain ⟨rfl, heq⟩ := runs_done_iff.mp h
    exact ⟨_, ⟨content, rfl, Outcome.mapErr_eq_ok_iff.mp heq.symm⟩, rfl⟩
  · rintro ⟨_, ⟨content, rfl, hparse⟩, rfl⟩
    refine ⟨content, [], rfl, runs_done_iff.mpr ⟨rfl, ?_⟩⟩
    exact (Outcome.mapErr_eq_ok_iff.mpr hparse).symm

/-- A manifest with the event that it was read with. -/
structure Collected where
  manifest : Manifest
  event : Event System

theorem runs_collectManifest_ok_iff (done : List Manifest) (path : Text)
    (events : List (Event System)) (out : List Manifest) :
    Runs (collectManifest done path) events (.ok out) ↔
      ∃ c : Collected, Parsed path c.manifest c.event ∧ events = [c.event] ∧
        out = done ++ [c.manifest] := by
  unfold collectManifest
  rw [runs_bind_ok_iff]
  constructor
  · rintro ⟨first, manifest, rest, hparse, hpure, rfl⟩
    obtain ⟨e, he, rfl⟩ := runs_parseFile_ok_iff.mp hparse
    obtain ⟨rfl, heq⟩ := runs_pure_iff.mp hpure
    cases heq
    exact ⟨⟨manifest, e⟩, he, rfl, rfl⟩
  · rintro ⟨⟨manifest, e⟩, he, rfl, rfl⟩
    exact ⟨_, manifest, [], runs_parseFile_ok_iff.mpr ⟨e, he, rfl⟩,
      runs_pure_iff.mpr ⟨rfl, rfl⟩, rfl⟩

theorem foldl_collected (collected : List Collected) (done : List Manifest) :
    collected.foldl (fun done c => done ++ [c.manifest]) done =
      done ++ collected.map Collected.manifest := by
  induction collected generalizing done with
  | nil => simp
  | cons c collected ih => simp [ih]

theorem runs_collectManifests_ok_iff {paths : List Text}
    {manifests : List Manifest} {events : List (Event System)} :
    Runs (fold collectManifest [] paths) events (.ok manifests) ↔
      ∃ collected : List Collected,
        List.Forall₂ (fun path c => Parsed path c.manifest c.event)
          paths collected ∧
        events = collected.map Collected.event ∧
        manifests = collected.map Collected.manifest := by
  rw [runs_fold_ok_iff runs_collectManifest_ok_iff]
  simp only [foldl_collected, List.nil_append, ← List.map_eq_flatMap]

/-- What a run has read of a component: its directory, the manifests in it and
the sample. -/
structure Comparison (componentPath : Text) where
  files : List (Option OsPath)
  paths : List Text
  collected : List Collected
  sample : Manifest
  sampleEvent : Event System
  named : ((files.filterMap id).filter fun path =>
    hasManifestExtension path) = paths.map .text
  parsed : List.Forall₂ (fun path c => Parsed path c.manifest c.event)
    paths collected
  sampled : Parsed (sampleManifestFile componentPath) sample sampleEvent

namespace Comparison

variable {componentPath : Text}

def manifests (c : Comparison componentPath) : List Manifest :=
  c.collected.map Collected.manifest

def events (c : Comparison componentPath) : List (Event System) :=
  replied (.readDir componentPath) c.files ::
    (c.collected.map Collected.event ++ [c.sampleEvent])

end Comparison

theorem kept_unwrap {ε δ α : Type} {x : Outcome ε α} {result : Except ε α}
    {a : α} (hkept : Outcome.ok result = (x.kept : Outcome δ (Except ε α)))
    (hunwrap : (Outcome.unwrap result : Outcome δ α) = .ok a) : x = .ok a := by
  cases x with
  | ok b =>
      cases hkept
      cases hunwrap
      rfl
  | err error =>
      cases hkept
      cases hunwrap
  | panic message => cases hkept

theorem runs_readManifests_ok_iff {componentPath : Text}
    {read : Manifest × List Manifest} {events : List (Event System)} :
    Runs (readManifests componentPath) events (.ok read) ↔
      ∃ c : Comparison componentPath, read = (c.sample, c.manifests) ∧
        events = c.events := by
  unfold readManifests
  constructor
  · intro h
    obtain ⟨files, rest, rfl, hfiles⟩ := runs_call_bind_ok_iff.mp h
    obtain ⟨paths, hpaths, hcollect⟩ := runs_done_bind_ok_iff.mp hfiles
    obtain ⟨first, result, rest, hresult, hsample, rfl⟩ :=
      runs_bind_ok_iff.mp hcollect
    obtain ⟨x, hx, hkept⟩ := runs_mapOutcome_iff.mp hresult
    obtain ⟨first', sample, rest', hparse, hunwrap, rfl⟩ :=
      runs_bind_ok_iff.mp hsample
    obtain ⟨sampleEvent, hsampled, rfl⟩ :=
      runs_parseFile_ok_iff.mp (runs_mapErr_ok_iff.mp hparse)
    obtain ⟨manifests, hmanifests, hpure⟩ := runs_done_bind_ok_iff.mp hunwrap
    obtain ⟨rfl, heq⟩ := runs_pure_iff.mp hpure
    cases heq
    rw [kept_unwrap hkept hmanifests] at hx
    obtain ⟨collected, hparsed, rfl, rfl⟩ :=
      runs_collectManifests_ok_iff.mp hx
    exact ⟨⟨files, paths, collected, sample, sampleEvent,
      manifestFiles_ok_iff.mp hpaths, hparsed, hsampled⟩, rfl, rfl⟩
  · rintro ⟨c, rfl, rfl⟩
    refine runs_call_bind_ok_iff.mpr ⟨c.files, _, rfl, ?_⟩
    refine runs_done_bind_ok_iff.mpr
      ⟨c.paths, manifestFiles_ok_iff.mpr c.named, ?_⟩
    refine runs_bind_ok_iff.mpr ⟨_, .ok c.manifests, _,
      runs_mapOutcome_iff.mpr ⟨.ok c.manifests,
        runs_collectManifests_ok_iff.mpr ⟨_, c.parsed, rfl, rfl⟩, rfl⟩,
      ?_, rfl⟩
    refine runs_bind_ok_iff.mpr ⟨_, c.sample, [], runs_mapErr_ok_iff.mpr
      (runs_parseFile_ok_iff.mpr ⟨c.sampleEvent, c.sampled, rfl⟩), ?_, rfl⟩
    exact runs_done_bind_ok_iff.mpr ⟨_, rfl, runs_pure_iff.mpr ⟨rfl, rfl⟩⟩

/-! ## Searching and writing -/

/-- What `diff_component` does with the manifests in front of the output. -/
def printFiles (componentPath : Text) (replacements : Replacements)
    (sampleManifest : Manifest) (manifests : List Manifest) :
    Prog System DiffError (List File) := do
  let missingFiles :=
    findFilesMissingInManifests sampleManifest manifests replacements
  Prog.fold printLine () (missingFiles.map missingLine)
  let removedFiles ← Prog.fold
    (searchRemoved (makeFileMap sampleManifest.files) componentPath
      replacements) [] (allFiles manifests)
  Prog.fold printLine () (removedFiles.map removedLine)
  return missingFiles

theorem reportFiles_eq (componentPath : Text) (replacements : Replacements)
    (outputManifest : Option OsPath) (sampleManifest : Manifest)
    (manifests : List Manifest) :
    reportFiles componentPath replacements outputManifest sampleManifest
        manifests =
      (printFiles componentPath replacements sampleManifest manifests >>=
        fun missingFiles => writeOutput missingFiles outputManifest) := by
  unfold reportFiles printFiles
  simp only [Prog.bind_assoc, Prog.pure_bind]

/-- The replacements of the command line, in the order of their iteration. -/
def replacementsOf (iterate : HashMap Text → List (Text × Text))
    (pairs : Option (List Text)) : Replacements :=
  pairs.map fun pairs => iterate (parseTrippletReplacements pairs)

/-- The comparison in front of the output. -/
def compareFiles (componentPath : Text) (replacements : Replacements) :
    Prog System DiffError (List File) := do
  let (sampleManifest, manifests) ← readManifests componentPath
  printFiles componentPath replacements sampleManifest manifests

section Output

variable {iterate : HashMap Text → List (Text × Text)} {componentPath : Text}
  {pairs : Option (List Text)} {outputManifest : Option OsPath}

theorem diffComponent_eq :
    diffComponent iterate componentPath pairs outputManifest =
      (compareFiles componentPath (replacementsOf iterate pairs) >>=
        fun missingFiles => writeOutput missingFiles outputManifest) := by
  unfold diffComponent compareFiles
  simp only [Prog.bind_assoc, reportFiles_eq]
  rfl

def Request.Opens : Request → Prop
  | .openTruncated _ => True
  | _ => False

theorem within_call_bind {P : Request → Prop} {ε α : Type}
    {request : Request} {onFailure : System.Failure request → ε}
    {f : System.Reply request → Prog System ε α} (h : P request)
    (hf : ∀ reply, (f reply).Within P) :
    (call request onFailure >>= f).Within (I := System) P :=
  within_attempt_bind (I := System) h hf

theorem within_parseFile (path : Text) :
    (parseFile path).Within (I := System) fun request => ¬request.Opens :=
  within_call_bind id fun _ => trivial

theorem within_readManifests :
    (readManifests componentPath).Within (I := System)
      fun request => ¬request.Opens := by
  refine within_call_bind id fun files => ?_
  refine Within.bind trivial fun paths _ _ => ?_
  refine Within.bind (Within.mapOutcome (Within.fold
    (fun done path _ => ?_) [])) fun result _ _ => ?_
  · exact (within_parseFile path).bind fun _ _ _ => trivial
  · refine Within.bind (Within.mapErr (within_parseFile _))
      fun sample _ _ => ?_
    exact Within.bind trivial fun manifests _ _ => trivial

theorem within_printLines (lines : List Text) :
    (fold printLine () lines).Within (I := System)
      fun request => ¬request.Opens := by
  refine Within.fold ?_ ()
  intro _ line _
  exact within_attempt (I := System) id

theorem within_searchRemoved (fMap : HashMap File) (replacements : Replacements)
    (removed : List File) (f : File) :
    (searchRemoved fMap componentPath replacements removed f).Within
      (I := System) fun request => ¬request.Opens := by
  unfold searchRemoved
  cases f.getOriginalPath with
  | none =>
      dsimp only
      split_ifs <;> trivial
  | some path =>
      dsimp only
      split_ifs
      · trivial
      · exact within_call_bind id fun _ => trivial

theorem compareFiles_opens_nothing (replacements : Replacements) :
    (compareFiles componentPath replacements).Within (I := System)
      fun request => ¬request.Opens := by
  refine within_readManifests.bind fun read _ _ => ?_
  refine (within_printLines _).bind fun _ _ _ => ?_
  refine Within.bind (Within.fold (fun removed f _ =>
    within_searchRemoved _ _ removed f) _) fun removed _ _ => ?_
  exact (within_printLines _).bind fun _ _ _ => trivial

theorem runs_compareFiles {replacements : Replacements}
    {missingFiles : List File} {events : List (Event System)}
    (h : Runs (compareFiles componentPath replacements) events
      (.ok missingFiles)) :
    ∃ c : Comparison componentPath, c.events <+: events ∧
      missingFiles =
        findFilesMissingInManifests c.sample c.manifests replacements := by
  obtain ⟨first, read, rest, hread, hprint, rfl⟩ := runs_bind_ok_iff.mp h
  obtain ⟨c, rfl, rfl⟩ := runs_readManifests_ok_iff.mp hread
  refine ⟨c, List.prefix_append _ _, ?_⟩
  unfold printFiles at hprint
  obtain ⟨_, _, _, -, hsearch, -⟩ := runs_bind_ok_iff.mp hprint
  obtain ⟨_, _, _, -, hremoved, -⟩ := runs_bind_ok_iff.mp hsearch
  obtain ⟨_, _, _, -, hpure, -⟩ := runs_bind_ok_iff.mp hremoved
  obtain ⟨-, heq⟩ := runs_pure_iff.mp hpure
  exact Outcome.ok.inj heq

/-- The text that is written in a run. -/
def writtenText (events : List (Event System)) : Text :=
  events.flatMap fun e =>
    match e.request with
    | .write _ text => text
    | _ => []

def actionEvents (path : OsPath) (action : File) : List (Event System) :=
  ["file path=".toList, action.path, "\n".toList].map fun text =>
    replied (.write path text) ()

theorem runs_writeAction_ok_iff (path : OsPath) (u : Unit) (action : File)
    (events : List (Event System)) (out : Unit) :
    Runs (writeAction path u action) events (.ok out) ↔
      ∃ f, action = f ∧ events = actionEvents path f ∧ out = () := by
  unfold writeAction actionEvents
  constructor
  · intro h
    obtain ⟨⟨⟩, rest, rfl, hpath⟩ := runs_call_bind_ok_iff.mp h
    obtain ⟨⟨⟩, rest, rfl, hend⟩ := runs_call_bind_ok_iff.mp hpath
    rw [runs_call_ok_iff.mp hend]
    exact ⟨action, rfl, rfl, rfl⟩
  · rintro ⟨_, rfl, rfl, rfl⟩
    exact runs_call_bind_ok_iff.mpr ⟨(), _, rfl,
      runs_call_bind_ok_iff.mpr ⟨(), _, rfl, runs_call_ok_iff.mpr rfl⟩⟩

theorem writtenText_actions (path : OsPath) (missingFiles : List File) :
    writtenText (missingFiles.flatMap (actionEvents path)) =
      writeMissing missingFiles := by
  unfold writtenText writeMissing
  rw [List.flatMap_assoc]
  rfl

theorem runs_writeActions {path : OsPath} {missingFiles : List File}
    {events : List (Event System)} {u : Unit}
    (h : Runs (fold (writeAction path) () missingFiles) events (.ok u)) :
    writtenText events = writeMissing missingFiles := by
  obtain ⟨files, hfiles, rfl, -⟩ :=
    (runs_fold_ok_iff (runs_writeAction_ok_iff path)).mp h
  rw [List.forall₂_eq_eq_eq] at hfiles
  rw [← hfiles, writtenText_actions]

theorem within_writeActions (path : OsPath) (missingFiles : List File)
    {P : Request → Prop} (h : ∀ text, P (.write path text)) :
    (fold (writeAction path) () missingFiles).Within (I := System) P := by
  refine Within.fold ?_ ()
  intro _ action _
  exact within_call_bind (h _) fun _ => within_call_bind (h _) fun _ =>
    within_attempt (I := System) (h _)

theorem writeOutput_opens {missingFiles : List File} {path : OsPath}
    {before after : List (Event System)}
    {answer : System.Answer (.openTruncated path)}
    {outcome : Outcome DiffError Unit}
    (h : Runs (writeOutput missingFiles outputManifest)
      (before ++ ⟨.openTruncated path, answer⟩ :: after) outcome) :
    outputManifest = some path ∧ before = [] ∧
      (∀ e ∈ after, ∃ text, e.request = .write path text) ∧
      (outcome = .ok () → writtenText after = writeMissing missingFiles) := by
  cases outputManifest with
  | none =>
      obtain ⟨heq, -⟩ := runs_pure_iff.mp h
      simp at heq
  | some output =>
      have hfirst : before = [] ∧ Request.openTruncated path =
          .openTruncated output := by
        have hopens : ¬¬Request.Opens (.openTruncated path) :=
          not_not_intro trivial
        refine Runs.eq_first (P := fun request => ¬Request.Opens request) h ?_
          hopens
        intro answer
        cases answer with
        | error failure => trivial
        | ok reply =>
            exact within_writeActions output missingFiles fun _ => id
      obtain ⟨rfl, hpath⟩ := hfirst
      cases hpath
      obtain ⟨answer', rest, heq, hrest⟩ := runs_ask_iff.mp h
      cases heq
      cases answer with
      | error failure =>
          obtain ⟨rfl, rfl⟩ := runs_done_iff.mp hrest
          exact ⟨rfl, rfl, by simp, by simp⟩
      | ok reply =>
          have hwithin : (fold (writeAction path) () missingFiles).Within
              (I := System) fun request => ∃ text, request = .write path text :=
            within_writeActions path missingFiles fun text => ⟨text, rfl⟩
          refine ⟨rfl, rfl, hwithin.of_mem hrest, ?_⟩
          rintro rfl
          exact runs_writeActions hrest

end Output

/-! ## A run -/

/-- A component without manifests, and a sample without files. -/
def bareComparison : Comparison "bare".toList where
  files := []
  paths := []
  collected := []
  sample := { directories := [{ path := "usr".toList }] }
  sampleEvent := replied
    (.readToString "bare/manifests/sample-manifest.p5m".toList)
    "dir path=usr\n".toList
  named := rfl
  parsed := .nil
  sampled := ⟨_, rfl, by decide +kernel⟩

def barePath : OsPath := .text "missing.p5m".toList

theorem runs_bare :
    Runs (diffComponent (fun _ => []) "bare".toList none (some barePath))
      (bareComparison.events ++ ⟨.openTruncated barePath, .ok ()⟩ :: [])
      (.ok ()) := by
  have hcompare : Runs (compareFiles "bare".toList none)
      bareComparison.events (.ok []) := by
    refine runs_bind_ok_iff.mpr ⟨_, _, [],
      runs_readManifests_ok_iff.mpr ⟨bareComparison, rfl, rfl⟩, ?_,
      (List.append_nil _).symm⟩
    exact .done _
  rw [diffComponent_eq]
  exact runs_bind_ok_iff.mpr ⟨_, _, _, hcompare,
    runs_call_bind_ok_iff.mpr ⟨(), [], rfl, .done _⟩, rfl⟩

end Ips.ComponentDiff
