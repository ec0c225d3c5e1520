import Ips.Cycles
import Ips.MakefileInclude

/-!
# Includes on a file system

A relative path is resolved against the current directory.  The paths of
included makefiles are canonical, so from the second level on the recursion of
`Makefile::parse_all` does not depend on the current directory, and it follows
the graph of files: it ends exactly when no cycle of includes can be reached.
-/

namespace Ips

/-- The components of a path as written: empty ones are dropped, and `.` stays
at the start of a relative path only. -/
def Path.ofText (s : Text) : Path :=
  let parts := (splitAt '/' s).filter fun part => part ≠ []
  if s.head? = some '/' then
    { absolute := true, components := parts.filter fun part => part ≠ ['.'] }
  else
    { components := parts.take 1 ++
        (parts.drop 1).filter fun part => part ≠ ['.'] }

/-- `Path::join`. -/
def Path.join (base p : Path) : Path :=
  if p.absolute then p
  else { base with components := base.components ++ p.components }

namespace Makefile

open Relation

/-- A file system that does not change.  `resolve` gives the canonical path of
what an absolute path names, if it exists. -/
structure Files where
  resolve : Path → Option Path
  isDir : Path → Bool
  content : Path → Option Text
  resolve_absolute : ∀ p q, resolve p = some q → q.absolute = true

/-- What a path names, seen from a current directory.  The empty path names
nothing. -/
def Files.lookup (files : Files) (cwd p : Path) : Option Path :=
  if p.absolute = false ∧ p.components = [] then none
  else files.resolve (cwd.join p)

theorem Files.lookup_of_absolute (files : Files) (cwd cwd' : Path) {p : Path}
    (h : p.absolute = true) : files.lookup cwd p = files.lookup cwd' p := by
  simp [lookup, Path.join, h]

theorem Files.lookup_absolute {files : Files} {cwd p q : Path}
    (h : files.lookup cwd p = some q) : q.absolute = true := by
  unfold lookup at h
  split_ifs at h
  exact files.resolve_absolute _ _ h

def Files.toFileSystem (files : Files) : FileSystem where
  setCurrentDir := fun cwd dir =>
    (files.lookup cwd dir).filter fun path => files.isDir path
  canonicalize := fun cwd name => files.lookup cwd (Path.ofText name)
  readToString := fun cwd path => (files.lookup cwd path).bind files.content
  canonicalize_absolute := fun _ _ _ h => Files.lookup_absolute h
  setCurrentDir_absolute := by
    intro cwd cwd' dir h
    rw [files.lookup_of_absolute cwd cwd' h]

/-- Only finitely many paths are canonical. -/
def Files.IsFinite (files : Files) : Prop :=
  {q | ∃ p, files.resolve p = some q}.Finite

variable (files : Files) (upper : UppercaseTable)

/-- A file includes another one, as seen from a current directory. -/
def FileIncludes (cwd p q : Path) : Prop :=
  ∃ m dir, parseSingleFile files.toFileSystem upper cwd p = .ok m ∧
    files.toFileSystem.setCurrentDir cwd (directory m) = some dir ∧
    ∃ incl ∈ m.includes, files.toFileSystem.canonicalize dir incl = some q

/-- The file parses, and its includes are found. -/
def FileResolves (cwd p : Path) : Prop :=
  ∃ m, parseSingleFile files.toFileSystem upper cwd p = .ok m ∧
    (m.includes ≠ [] →
      ∃ dir, files.toFileSystem.setCurrentDir cwd (directory m) = some dir ∧
        ∀ incl ∈ m.includes,
          ∃ q, files.toFileSystem.canonicalize dir incl = some q)

/-! ## Independence of the current directory -/

variable {files upper}

theorem parseSingleFile_path {fs : FileSystem} {cwd p : Path} {m : Makefile}
    (h : parseSingleFile fs upper cwd p = .ok m) : m.path = p := by
  unfold parseSingleFile at h
  split at h
  · cases h
  · obtain ⟨m', -, heq⟩ := Outcome.bind_eq_ok_iff.mp h
    cases heq
    rfl

theorem parseSingleFile_of_absolute (cwd cwd' : Path) {p : Path}
    (h : p.absolute = true) :
    parseSingleFile files.toFileSystem upper cwd p =
      parseSingleFile files.toFileSystem upper cwd' p := by
  have hread : files.toFileSystem.readToString cwd p =
      files.toFileSystem.readToString cwd' p :=
    congrArg (fun path => path.bind files.content)
      (files.lookup_of_absolute cwd cwd' h)
  unfold parseSingleFile
  rw [hread]

theorem setCurrentDir_of_absolute {fs : FileSystem} (cwd cwd' : Path)
    {m : Makefile} (h : m.path.absolute = true) :
    fs.setCurrentDir cwd (directory m) = fs.setCurrentDir cwd' (directory m) :=
  fs.setCurrentDir_absolute cwd cwd' _ (directory_absolute h)

theorem parseIncludedMakefiles_of_absolute {fs : FileSystem} (cwd cwd' : Path)
    {m : Makefile} (h : m.path.absolute = true) (hsome : m.includes ≠ []) :
    parseIncludedMakefiles fs upper cwd m =
      parseIncludedMakefiles fs upper cwd' m := by
  unfold parseIncludedMakefiles getIncludes
  rw [if_pos hsome]
  dsimp only
  rw [setCurrentDir_of_absolute cwd cwd' h]

theorem parseAll_of_absolute {fs : FileSystem} (depth : ℕ) (cwd cwd' : Path)
    {m : Makefile} (h : m.path.absolute = true) (hsome : m.includes ≠ []) :
    parseAll fs upper depth cwd m = parseAll fs upper depth cwd' m := by
  cases depth with
  | zero => rfl
  | succ depth =>
      unfold parseAll
      rw [parseIncludedMakefiles_of_absolute cwd cwd' h hsome]

theorem parseAll_mono {fs : FileSystem} {n k : ℕ} {cwd : Path} {m : Makefile}
    {result : Makefile × Path} (hnk : n ≤ k)
    (h : parseAll fs upper n cwd m = .ok result) :
    parseAll fs upper k cwd m = .ok result := by
  induction n generalizing k cwd m result with
  | zero => cases h
  | succ n ih =>
      cases k with
      | zero => omega
      | succ k =>
          have hle : n ≤ k := by omega
          unfold parseAll at h ⊢
          obtain ⟨included, hincluded, h⟩ := Outcome.bind_eq_ok_iff.mp h
          obtain ⟨final, hfinal, heq⟩ := Outcome.bind_eq_ok_iff.mp h
          rw [hincluded, Outcome.ok_bind]
          apply Outcome.bind_eq_ok_iff.mpr
          refine ⟨final, ?_, heq⟩
          refine Outcome.fold_mono _ ?_ hfinal
          intro state incl state' hstep
          unfold mergeInclude at hstep ⊢
          split_ifs at hstep ⊢
          · obtain ⟨flat, hflat, heq⟩ := Outcome.bind_eq_ok_iff.mp hstep
            exact Outcome.bind_eq_ok_iff.mpr ⟨flat, ih hle hflat, heq⟩
          · exact hstep

/-! ## Cycles -/

def Finishes (files : Files) (upper : UppercaseTable) (cwd : Path)
    (depth : ℕ) (m : Makefile) : Prop :=
  ∃ result, parseAll files.toFileSystem upper depth cwd m = .ok result

theorem FileIncludes.absolute {cwd p q : Path}
    (h : FileIncludes files upper cwd p q) : q.absolute = true := by
  obtain ⟨m, dir, -, -, incl, -, hq⟩ := h
  exact files.toFileSystem.canonicalize_absolute _ _ _ hq

/-- An include is found in the graph of files. -/
theorem loadInclude_iff {cwd dir : Path} {incl : Text} {m : Makefile} :
    loadInclude files.toFileSystem upper dir incl = .ok m ↔
      ∃ q, files.toFileSystem.canonicalize dir incl = some q ∧
        parseSingleFile files.toFileSystem upper cwd q = .ok m := by
  unfold loadInclude
  cases hq : files.toFileSystem.canonicalize dir incl with
  | none => simp
  | some q =>
      have habs := files.toFileSystem.canonicalize_absolute _ _ _ hq
      have hsame : parseSingleFile files.toFileSystem upper dir q =
          parseSingleFile files.toFileSystem upper cwd q :=
        parseSingleFile_of_absolute dir cwd habs
      simp [hsame]

/-- The makefiles that a makefile includes, when all of them are found. -/
theorem exists_included {cwd p : Path} {m : Makefile}
    (hm : parseSingleFile files.toFileSystem upper cwd p = .ok m)
    (hsome : m.includes ≠ [])
    (hresolves : ∀ q, ReflTransGen (FileIncludes files upper cwd) p q →
      FileResolves files upper cwd q) :
    ∃ included dir,
      parseIncludedMakefiles files.toFileSystem upper cwd m =
        .ok (included, dir) ∧
      (∀ incl ∈ included, ∃ q, FileIncludes files upper cwd p q ∧
        parseSingleFile files.toFileSystem upper cwd q = .ok incl) ∧
      ∀ q, FileIncludes files upper cwd p q → ∃ incl ∈ included,
        parseSingleFile files.toFileSystem upper cwd q = .ok incl := by
  obtain ⟨m', hm', hfound⟩ := hresolves p .refl
  rw [hm] at hm'
  cases hm'
  obtain ⟨dir, hdir, hfound⟩ := hfound hsome
  have hedge : ∀ incl ∈ m.includes, ∀ q,
      files.toFileSystem.canonicalize dir incl = some q →
        FileIncludes files upper cwd p q :=
    fun incl hincl q hq => ⟨m, dir, hm, hdir, incl, hincl, hq⟩
  have hloads : ∀ incl ∈ m.includes,
      ∃ m', loadInclude files.toFileSystem upper dir incl = .ok m' := by
    intro incl hincl
    obtain ⟨q, hq⟩ := hfound incl hincl
    obtain ⟨m', hm', -⟩ := hresolves q (.single (hedge incl hincl q hq))
    exact ⟨m', loadInclude_iff.mpr ⟨q, hq, hm'⟩⟩
  obtain ⟨included, hincluded⟩ := exists_forall₂ hloads
  refine ⟨included, dir,
    parseIncludedMakefiles_eq _ upper hsome hdir hincluded, ?_, ?_⟩
  · intro incl hincl
    obtain ⟨name, hname, hload⟩ :=
      exists_of_forall₂ hincluded.flip incl hincl
    obtain ⟨q, hq, hparse⟩ := loadInclude_iff.mp hload
    exact ⟨q, hedge name hname q hq, hparse⟩
  · rintro q ⟨m', dir', hm', hdir', name, hname, hq⟩
    rw [hm] at hm'
    cases hm'
    rw [hdir] at hdir'
    cases hdir'
    obtain ⟨incl, hincl, hload⟩ := exists_of_forall₂ hincluded name hname
    obtain ⟨q', hq', hparse⟩ := loadInclude_iff.mp hload
    rw [hq] at hq'
    cases hq'
    exact ⟨incl, hincl, hparse⟩

theorem hasIncludes_iff {m : Makefile} :
    hasIncludes m = true ↔ m.includes ≠ [] := by
  simp [hasIncludes]

theorem mergeInclude_ok_iff (cwd : Path) {depth : ℕ} {incl : Makefile}
    (habs : incl.path.absolute = true) (state : Makefile × Path) :
    (∃ state', mergeInclude (parseAll files.toFileSystem upper depth) state
        incl = .ok state') ↔
      (incl.includes ≠ [] → Finishes files upper cwd depth incl) := by
  unfold mergeInclude
  split_ifs with hincludes
  · have hsome := hasIncludes_iff.mp hincludes
    rw [parseAll_of_absolute depth state.2 cwd habs hsome]
    constructor
    · rintro ⟨state', h⟩ -
      obtain ⟨final, hfinal, -⟩ := Outcome.bind_eq_ok_iff.mp h
      exact ⟨final, hfinal⟩
    · intro h
      obtain ⟨final, hfinal⟩ := h hsome
      rw [hfinal]
      exact ⟨_, rfl⟩
  · refine ⟨fun _ hsome => absurd (hasIncludes_iff.mpr hsome) hincludes, ?_⟩
    exact fun _ => ⟨_, rfl⟩

theorem finishes_of_no_includes (cwd : Path) (depth : ℕ) {m : Makefile}
    (hnone : m.includes = []) : Finishes files upper cwd (depth + 1) m := by
  refine ⟨(new.merge m, cwd), ?_⟩
  simp [parseAll, parseIncludedMakefiles, getIncludes, hnone, Outcome.mapErr]

section

variable {cwd p : Path} {m : Makefile}
  (hm : parseSingleFile files.toFileSystem upper cwd p = .ok m)
  (hsome : m.includes ≠ [])
  (hresolves : ∀ q, ReflTransGen (FileIncludes files upper cwd) p q →
    FileResolves files upper cwd q)
include hm hsome hresolves

/-- A call ends when the calls for the included files that have includes do,
one level below. -/
theorem finishes_succ_iff (depth : ℕ) :
    Finishes files upper cwd (depth + 1) m ↔
      ∀ q, FileIncludes files upper cwd p q → ∀ incl,
        parseSingleFile files.toFileSystem upper cwd q = .ok incl →
          incl.includes ≠ [] → Finishes files upper cwd depth incl := by
  obtain ⟨included, dir, hparse, hfrom, hto⟩ :=
    exists_included hm hsome hresolves
  have habs : ∀ incl ∈ included, incl.path.absolute = true := by
    intro incl hincl
    obtain ⟨q, hq, hread⟩ := hfrom incl hincl
    rw [parseSingleFile_path hread]
    exact hq.absolute
  have hloop := Outcome.fold_ok_iff
    (mergeInclude (parseAll files.toFileSystem upper depth))
    (fun state incl hincl =>
      mergeInclude_ok_iff cwd (habs incl hincl) state) (new, dir)
  have hends : Finishes files upper cwd (depth + 1) m ↔
      ∃ final, Outcome.fold
        (mergeInclude (parseAll files.toFileSystem upper depth)) (new, dir)
        included = .ok final := by
    unfold Finishes parseAll
    rw [hparse, Outcome.mapErr, Outcome.ok_bind]
    constructor
    · rintro ⟨result, h⟩
      obtain ⟨final, hfinal, -⟩ := Outcome.bind_eq_ok_iff.mp h
      exact ⟨final, hfinal⟩
    · rintro ⟨final, hfinal⟩
      refine ⟨(final.1.merge m, final.2), ?_⟩
      rw [hfinal, Outcome.ok_bind, Outcome.pure_eq]
  rw [hends, hloop]
  constructor
  · intro h q hq incl hread hincludes
    obtain ⟨incl', hincl', hread'⟩ := hto q hq
    rw [hread] at hread'
    cases hread'
    exact h incl hincl' hincludes
  · intro h incl hincl hincludes
    obtain ⟨q, hq, hread⟩ := hfrom incl hincl
    exact h q hq incl hread hincludes

/-- Under the same assumptions a call fails for want of depth only. -/
theorem parseAll_ok_or_depth_of_includes {depth : ℕ}
    (hcalls : ∀ q, FileIncludes files upper cwd p q → ∀ incl,
      parseSingleFile files.toFileSystem upper cwd q = .ok incl →
        Finishes files upper cwd depth incl ∨
          parseAll files.toFileSystem upper depth cwd incl = .err .depth) :
    Finishes files upper cwd (depth + 1) m ∨
      parseAll files.toFileSystem upper (depth + 1) cwd m = .err .depth := by
  obtain ⟨included, dir, hparse, hfrom, -⟩ :=
    exists_included hm hsome hresolves
  have hstep : ∀ state, ∀ incl ∈ included,
      (∃ state', mergeInclude (parseAll files.toFileSystem upper depth) state
        incl = .ok state') ∨
      mergeInclude (parseAll files.toFileSystem upper depth) state incl =
        .err .depth := by
    intro state incl hincl
    obtain ⟨q, hq, hread⟩ := hfrom incl hincl
    have habs : incl.path.absolute = true := by
      rw [parseSingleFile_path hread]
      exact hq.absolute
    rcases hcalls q hq incl hread with hok | herr
    · exact .inl ((mergeInclude_ok_iff cwd habs state).mpr fun _ => hok)
    · unfold mergeInclude
      split_ifs with hincludes
      · rw [parseAll_of_absolute depth state.2 cwd habs
          (hasIncludes_iff.mp hincludes), herr]
        exact .inr rfl
      · exact .inl ⟨_, rfl⟩
  unfold Finishes parseAll
  rw [hparse, Outcome.mapErr, Outcome.ok_bind]
  rcases Outcome.fold_ok_or_err _ hstep (new, dir) with ⟨final, hfinal⟩ | herr
  · rw [hfinal]
    exact .inl ⟨_, rfl⟩
  · rw [herr]
    exact .inr rfl

end

section

variable {cwd path : Path}
  (hresolves : ∀ p, ReflTransGen (FileIncludes files upper cwd) path p →
    FileResolves files upper cwd p)
include hresolves

theorem parseAll_ok_or_depth (depth : ℕ) {p : Path} {m : Makefile}
    (hp : ReflTransGen (FileIncludes files upper cwd) path p)
    (hm : parseSingleFile files.toFileSystem upper cwd p = .ok m) :
    Finishes files upper cwd depth m ∨
      parseAll files.toFileSystem upper depth cwd m = .err .depth := by
  induction depth generalizing p m with
  | zero => exact .inr rfl
  | succ depth ih =>
      by_cases hnone : m.includes = []
      · exact .inl (finishes_of_no_includes cwd depth hnone)
      · apply parseAll_ok_or_depth_of_includes hm hnone
        · exact fun q hq => hresolves q (hp.trans hq)
        · exact fun q hq incl hread => ih (hp.tail hq) hread

omit hresolves in
theorem acc_of_no_includes {p : Path} {m : Makefile}
    (hm : parseSingleFile files.toFileSystem upper cwd p = .ok m)
    (hnone : m.includes = []) :
    Acc (Function.swap (FileIncludes files upper cwd)) p := by
  apply Acc.intro
  rintro q ⟨m', dir, hm', -, name, hname, -⟩
  rw [hm] at hm'
  cases hm'
  simp [hnone] at hname

theorem acc_of_finishes (depth : ℕ) {p : Path} {m : Makefile}
    (hp : ReflTransGen (FileIncludes files upper cwd) path p)
    (hm : parseSingleFile files.toFileSystem upper cwd p = .ok m)
    (h : Finishes files upper cwd depth m) :
    Acc (Function.swap (FileIncludes files upper cwd)) p := by
  induction depth generalizing p m with
  | zero =>
      obtain ⟨result, hresult⟩ := h
      cases hresult
  | succ depth ih =>
      apply Acc.intro
      intro q hq
      obtain ⟨incl, hread, -⟩ := hresolves q (hp.tail hq)
      by_cases hnone : incl.includes = []
      · exact acc_of_no_includes hread hnone
      · have hsome : m.includes ≠ [] := by
          obtain ⟨m', dir, hm', -, name, hname, -⟩ := hq
          rw [hm] at hm'
          cases hm'
          exact List.ne_nil_of_mem hname
        have hbelow := (finishes_succ_iff hm hsome
          (fun q hq => hresolves q (hp.trans hq)) depth).mp h q hq incl hread
        exact ih (hp.tail hq) hread (hbelow hnone)

theorem finishes_of_acc {p : Path}
    (hacc : Acc (Function.swap (FileIncludes files upper cwd)) p)
    (hp : ReflTransGen (FileIncludes files upper cwd) path p) :
    ∃ depth, ∀ m, parseSingleFile files.toFileSystem upper cwd p = .ok m →
      Finishes files upper cwd depth m := by
  induction hacc with
  | intro p _ ih =>
      obtain ⟨m, hm, -⟩ := hresolves p hp
      by_cases hnone : m.includes = []
      · refine ⟨1, ?_⟩
        intro m' hm'
        rw [hm] at hm'
        cases hm'
        exact finishes_of_no_includes cwd 0 hnone
      · have hbelow : ∀ q, ReflTransGen (FileIncludes files upper cwd) p q →
            FileResolves files upper cwd q :=
          fun q hq => hresolves q (hp.trans hq)
        obtain ⟨included, dir, -, hfrom, hto⟩ :=
          exists_included hm hnone hbelow
        have hcalls : ∀ incl ∈ included,
            ∃ depth, Finishes files upper cwd depth incl := by
          intro incl hincl
          obtain ⟨q, hq, hread⟩ := hfrom incl hincl
          obtain ⟨depth, hdepth⟩ := ih q hq (hp.tail hq)
          exact ⟨depth, hdepth incl hread⟩
        have hmono : ∀ n k incl, n ≤ k → Finishes files upper cwd n incl →
            Finishes files upper cwd k incl := by
          rintro n k incl hnk ⟨result, hresult⟩
          exact ⟨result, parseAll_mono hnk hresult⟩
        obtain ⟨depth, hdepth⟩ := exists_common_bound hmono hcalls
        refine ⟨depth + 1, ?_⟩
        intro m' hm'
        rw [hm] at hm'
        cases hm'
        rw [finishes_succ_iff hm hnone hbelow]
        intro q hq incl hread _
        obtain ⟨incl', hincl', hread'⟩ := hto q hq
        rw [hread] at hread'
        cases hread'
        exact hdepth incl hincl'

end

theorem finite_reachable (hfinite : files.IsFinite) (cwd path : Path) :
    {p | ReflTransGen (FileIncludes files upper cwd) path p}.Finite := by
  apply Set.Finite.subset (Set.Finite.insert path hfinite)
  intro p hp
  rcases ReflTransGen.cases_tail hp with heq | ⟨p', -, hedge⟩
  · exact Set.mem_insert_iff.mpr (.inl heq)
  · obtain ⟨m, dir, -, -, incl, -, hq⟩ := hedge
    apply Set.mem_insert_of_mem
    change files.lookup dir (Path.ofText incl) = some p at hq
    unfold Files.lookup at hq
    split_ifs at hq
    exact ⟨_, hq⟩

/-- `Makefile::parse_all` ends exactly when no cycle of includes can be
reached, and otherwise no depth of calls is enough. -/
theorem parseAll_ends_iff (files : Files) (hfinite : files.IsFinite)
    (upper : UppercaseTable) (cwd path : Path) (root : Makefile)
    (hroot : parseSingleFile files.toFileSystem upper cwd path = .ok root)
    (hresolves : ∀ p, ReflTransGen (FileIncludes files upper cwd) path p →
      FileResolves files upper cwd p) :
    ((∃ depth result, parseAll files.toFileSystem upper depth cwd root =
        .ok result) ↔
      ¬ ReachesCycle (FileIncludes files upper cwd) path) ∧
    (ReachesCycle (FileIncludes files upper cwd) path →
      ∀ depth, parseAll files.toFileSystem upper depth cwd root =
        .err .depth) := by
  have hends : (∃ depth result,
      parseAll files.toFileSystem upper depth cwd root = .ok result) ↔
        ¬ ReachesCycle (FileIncludes files upper cwd) path := by
    constructor
    · rintro ⟨depth, hresult⟩
      exact not_reachesCycle_of_acc
        (acc_of_finishes hresolves depth .refl hroot hresult)
    · intro hcycle
      obtain ⟨depth, hdepth⟩ := finishes_of_acc hresolves
        (acc_of_not_reachesCycle (finite_reachable hfinite cwd path) hcycle)
        .refl
      exact ⟨depth, hdepth root hroot⟩
  refine ⟨hends, ?_⟩
  intro hcycle depth
  rcases parseAll_ok_or_depth hresolves depth .refl hroot with hok | herr
  · exact absurd hcycle (hends.mp ⟨depth, hok⟩)
  · exact herr

def loopPaths : List Path := [Path.root, fileAt "a.mk", fileAt "b.mk"]

/-- Two files that include each other. -/
def loopFiles : Files where
  resolve := fun p => if p ∈ loopPaths then some p else none
  isDir := fun p => p = Path.root
  content := fun p =>
    if p = fileAt "a.mk" then some "include b.mk\n".toList
    else if p = fileAt "b.mk" then some "include a.mk\n".toList
    else none
  resolve_absolute := by
    intro p q h
    split_ifs at h with hp
    cases h
    exact forall_mem_of_all (P := fun p => p.absolute = true) rfl p hp

theorem loopFiles_isFinite : loopFiles.IsFinite := by
  apply Set.Finite.subset loopPaths.finite_toSet
  rintro q ⟨p, h⟩
  change (if p ∈ loopPaths then some p else none) = some q at h
  split_ifs at h with hp
  cases h
  exact hp

def loopMakefile (path incl : String) : Makefile :=
  { new with path := fileAt path, includes := [incl.toList] }

theorem loopFiles_reads :
    parseSingleFile loopFiles.toFileSystem asciiUppercase Path.root
        (fileAt "a.mk") = .ok (loopMakefile "a.mk" "b.mk") ∧
      parseSingleFile loopFiles.toFileSystem asciiUppercase Path.root
        (fileAt "b.mk") = .ok (loopMakefile "b.mk" "a.mk") := by
  decide +kernel

theorem loopFiles_finds (path incl : String) (hpath : path ∈ ["a.mk", "b.mk"])
    (hincl : incl ∈ ["a.mk", "b.mk"]) :
    loopFiles.toFileSystem.setCurrentDir Path.root
        (directory (loopMakefile path incl)) = some Path.root ∧
      loopFiles.toFileSystem.canonicalize Path.root incl.toList =
        some (fileAt incl) := by
  simp only [List.mem_cons, List.not_mem_nil, or_false] at hpath hincl
  rcases hpath with rfl | rfl <;> rcases hincl with rfl | rfl <;>
    decide +kernel

theorem parseAll_ends_iff_loop :
    ReachesCycle (FileIncludes loopFiles asciiUppercase Path.root)
        (fileAt "a.mk") ∧
      ∀ depth, parseAll loopFiles.toFileSystem asciiUppercase depth Path.root
        (loopMakefile "a.mk" "b.mk") = .err .depth := by
  obtain ⟨hreadA, hreadB⟩ := loopFiles_reads
  obtain ⟨hdirA, hfindB⟩ := loopFiles_finds "a.mk" "b.mk" (by simp) (by simp)
  obtain ⟨hdirB, hfindA⟩ := loopFiles_finds "b.mk" "a.mk" (by simp) (by simp)
  have hAB : FileIncludes loopFiles asciiUppercase Path.root (fileAt "a.mk")
      (fileAt "b.mk") :=
    ⟨_, _, hreadA, hdirA, _, List.mem_singleton.mpr rfl, hfindB⟩
  have hBA : FileIncludes loopFiles asciiUppercase Path.root (fileAt "b.mk")
      (fileAt "a.mk") :=
    ⟨_, _, hreadB, hdirB, _, List.mem_singleton.mpr rfl, hfindA⟩
  have hcycle : ReachesCycle
      (FileIncludes loopFiles asciiUppercase Path.root) (fileAt "a.mk") :=
    ⟨_, .refl, .tail (.single hAB) hBA⟩
  have hreachable : ∀ p, ReflTransGen
      (FileIncludes loopFiles asciiUppercase Path.root) (fileAt "a.mk") p →
        p = fileAt "a.mk" ∨ p = fileAt "b.mk" := by
    intro p hp
    induction hp with
    | refl => exact .inl rfl
    | tail _ hedge ih =>
        obtain ⟨m, dir, hread, hdir, incl, hincl, hq⟩ := hedge
        rcases ih with rfl | rfl
        · rw [hreadA] at hread
          cases hread
          rw [hdirA] at hdir
          cases hdir
          rw [List.mem_singleton.mp hincl, hfindB] at hq
          exact .inr (Option.some.inj hq).symm
        · rw [hreadB] at hread
          cases hread
          rw [hdirB] at hdir
          cases hdir
          rw [List.mem_singleton.mp hincl, hfindA] at hq
          exact .inl (Option.some.inj hq).symm
  have hresolves : ∀ p, ReflTransGen
      (FileIncludes loopFiles asciiUppercase Path.root) (fileAt "a.mk") p →
        FileResolves loopFiles asciiUppercase Path.root p := by
    intro p hp
    rcases hreachable p hp with rfl | rfl
    · refine ⟨_, hreadA, fun _ => ⟨_, hdirA, ?_⟩⟩
      intro incl hincl
      rw [List.mem_singleton.mp hincl]
      exact ⟨_, hfindB⟩
    · refine ⟨_, hreadB, fun _ => ⟨_, hdirB, ?_⟩⟩
      intro incl hincl
      rw [List.mem_singleton.mp hincl]
      exact ⟨_, hfindA⟩
  exact ⟨hcycle, (parseAll_ends_iff loopFiles loopFiles_isFinite
    asciiUppercase Path.root _ _ hreadA hresolves).2 hcycle⟩

end Makefile

end Ips
