import Ips.MakefileFiles
import Ips.MakefileTextual

/-!
# The current directory as a state of the process

A call that fails has still changed the current directory.  Here the calls
behind `Makefile::parse_all` run on the current directory as a state that
errors do not undo; `parseAll` is what they return.  The path of a makefile
is kept as it was given, so a second call enters a relative directory from
wherever the first call stopped.
-/

namespace Ips.Makefile

open Peg Relation

/-- A call that returns and leaves a current directory behind. -/
def Process (ε α : Type) : Type := Path → Outcome ε α × Path

namespace Process

variable {ε α β : Type}

def bind (x : Process ε α) (f : α → Process ε β) : Process ε β := fun cwd =>
  match x cwd with
  | (.ok value, cwd') => f value cwd'
  | (.err error, cwd') => (.err error, cwd')
  | (.panic message, cwd') => (.panic message, cwd')

instance : Monad (Process ε) where
  pure := fun value cwd => (.ok value, cwd)
  bind := Process.bind

/-- `Result::map_err`. -/
def mapErr {δ : Type} (f : ε → δ) (x : Process ε α) : Process δ α :=
  fun cwd => ((x cwd).1.mapErr f, (x cwd).2)

/-- What a call returns, with the directory when it succeeds. -/
def outcome : Outcome ε α × Path → Outcome ε (α × Path)
  | (.ok value, cwd) => .ok (value, cwd)
  | (.err error, _) => .err error
  | (.panic message, _) => .panic message

theorem bind_apply_of_ok {x : Process ε α} {cwd cwd' : Path} {value : α}
    (h : x cwd = (.ok value, cwd')) (f : α → Process ε β) :
    (x >>= f) cwd = f value cwd' := by
  change Process.bind x f cwd = _
  unfold Process.bind
  rw [h]

theorem bind_apply_of_err {x : Process ε α} {cwd cwd' : Path} {error : ε}
    (h : x cwd = (.err error, cwd')) (f : α → Process ε β) :
    (x >>= f) cwd = (.err error, cwd') := by
  change Process.bind x f cwd = _
  unfold Process.bind
  rw [h]

theorem outcome_bind (x : Process ε α) (f : α → Process ε β) (cwd : Path) :
    outcome ((x >>= f) cwd) =
      (outcome (x cwd) >>= fun result => outcome (f result.1 result.2)) := by
  change outcome (Process.bind x f cwd) = _
  unfold Process.bind
  rcases x cwd with ⟨result, cwd'⟩
  cases result <;> rfl

theorem outcome_mapErr {δ : Type} (f : ε → δ) (x : Process ε α) (cwd : Path) :
    outcome (x.mapErr f cwd) = (outcome (x cwd)).mapErr f := by
  unfold Process.mapErr
  rcases x cwd with ⟨result, cwd'⟩
  cases result <;> rfl

theorem outcome_eq_err_iff {x : Outcome ε α × Path} {error : ε} :
    outcome x = .err error ↔ x.1 = .err error := by
  rcases x with ⟨result, cwd⟩
  cases result <;> simp [outcome]

theorem outcome_eq_ok_iff {x : Outcome ε α × Path} {value : α} {cwd : Path} :
    outcome x = .ok (value, cwd) ↔ x = (.ok value, cwd) := by
  rcases x with ⟨result, cwd'⟩
  cases result <;> simp [outcome]

end Process

section Calls

variable (fs : FileSystem) (upper : UppercaseTable)

def parseIncludedMakefilesIn (m : Makefile) :
    Process MakefileError (List Makefile) := fun cwd =>
  match getIncludes m with
  | none => (.ok [], cwd)
  | some includes =>
      match fs.setCurrentDir cwd (directory m) with
      | none => (.err (.setCurrentDir (directory m)), cwd)
      | some dir => (Outcome.fold (pushInclude fs upper dir) [] includes, dir)

def mergeIncludeIn (parseAllIn : Makefile → Process CallError Makefile)
    (final incl : Makefile) : Process CallError Makefile :=
  if hasIncludes incl then do
    let flat ← parseAllIn incl
    return final.merge flat
  else return final.merge incl

def parseAllIn : ℕ → Makefile → Process CallError Makefile
  | 0, _ => fun cwd => (.err .depth, cwd)
  | depth + 1, m => do
      let included ← (parseIncludedMakefilesIn fs upper m).mapErr .error
      let final ← included.foldlM (mergeIncludeIn (parseAllIn depth)) new
      return final.merge m

/-! ## The calls return what `parseAll` does -/

theorem outcome_parseIncludedMakefilesIn (cwd : Path) (m : Makefile) :
    Process.outcome (parseIncludedMakefilesIn fs upper m cwd) =
      parseIncludedMakefiles fs upper cwd m := by
  unfold parseIncludedMakefilesIn parseIncludedMakefiles
  cases getIncludes m with
  | none => rfl
  | some includes =>
      dsimp only
      cases fs.setCurrentDir cwd (directory m) with
      | none => rfl
      | some dir =>
          dsimp only
          cases Outcome.fold (pushInclude fs upper dir) [] includes <;> rfl

theorem outcome_foldlM_mergeIncludeIn {depth : ℕ}
    (hcall : ∀ cwd m, Process.outcome (parseAllIn fs upper depth m cwd) =
      parseAll fs upper depth cwd m)
    (included : List Makefile) (final : Makefile) (cwd : Path) :
    Process.outcome (included.foldlM
        (mergeIncludeIn (parseAllIn fs upper depth)) final cwd) =
      Outcome.fold (mergeInclude (parseAll fs upper depth)) (final, cwd)
        included := by
  induction included generalizing final cwd with
  | nil => rfl
  | cons incl included ih =>
      have hstep : Process.outcome
          (mergeIncludeIn (parseAllIn fs upper depth) final incl cwd) =
            mergeInclude (parseAll fs upper depth) (final, cwd) incl := by
        unfold mergeIncludeIn mergeInclude
        split_ifs
        · rw [Process.outcome_bind, hcall]
          rfl
        · rfl
      rw [List.foldlM_cons, Process.outcome_bind, hstep, Outcome.fold_cons]
      congr 1
      funext result
      exact ih result.1 result.2

theorem outcome_parseAllIn (depth : ℕ) (cwd : Path) (m : Makefile) :
    Process.outcome (parseAllIn fs upper depth m cwd) =
      parseAll fs upper depth cwd m := by
  induction depth generalizing cwd m with
  | zero => rfl
  | succ depth ih =>
      unfold parseAllIn parseAll
      rw [Process.outcome_bind, Process.outcome_mapErr,
        outcome_parseIncludedMakefilesIn]
      congr 1
      funext included
      rw [Process.outcome_bind, outcome_foldlM_mergeIncludeIn fs upper ih]
      rfl

/-! ## Where the current directory matters -/

theorem mapErr_parseIncludedMakefilesIn (m : Makefile) (cwd : Path) :
    (parseIncludedMakefilesIn fs upper m).mapErr CallError.error cwd =
      ((parseIncludedMakefilesIn fs upper m cwd).1.mapErr CallError.error,
        (parseIncludedMakefilesIn fs upper m cwd).2) := rfl

theorem parseAllIn_of_no_includes {m : Makefile} (hnone : m.includes = [])
    (depth : ℕ) (cwd : Path) :
    parseAllIn fs upper (depth + 1) m cwd = (.ok (new.merge m), cwd) := by
  have hempty : (parseIncludedMakefilesIn fs upper m).mapErr CallError.error
      cwd = (.ok [], cwd) := by
    rw [mapErr_parseIncludedMakefilesIn]
    simp [parseIncludedMakefilesIn, getIncludes, hnone, Outcome.mapErr]
  unfold parseAllIn
  rw [Process.bind_apply_of_ok hempty]
  rfl

theorem parseAllIn_of_not_entered {m : Makefile} {cwd : Path}
    (hsome : m.includes ≠ [])
    (hdir : fs.setCurrentDir cwd (directory m) = none) (depth : ℕ) :
    parseAllIn fs upper (depth + 1) m cwd =
      (.err (.error (.setCurrentDir (directory m))), cwd) := by
  unfold parseAllIn
  apply Process.bind_apply_of_err
  rw [mapErr_parseIncludedMakefilesIn]
  simp [parseIncludedMakefilesIn, getIncludes, hsome, hdir, Outcome.mapErr]

theorem parseAllIn_of_entered {m : Makefile} {cwd cwd' dir : Path}
    (hsome : m.includes ≠ [])
    (hdir : fs.setCurrentDir cwd (directory m) = some dir)
    (hdir' : fs.setCurrentDir cwd' (directory m) = some dir) (depth : ℕ) :
    parseAllIn fs upper (depth + 1) m cwd =
      parseAllIn fs upper (depth + 1) m cwd' := by
  have hsame : parseIncludedMakefilesIn fs upper m cwd =
      parseIncludedMakefilesIn fs upper m cwd' := by
    simp [parseIncludedMakefilesIn, getIncludes, hsome, hdir, hdir']
  unfold parseAllIn
  change Process.bind _ _ cwd = Process.bind _ _ cwd'
  unfold Process.bind
  rw [mapErr_parseIncludedMakefilesIn, mapErr_parseIncludedMakefilesIn, hsame]

/-- What a call returns depends on the directory it enters only. -/
theorem parseAllIn_congr {cwd cwd' : Path} {m : Makefile}
    (h : m.includes = [] ∨ fs.setCurrentDir cwd (directory m) =
      fs.setCurrentDir cwd' (directory m)) (depth : ℕ) :
    (parseAllIn fs upper depth m cwd).1 =
      (parseAllIn fs upper depth m cwd').1 := by
  cases depth with
  | zero => rfl
  | succ depth =>
      by_cases hnone : m.includes = []
      · rw [parseAllIn_of_no_includes fs upper hnone,
          parseAllIn_of_no_includes fs upper hnone]
      · have henter := h.resolve_left hnone
        cases hdir : fs.setCurrentDir cwd (directory m) with
        | none =>
            have hdir' := henter.symm.trans hdir
            rw [parseAllIn_of_not_entered fs upper hnone hdir,
              parseAllIn_of_not_entered fs upper hnone hdir']
        | some dir =>
            rw [parseAllIn_of_entered fs upper hnone hdir
              (henter.symm.trans hdir)]

end Calls

/-! ## Calls end without cycles -/

section Ending

variable {files : Files} {upper : UppercaseTable} {cwd : Path}

theorem fileIncludes_of_included {p dir : Path} {m : Makefile}
    {included : List Makefile}
    (hm : parseSingleFile files.toFileSystem upper cwd p = .ok m)
    (h : parseIncludedMakefiles files.toFileSystem upper cwd m =
      .ok (included, dir)) :
    ∀ incl ∈ included, ∃ q, FileIncludes files upper cwd p q ∧
      parseSingleFile files.toFileSystem upper cwd q = .ok incl := by
  unfold parseIncludedMakefiles getIncludes at h
  split_ifs at h with hsome
  · dsimp only at h
    split at h
    · cases h
    · next dir' hdir =>
        obtain ⟨ms, hfold, heq⟩ := Outcome.bind_eq_ok_iff.mp h
        cases heq
        apply Outcome.fold_invariant _ _ _ hfold
          (P := fun ms => ∀ incl ∈ ms, ∃ q, FileIncludes files upper cwd p q ∧
            parseSingleFile files.toFileSystem upper cwd q = .ok incl)
        · intro ms name hname ms' hms hstep
          obtain ⟨loaded, hload, heq⟩ := Outcome.bind_eq_ok_iff.mp hstep
          cases heq
          obtain ⟨q, hq, hread⟩ := loadInclude_iff.mp hload
          intro incl hincl
          rcases List.mem_append.mp hincl with hincl | hincl
          · exact hms incl hincl
          · cases List.mem_singleton.mp hincl
            exact ⟨q, ⟨m, _, hm, hdir, name, hname, hq⟩, hread⟩
        · simp
  · cases h
    simp

/-- The loop over the included files ends when every call in it does. -/
theorem fold_mergeInclude_ne_depth {p : Path} {k : ℕ}
    {included : List Makefile} {start : Makefile × Path}
    (hfrom : ∀ incl ∈ included, ∃ q, FileIncludes files upper cwd p q ∧
      parseSingleFile files.toFileSystem upper cwd q = .ok incl)
    (hcalls : ∀ incl ∈ included,
      parseAll files.toFileSystem upper k cwd incl ≠ .err .depth) :
    Outcome.fold (mergeInclude (parseAll files.toFileSystem upper k)) start
      included ≠ .err .depth := by
  apply Outcome.fold_ne_err
  intro state incl hincl
  obtain ⟨q, hq, hread⟩ := hfrom incl hincl
  have habs : incl.path.absolute = true := by
    rw [parseSingleFile_path hread]
    exact hq.absolute
  unfold mergeInclude
  split_ifs with hincludes
  · rw [parseAll_of_absolute k state.2 cwd habs
      (hasIncludes_iff.mp hincludes)]
    exact Outcome.bind_ne_err (hcalls incl hincl) (by simp)
  · simp

/-- A call for a file from which no endless chain of includes starts ends, with
every depth from some depth on. -/
theorem parseAll_stops_of_acc {p : Path}
    (hacc : Acc (Function.swap (FileIncludes files upper cwd)) p)
    {m : Makefile}
    (hm : parseSingleFile files.toFileSystem upper cwd p = .ok m) :
    ∃ depth, ∀ k, depth ≤ k →
      parseAll files.toFileSystem upper k cwd m ≠ .err .depth := by
  induction hacc generalizing m with
  | intro p _ ih =>
      have hsucc : ∀ k, parseAll files.toFileSystem upper (k + 1) cwd m =
          ((parseIncludedMakefiles files.toFileSystem upper cwd m).mapErr
            .error >>= fun included =>
              Outcome.fold (mergeInclude
                (parseAll files.toFileSystem upper k)) (new, included.2)
                included.1 >>= fun final =>
                  .ok (final.1.merge m, final.2)) := fun _ => rfl
      cases hparse : parseIncludedMakefiles files.toFileSystem upper cwd m with
      | err error =>
          refine ⟨1, ?_⟩
          intro k hk
          obtain ⟨k, rfl⟩ : ∃ k', k = k' + 1 := ⟨k - 1, by omega⟩
          rw [hsucc, hparse]
          simp [Outcome.mapErr]
      | panic message =>
          refine ⟨1, ?_⟩
          intro k hk
          obtain ⟨k, rfl⟩ : ∃ k', k = k' + 1 := ⟨k - 1, by omega⟩
          rw [hsucc, hparse]
          simp [Outcome.mapErr]
      | ok result =>
          obtain ⟨included, dir⟩ := result
          have hfrom := fileIncludes_of_included hm hparse
          have hmono : ∀ (n k : ℕ) (incl : Makefile), n ≤ k →
              (∀ j, n ≤ j → parseAll files.toFileSystem upper j cwd incl ≠
                .err .depth) →
              ∀ j, k ≤ j → parseAll files.toFileSystem upper j cwd incl ≠
                .err .depth :=
            fun n k incl hnk h j hj => h j (hnk.trans hj)
          have hcalls : ∀ incl ∈ included, ∃ depth, ∀ k, depth ≤ k →
              parseAll files.toFileSystem upper k cwd incl ≠
                .err .depth := by
            intro incl hincl
            obtain ⟨q, hq, hread⟩ := hfrom incl hincl
            exact ih q hq hread
          obtain ⟨depth, hdepth⟩ := exists_common_bound hmono hcalls
          refine ⟨depth + 1, ?_⟩
          intro k hk
          obtain ⟨k, rfl⟩ : ∃ k', k = k' + 1 := ⟨k - 1, by omega⟩
          have hloop : Outcome.fold (mergeInclude
              (parseAll files.toFileSystem upper k)) (new, dir) included ≠
                .err .depth :=
            fold_mergeInclude_ne_depth hfrom
              fun incl hincl => hdepth incl hincl k (by omega)
          rw [hsucc, hparse, Outcome.mapErr, Outcome.ok_bind]
          exact Outcome.bind_ne_err hloop (by simp)

end Ending

/-! ## Two calls in succession -/

/-- The same variables, or an error both times. -/
def SameResult : Outcome CallError Makefile → Outcome CallError Makefile → Prop
  | .ok first, .ok second => first.variableMap = second.variableMap
  | .err _, .err _ => True
  | _, _ => False

/-- With enough depth two calls in succession end, with the same result. -/
def Repeatable (files : Files) (upper : UppercaseTable) (cwd : Path)
    (m : Makefile) : Prop :=
  ∃ depth, ∀ k, depth ≤ k →
    let first := parseAllIn files.toFileSystem upper k m cwd
    let second := parseAllIn files.toFileSystem upper k m first.2
    first.1 ≠ .err .depth ∧ second.1 ≠ .err .depth ∧
      SameResult first.1 second.1

section Twice

variable {files : Files} {upper : UppercaseTable} {cwd path : Path}
  {m : Makefile}

theorem parseSingleFile_ne_panic (fs : FileSystem) (message : String) :
    parseSingleFile fs upper cwd path ≠ .panic message := by
  unfold parseSingleFile
  cases fs.readToString cwd path with
  | none => simp
  | some content =>
      apply Outcome.bind_ne_panic
      · apply Outcome.mapErr_ne_panic
        rw [parseString_eq]
        split <;> simp
      · simp

theorem parseIncludedMakefiles_ne_panic (fs : FileSystem)
    (message : String) :
    parseIncludedMakefiles fs upper cwd m ≠ .panic message := by
  unfold parseIncludedMakefiles
  split
  · simp
  · split
    · simp
    · apply Outcome.bind_ne_panic
      · apply Outcome.fold_ne_panic
        intro included incl _
        apply Outcome.bind_ne_panic
        · unfold loadInclude
          split
          · simp
          · exact parseSingleFile_ne_panic fs message
        · simp
      · simp

theorem parseAll_ne_panic (fs : FileSystem) (depth : ℕ) (message : String) :
    parseAll fs upper depth cwd m ≠ .panic message := by
  induction depth generalizing cwd m with
  | zero => simp [parseAll]
  | succ depth ih =>
      unfold parseAll
      apply Outcome.bind_ne_panic
      · exact Outcome.mapErr_ne_panic
          (parseIncludedMakefiles_ne_panic fs message)
      · intro included
        apply Outcome.bind_ne_panic
        · apply Outcome.fold_ne_panic
          intro state incl _
          unfold mergeInclude
          split_ifs
          · exact Outcome.bind_ne_panic ih (by simp)
          · simp
        · simp

theorem sameResult_refl {result : Outcome CallError Makefile}
    (h : ∀ message, result ≠ .panic message) : SameResult result result := by
  cases result with
  | ok final => exact rfl
  | err error => trivial
  | panic message => exact absurd rfl (h message)

theorem parseAllIn_ne_panic (fs : FileSystem) (depth : ℕ)
    (message : String) :
    (parseAllIn fs upper depth m cwd).1 ≠ .panic message := by
  have h : parseAll fs upper depth cwd m ≠ .panic message :=
    parseAll_ne_panic fs depth message
  rw [← outcome_parseAllIn] at h
  intro hpanic
  apply h
  rcases hresult : parseAllIn fs upper depth m cwd with ⟨result, cwd'⟩
  rw [hresult] at hpanic
  dsimp only at hpanic
  rw [hpanic]
  rfl

/-- Calls that enter the same directory, from wherever they are made, can be
repeated. -/
theorem repeatable_of_same_directory
    (hsame : m.includes = [] ∨ ∀ cwd cwd',
      files.toFileSystem.setCurrentDir cwd (directory m) =
        files.toFileSystem.setCurrentDir cwd' (directory m))
    (hstops : ∃ depth, ∀ k, depth ≤ k →
      parseAll files.toFileSystem upper k cwd m ≠ .err .depth) :
    Repeatable files upper cwd m := by
  obtain ⟨depth, hdepth⟩ := hstops
  refine ⟨depth, ?_⟩
  intro k hk
  dsimp only
  have hagain : (parseAllIn files.toFileSystem upper k m
      (parseAllIn files.toFileSystem upper k m cwd).2).1 =
        (parseAllIn files.toFileSystem upper k m cwd).1 := by
    apply parseAllIn_congr
    exact hsame.imp_right fun h => h _ _
  have hends : (parseAllIn files.toFileSystem upper k m cwd).1 ≠
      .err .depth := by
    intro herr
    apply hdepth k hk
    rw [← outcome_parseAllIn]
    exact Process.outcome_eq_err_iff.mpr herr
  rw [hagain]
  exact ⟨hends, hends,
    sameResult_refl (parseAllIn_ne_panic files.toFileSystem k)⟩

theorem setCurrentDir_of_short (hpath : m.path = path)
    (hshort : path.components.length ≤ 1) (cwd₁ cwd₂ : Path) :
    files.toFileSystem.setCurrentDir cwd₁ (directory m) =
      files.toFileSystem.setCurrentDir cwd₂ (directory m) := by
  by_cases habs : (directory m).absolute = true
  · exact files.toFileSystem.setCurrentDir_absolute _ _ _ habs
  · -- What is left is a relative path of one component.
    have hnil : (directory m).components = [] := by
      unfold directory Path.parent
      rw [hpath]
      split_ifs
      · rfl
      · apply List.eq_nil_of_length_eq_zero
        simp only [Option.getD_some, List.length_dropLast]
        omega
    have hempty : ∀ cwd, files.lookup cwd (directory m) = none := by
      intro cwd
      unfold Files.lookup
      exact if_pos ⟨by simpa using habs, hnil⟩
    change (files.lookup _ _).filter _ = (files.lookup _ _).filter _
    rw [hempty cwd₁, hempty cwd₂]

end Twice

/-! ## A directory that cannot be entered twice -/

/-- A name for an included file beside a makefile. -/
def besideName (file : Text) : Text := if file = ['a'] then ['b'] else ['a']

theorem besideName_ne (file : Text) : besideName file ≠ file := by
  unfold besideName
  split_ifs with h
  · rw [h]
    decide
  · exact Ne.symm h

theorem besideName_cases (file : Text) :
    besideName file = ['a'] ∨ besideName file = ['b'] := by
  unfold besideName
  split_ifs
  · exact .inr rfl
  · exact .inl rfl

theorem besideName_oneLine (file : Text) : OneLine (besideName file) := by
  rcases besideName_cases file with h | h <;> rw [h] <;>
    exact forall_mem_of_all (by decide)

theorem besideName_ne_nil (file : Text) : besideName file ≠ [] := by
  rcases besideName_cases file with h | h <;> rw [h] <;> decide

theorem besideName_head (file : Text) :
    headIs isBlank (besideName file) = false := by
  rcases besideName_cases file with h | h <;> rw [h] <;> decide

theorem ofText_besideName (file : Text) :
    Path.ofText (besideName file) = { components := [besideName file] } := by
  rcases besideName_cases file with h | h <;> rw [h] <;> decide

def includingItems (file : Text) : List PlainItem :=
  [.inclusion (besideName file) (besideName_ne_nil file)
    (besideName_oneLine file) (besideName_head file)]

theorem oneLine_nil : OneLine [] := fun _ h => by cases h

def includedItems : List PlainItem := [.comment [] oneLine_nil]

def inDirectory (dir : List Text) (file : Text) : Path :=
  { absolute := true, components := dir ++ [file] }

/-- One directory, with a makefile and the file that it includes. -/
def besideFiles (dir : List Text) (file : Text) : Files where
  resolve := fun p =>
    if p ∈ [{ absolute := true, components := dir }, inDirectory dir file,
      inDirectory dir (besideName file)] then some p else none
  isDir := fun p => p = { absolute := true, components := dir }
  content := fun p =>
    if p = inDirectory dir file then
      some (renderItems (includingItems file))
    else if p = inDirectory dir (besideName file) then
      some (renderItems includedItems)
    else none
  resolve_absolute := by
    intro p q h
    split_ifs at h with hp
    cases h
    simp only [List.mem_cons, List.not_mem_nil, or_false] at hp
    rcases hp with rfl | rfl | rfl <;> rfl

theorem besideFiles_isFinite (dir : List Text) (file : Text) :
    (besideFiles dir file).IsFinite := by
  apply Set.Finite.subset (List.finite_toSet
    [{ absolute := true, components := dir }, inDirectory dir file,
      inDirectory dir (besideName file)])
  rintro q ⟨p, h⟩
  change (if p ∈ _ then some p else none) = some q at h
  split_ifs at h with hp
  cases h
  exact hp

theorem besideFiles_lookup (dir : List Text) (file : Text) {cwd p : Path}
    {components : List Text} (hne : p.components ≠ [])
    (hjoin : cwd.join p = { absolute := true, components := components })
    (hmem : components ∈
      [dir, dir ++ [file], dir ++ [besideName file]]) :
    (besideFiles dir file).lookup cwd p =
      some { absolute := true, components := components } := by
  unfold Files.lookup besideFiles inDirectory
  rw [if_neg (by simp [hne]), hjoin]
  apply if_pos
  simpa using hmem

section Beside

variable (upper : UppercaseTable) (dir : List Text) (file : Text)

/-- The makefile under a path relative to the root directory. -/
def besideRoot : Makefile :=
  makefileOf { components := dir ++ [file] } (includingItems file)

theorem besideRoot_includes :
    (besideRoot dir file).includes = [besideName file] :=
  includes_makefileOf _ _

theorem besideRoot_directory :
    directory (besideRoot dir file) = { components := dir } := by
  simp [directory, besideRoot, makefileOf, Path.parent]

theorem besideFiles_readRoot :
    parseSingleFile (besideFiles dir file).toFileSystem upper Path.root
      { components := dir ++ [file] } = .ok (besideRoot dir file) := by
  have hjoin : Path.root.join { components := dir ++ [file] } =
      { absolute := true, components := dir ++ [file] } := by
    simp [Path.join, Path.root]
  apply parseSingleFile_plain _ _ (List.cons_ne_nil _ _)
  change ((besideFiles dir file).lookup _ _).bind _ = _
  rw [besideFiles_lookup dir file (by simp) hjoin (by simp)]
  exact if_pos rfl

theorem besideFiles_readIncluded (cwd : Path) :
    parseSingleFile (besideFiles dir file).toFileSystem upper cwd
        (inDirectory dir (besideName file)) =
      .ok (makefileOf (inDirectory dir (besideName file)) includedItems) := by
  have hjoin : cwd.join (inDirectory dir (besideName file)) =
      { absolute := true, components := dir ++ [besideName file] } := rfl
  have hne : inDirectory dir (besideName file) ≠ inDirectory dir file := by
    simp [inDirectory, besideName_ne]
  apply parseSingleFile_plain _ _ (List.cons_ne_nil _ _)
  change ((besideFiles dir file).lookup _ _).bind _ = _
  rw [besideFiles_lookup dir file (by simp [inDirectory]) hjoin (by simp)]
  exact (if_neg hne).trans (if_pos rfl)

theorem besideFiles_canonicalize :
    (besideFiles dir file).toFileSystem.canonicalize
        { absolute := true, components := dir } (besideName file) =
      some (inDirectory dir (besideName file)) := by
  change (besideFiles dir file).lookup _ (Path.ofText (besideName file)) = _
  rw [ofText_besideName]
  exact besideFiles_lookup dir file (by simp) (by simp [Path.join]) (by simp)

theorem besideFiles_enter (hdir : dir ≠ []) :
    (besideFiles dir file).toFileSystem.setCurrentDir Path.root
        { components := dir } =
      some { absolute := true, components := dir } := by
  have hjoin : Path.root.join { components := dir } =
      { absolute := true, components := dir } := by
    simp [Path.join, Path.root]
  change ((besideFiles dir file).lookup _ _).filter _ = _
  rw [besideFiles_lookup dir file hdir hjoin (by simp)]
  simp [besideFiles]

theorem besideFiles_not_reenter (hdir : dir ≠ []) :
    (besideFiles dir file).toFileSystem.setCurrentDir
        { absolute := true, components := dir } { components := dir } =
      none := by
  change ((besideFiles dir file).lookup _ _).filter _ = _
  have hjoin : Path.join { absolute := true, components := dir }
      { components := dir } =
        { absolute := true, components := dir ++ dir } := rfl
  unfold Files.lookup
  rw [if_neg (by simp [hdir]), hjoin]
  simp only [besideFiles]
  split_ifs
  · simp [hdir]
  · rfl

/-- The first call succeeds and leaves the directory of the makefile as the
current one, from which the directory cannot be entered. -/
theorem besideFiles_first (hdir : dir ≠ []) (depth : ℕ) :
    ∃ final, parseAllIn (besideFiles dir file).toFileSystem upper (depth + 1)
        (besideRoot dir file) Path.root =
      (.ok final, { absolute := true, components := dir }) := by
  have hload : loadInclude (besideFiles dir file).toFileSystem upper
      { absolute := true, components := dir } (besideName file) =
        .ok (makefileOf (inDirectory dir (besideName file))
          includedItems) := by
    unfold loadInclude
    rw [besideFiles_canonicalize]
    exact besideFiles_readIncluded upper dir file _
  have hincluded : parseIncludedMakefiles (besideFiles dir file).toFileSystem
      upper Path.root (besideRoot dir file) =
        .ok ([makefileOf (inDirectory dir (besideName file)) includedItems],
          { absolute := true, components := dir }) := by
    apply parseIncludedMakefiles_eq
    · rw [besideRoot_includes]
      exact List.cons_ne_nil _ _
    · rw [besideRoot_directory]
      exact besideFiles_enter dir file hdir
    · rw [besideRoot_includes]
      exact .cons hload .nil
  have hresult : parseAll (besideFiles dir file).toFileSystem upper
      (depth + 1) Path.root (besideRoot dir file) =
        .ok ((new.merge (makefileOf (inDirectory dir (besideName file))
          includedItems)).merge (besideRoot dir file),
          { absolute := true, components := dir }) := by
    rw [parseAll, hincluded]
    rfl
  rw [← outcome_parseAllIn] at hresult
  exact ⟨_, Process.outcome_eq_ok_iff.mp hresult⟩

theorem besideFiles_second (hdir : dir ≠ []) (depth : ℕ) :
    parseAllIn (besideFiles dir file).toFileSystem upper (depth + 1)
        (besideRoot dir file) { absolute := true, components := dir } =
      (.err (.error (.setCurrentDir { components := dir })),
        { absolute := true, components := dir }) := by
  rw [parseAllIn_of_not_entered]
  · rw [besideRoot_directory]
  · rw [besideRoot_includes]
    exact List.cons_ne_nil _ _
  · rw [besideRoot_directory]
    exact besideFiles_not_reenter dir file hdir

theorem besideFiles_not_repeatable (hdir : dir ≠ []) :
    ¬ Repeatable (besideFiles dir file) upper Path.root
      (besideRoot dir file) := by
  rintro ⟨depth, hdepth⟩
  obtain ⟨-, -, hsame⟩ := hdepth (depth + 1) (Nat.le_succ depth)
  obtain ⟨final, hfirst⟩ := besideFiles_first upper dir file hdir depth
  rw [hfirst] at hsame
  dsimp only at hsame
  rw [besideFiles_second upper dir file hdir] at hsame
  exact hsame

theorem besideFiles_no_cycle (hdir : dir ≠ []) :
    ¬ ReachesCycle (FileIncludes (besideFiles dir file) upper Path.root)
      { components := dir ++ [file] } := by
  apply not_reachesCycle_of_acc
  apply Acc.intro
  rintro q ⟨m, dir', hread, henter, incl, hincl, hq⟩
  rw [besideFiles_readRoot] at hread
  cases hread
  rw [besideRoot_directory, besideFiles_enter dir file hdir] at henter
  cases henter
  rw [besideRoot_includes, List.mem_singleton] at hincl
  rw [hincl, besideFiles_canonicalize] at hq
  cases hq
  exact acc_of_no_includes (besideFiles_readIncluded upper dir file _) rfl

end Beside

theorem exists_directory {path : Path}
    (h : ¬ (path.absolute = true ∨ path.components.length ≤ 1)) :
    ∃ dir file, dir ≠ [] ∧ path = { components := dir ++ [file] } := by
  obtain ⟨absolute, components⟩ := path
  rw [not_or] at h
  dsimp only at h
  have hne : components ≠ [] := by
    rintro rfl
    simp at h
  refine ⟨components.dropLast, components.getLast hne, ?_, ?_⟩
  · intro hnil
    have hlength := congrArg List.length hnil
    rw [List.length_dropLast, List.length_nil] at hlength
    exact h.2 (by omega)
  · rw [List.dropLast_append_getLast]
    simpa using h.1

end Ips.Makefile
