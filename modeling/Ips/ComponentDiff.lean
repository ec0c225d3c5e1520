import Ips.ManifestParse

/-!
# Comparing the manifests of a component

The sample manifest of a component against its package manifests
(`pkg6dev/src/main.rs`).  A file is known by its original path, or by its path
when it has none, and the macros in that key are replaced before it is looked
up on the other side.
-/

namespace Ips.ComponentDiff

/-- `str::replace` of a non-empty pattern, with the number of characters of
the last match that are still to be passed over. -/
def replaceFrom (pattern replacement : Text) : ℕ → Text → Text
  | _, [] => []
  | n + 1, _ :: rest => replaceFrom pattern replacement n rest
  | 0, c :: rest =>
      if pattern.isPrefixOf (c :: rest) then
        replacement ++ replaceFrom pattern replacement (pattern.length - 1) rest
      else c :: replaceFrom pattern replacement 0 rest

def macroReference (name : Text) : Text :=
  "$(".toList ++ name ++ ")".toList

/-- The replacements, in the order in which the map is iterated. -/
abbrev Replacements := Option (List (Text × Text))

def replaceFunc (orig : Text) : Replacements → Text
  | none => orig
  | some entries =>
      (entries.zipIdx.foldl
        (fun replacement entry =>
          if entry.2 = 0 then
            replaceFrom (macroReference entry.1.1) entry.1.2 0 orig
          else replaceFrom (macroReference entry.1.1) entry.1.2 0 replacement)
        orig)

def fileKey (f : File) : Text :=
  match f.getOriginalPath with
  | none => f.path
  | some path => path

def makeFileMap (files : List File) : HashMap File :=
  files.foldl (fun fMap f => fMap.insert (fileKey f) f) ∅

def allFiles (manifests : List Manifest) : List File :=
  manifests.flatMap Manifest.files

def findFilesMissingInManifests (sample : Manifest)
    (manifests : List Manifest) (replacements : Replacements) : List File :=
  let fMap := makeFileMap (allFiles manifests)
  sample.files.foldl
    (fun missing f =>
      match f.getOriginalPath with
      | some path =>
          if replaceFunc path replacements ∉ fMap then missing ++ [f]
          else missing
      | none =>
          if replaceFunc f.path replacements ∉ fMap then missing ++ [f]
          else missing)
    []

/-- Whether a path below the component exists is asked of the file system. -/
def findRemovedFiles (sample : Manifest) (manifests : List Manifest)
    (inComponent : Text → Bool) (replacements : Replacements) : List File :=
  let fMap := makeFileMap sample.files
  (allFiles manifests).foldl
    (fun removed f =>
      match f.getOriginalPath with
      | some path =>
          if replaceFunc path replacements ∉ fMap ∧ ¬ inComponent path then
            removed ++ [f]
          else removed
      | none =>
          if replaceFunc f.path replacements ∉ fMap then removed ++ [f]
          else removed)
    []

/-! ## The two searches as filters -/

theorem foldl_push_eq_filter {α : Type} (test : α → Prop) [DecidablePred test]
    (done files : List α) :
    files.foldl (fun acc f => if test f then acc ++ [f] else acc) done =
      done ++ files.filter fun f => test f := by
  induction files generalizing done with
  | nil => simp
  | cons f files ih =>
      rw [List.foldl_cons, ih]
      by_cases h : test f
      · simp [h]
      · simp [h]

theorem mem_makeFileMap (files : List File) (key : Text) :
    key ∈ makeFileMap files ↔ ∃ f ∈ files, fileKey f = key := by
  have hgen : ∀ (fMap : HashMap File),
      key ∈ files.foldl (fun fMap f => fMap.insert (fileKey f) f) fMap ↔
        key ∈ fMap ∨ ∃ f ∈ files, fileKey f = key := by
    induction files with
    | nil =>
        intro fMap
        simp
    | cons f files ih =>
        intro fMap
        rw [List.foldl_cons, ih, Finmap.mem_insert]
        simp only [List.mem_cons, exists_eq_or_imp]
        constructor
        · rintro ((h | h) | h)
          · exact .inr (.inl h.symm)
          · exact .inl h
          · exact .inr (.inr h)
        · rintro (h | h | h)
          · exact .inl (.inr h)
          · exact .inl (.inl h.symm)
          · exact .inr h
  rw [makeFileMap, hgen]
  simp [Finmap.notMem_empty]

variable (sample : Manifest) (manifests : List Manifest)
  (inComponent : Text → Bool) (replacements : Replacements)

def replacedKey (f : File) : Text := replaceFunc (fileKey f) replacements

/-- The file has an original path, and that still lies in the component. -/
def Present (f : File) : Prop := f.getOriginalPath.any inComponent = true

instance (f : File) : Decidable (Present inComponent f) :=
  inferInstanceAs (Decidable (_ = true))

theorem findFilesMissingInManifests_eq :
    findFilesMissingInManifests sample manifests replacements =
      sample.files.filter fun f =>
        ¬ ∃ g ∈ allFiles manifests,
          fileKey g = replacedKey replacements f := by
  have hstep : ∀ f, replacedKey replacements f ∉
      makeFileMap (allFiles manifests) ↔
        ¬ ∃ g ∈ allFiles manifests, fileKey g = replacedKey replacements f :=
    fun f => not_congr (mem_makeFileMap _ _)
  rw [← List.nil_append (List.filter _ _), ← foldl_push_eq_filter]
  unfold findFilesMissingInManifests
  dsimp only
  congr 1
  funext missing f
  simp only [← hstep]
  unfold replacedKey fileKey
  cases f.getOriginalPath with
  | none => rfl
  | some path => rfl

theorem findRemovedFiles_eq :
    findRemovedFiles sample manifests inComponent replacements =
      (allFiles manifests).filter fun g =>
        (¬ ∃ s ∈ sample.files, fileKey s = replacedKey replacements g) ∧
          ¬ Present inComponent g := by
  have hstep : ∀ f, replacedKey replacements f ∉ makeFileMap sample.files ↔
      ¬ ∃ s ∈ sample.files, fileKey s = replacedKey replacements f :=
    fun f => not_congr (mem_makeFileMap _ _)
  rw [← List.nil_append (List.filter _ _), ← foldl_push_eq_filter]
  unfold findRemovedFiles
  dsimp only
  congr 1
  funext removed f
  simp only [← hstep]
  rcases Option.eq_none_or_eq_some f.getOriginalPath with hpath | ⟨path, hpath⟩
  · simp [replacedKey, fileKey, Present, hpath]
  · simp [replacedKey, fileKey, Present, hpath]

/-! ## Both sides under the same replacement -/

def missingFiles : List File :=
  sample.files.filter fun s =>
    ¬ ∃ g ∈ allFiles manifests,
      replacedKey replacements g = replacedKey replacements s

def removedFiles : List File :=
  (allFiles manifests).filter fun g =>
    (¬ ∃ s ∈ sample.files,
      replacedKey replacements s = replacedKey replacements g) ∧
      ¬ Present inComponent g

/-- The keys of the other side may be left as they are: looking the file up
among them finds a file exactly when looking it up among the replaced keys
does. -/
def LookupAgrees (f : File) (others : List File) : Prop :=
  (∃ g ∈ others, fileKey g = replacedKey replacements f) ↔
    ∃ g ∈ others, replacedKey replacements g = replacedKey replacements f

theorem filter_eq_filter_iff {α : Type} {test test' : α → Prop}
    [DecidablePred test] [DecidablePred test'] (files : List α) :
    ((files.filter fun f => test f) = files.filter fun f => test' f) ↔
      ∀ f ∈ files, test f ↔ test' f := by
  constructor
  · intro h f hf
    have hmem : f ∈ files.filter (fun f => test f) ↔
        f ∈ files.filter fun f => test' f := by
      rw [h]
    simpa [hf] using hmem
  · intro h
    apply List.filter_congr
    intro f hf
    simp [h f hf]

theorem findFilesMissingInManifests_eq_iff :
    findFilesMissingInManifests sample manifests replacements =
        missingFiles sample manifests replacements ↔
      ∀ s ∈ sample.files,
        LookupAgrees replacements s (allFiles manifests) := by
  rw [findFilesMissingInManifests_eq, missingFiles, filter_eq_filter_iff]
  unfold LookupAgrees
  constructor
  · intro h s hs
    exact not_iff_not.mp (h s hs)
  · intro h s hs
    exact not_congr (h s hs)

theorem findRemovedFiles_eq_iff :
    findRemovedFiles sample manifests inComponent replacements =
        removedFiles sample manifests inComponent replacements ↔
      ∀ g ∈ allFiles manifests, ¬ Present inComponent g →
        LookupAgrees replacements g sample.files := by
  rw [findRemovedFiles_eq, removedFiles, filter_eq_filter_iff]
  unfold LookupAgrees
  constructor
  · intro h g hg hpresent
    apply not_iff_not.mp
    simpa [hpresent] using h g hg
  · intro h g hg
    by_cases hpresent : Present inComponent g
    · simp [hpresent]
    · exact and_congr_left fun _ => not_congr (h g hg hpresent)

theorem allFiles_singleton : allFiles [sample] = sample.files := by
  simp [allFiles]

def macroManifest : Manifest where
  files := [{ path := "usr/lib/$(ARCH)/libz.so".toList }]

end Ips.ComponentDiff
