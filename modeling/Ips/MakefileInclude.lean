import Ips.MakefileMerge
import Ips.MakefileReader

/-!
# Included makefiles

`Makefile::parse_all` reads the includes of a makefile, flattens those that
have includes themselves, and merges everything into one makefile, the
including one last.  The file system is a parameter, and the current directory
of the process is passed along: relative paths depend on it.

The recursion has no bound in the source.  Here a bound on the depth of nested
calls is an argument, and a call that needs more depth ends with `depth`.
-/

namespace Ips.Makefile

/-- The file system, as it looks from a current directory. -/
structure FileSystem where
  setCurrentDir : Path → Path → Option Path
  canonicalize : Path → Text → Option Path
  readToString : Path → Path → Option Text
  canonicalize_absolute : ∀ cwd name path,
    canonicalize cwd name = some path → path.absolute = true
  setCurrentDir_absolute : ∀ cwd cwd' dir,
    dir.absolute = true → setCurrentDir cwd dir = setCurrentDir cwd' dir

inductive CallError where
  | depth
  | error (reason : MakefileError)
  deriving DecidableEq, Repr

variable (fs : FileSystem) (upper : UppercaseTable)

def parseSingleFile (cwd path : Path) : Outcome MakefileError Makefile :=
  match fs.readToString cwd path with
  | none => .err (.cannotRead path)
  | some content => do
      let m ← (parseString upper content).mapErr (.cannotParse path)
      return { m with path := path }

def getIncludes (m : Makefile) : Option (List Text) :=
  if m.includes ≠ [] then some m.includes else none

def hasIncludes (m : Makefile) : Bool := !m.includes.isEmpty

/-- The directory that the includes of a makefile are looked up in. -/
def directory (m : Makefile) : Path := m.path.parent.getD Path.root

def loadInclude (dir : Path) (incl : Text) :
    Outcome MakefileError Makefile :=
  match fs.canonicalize dir incl with
  | none => .err (.includeNotFound incl)
  | some path => parseSingleFile fs upper dir path

def pushInclude (dir : Path) (included : List Makefile) (incl : Text) :
    Outcome MakefileError (List Makefile) := do
  let m ← loadInclude fs upper dir incl
  return included ++ [m]

/-- The makefiles included, and the current directory afterwards. -/
def parseIncludedMakefiles (cwd : Path) (m : Makefile) :
    Outcome MakefileError (List Makefile × Path) :=
  match getIncludes m with
  | none => .ok ([], cwd)
  | some includes =>
      match fs.setCurrentDir cwd (directory m) with
      | none => .err (.setCurrentDir (directory m))
      | some dir => do
          let included ← Outcome.fold (pushInclude fs upper dir) [] includes
          return (included, dir)

/-- One round of the loop of `parse_all`, given the recursive call. -/
def mergeInclude
    (parseAll : Path → Makefile → Outcome CallError (Makefile × Path))
    (state : Makefile × Path) (incl : Makefile) :
    Outcome CallError (Makefile × Path) :=
  if hasIncludes incl then do
    let final ← parseAll state.2 incl
    return (state.1.merge final.1, final.2)
  else .ok (state.1.merge incl, state.2)

def parseAll : ℕ → Path → Makefile → Outcome CallError (Makefile × Path)
  | 0, _, _ => .err .depth
  | depth + 1, cwd, m => do
      let included ← (parseIncludedMakefiles fs upper cwd m).mapErr .error
      let final ← Outcome.fold (mergeInclude (parseAll depth))
        (new, included.2) included.1
      return (final.1.merge m, final.2)

/-! ## The tree of includes -/

inductive IncludeTree where
  | node (root : Makefile) (included : List IncludeTree)

namespace IncludeTree

def root : IncludeTree → Makefile
  | .node m _ => m

mutual

/-- Every makefile after the makefiles it includes. -/
def postOrder : IncludeTree → List Makefile
  | .node m included => postOrderAll included ++ [m]

def postOrderAll : List IncludeTree → List Makefile
  | [] => []
  | tree :: trees => tree.postOrder ++ postOrderAll trees

end

mutual

def height : IncludeTree → ℕ
  | .node _ included => heightAll included

/-- More than the height of each tree of a list. -/
def heightAll : List IncludeTree → ℕ
  | [] => 0
  | tree :: trees => max (tree.height + 1) (heightAll trees)

end

theorem height_lt_heightAll {tree : IncludeTree} {trees : List IncludeTree}
    (h : tree ∈ trees) : tree.height < heightAll trees := by
  induction trees with
  | nil => cases h
  | cons first trees ih =>
      unfold heightAll
      rcases List.mem_cons.mp h with rfl | hmem
      · omega
      · have hlt := ih hmem
        omega

theorem postOrder_subset {tree : IncludeTree} {trees : List IncludeTree}
    (h : tree ∈ trees) : tree.postOrder ⊆ postOrderAll trees := by
  induction trees with
  | nil => cases h
  | cons first trees ih =>
      unfold postOrderAll
      rcases List.mem_cons.mp h with rfl | hmem
      · exact List.subset_append_left _ _
      · exact List.Subset.trans (ih hmem) (List.subset_append_right _ _)

end IncludeTree

/-- Every include of the tree is found and parses, and every directory can be
entered. -/
inductive Resolves : Path → IncludeTree → Prop where
  | leaf {cwd : Path} {m : Makefile} (hnone : m.includes = []) :
      Resolves cwd (.node m [])
  | node {cwd dir : Path} {m : Makefile} {included : List IncludeTree}
      (hsome : m.includes ≠ [])
      (hdir : fs.setCurrentDir cwd (directory m) = some dir)
      (hload : List.Forall₂
        (fun incl tree => loadInclude fs upper dir incl = .ok tree.root)
        m.includes included)
      (hincluded : ∀ tree ∈ included, Resolves dir tree) :
      Resolves cwd (.node m included)

/-- The entry of the last makefile that defines a name. -/
def lastEntry (ms : List Makefile) (name : Text) : Option MakefileVariable :=
  ms.reverse.findSome? fun m => m.variableMap.lookup name

def AllSet (m : Makefile) : Prop :=
  ∀ name var, m.variableMap.lookup name = some var → var.mode = .set

theorem allSet_new : AllSet new := by
  intro name var h
  rw [new, Finmap.lookup_empty] at h
  cases h

theorem AllSet.insertVariable {m : Makefile} (h : AllSet m) (name : Text)
    (values : List Text) :
    AllSet (insertVariable m (name, { values := values })) := by
  intro name' var hvar
  rw [lookup_insertVariable] at hvar
  split_ifs at hvar
  · cases hvar
    rfl
  · exact h name' var hvar

/-- The variables of a makefile are those of a list of makefiles, later ones
first. -/
def Flattens (final : Makefile) (ms : List Makefile) : Prop :=
  ∀ name, final.variableMap.lookup name = lastEntry ms name

/-! ## Flattening -/

theorem lastEntry_append (xs ys : List Makefile) (name : Text) :
    lastEntry (xs ++ ys) name =
      (lastEntry ys name).or (lastEntry xs name) := by
  unfold lastEntry
  rw [List.reverse_append, List.findSome?_append]

theorem lastEntry_mode {ms : List Makefile} {name : Text}
    {var : MakefileVariable} (hset : ∀ m ∈ ms, AllSet m)
    (h : lastEntry ms name = some var) : var.mode = .set := by
  rcases List.exists_of_findSome?_eq_some h with ⟨m, hm, hvar⟩
  exact hset m (List.mem_reverse.mp hm) name var hvar

theorem mergeLookup_set {old new : Option MakefileVariable}
    (h : ∀ var, new = some var → var.mode = .set) :
    mergeLookup old new = new.or old := by
  cases new with
  | none => rfl
  | some var =>
      have hvar := combine_set old (h var rfl)
      simp [mergeLookup, hvar]

theorem flattens_new : Flattens new [] := fun _ => rfl

theorem flattens_single (m : Makefile) : Flattens m [m] := by
  intro name
  unfold lastEntry
  cases h : m.variableMap.lookup name with
  | none => simp [h]
  | some var => simp [h]

theorem Flattens.merge {m other : Makefile} {xs ys : List Makefile}
    (hm : Flattens m xs) (hother : Flattens other ys)
    (hset : ∀ m ∈ ys, AllSet m) :
    Flattens (m.merge other) (xs ++ ys) := by
  intro name
  have hmode : ∀ var, other.variableMap.lookup name = some var →
      var.mode = .set := by
    intro var hvar
    rw [hother name] at hvar
    exact lastEntry_mode hset hvar
  rw [lookup_merge, mergeLookup_set hmode, hm name, hother name,
    lastEntry_append]

theorem loadInclude_absolute {dir : Path} {incl : Text} {m : Makefile}
    (h : loadInclude fs upper dir incl = .ok m) :
    m.path.absolute = true := by
  unfold loadInclude at h
  split at h
  · cases h
  · next path hpath =>
      unfold parseSingleFile at h
      split at h
      · cases h
      · rcases Outcome.bind_eq_ok_iff.mp h with ⟨m', -, heq⟩
        cases heq
        exact fs.canonicalize_absolute _ _ _ hpath

theorem directory_absolute {m : Makefile} (h : m.path.absolute = true) :
    (directory m).absolute = true := by
  unfold directory Path.parent
  split_ifs
  · rfl
  · exact h

/-- The includes of a makefile with an absolute path are found from
everywhere. -/
theorem Resolves.of_absolute {cwd : Path} {tree : IncludeTree}
    (h : Resolves fs upper cwd tree) (habs : tree.root.path.absolute = true)
    (cwd' : Path) : Resolves fs upper cwd' tree := by
  cases h with
  | leaf hnone => exact .leaf hnone
  | node hsome hdir hload hincluded =>
      have hmoved := fs.setCurrentDir_absolute cwd' cwd _
        (directory_absolute habs)
      exact .node hsome (hmoved.trans hdir) hload hincluded

theorem fold_pushInclude {dir : Path} {includes : List Text}
    {included : List Makefile} (ms : List Makefile)
    (h : List.Forall₂
      (fun incl m => loadInclude fs upper dir incl = .ok m)
      includes included) :
    Outcome.fold (pushInclude fs upper dir) ms includes =
      .ok (ms ++ included) := by
  induction h generalizing ms with
  | nil => simp
  | cons hload _ ih =>
      rw [Outcome.fold_cons, pushInclude, hload]
      simp only [Outcome.ok_bind, Outcome.pure_eq]
      rw [ih]
      simp

theorem parseIncludedMakefiles_eq {cwd dir : Path} {m : Makefile}
    {included : List Makefile} (hsome : m.includes ≠ [])
    (hdir : fs.setCurrentDir cwd (directory m) = some dir)
    (hload : List.Forall₂
      (fun incl m => loadInclude fs upper dir incl = .ok m)
      m.includes included) :
    parseIncludedMakefiles fs upper cwd m = .ok (included, dir) := by
  unfold parseIncludedMakefiles getIncludes
  rw [if_pos hsome]
  dsimp only
  rw [hdir]
  dsimp only
  rw [fold_pushInclude fs upper [] hload]
  rfl

/-- The loop over the included makefiles, when the recursive calls flatten
those that have includes. -/
theorem fold_mergeInclude {depth : ℕ} {trees : List IncludeTree}
    (hresolves : ∀ cwd, ∀ tree ∈ trees, Resolves fs upper cwd tree)
    (hcall : ∀ cwd, ∀ tree ∈ trees,
      ∃ final cwd', parseAll fs upper depth cwd tree.root =
        .ok (final, cwd') ∧ Flattens final tree.postOrder)
    (hset : ∀ m ∈ IncludeTree.postOrderAll trees, AllSet m)
    {m : Makefile} {ms : List Makefile} (hm : Flattens m ms) (cwd : Path) :
    ∃ final cwd', Outcome.fold (mergeInclude (parseAll fs upper depth))
        (m, cwd) (trees.map IncludeTree.root) = .ok (final, cwd') ∧
      Flattens final (ms ++ IncludeTree.postOrderAll trees) := by
  induction trees generalizing m ms cwd with
  | nil => exact ⟨m, cwd, rfl, by simpa [IncludeTree.postOrderAll] using hm⟩
  | cons tree trees ih =>
      have hpost : IncludeTree.postOrderAll (tree :: trees) =
          tree.postOrder ++ IncludeTree.postOrderAll trees := rfl
      rw [hpost] at hset ⊢
      have hset₁ : ∀ m ∈ tree.postOrder, AllSet m := fun m hm =>
        hset m (List.mem_append_left _ hm)
      have hset₂ : ∀ m ∈ IncludeTree.postOrderAll trees, AllSet m :=
        fun m hm => hset m (List.mem_append_right _ hm)
      have hround : ∃ m' cwd', mergeInclude (parseAll fs upper depth)
          (m, cwd) tree.root = .ok (m', cwd') ∧
            Flattens m' (ms ++ tree.postOrder) := by
        unfold mergeInclude
        split_ifs with hincludes
        · rcases hcall cwd tree List.mem_cons_self with
            ⟨final, cwd', hparse, hfinal⟩
          exact ⟨m.merge final, cwd', by rw [hparse]; rfl,
            hm.merge hfinal hset₁⟩
        · refine ⟨m.merge tree.root, cwd, rfl, ?_⟩
          -- Without includes there is nothing below the makefile.
          cases hresolves cwd tree List.mem_cons_self with
          | leaf hnone =>
              exact hm.merge (flattens_single _) hset₁
          | node hsome hdir hload hincluded =>
              simp [hasIncludes, IncludeTree.root, hsome] at hincludes
      rcases hround with ⟨m', cwd', hstep, hm'⟩
      rcases ih
        (fun cwd t ht => hresolves cwd t (List.mem_cons_of_mem tree ht))
        (fun cwd t ht => hcall cwd t (List.mem_cons_of_mem tree ht))
        hset₂ hm' cwd' with ⟨final, cwd'', hfold, hfinal⟩
      refine ⟨final, cwd'', ?_, ?_⟩
      · rw [List.map_cons, Outcome.fold_cons, hstep, Outcome.ok_bind, hfold]
      · rw [← List.append_assoc]
        exact hfinal

theorem parseAll_flattens (depth : ℕ) {cwd : Path} {tree : IncludeTree}
    (hresolves : Resolves fs upper cwd tree) (hdepth : tree.height < depth)
    (hset : ∀ m ∈ tree.postOrder, AllSet m) :
    ∃ final cwd', parseAll fs upper depth cwd tree.root =
      .ok (final, cwd') ∧ Flattens final tree.postOrder := by
  induction depth generalizing cwd tree with
  | zero => omega
  | succ depth ih =>
      cases hresolves with
      | @leaf _ m hnone =>
          refine ⟨new.merge m, cwd, ?_, ?_⟩
          · simp [parseAll, parseIncludedMakefiles, getIncludes, hnone,
              IncludeTree.root, Outcome.mapErr]
          · exact flattens_new.merge (flattens_single m) hset
      | @node _ dir m trees hsome hdir hload hincluded =>
          have hload' := parseIncludedMakefiles_eq fs upper hsome hdir
            (List.forall₂_map_right_iff.mpr hload)
          have hheight : ∀ tree ∈ trees, tree.height < depth := by
            intro tree htree
            have hlt := IncludeTree.height_lt_heightAll htree
            have hle : IncludeTree.heightAll trees < depth + 1 := hdepth
            omega
          have hset' : ∀ m ∈ IncludeTree.postOrderAll trees, AllSet m :=
            fun m hm => hset m (List.mem_append_left _ hm)
          have heverywhere : ∀ cwd, ∀ tree ∈ trees,
              Resolves fs upper cwd tree := by
            intro cwd' tree htree
            rcases List.mem_iff_getElem.mp htree with ⟨i, hi, rfl⟩
            have hi' : i < m.includes.length := hload.length_eq ▸ hi
            have habs := loadInclude_absolute fs upper (hload.get hi' hi)
            exact (hincluded _ htree).of_absolute fs upper habs cwd'
          have hcall : ∀ cwd, ∀ tree ∈ trees, ∃ final cwd',
              parseAll fs upper depth cwd tree.root = .ok (final, cwd') ∧
                Flattens final tree.postOrder := by
            intro cwd tree htree
            exact ih (heverywhere cwd tree htree) (hheight tree htree)
              (fun m hm => hset' m (IncludeTree.postOrder_subset htree hm))
          rcases fold_mergeInclude fs upper heverywhere hcall hset'
            flattens_new dir with ⟨final, cwd', hfold, hfinal⟩
          refine ⟨final.merge m, cwd', ?_, ?_⟩
          · simp only [parseAll, IncludeTree.root, hload', Outcome.mapErr,
              Outcome.ok_bind, hfold, Outcome.pure_eq]
          · exact hfinal.merge (flattens_single m)
              (fun m' hm' => hset m' (List.mem_append_right _ hm'))

theorem lastEntry_isSome_iff (ms : List Makefile) (name : Text) :
    (lastEntry ms name).isSome ↔ ∃ m ∈ ms, name ∈ m.variableMap := by
  unfold lastEntry
  rw [List.findSome?_isSome_iff]
  simp only [List.mem_reverse, Finmap.lookup_isSome]

theorem lastEntry_of_split {before after : List Makefile} {m : Makefile}
    {name : Text} (hm : name ∈ m.variableMap)
    (hafter : ∀ m' ∈ after, name ∉ m'.variableMap) :
    lastEntry (before ++ m :: after) name = m.variableMap.lookup name := by
  have hnone : lastEntry after name = none := by
    have hnot : ¬ (lastEntry after name).isSome := by
      rw [lastEntry_isSome_iff]
      rintro ⟨m', hmem, hname⟩
      exact hafter m' hmem hname
    simpa using hnot
  have hsome : lastEntry [m] name = m.variableMap.lookup name :=
    (flattens_single m name).symm
  have htail : lastEntry (m :: after) name = m.variableMap.lookup name := by
    have happend := lastEntry_append [m] after name
    rw [hnone, hsome] at happend
    exact happend
  rcases Finmap.mem_iff.mp hm with ⟨var, hvar⟩
  rw [lastEntry_append, htail, hvar]
  rfl

/-- `Makefile::parse_all` succeeds with every depth of calls beyond the height
of the tree of includes, and flattens the tree in post-order. -/
theorem parseAll_postOrder {cwd : Path} {tree : IncludeTree}
    (hresolves : Resolves fs upper cwd tree)
    (hset : ∀ m ∈ tree.postOrder, AllSet m)
    (depth : ℕ) (hdepth : tree.height < depth) :
    ∃ final cwd',
      parseAll fs upper depth cwd tree.root = .ok (final, cwd') ∧
      ∀ name,
        (name ∈ final.variableMap ↔
          ∃ m ∈ tree.postOrder, name ∈ m.variableMap) ∧
        ∀ before m after, tree.postOrder = before ++ m :: after →
          name ∈ m.variableMap →
          (∀ m' ∈ after, name ∉ m'.variableMap) →
          final.variableMap.lookup name = m.variableMap.lookup name := by
  rcases parseAll_flattens fs upper depth hresolves hdepth hset with
    ⟨final, cwd', hparse, hfinal⟩
  refine ⟨final, cwd', hparse, ?_⟩
  intro name
  constructor
  · rw [← lastEntry_isSome_iff, ← hfinal name, Finmap.lookup_isSome]
  · intro before m after hsplit hm hafter
    rw [hfinal name, hsplit]
    exact lastEntry_of_split hm hafter

/-- Two files: `/Makefile` includes `/a.mk`. -/
def sampleFiles : FileSystem where
  setCurrentDir := fun _ dir => if dir.absolute then some dir else none
  canonicalize := fun cwd name =>
    some { absolute := true, components := cwd.components ++ [name] }
  readToString := fun _ path =>
    if path.components = ["Makefile".toList] then
      some "A=1\ninclude a.mk\n".toList
    else if path.components = ["a.mk".toList] then
      some "A=2\nB=3\n".toList
    else none
  canonicalize_absolute := by
    intro cwd name path h
    cases h
    rfl
  setCurrentDir_absolute := fun _ _ _ _ => rfl

def fileAt (name : String) : Path :=
  { absolute := true, components := [name.toList] }

def sampleRoot : Makefile :=
  { insertVariable new ("A".toList, { values := ["1".toList] }) with
    path := fileAt "Makefile"
    includes := ["a.mk".toList] }

def sampleIncluded : Makefile :=
  { insertVariable
      (insertVariable new ("A".toList, { values := ["2".toList] }))
      ("B".toList, { values := ["3".toList] }) with
    path := fileAt "a.mk" }

def sampleTree : IncludeTree := .node sampleRoot [.node sampleIncluded []]

theorem parseAll_postOrder_sample :
    Resolves sampleFiles asciiUppercase Path.root sampleTree ∧
    ∃ final cwd',
      parseAll sampleFiles asciiUppercase 2 Path.root sampleRoot =
        .ok (final, cwd') ∧
      final.variableMap.lookup "A".toList =
        some { values := ["1".toList] } := by
  have hdir : sampleFiles.setCurrentDir Path.root (directory sampleRoot) =
      some Path.root := by decide
  have hresolves :
      Resolves sampleFiles asciiUppercase Path.root sampleTree := by
    apply Resolves.node (by decide) hdir
    · exact .cons (by decide +kernel) .nil
    · intro tree htree
      cases List.mem_singleton.mp htree
      exact .leaf rfl
  have hset : ∀ m ∈ sampleTree.postOrder, AllSet m := by
    have hincluded : AllSet sampleIncluded :=
      (allSet_new.insertVariable _ _).insertVariable _ _
    have hroot : AllSet sampleRoot := allSet_new.insertVariable _ _
    intro m hm
    rcases List.mem_cons.mp hm with rfl | hm
    · exact hincluded
    · cases List.mem_singleton.mp hm
      exact hroot
  refine ⟨hresolves, ?_⟩
  rcases parseAll_postOrder sampleFiles asciiUppercase hresolves hset 2
    (by decide) with ⟨final, cwd', hparse, hfinal⟩
  refine ⟨final, cwd', hparse, ?_⟩
  exact (hfinal "A".toList).2 [sampleIncluded] sampleRoot [] rfl
    (by decide) (by simp)

end Ips.Makefile
