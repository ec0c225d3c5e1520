import Ips.MakefileInclude
import Ips.MakefilePlain

/-!
# Textual inclusion

Make replaces an include line, in place, by the lines of the included file.
`Makefile::parse_string` keeps the includes of a makefile apart from its
variables, and `Makefile::parse_all` lets the variables of a makefile win over
everything it includes: it runs the lines with the includes of each file moved
in front of the other lines.
-/

namespace Ips.Makefile

/-- Plain makefiles with the files that their include lines name. -/
inductive SourceTree where
  | node (path : Path) (items : List PlainItem) (included : List SourceTree)

namespace SourceTree

def path : SourceTree → Path
  | .node path _ _ => path

/-- The items with each inclusion replaced by the next list. -/
def replaceIncludes : List PlainItem → List (List PlainItem) → List PlainItem
  | [], _ => []
  | item :: items, expanded =>
      match item.path?, expanded with
      | some _, lines :: rest => lines ++ replaceIncludes items rest
      | _, _ => item :: replaceIncludes items expanded

mutual

/-- The lines that make runs. -/
def inPlace : SourceTree → List PlainItem
  | .node _ items included => replaceIncludes items (inPlaceAll included)

def inPlaceAll : List SourceTree → List (List PlainItem)
  | [] => []
  | tree :: trees => tree.inPlace :: inPlaceAll trees

end

mutual

/-- The lines with the includes of each file first. -/
def includesFirst : SourceTree → List PlainItem
  | .node _ items included => includesFirstAll included ++ items

def includesFirstAll : List SourceTree → List PlainItem
  | [] => []
  | tree :: trees => tree.includesFirst ++ includesFirstAll trees

end

/-- No item has a name that a later inclusion has. -/
def NotOverridden : List PlainItem → List (List PlainItem) → Prop
  | [], _ => True
  | item :: items, expanded =>
      match item.path?, expanded with
      | some _, _ :: rest => NotOverridden items rest
      | _, _ =>
          (∀ name, item.valueFor name ≠ none →
            ∀ lines ∈ expanded, lastValue lines name = none) ∧
          NotOverridden items expanded

mutual

/-- In every file, no name of a line above an include is a name of the
included lines. -/
def Ordered : SourceTree → Prop
  | .node _ items included =>
      NotOverridden items (inPlaceAll included) ∧ OrderedAll included

def OrderedAll : List SourceTree → Prop
  | [] => True
  | tree :: trees => tree.Ordered ∧ OrderedAll trees

end

end SourceTree

/-- The files of a tree stand where the include lines find them. -/
inductive Holds (fs : FileSystem) : Path → SourceTree → Prop where
  | leaf {cwd path : Path} {items : List PlainItem} (hne : items ≠ [])
      (hread : fs.readToString cwd path = some (renderItems items))
      (hnone : items.filterMap PlainItem.path? = []) :
      Holds fs cwd (.node path items [])
  | node {cwd dir path : Path} {items : List PlainItem}
      {included : List SourceTree} (hne : items ≠ [])
      (hread : fs.readToString cwd path = some (renderItems items))
      (hsome : items.filterMap PlainItem.path? ≠ [])
      (hdir : fs.setCurrentDir cwd (path.parent.getD Path.root) = some dir)
      (hfound : List.Forall₂
        (fun incl tree => fs.canonicalize dir incl = some tree.path)
        (items.filterMap PlainItem.path?) included)
      (hincluded : ∀ tree ∈ included, Holds fs dir tree) :
      Holds fs cwd (.node path items included)

/-! ## Moving the includes -/

section

open SourceTree

theorem lastValue_append (xs ys : List PlainItem) (name : Text) :
    lastValue (xs ++ ys) name =
      (lastValue ys name).or (lastValue xs name) := by
  unfold lastValue
  rw [List.reverse_append, List.findSome?_append]

theorem lastValue_cons (item : PlainItem) (items : List PlainItem)
    (name : Text) :
    lastValue (item :: items) name =
      (lastValue items name).or (item.valueFor name) := by
  have h := lastValue_append [item] items name
  have hsingle := lastValue_append_singleton [] item name
  rw [List.nil_append] at hsingle
  rw [hsingle] at h
  have hnil : lastValue [] name = none := rfl
  rw [hnil, Option.or_none] at h
  exact h

theorem valueFor_of_path {item : PlainItem} {path : Text}
    (h : item.path? = some path) (name : Text) :
    item.valueFor name = none := by
  cases item with
  | inclusion path _ _ _ => rfl
  | blank blanks _ => cases h
  | comment text _ => cases h
  | assignment key value _ _ _ => cases h
  | define key body _ _ => cases h

theorem lastValue_flatten {expanded : List (List PlainItem)} {name : Text}
    (h : ∀ lines ∈ expanded, lastValue lines name = none) :
    lastValue expanded.flatten name = none := by
  induction expanded with
  | nil => rfl
  | cons lines rest ih =>
      rw [List.flatten_cons, lastValue_append, h lines List.mem_cons_self,
        ih (fun l hl => h l (List.mem_cons_of_mem lines hl))]
      rfl

/-- Items that no later inclusion overrides can change places with them. -/
theorem lastValue_replaceIncludes (items : List PlainItem)
    (expanded : List (List PlainItem))
    (hcount : expanded.length = (items.filterMap PlainItem.path?).length)
    (h : NotOverridden items expanded) (name : Text) :
    lastValue (replaceIncludes items expanded) name =
      lastValue (expanded.flatten ++ items) name := by
  induction items generalizing expanded with
  | nil =>
      have hnil : expanded = [] := by simpa using hcount
      subst hnil
      rfl
  | cons item items ih =>
      cases hpath : item.path? with
      | some path =>
          cases expanded with
          | nil => simp [hpath] at hcount
          | cons lines rest =>
              have hcount' : rest.length =
                  (items.filterMap PlainItem.path?).length := by
                simpa [hpath] using hcount
              simp only [NotOverridden, hpath] at h
              simp only [replaceIncludes, hpath]
              rw [lastValue_append, ih rest hcount' h, List.flatten_cons,
                lastValue_append, lastValue_append, lastValue_append,
                lastValue_cons, valueFor_of_path hpath, Option.or_none,
                Option.or_assoc]
      | none =>
          have hcount' : expanded.length =
              (items.filterMap PlainItem.path?).length := by
            simpa [hpath] using hcount
          simp only [NotOverridden, hpath] at h
          simp only [replaceIncludes, hpath]
          rw [lastValue_cons, ih expanded hcount' h.2, lastValue_append,
            lastValue_append, lastValue_cons]
          cases hvalue : item.valueFor name with
          | none => rw [Option.or_none, Option.or_none]
          | some value =>
              have hfree := lastValue_flatten
                (h.1 name (by rw [hvalue]; simp))
              rw [hfree, Option.or_none, Option.or_none]

theorem length_inPlaceAll (trees : List SourceTree) :
    (inPlaceAll trees).length = trees.length := by
  induction trees with
  | nil => rfl
  | cons tree trees ih => simp [inPlaceAll, ih]

theorem lastValue_inPlaceAll {trees : List SourceTree}
    (h : ∀ tree ∈ trees, tree.Ordered →
      ∀ name, lastValue tree.inPlace name = lastValue tree.includesFirst name)
    (hordered : OrderedAll trees) (name : Text) :
    lastValue (inPlaceAll trees).flatten name =
      lastValue (includesFirstAll trees) name := by
  induction trees with
  | nil => rfl
  | cons tree trees ih =>
      unfold inPlaceAll includesFirstAll
      rw [List.flatten_cons, lastValue_append, lastValue_append,
        h tree List.mem_cons_self hordered.1,
        ih (fun t ht => h t (List.mem_cons_of_mem tree ht)) hordered.2]

theorem Holds.lastValue_inPlace {fs : FileSystem} {cwd : Path}
    {tree : SourceTree} (h : Holds fs cwd tree) (hordered : tree.Ordered)
    (name : Text) :
    lastValue tree.inPlace name = lastValue tree.includesFirst name := by
  induction h generalizing name with
  | leaf hne hread hnone =>
      exact lastValue_replaceIncludes _ _ (by rw [hnone]; rfl) hordered.1 name
  | node hne hread hsome hdir hfound hincluded ih =>
      have hcount := hfound.length_eq
      rw [← length_inPlaceAll] at hcount
      have hmoved := lastValue_replaceIncludes _ _ hcount.symm hordered.1 name
      unfold SourceTree.inPlace SourceTree.includesFirst
      rw [hmoved, lastValue_append, lastValue_append,
        lastValue_inPlaceAll ih hordered.2]

/-! ## The makefiles of the files -/

/-- The makefile that a plain file is parsed to. -/
def makefileOf (path : Path) (items : List PlainItem) : Makefile :=
  { (items.flatMap PlainItem.reads).foldl addItem new with path := path }

def single? (value : Option Text) : Option MakefileVariable :=
  value.map fun value => { values := [value] }

theorem lookup_makefileOf (path : Path) (items : List PlainItem)
    (name : Text) :
    (makefileOf path items).variableMap.lookup name =
      single? (lastValue items name) := lookup_items items name

theorem includes_makefileOf (path : Path) (items : List PlainItem) :
    (makefileOf path items).includes = items.filterMap PlainItem.path? :=
  includes_items items

theorem allSet_makefileOf (path : Path) (items : List PlainItem) :
    AllSet (makefileOf path items) := by
  intro name var hvar
  rw [lookup_makefileOf, single?] at hvar
  rcases Option.map_eq_some_iff.mp hvar with ⟨value, -, rfl⟩
  rfl

theorem parseSingleFile_plain (fs : FileSystem) (upper : UppercaseTable)
    {cwd path : Path} {items : List PlainItem} (hne : items ≠ [])
    (hread : fs.readToString cwd path = some (renderItems items)) :
    parseSingleFile fs upper cwd path = .ok (makefileOf path items) := by
  unfold parseSingleFile
  rw [hread]
  cases items with
  | nil => exact absurd rfl hne
  | cons first rest =>
      dsimp only
      rw [parseString_renderItems]
      rfl

namespace SourceTree

mutual

def toIncludeTree : SourceTree → IncludeTree
  | .node path items included =>
      .node (makefileOf path items) (toIncludeTrees included)

def toIncludeTrees : List SourceTree → List IncludeTree
  | [] => []
  | tree :: trees => tree.toIncludeTree :: toIncludeTrees trees

end

theorem toIncludeTrees_eq (trees : List SourceTree) :
    toIncludeTrees trees = trees.map toIncludeTree := by
  induction trees with
  | nil => rfl
  | cons tree trees ih => simp [toIncludeTrees, ih]

mutual

theorem lastEntry_postOrder (tree : SourceTree) (name : Text) :
    lastEntry tree.toIncludeTree.postOrder name =
      single? (lastValue tree.includesFirst name) := by
  cases tree with
  | node path items included =>
      have hroot : lastEntry [makefileOf path items] name =
          single? (lastValue items name) := by
        rw [← flattens_single, lookup_makefileOf]
      unfold toIncludeTree IncludeTree.postOrder includesFirst
      rw [lastEntry_append, lastValue_append, hroot,
        lastEntry_postOrderAll included name]
      exact (Option.map_or).symm

theorem lastEntry_postOrderAll (trees : List SourceTree) (name : Text) :
    lastEntry (IncludeTree.postOrderAll (toIncludeTrees trees)) name =
      single? (lastValue (includesFirstAll trees) name) := by
  cases trees with
  | nil => rfl
  | cons tree trees =>
      unfold toIncludeTrees IncludeTree.postOrderAll includesFirstAll
      rw [lastEntry_append, lastValue_append, lastEntry_postOrder tree name,
        lastEntry_postOrderAll trees name]
      exact (Option.map_or).symm

end

mutual

theorem allSet_postOrder (tree : SourceTree) :
    ∀ m ∈ tree.toIncludeTree.postOrder, AllSet m := by
  cases tree with
  | node path items included =>
      unfold toIncludeTree IncludeTree.postOrder
      intro m hm
      rcases List.mem_append.mp hm with hm | hm
      · exact allSet_postOrderAll included m hm
      · cases List.mem_singleton.mp hm
        exact allSet_makefileOf path items

theorem allSet_postOrderAll (trees : List SourceTree) :
    ∀ m ∈ IncludeTree.postOrderAll (toIncludeTrees trees), AllSet m := by
  cases trees with
  | nil =>
      intro m hm
      cases hm
  | cons tree trees =>
      unfold toIncludeTrees IncludeTree.postOrderAll
      intro m hm
      rcases List.mem_append.mp hm with hm | hm
      · exact allSet_postOrder tree m hm
      · exact allSet_postOrderAll trees m hm

end

end SourceTree

theorem Holds.parseSingleFile {fs : FileSystem} (upper : UppercaseTable)
    {cwd : Path} {tree : SourceTree} (h : Holds fs cwd tree) :
    parseSingleFile fs upper cwd tree.path = .ok tree.toIncludeTree.root := by
  cases h with
  | leaf hne hread hnone => exact parseSingleFile_plain fs upper hne hread
  | node hne hread hsome hdir hfound hincluded =>
      exact parseSingleFile_plain fs upper hne hread

theorem Holds.loadIncludes {fs : FileSystem} (upper : UppercaseTable)
    {dir : Path} {includes : List Text} {trees : List SourceTree}
    (hfound : List.Forall₂
      (fun incl tree => fs.canonicalize dir incl = some tree.path)
      includes trees)
    (htrees : ∀ tree ∈ trees, Holds fs dir tree) :
    List.Forall₂
      (fun incl tree => loadInclude fs upper dir incl = .ok tree.root)
      includes (toIncludeTrees trees) := by
  induction hfound with
  | nil => exact .nil
  | @cons incl tree includes trees hpath _ ih =>
      have hfirst : loadInclude fs upper dir incl =
          .ok tree.toIncludeTree.root := by
        unfold loadInclude
        rw [hpath]
        exact (htrees tree List.mem_cons_self).parseSingleFile upper
      exact .cons hfirst
        (ih fun t ht => htrees t (List.mem_cons_of_mem tree ht))

theorem Holds.resolves {fs : FileSystem} (upper : UppercaseTable)
    {cwd : Path} {tree : SourceTree} (h : Holds fs cwd tree) :
    Resolves fs upper cwd tree.toIncludeTree := by
  induction h with
  | @leaf cwd path items hne hread hnone =>
      exact .leaf (by rw [includes_makefileOf, hnone])
  | @node cwd dir path items included hne hread hsome hdir hfound hincluded
      ih =>
      have hload := Holds.loadIncludes upper hfound hincluded
      rw [← includes_makefileOf path items] at hsome hload
      apply Resolves.node hsome hdir hload
      intro tree htree
      rw [toIncludeTrees_eq] at htree
      rcases List.mem_map.mp htree with ⟨source, hsource, rfl⟩
      exact ih source hsource

/-- `Makefile::parse_all` runs the lines of a tree of plain makefiles with the
includes of each file first.  Where no name of a line above an include is a
name of the included lines, these are the lines that make runs. -/
theorem parseAll_textual (fs : FileSystem) (upper : UppercaseTable)
    {cwd : Path} {tree : SourceTree} (h : Holds fs cwd tree)
    (depth : ℕ) (hdepth : tree.toIncludeTree.height < depth) :
    ∃ root final cwd',
      parseSingleFile fs upper cwd tree.path = .ok root ∧
      parseAll fs upper depth cwd root = .ok (final, cwd') ∧
      (∀ name, final.variableMap.lookup name =
        single? (lastValue tree.includesFirst name)) ∧
      (tree.Ordered → ∀ name, final.variableMap.lookup name =
        single? (lastValue tree.inPlace name)) := by
  rcases parseAll_flattens fs upper depth (h.resolves upper) hdepth
    tree.allSet_postOrder with ⟨final, cwd', hparse, hfinal⟩
  have hlookup : ∀ name, final.variableMap.lookup name =
      single? (lastValue tree.includesFirst name) := by
    intro name
    rw [hfinal name, lastEntry_postOrder]
  refine ⟨tree.toIncludeTree.root, final, cwd', h.parseSingleFile upper,
    hparse, hlookup, ?_⟩
  intro hordered name
  rw [hlookup name, h.lastValue_inPlace hordered]

/-- The tree of the sample files: `A=1` stands above the include of a file
with `A=2` and `B=3`. -/
def overriddenTree : SourceTree :=
  .node (fileAt "Makefile")
    [.assignment "A".toList "1".toList
          ⟨by decide, forall_mem_of_all (by decide)⟩
        (forall_mem_of_all (by decide)) (by decide),
      .inclusion "a.mk".toList (by decide) (forall_mem_of_all (by decide))
        (by decide)]
    [.node (fileAt "a.mk")
      [.assignment "A".toList "2".toList
          ⟨by decide, forall_mem_of_all (by decide)⟩
          (forall_mem_of_all (by decide)) (by decide),
        .assignment "B".toList "3".toList
          ⟨by decide, forall_mem_of_all (by decide)⟩
          (forall_mem_of_all (by decide)) (by decide)] []]

theorem holds_overriddenTree : Holds sampleFiles Path.root overriddenTree := by
  have hdir : sampleFiles.setCurrentDir Path.root
      ((fileAt "Makefile").parent.getD Path.root) = some Path.root := by
    decide
  apply Holds.node (by simp) (by decide +kernel) (by decide +kernel) hdir
  · exact .cons (by decide +kernel) .nil
  · intro tree htree
    cases List.mem_singleton.mp htree
    exact .leaf (by simp) (by decide +kernel) (by decide +kernel)

theorem parseAll_textual_sample :
    Holds sampleFiles Path.root overriddenTree ∧
    ∃ root final cwd',
      parseSingleFile sampleFiles asciiUppercase Path.root
        (fileAt "Makefile") = .ok root ∧
      parseAll sampleFiles asciiUppercase 2 Path.root root =
        .ok (final, cwd') ∧
      final.variableMap.lookup "B".toList =
        some { values := ["3".toList] } := by
  refine ⟨holds_overriddenTree, ?_⟩
  rcases parseAll_textual sampleFiles asciiUppercase holds_overriddenTree 2
    (by decide) with ⟨root, final, cwd', hroot, hparse, hlookup, -⟩
  refine ⟨root, final, cwd', hroot, hparse, ?_⟩
  rw [hlookup]
  decide +kernel

/-- Make would run `A=2` last. -/
theorem parseAll_not_textual :
    Holds sampleFiles Path.root overriddenTree ∧
    lastValue overriddenTree.inPlace "A".toList = some "2".toList ∧
    (match parseSingleFile sampleFiles asciiUppercase Path.root
        (fileAt "Makefile") with
      | .ok root =>
          match parseAll sampleFiles asciiUppercase 2 Path.root root with
          | .ok (final, _) => final.variableMap.lookup "A".toList
          | _ => none
      | _ => none) = some { values := ["1".toList] } :=
  ⟨holds_overriddenTree, by decide +kernel⟩

end

end Ips.Makefile
