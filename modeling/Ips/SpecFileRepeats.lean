import Ips.SpecFileFailures
import Ips.SpecFileText

/-!
# Sections that occur more than once

The fields of a spec file grow over the whole file, while the counter that
decides on the line feed in front of a line starts anew in every section.  The
last line of a section and the first line of the next one of the same name
become one line.  So the lines of the source stay apart exactly when no two
sections of one name hold text.
-/

namespace Ips.SpecFile

open Peg

/-! ## The text of the sections of a parse -/

def IsSectionOf (kind : Section) (node : Pair Rule) : Prop :=
  node.asRule = .sectionRule ∧
    ((node.intoInner.find? fun inner => inner.asRule = .sectionName).map
      Pair.asStr) = some kind.text

instance (kind : Section) : DecidablePred (IsSectionOf kind) :=
  fun _ => inferInstanceAs (Decidable (_ ∧ _))

/-- The sections of a name, in the order of the file. -/
def sectionsOf (kind : Section) (pairs : List (Pair Rule)) :
    List (Pair Rule) :=
  pairs.filter fun node => IsSectionOf kind node

/-- The text in the lines of a section; comments are left out. -/
def lineTexts (lines : List (Pair Rule)) : List Text :=
  (lines.filter fun line => line.asRule = .sectionLine).flatMap
    fun line => (line.intoInner.filter fun text =>
      text.asRule = .sectionText).map Pair.asStr

def textLines (node : Pair Rule) : List Text := lineTexts node.intoInner

def sourceLines (kind : Section) (pairs : List (Pair Rule)) : List Text :=
  (sectionsOf kind pairs).flatMap textLines

/-- What the walk makes of the sections of a name. -/
def gluedLines (kind : Section) (pairs : List (Pair Rule)) : Text :=
  (sectionsOf kind pairs).flatMap fun node => joined (textLines node)

theorem sectionsOf_append (kind : Section) (xs ys : List (Pair Rule)) :
    sectionsOf kind (xs ++ ys) = sectionsOf kind xs ++ sectionsOf kind ys :=
  List.filter_append ..

theorem gluedLines_append (kind : Section) (xs ys : List (Pair Rule)) :
    gluedLines kind (xs ++ ys) = gluedLines kind xs ++ gluedLines kind ys := by
  unfold gluedLines
  rw [sectionsOf_append, List.flatMap_append]

theorem sectionsOf_of_rule (kind : Section) {pair : Pair Rule}
    (h : pair.asRule ≠ .sectionRule) : sectionsOf kind [pair] = [] := by
  simp [sectionsOf, IsSectionOf, h]

theorem gluedLines_of_rule (kind : Section) {pair : Pair Rule}
    (h : pair.asRule ≠ .sectionRule) : gluedLines kind [pair] = [] := by
  rw [gluedLines, sectionsOf_of_rule kind h, List.flatMap_nil]

/-! ## The walk over one section -/

section Walk

variable (overflowChecks : Bool) {name : Text} {lines : List (Pair Rule)}
  {marks : List Mark}

/-- Comments do nothing. -/
theorem fold_lines_texts (h : List.Forall₂ (LineNode name) lines marks)
    (st : SectionState) :
    Outcome.fold (addMark overflowChecks) st marks =
      Outcome.fold (addMark overflowChecks) st
        ((lineTexts lines).map (.stored name)) := by
  induction h generalizing st with
  | nil => rfl
  | cons hline _ ih =>
      cases hline with
      | comment i j w line => exact ih st
      | stored i j w line =>
          have hcons : ∀ rest, lineTexts
              (⟨.sectionLine, i, w, [leaf .sectionText j line]⟩ :: rest) =
                line :: lineTexts rest := fun _ => rfl
          rw [hcons, List.map_cons, Outcome.fold_cons, Outcome.fold_cons]
          congr 1
          funext st'
          exact ih st'

theorem lineTexts_length_le (h : List.Forall₂ (LineNode name) lines marks) :
    (lineTexts lines).length ≤ marks.length := by
  induction h with
  | nil => exact le_rfl
  | cons hline _ ih =>
      cases hline with
      | comment i j w line => exact Nat.le_succ_of_le ih
      | stored i j w line => exact Nat.succ_le_succ ih

theorem stored_of_mem_lineTexts (h : List.Forall₂ (LineNode name) lines marks)
    {line : Text} (hline : line ∈ lineTexts lines) :
    Mark.stored name line ∈ marks := by
  induction h with
  | nil => cases hline
  | cons hnode _ ih =>
      cases hnode with
      | comment i j w text => exact List.mem_cons_of_mem _ (ih hline)
      | stored i j w text =>
          rcases List.mem_cons.mp hline with rfl | hline
          · exact List.mem_cons_self
          · exact List.mem_cons_of_mem _ (ih hline)

theorem gluedLines_section (kind : Section) (i j : ℕ) (w name : Text)
    (lines : List (Pair Rule)) :
    gluedLines kind
        [⟨.sectionRule, i, w, leaf .sectionName j name :: lines⟩] =
      if name = kind.text then joined (lineTexts lines) else [] := by
  have hsection : IsSectionOf kind
      ⟨.sectionRule, i, w, leaf .sectionName j name :: lines⟩ ↔
        name = kind.text := by
    simp [IsSectionOf, leaf]
  simp only [gluedLines, sectionsOf, List.filter_cons, List.filter_nil,
    decide_eq_true_eq, hsection]
  split_ifs
  · rw [List.flatMap_singleton]
    rfl
  · rfl

/-- The field of a section gets its lines, joined by line feeds. -/
theorem fieldText_section {kind : Section} (hkind : kind ≠ .files)
    (i j : ℕ) (w : Text) (h : List.Forall₂ (LineNode name) lines marks)
    (hlength : marks.length < 2 ^ 31) {st st' : SectionState}
    (hfold : Outcome.fold (addMark overflowChecks) st
      (.header name :: marks) = .ok st') :
    fieldText kind st'.spec = fieldText kind st.spec ++ gluedLines kind
      [⟨.sectionRule, i, w, leaf .sectionName j name :: lines⟩] := by
  rw [Outcome.fold_cons, addMark, Outcome.ok_bind,
    fold_lines_texts overflowChecks h] at hfold
  rw [gluedLines_section]
  cases hof : Section.of? name with
  | none =>
      -- The walk has not panicked, so there is no text in the section.
      have hnil : lineTexts lines = [] := by
        apply List.eq_nil_iff_forall_not_mem.mpr
        intro line hline
        obtain ⟨n, hn⟩ := placed_of_fold hfold (List.mem_map_of_mem hline)
        rw [hof] at hn
        cases hn
      rw [hnil] at hfold ⊢
      cases hfold
      simp [joined]
  | some n =>
      obtain rfl : n.text = name := Section.of?_eq_some hof
      have hle := lineTexts_length_le h
      obtain ⟨found, hfound, hspec⟩ := fold_stored overflowChecks n
        (lineTexts lines) st.spec fun _ => by omega
      rw [hfound] at hfold
      cases hfold
      rw [hspec, fieldText_stored hkind]
      simp only [Section.text_inj]

theorem fieldText_setVariable (kind : Section) (spec : SpecFile)
    (control : KnownVariableControl) (name value : Text) :
    fieldText kind (setVariable spec control name value) =
      fieldText kind spec := by
  cases control <;> cases kind <;> rfl

theorem ItemNodes.fieldText {kind : Section} (hkind : kind ≠ .files)
    {pairs : List (Pair Rule)} (h : ItemNodes pairs marks)
    (hlength : marks.length < 2 ^ 31) {st st' : SectionState}
    (hfold : Outcome.fold (addMark overflowChecks) st marks = .ok st') :
    fieldText kind st'.spec =
      fieldText kind st.spec ++ gluedLines kind pairs := by
  cases h with
  | blank =>
      cases hfold
      exact (List.append_nil _).symm
  | setting i j k w name value hblanks =>
      rw [Outcome.fold_cons, addMark, Outcome.ok_bind,
        fold_addMark_blanks _ _ hblanks] at hfold
      cases hfold
      rw [fieldText_setVariable, gluedLines_of_rule kind (by simp),
        List.append_nil]
  | unknown pair hunknown => cases hfold
  | «section» i j w name hlines =>
      rw [List.length_cons] at hlength
      exact fieldText_section overflowChecks hkind i j w hlines (by omega)
        hfold

theorem FileNodes.fieldText {kind : Section} (hkind : kind ≠ .files)
    {pairs : List (Pair Rule)} (h : FileNodes pairs marks)
    (hlength : marks.length < 2 ^ 31) {st st' : SectionState}
    (hfold : Outcome.fold (addMark overflowChecks) st marks = .ok st') :
    fieldText kind st'.spec =
      fieldText kind st.spec ++ gluedLines kind pairs := by
  induction h generalizing st with
  | nil =>
      cases hfold
      exact (List.append_nil _).symm
  | cons hitem _ ih =>
      rw [List.length_append] at hlength
      rw [Outcome.fold_append] at hfold
      obtain ⟨mid, hfirst, hrest⟩ := Outcome.bind_eq_ok_iff.mp hfold
      rw [ih (by omega) hrest,
        hitem.fieldText overflowChecks hkind (by omega) hfirst,
        gluedLines_append, List.append_assoc]

end Walk

/-! ## Lists of lines and the texts they are joined to -/

theorem joined_append {xs ys : List Text} (hxs : xs ≠ []) (hys : ys ≠ []) :
    joined (xs ++ ys) = joined xs ++ '\n' :: joined ys := by
  unfold joined
  induction xs with
  | nil => exact absurd rfl hxs
  | cons x xs ih =>
      cases xs with
      | nil =>
          rw [List.singleton_append, List.intercalate_cons_of_ne_nil hys,
            List.intercalate_singleton, List.append_assoc]
          rfl
      | cons x' xs =>
          rw [List.cons_append, List.intercalate_cons_of_ne_nil (by simp),
            ih (by simp), List.intercalate_cons_cons]
          simp only [List.append_assoc]

theorem filter_parts_eq_nil {parts : List (List Text)} :
    parts.filter (· ≠ []) = [] ↔ parts.flatten = [] := by
  rw [List.filter_eq_nil_iff, List.flatten_eq_nil_iff]
  simp

theorem flatMap_joined_eq_nil {parts : List (List Text)}
    (h : parts.flatten = []) : parts.flatMap joined = [] := by
  apply List.flatMap_eq_nil_iff.mpr
  intro part hpart
  rw [List.flatten_eq_nil_iff.mp h part hpart]
  rfl

/-- Joining at once takes one line feed more for every list of lines behind the
first one that is not empty. -/
theorem joined_flatten_length (parts : List (List Text)) :
    (joined parts.flatten).length = (parts.flatMap joined).length +
      ((parts.filter (· ≠ [])).length - 1) := by
  induction parts with
  | nil => rfl
  | cons part parts ih =>
      rw [List.flatten_cons, List.flatMap_cons]
      by_cases hpart : part = []
      · rw [List.filter_cons_of_neg (by simp [hpart]), hpart]
        exact ih
      · rw [List.filter_cons_of_pos (by simp [hpart]), List.length_cons,
          List.length_append, Nat.add_sub_cancel]
        by_cases hrest : parts.flatten = []
        · rw [hrest, flatMap_joined_eq_nil hrest,
            filter_parts_eq_nil.mpr hrest, List.append_nil]
          rfl
        · have hpos : (parts.filter (· ≠ [])).length ≠ 0 :=
            fun hzero => hrest (filter_parts_eq_nil.mp
              (List.eq_nil_of_length_eq_zero hzero))
          rw [joined_append hpart hrest, List.length_append, List.length_cons,
            ih]
          omega

theorem flatMap_joined_of_le (parts : List (List Text))
    (h : (parts.filter (· ≠ [])).length ≤ 1) :
    parts.flatMap joined = joined parts.flatten := by
  induction parts with
  | nil => rfl
  | cons part parts ih =>
      rw [List.flatMap_cons, List.flatten_cons]
      by_cases hpart : part = []
      · rw [List.filter_cons_of_neg (by simp [hpart])] at h
        rw [hpart]
        exact ih h
      · rw [List.filter_cons_of_pos (by simp [hpart]), List.length_cons] at h
        have hrest : parts.flatten = [] := filter_parts_eq_nil.mp
          (List.eq_nil_of_length_eq_zero (by omega))
        rw [hrest, flatMap_joined_eq_nil hrest, List.append_nil,
          List.append_nil]

/-- The parts can be joined one by one exactly when at most one of them has a
line. -/
theorem flatMap_joined_iff (parts : List (List Text)) :
    parts.flatMap joined = joined parts.flatten ↔
      (parts.filter (· ≠ [])).length ≤ 1 := by
  constructor
  · intro h
    have hlength := joined_flatten_length parts
    rw [h] at hlength
    omega
  · exact flatMap_joined_of_le parts

/-! ## The lines of the source -/

theorem ItemNodes.stored_of_mem {kind : Section} {pairs : List (Pair Rule)}
    {marks : List Mark} (h : ItemNodes pairs marks) {line : Text}
    (hline : line ∈ sourceLines kind pairs) :
    ∃ name, Mark.stored name line ∈ marks := by
  obtain ⟨node, hnode, hmem⟩ := List.mem_flatMap.mp hline
  obtain ⟨hpair, hsection⟩ := List.mem_filter.mp hnode
  obtain ⟨hrule, -⟩ := of_decide_eq_true hsection
  cases h with
  | blank => cases hpair
  | setting i j k w name value hblanks =>
      cases List.mem_singleton.mp hpair
      cases hrule
  | unknown pair hunknown =>
      cases List.mem_singleton.mp hpair
      rw [hrule] at hunknown
      rcases hunknown with hunknown | hunknown <;> cases hunknown
  | «section» i j w name hlines =>
      cases List.mem_singleton.mp hpair
      exact ⟨name, List.mem_cons_of_mem _
        (stored_of_mem_lineTexts hlines hmem)⟩

theorem FileNodes.stored_of_mem {kind : Section} {pairs : List (Pair Rule)}
    {marks : List Mark} (h : FileNodes pairs marks) {line : Text}
    (hline : line ∈ sourceLines kind pairs) :
    ∃ name, Mark.stored name line ∈ marks := by
  induction h with
  | nil => cases hline
  | cons hitem _ ih =>
      unfold sourceLines at hline
      rw [sectionsOf_append, List.flatMap_append, List.mem_append] at hline
      rcases hline with hline | hline
      · obtain ⟨name, hmark⟩ := hitem.stored_of_mem hline
        exact ⟨name, List.mem_append_left _ hmark⟩
      · obtain ⟨name, hmark⟩ := ih hline
        exact ⟨name, List.mem_append_right _ hmark⟩

/-- The field of a section holds the lines of all sections of its name, each of
them on a line of its own. -/
structure KeepsLines (kind : Section) (pairs : List (Pair Rule))
    (spec : SpecFile) : Prop where
  joined : fieldText kind spec = joined (sourceLines kind pairs)
  single : fieldText kind spec ≠ [] →
    ∀ line ∈ splitAt '\n' (fieldText kind spec), line ∈ sourceLines kind pairs

/-- What a successful parse leaves in the fields. -/
theorem parse_glued {overflowChecks : Bool} {content : Text} {spec : SpecFile}
    {pairs : List (Pair Rule)} (hlines : (linesOf content).length < 2 ^ 31)
    (hparse : parse overflowChecks content = .ok spec)
    (hpairs : Peg.parse skip Grammar.file content = some pairs)
    {kind : Section} (hkind : kind ≠ .files) :
    fieldText kind spec = gluedLines kind pairs ∧
      ∀ line ∈ sourceLines kind pairs, '\n' ∉ line := by
  rcases parse_nodes content with
    ⟨hnone, -⟩ | ⟨nodes, marks, hsome, hread, hnodes⟩
  · rw [hpairs] at hnone
    cases hnone
  · rw [hpairs] at hsome
    cases hsome
    have hend : sectionsOf kind (nodes ++ [leaf .EOI content.length []]) =
        sectionsOf kind nodes := by
      rw [sectionsOf_append, sectionsOf_of_rule kind (by simp [leaf]),
        List.append_nil]
    unfold gluedLines sourceLines
    rw [hend]
    rw [parse_eq, hread] at hparse
    obtain ⟨st, hfold, hspec⟩ := Outcome.bind_eq_ok_iff.mp hparse
    cases hspec
    have hknown := known_of_fold hfold
    have hlength := readSpec_length hread hknown
    constructor
    · have hfield := hnodes.fieldText overflowChecks hkind (by omega) hfold
      have hempty : fieldText kind ({} : SpecFile) = [] := by
        cases kind <;> rfl
      rwa [hempty, List.nil_append] at hfield
    · intro line hline hmem
      obtain ⟨name, hmark⟩ := hnodes.stored_of_mem hline
      have htext := accepts_stored (readSpec_accepts hread hknown) name line
        hmark '\n' hmem
      cases htext

/-- Repeated sections keep their lines exactly when of the sections of each
name one at most has a line of text. -/
theorem parse_keepsLines_iff {overflowChecks : Bool} {content : Text}
    {spec : SpecFile} {pairs : List (Pair Rule)}
    (hlines : (linesOf content).length < 2 ^ 31)
    (hparse : parse overflowChecks content = .ok spec)
    (hpairs : Peg.parse skip Grammar.file content = some pairs) :
    (∀ kind, kind ≠ .files → KeepsLines kind pairs spec) ↔
      ∀ kind, kind ≠ .files →
        ((sectionsOf kind pairs).filter fun node =>
          textLines node ≠ []).length ≤ 1 := by
  refine forall₂_congr fun kind hkind => ?_
  obtain ⟨hglued, hchars⟩ := parse_glued hlines hparse hpairs hkind
  have hiff := flatMap_joined_iff ((sectionsOf kind pairs).map textLines)
  rw [List.flatMap_map, ← List.flatMap_def, List.filter_map,
    List.length_map] at hiff
  constructor
  · intro hkeeps
    exact hiff.mp (hglued.symm.trans hkeeps.joined)
  · intro hone
    have heq : fieldText kind spec = joined (sourceLines kind pairs) :=
      hglued.trans (hiff.mpr hone)
    refine ⟨heq, ?_⟩
    intro hne line hline
    have hsome : sourceLines kind pairs ≠ [] := by
      intro hnil
      rw [hnil] at heq
      exact hne heq
    have hsplit : splitAt '\n' (joined (sourceLines kind pairs)) =
        sourceLines kind pairs :=
      List.splitOn_intercalate '\n' hchars hsome
    rwa [heq, hsplit] at hline

/-- Text in one section of a name only, and a repeated section with nothing but
a comment. -/
theorem parse_keepsLines_iff_commented :
    ∃ spec pairs,
      parse true "%prep\na\nb\n\n%build\nc\n\n%prep\n#d\n".toList = .ok spec ∧
      Peg.parse skip Grammar.file
        "%prep\na\nb\n\n%build\nc\n\n%prep\n#d\n".toList = some pairs ∧
      ∀ kind, kind ≠ .files → KeepsLines kind pairs spec := by
  have hparse : parse true
      "%prep\na\nb\n\n%build\nc\n\n%prep\n#d\n".toList =
        .ok { prepScript := "a\nb".toList, buildScript := "c".toList } := by
    decide +kernel
  have hcounts : (Peg.parse skip Grammar.file
      "%prep\na\nb\n\n%build\nc\n\n%prep\n#d\n".toList).map (fun pairs =>
        Section.all.map fun kind => ((sectionsOf kind pairs).filter
          fun node => textLines node ≠ []).length) =
        some [0, 1, 1, 0, 0, 0] := by
    decide +kernel
  obtain ⟨pairs, hpairs, hlengths⟩ := Option.map_eq_some_iff.mp hcounts
  refine ⟨_, pairs, hparse, hpairs, (parse_keepsLines_iff (by decide +kernel)
    hparse hpairs).mpr ?_⟩
  intro kind _
  simp only [Section.all, List.map_cons, List.map_nil, List.cons.injEq,
    and_true] at hlengths
  cases kind <;> omega

/-- The counter starts anew in the second section. -/
theorem parse_gluesLines :
    ∃ spec pairs,
      parse true "%prep\na\n\n%build\nb\n\n%prep\nc\n".toList = .ok spec ∧
      Peg.parse skip Grammar.file
        "%prep\na\n\n%build\nb\n\n%prep\nc\n".toList = some pairs ∧
      (linesOf "%prep\na\n\n%build\nb\n\n%prep\nc\n".toList).length < 2 ^ 31 ∧
      spec.prepScript = "ac".toList ∧
      sourceLines .prep pairs = ["a".toList, "c".toList] ∧
      ¬ KeepsLines .prep pairs spec := by
  have hparse : parse true
      "%prep\na\n\n%build\nb\n\n%prep\nc\n".toList =
        .ok { prepScript := "ac".toList, buildScript := "b".toList } := by
    decide +kernel
  have hsource : (Peg.parse skip Grammar.file
      "%prep\na\n\n%build\nb\n\n%prep\nc\n".toList).map (sourceLines .prep) =
        some ["a".toList, "c".toList] := by
    decide +kernel
  obtain ⟨pairs, hpairs, hlines⟩ := Option.map_eq_some_iff.mp hsource
  refine ⟨_, pairs, hparse, hpairs, by decide +kernel, rfl, hlines, ?_⟩
  intro hkeeps
  have hjoined := hkeeps.joined
  rw [hlines] at hjoined
  revert hjoined
  decide

end Ips.SpecFile
