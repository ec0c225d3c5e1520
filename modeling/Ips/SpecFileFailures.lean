import Ips.PegNodes
import Ips.SpecFileLines

/-!
# When reading a spec file fails

The grammar yields more kinds of nodes than the walk over the pairs handles.
`specfile::parse` returns an error where the grammar rejects the text, and it
panics where one of these nodes, or a line of text in a section with an unknown
name, occurs in the parse.  The number of lines is bounded below `2 ^ 31`, so
that the counter of the lines of a section does not overflow.
-/

namespace Ips.SpecFile

open Peg

/-! ## Nodes that the walk does not handle -/

def IsUnknownVariable (node : Pair Rule) : Prop :=
  node.asRule = .multilineVariable ∨ node.asRule = .emptyVariable

/-- A section with a line of text, under none of the known names. -/
structure IsUnknownSection (node : Pair Rule) : Prop where
  rule : node.asRule = .sectionRule
  name : ∃ nameNode ∈ node.intoInner,
    nameNode.asRule = .sectionName ∧ Section.of? nameNode.asStr = none
  text : ∃ line, Occurs line node.intoInner ∧ line.asRule = .sectionText

def Unhandled (pairs : List (Pair Rule)) : Prop :=
  ∃ node, Occurs node pairs ∧ (IsUnknownVariable node ∨ IsUnknownSection node)

theorem unhandled_append {xs ys : List (Pair Rule)} :
    Unhandled (xs ++ ys) ↔ Unhandled xs ∨ Unhandled ys := by
  unfold Unhandled
  simp only [occurs_append, or_and_right, exists_or]

theorem not_unhandled_nil : ¬ Unhandled [] := by
  rintro ⟨node, hnode, -⟩
  exact occurs_nil node hnode

theorem not_unhandled_of_rules {pairs : List (Pair Rule)}
    (h : ∀ node, Occurs node pairs → node.asRule ≠ .multilineVariable ∧
      node.asRule ≠ .emptyVariable ∧ node.asRule ≠ .sectionRule) :
    ¬ Unhandled pairs := by
  rintro ⟨node, hnode, hbad⟩
  obtain ⟨hmultiline, hempty, hsection⟩ := h node hnode
  rcases hbad with (hrule | hrule) | hbad
  · exact hmultiline hrule
  · exact hempty hrule
  · exact hsection hbad.rule

/-! ## Marks that cannot be carried out -/

def Mark.Stops : Mark → Prop
  | .unknown _ => True
  | .stored name _ => Section.of? name = none
  | _ => False

section Lines

variable {name : Text} {lines : List (Pair Rule)} {marks : List Mark}

theorem LineNode.occurs {pair node : Pair Rule} {mark : Mark}
    (h : LineNode name pair mark) :
    Occurs node [pair] ↔ node = pair ∨ node ∈ pair.intoInner := by
  rw [occurs_singleton]
  cases h with
  | comment i j w line =>
      simp only [occurs_singleton, leaf, occurs_nil, or_false,
        List.mem_singleton]
  | stored i j w line =>
      simp only [occurs_singleton, leaf, occurs_nil, or_false,
        List.mem_singleton]

/-- The nodes in the lines of a section are lines, comments and text. -/
theorem rule_of_occurs_lines (h : List.Forall₂ (LineNode name) lines marks)
    {node : Pair Rule} (hnode : Occurs node lines) :
    node.asRule = .sectionLine ∨ node.asRule = .commentLine ∨
      node.asRule = .sectionText := by
  induction h with
  | nil => exact absurd hnode (occurs_nil node)
  | @cons pair mark pairs marks hline _ ih =>
      rw [← List.singleton_append, occurs_append, hline.occurs] at hnode
      rcases hnode with (rfl | hinner) | hrest
      · cases hline <;> exact .inl rfl
      · cases hline with
        | comment i j w line =>
            cases List.mem_singleton.mp hinner
            exact .inr (.inl rfl)
        | stored i j w line =>
            cases List.mem_singleton.mp hinner
            exact .inr (.inr rfl)
      · exact ih hrest

/-- A section has a node of text exactly when one of its lines is stored. -/
theorem exists_text_iff (h : List.Forall₂ (LineNode name) lines marks) :
    (∃ node, Occurs node lines ∧ node.asRule = .sectionText) ↔
      ∃ line, Mark.stored name line ∈ marks := by
  induction h with
  | nil => simp
  | @cons pair mark pairs marks hline _ ih =>
      have hfirst : (∃ node, Occurs node [pair] ∧
          node.asRule = .sectionText) ↔ ∃ line, .stored name line = mark := by
        simp only [hline.occurs]
        cases hline with
        | comment i j w line => simp [leaf]
        | stored i j w line => simp [leaf]
      rw [← List.singleton_append]
      simp only [occurs_append, or_and_right, exists_or, hfirst, ih,
        List.mem_cons]

theorem mark_of_lines (h : List.Forall₂ (LineNode name) lines marks)
    {mark : Mark} (hmark : mark ∈ marks) :
    mark = .comment ∨ ∃ line, mark = .stored name line := by
  obtain ⟨pair, -, hline⟩ := exists_of_forall₂ h.flip mark hmark
  cases hline with
  | comment i j w line => exact .inl rfl
  | stored i j w line => exact .inr ⟨line, rfl⟩

theorem stops_lines_iff (h : List.Forall₂ (LineNode name) lines marks) :
    (∃ mark ∈ marks, mark.Stops) ↔
      Section.of? name = none ∧ ∃ line, Mark.stored name line ∈ marks := by
  constructor
  · rintro ⟨mark, hmark, hstops⟩
    rcases mark_of_lines h hmark with rfl | ⟨line, rfl⟩
    · cases hstops
    · exact ⟨hstops, line, hmark⟩
  · rintro ⟨hname, line, hmark⟩
    exact ⟨_, hmark, hname⟩

theorem not_unhandled_lines (h : List.Forall₂ (LineNode name) lines marks) :
    ¬ Unhandled lines := by
  apply not_unhandled_of_rules
  intro node hnode
  rcases rule_of_occurs_lines h hnode with hrule | hrule | hrule
  · simp [hrule]
  · simp [hrule]
  · simp [hrule]

/-- In the node of a section, only the section itself can be unhandled. -/
theorem unhandled_section_iff (i j : ℕ) (w : Text)
    (h : List.Forall₂ (LineNode name) lines marks) :
    Unhandled [⟨.sectionRule, i, w, leaf .sectionName j name :: lines⟩] ↔
      Section.of? name = none ∧ ∃ line, Mark.stored name line ∈ marks := by
  constructor
  · rintro ⟨node, hnode, hbad⟩
    rw [occurs_singleton, occurs_cons] at hnode
    rcases hnode with rfl | (rfl | hinner) | hlines
    · rcases hbad with (hrule | hrule) | hbad
      · cases hrule
      · cases hrule
      · obtain ⟨nameNode, hmem, hrule, hname⟩ := hbad.name
        obtain ⟨line, hline, htext⟩ := hbad.text
        rcases List.mem_cons.mp hmem with rfl | hmem
        · refine ⟨hname, (exists_text_iff h).mp ⟨line, ?_, htext⟩⟩
          rcases occurs_cons.mp hline with (rfl | hleaf) | hline
          · cases htext
          · exact absurd hleaf (occurs_nil line)
          · exact hline
        · have hkind := rule_of_occurs_lines h (.here hmem)
          simp [hrule] at hkind
    · rcases hbad with (hrule | hrule) | hbad
      · cases hrule
      · cases hrule
      · cases hbad.rule
    · exact absurd hinner (occurs_nil node)
    · exact absurd ⟨node, hlines, hbad⟩ (not_unhandled_lines h)
  · rintro ⟨hname, hstored⟩
    obtain ⟨line, hline, htext⟩ := (exists_text_iff h).mpr hstored
    refine ⟨_, .here List.mem_cons_self, .inr ⟨rfl, ?_, ?_⟩⟩
    · exact ⟨_, List.mem_cons_self, rfl, hname⟩
    · exact ⟨line, occurs_cons.mpr (.inr hline), htext⟩

end Lines

theorem ItemNodes.unhandled_iff {pairs : List (Pair Rule)} {marks : List Mark}
    (h : ItemNodes pairs marks) :
    Unhandled pairs ↔ ∃ mark ∈ marks, mark.Stops := by
  cases h with
  | blank => simp [not_unhandled_nil, Mark.Stops]
  | @setting i j k w name value blanks hblanks =>
      constructor
      · refine fun hbad => absurd hbad (not_unhandled_of_rules ?_)
        intro node hnode
        simp only [occurs_cons, leaf, occurs_nil, or_false] at hnode
        rcases hnode with rfl | rfl | rfl
        · simp
        · simp
        · simp
      · rintro ⟨mark, hmark, hstops⟩
        rcases List.mem_cons.mp hmark with rfl | hmark
        · cases hstops
        · cases hblanks mark hmark
          cases hstops
  | unknown pair hunknown =>
      constructor
      · intro _
        exact ⟨_, List.mem_cons_self, trivial⟩
      · intro _
        exact ⟨pair, .here List.mem_cons_self, .inl hunknown⟩
  | «section» i j w name hlines =>
      rw [unhandled_section_iff i j w hlines, ← stops_lines_iff hlines]
      simp [Mark.Stops]

/-- A node of the parse is unhandled exactly when a mark of its lines cannot be
carried out. -/
theorem FileNodes.unhandled_iff {pairs : List (Pair Rule)} {marks : List Mark}
    (h : FileNodes pairs marks) :
    Unhandled pairs ↔ ∃ mark ∈ marks, mark.Stops := by
  induction h with
  | nil => simp [not_unhandled_nil]
  | cons hitem _ ih =>
      rw [unhandled_append, hitem.unhandled_iff, ih]
      simp only [List.mem_append, or_and_right, exists_or]

/-! ## Carrying out the marks -/

section Fold

variable (overflowChecks : Bool)

theorem increment_of_lt {count : ℤ} (h : count + 1 < 2 ^ 31) :
    increment overflowChecks count = .ok (count + 1) := if_pos h

theorem increment_ok_or_panic (count : ℤ) :
    (∃ count', increment overflowChecks count = .ok count') ∨
      ∃ message, True ∧ increment overflowChecks count = .panic message := by
  unfold increment
  split_ifs
  · exact .inl ⟨_, rfl⟩
  · exact .inr ⟨_, trivial, rfl⟩
  · exact .inl ⟨_, rfl⟩

theorem pushLine_ok_or_panic (st : SectionState)
    (push : SpecFile → Text → SpecFile) (line : Text) :
    (∃ st', pushLine overflowChecks st push line = .ok st') ∨
      ∃ message, True ∧
        pushLine overflowChecks st push line = .panic message := by
  unfold pushLine
  rcases increment_ok_or_panic overflowChecks st.sectionLine with
    ⟨count, hcount⟩ | ⟨message, -, hpanic⟩
  · rw [hcount]
    exact .inl ⟨_, rfl⟩
  · rw [hpanic]
    exact .inr ⟨message, trivial, rfl⟩

theorem storeLine_ok_or_panic (st : SectionState) (line : Text) :
    (∃ st', storeLine overflowChecks st line = .ok st') ∨
      ∃ message, True ∧ storeLine overflowChecks st line = .panic message := by
  unfold storeLine
  split
  · exact pushLine_ok_or_panic overflowChecks st _ line
  · exact pushLine_ok_or_panic overflowChecks st _ line
  · exact pushLine_ok_or_panic overflowChecks st _ line
  · exact .inl ⟨_, rfl⟩
  · exact pushLine_ok_or_panic overflowChecks st _ line
  · exact pushLine_ok_or_panic overflowChecks st _ line
  · exact .inr ⟨_, trivial, rfl⟩

/-- Carrying out a mark never returns an error. -/
theorem addMark_ok_or_panic (st : SectionState) (mark : Mark) :
    (∃ st', addMark overflowChecks st mark = .ok st') ∨
      ∃ message, True ∧ addMark overflowChecks st mark = .panic message := by
  cases mark with
  | blank => exact .inl ⟨_, rfl⟩
  | setting name value => exact .inl ⟨_, rfl⟩
  | header name => exact .inl ⟨_, rfl⟩
  | comment => exact .inl ⟨_, rfl⟩
  | stored name line => exact storeLine_ok_or_panic overflowChecks _ line
  | unknown r => exact .inr ⟨_, trivial, rfl⟩

theorem addMark_ne_ok_of_stops {mark : Mark} (h : mark.Stops)
    (st st' : SectionState) : addMark overflowChecks st mark ≠ .ok st' := by
  cases mark with
  | stored name line =>
      have hname : Section.of? name = none := h
      rw [addMark, storeLine, hname]
      intro hok
      cases hok
  | unknown r =>
      intro hok
      cases hok
  | _ => cases h

theorem storeLine_of_lt (st : SectionState) {n : Section}
    (hname : Section.of? st.sectionNameTmp = some n)
    (hcount : st.sectionLine + 1 < 2 ^ 31) (line : Text) :
    ∃ st', storeLine overflowChecks st line = .ok st' ∧
      st'.sectionLine ≤ st.sectionLine + 1 := by
  unfold storeLine pushLine
  rw [hname, increment_of_lt overflowChecks hcount]
  cases n with
  | files => exact ⟨_, rfl, by simp⟩
  | _ => exact ⟨_, rfl, le_rfl⟩

/-- The counter of a section stays below the number of its lines. -/
theorem fold_lines_of_lt {name : Text} {marks : List Mark}
    (hmarks : ∀ mark ∈ marks,
      mark = .comment ∨ ∃ line, mark = .stored name line)
    (hstops : ¬ ∃ mark ∈ marks, mark.Stops) (st : SectionState)
    (hcount : st.sectionLine + marks.length < 2 ^ 31) :
    ∃ st', Outcome.fold (addMark overflowChecks) st marks = .ok st' := by
  induction marks generalizing st with
  | nil => exact ⟨st, rfl⟩
  | cons mark marks ih =>
      rw [List.length_cons, Nat.cast_succ] at hcount
      rw [Outcome.fold_cons]
      have hrest := ih
        (fun mark hmark => hmarks mark (List.mem_cons_of_mem _ hmark))
        (fun ⟨mark, hmark, h⟩ => hstops ⟨mark, List.mem_cons_of_mem _ hmark, h⟩)
      rcases hmarks mark List.mem_cons_self with rfl | ⟨line, rfl⟩
      · exact hrest st (by omega)
      · cases hname : Section.of? name with
        | none => exact absurd ⟨_, List.mem_cons_self, hname⟩ hstops
        | some n =>
            obtain ⟨st', hstore, hle⟩ := storeLine_of_lt overflowChecks
              { st with sectionNameTmp := name } hname (by dsimp only; omega)
              line
            rw [addMark, hstore, Outcome.ok_bind]
            dsimp only at hle
            exact hrest st' (by omega)

theorem ItemNodes.fold_ok {pairs : List (Pair Rule)} {marks : List Mark}
    (h : ItemNodes pairs marks) (hstops : ¬ ∃ mark ∈ marks, mark.Stops)
    (hlength : marks.length < 2 ^ 31) (st : SectionState) :
    ∃ st', Outcome.fold (addMark overflowChecks) st marks = .ok st' := by
  cases h with
  | blank => exact ⟨st, rfl⟩
  | setting i j k w name value hblanks =>
      rw [Outcome.fold_cons, addMark, Outcome.ok_bind]
      exact ⟨_, fold_addMark_blanks _ _ hblanks⟩
  | unknown pair hunknown =>
      exact absurd ⟨_, List.mem_cons_self, trivial⟩ hstops
  | «section» i j w name hlines =>
      rw [Outcome.fold_cons, addMark, Outcome.ok_bind]
      refine fold_lines_of_lt overflowChecks (fun mark => mark_of_lines hlines) ?_ _ ?_
      · rintro ⟨mark, hmark, h⟩
        exact hstops ⟨mark, List.mem_cons_of_mem _ hmark, h⟩
      · rw [List.length_cons] at hlength
        dsimp only
        omega

theorem FileNodes.fold_ok {pairs : List (Pair Rule)} {marks : List Mark}
    (h : FileNodes pairs marks) (hstops : ¬ ∃ mark ∈ marks, mark.Stops)
    (hlength : marks.length < 2 ^ 31) (st : SectionState) :
    ∃ st', Outcome.fold (addMark overflowChecks) st marks = .ok st' := by
  induction h generalizing st with
  | nil => exact ⟨st, rfl⟩
  | @cons xs ys marks more hitem _ ih =>
      rw [List.length_append] at hlength
      obtain ⟨st', hfirst⟩ := hitem.fold_ok overflowChecks
        (fun ⟨mark, hmark, h⟩ =>
          hstops ⟨mark, List.mem_append_left _ hmark, h⟩)
        (by omega) st
      rw [Outcome.fold_append, hfirst, Outcome.ok_bind]
      exact ih
        (fun ⟨mark, hmark, h⟩ =>
          hstops ⟨mark, List.mem_append_right _ hmark, h⟩)
        (by omega) st'

theorem fold_panics {marks : List Mark} (h : ∃ mark ∈ marks, mark.Stops)
    (st : SectionState) :
    ∃ message, Outcome.fold (addMark overflowChecks) st marks =
      .panic message := by
  obtain ⟨mark, hmark, hstops⟩ := h
  have hrun : ∀ st, ∀ mark ∈ marks, _ :=
    fun st mark _ => addMark_ok_or_panic overflowChecks st mark
  rcases Outcome.fold_ok_or_panic (addMark overflowChecks) hrun st with
    ⟨st', hok⟩ | ⟨message, -, hpanic⟩
  · obtain ⟨c, c', hstep⟩ := Outcome.exists_step_of_fold_ok _ hok hmark
    exact absurd hstep (addMark_ne_ok_of_stops overflowChecks hstops c c')
  · exact ⟨message, hpanic⟩

end Fold

/-! ## The outcomes -/

theorem steps_length {st st' : State} {ls : List Text} {marks : List Mark}
    (h : steps st ls = some (marks, st')) : marks.length = ls.length := by
  induction ls generalizing st marks with
  | nil =>
      cases h
      rfl
  | cons l ls ih =>
      unfold steps at h
      split at h
      · cases h
      · obtain ⟨x, hx, heq⟩ := Option.map_eq_some_iff.mp h
        cases heq
        rw [List.length_cons, List.length_cons, ih hx]

/-- The machine accepts a text without unknown variables that the grammar
accepts. -/
theorem readSpec_accepts {content : Text} {marks : List Mark}
    (h : readSpec content = some marks) (hknown : Known marks) :
    Accepts .outside (linesOf content) marks := by
  unfold readSpec readDocument at h
  dsimp only at h
  split_ifs at h with hdoc
  cases h
  exact ((marksAlike content.length content _).mp
    ⟨_, rfl, hdoc.2, hknown⟩).2

/-- There is one mark for each line. -/
theorem readSpec_length {content : Text} {marks : List Mark}
    (h : readSpec content = some marks) (hknown : Known marks) :
    marks.length = (linesOf content).length := by
  obtain ⟨st, hsteps, -⟩ := readSpec_accepts h hknown
  exact steps_length hsteps

/-- What becomes of a text that the grammar accepts. -/
theorem parse_of_nodes (overflowChecks : Bool) {content : Text}
    {pairs : List (Pair Rule)} {marks : List Mark}
    (hlines : (linesOf content).length < 2 ^ 31)
    (hread : readSpec content = some marks) (hnodes : FileNodes pairs marks) :
    (Unhandled pairs ∧ ∃ message,
      parse overflowChecks content = .panic message) ∨
    (¬ Unhandled pairs ∧ ∃ spec, parse overflowChecks content = .ok spec) := by
  rw [parse_eq, hread]
  dsimp only
  rw [hnodes.unhandled_iff]
  by_cases hstops : ∃ mark ∈ marks, mark.Stops
  · obtain ⟨message, hpanic⟩ := fold_panics overflowChecks hstops
      { spec := {} }
    rw [hpanic]
    exact .inl ⟨hstops, message, rfl⟩
  · have hknown : Known marks :=
      fun r hr => hstops ⟨_, hr, trivial⟩
    rw [← readSpec_length hread hknown] at hlines
    obtain ⟨st, hok⟩ := hnodes.fold_ok overflowChecks hstops hlines
      { spec := {} }
    rw [hok]
    exact .inr ⟨hstops, st.spec, rfl⟩

/-- `specfile::parse` returns an error exactly when the grammar rejects the
text; on an accepted text it panics exactly when a node is not handled. -/
theorem parse_outcome (overflowChecks : Bool) (content : Text)
    (hlines : (linesOf content).length < 2 ^ 31) :
    ((∃ error, parse overflowChecks content = .err error) ↔
      Peg.parse skip Grammar.file content = none) ∧
    ∀ pairs, Peg.parse skip Grammar.file content = some pairs →
      ((∃ message, parse overflowChecks content = .panic message) ↔
        Unhandled pairs) ∧
      ((∃ spec, parse overflowChecks content = .ok spec) ↔
        ¬ Unhandled pairs) := by
  rcases parse_nodes content with
    ⟨hparse, hread⟩ | ⟨pairs, marks, hparse, hread, hnodes⟩
  · rw [parse_eq, hread, hparse]
    refine ⟨⟨fun _ => rfl, fun _ => ⟨_, rfl⟩⟩, ?_⟩
    intro pairs hpairs
    cases hpairs
  · have hend : Unhandled (pairs ++ [leaf .EOI content.length []]) ↔
        Unhandled pairs := by
      rw [unhandled_append, or_iff_left]
      apply not_unhandled_of_rules
      intro node hnode
      rcases occurs_singleton.mp hnode with rfl | hinner
      · simp [leaf]
      · exact absurd hinner (occurs_nil node)
    rw [hparse]
    rcases parse_of_nodes overflowChecks hlines hread hnodes with
      ⟨hbad, message, hpanic⟩ | ⟨hgood, spec, hok⟩
    · rw [hpanic]
      refine ⟨by simp, ?_⟩
      intro found hfound
      cases hfound
      rw [hend]
      simp [hbad]
    · rw [hok]
      refine ⟨by simp, ?_⟩
      intro found hfound
      cases hfound
      rw [hend]
      simp [hgood]

/-- A variable without a value is no variable of the walk. -/
theorem parse_outcome_emptyVariable :
    (linesOf "Summary:\n".toList).length < 2 ^ 31 ∧
      ∃ message, parse true "Summary:\n".toList = .panic message := by
  have hlines : (linesOf "Summary:\n".toList).length < 2 ^ 31 := by
    decide +kernel
  have hrules : (Peg.parse skip Grammar.file "Summary:\n".toList).map
      (List.map Pair.asRule) = some [.emptyVariable, .EOI] := by
    decide +kernel
  obtain ⟨pairs, hparse, hpairs⟩ := Option.map_eq_some_iff.mp hrules
  obtain ⟨pair, rest, rfl, hrule, -⟩ := List.map_eq_cons_iff.mp hpairs
  have houtcome := (parse_outcome true _ hlines).2 _ hparse
  exact ⟨hlines, houtcome.1.mpr
    ⟨pair, .here List.mem_cons_self, .inl (.inr hrule)⟩⟩

end Ips.SpecFile
