import Ips.SpecFileSections

/-!
# Writing spec files

Spec files with one setting on a line, followed by sections that are set off
from each other by a blank line.  They are read back as they were written.
-/

namespace Ips.SpecFile

open Peg

/-! ## Texts -/

/-- A name of the form `[A-Z][A-Za-z]+[0-9]*`. -/
structure IsVariableName (name : Text) : Prop where
  splits : ∃ c w d, name = c :: (w ++ d) ∧ isUppercase c = true ∧ w ≠ [] ∧
    (∀ a ∈ w, isAlpha a = true) ∧ ∀ a ∈ d, isDigit a = true

/-- Text of one line that does not start with a blank. -/
structure IsLine (line : Text) : Prop where
  ne_nil : line ≠ []
  chars : ∀ c ∈ line, isTextChar c = true
  head : headIs isBlank line = false

structure Setting where
  name : Text
  value : Text
  isName : IsVariableName name
  isLine : IsLine value

structure SectionBlock where
  kind : Section
  lines : List Text
  nonempty : lines ≠ []
  isLine : ∀ line ∈ lines, IsLine line
  noComment : ∀ line ∈ lines, isComment line = false
  trimmed : kind = .files → ∀ line ∈ lines, ∀ c, line.getLast? = some c →
    isBlank c = false

structure SpecText where
  settings : List Setting
  sections : List SectionBlock
  distinct : (sections.map SectionBlock.kind).Nodup
  nonempty : settings ≠ [] ∨ sections ≠ []

def Setting.line (setting : Setting) : Text :=
  setting.name ++ ':' :: ' ' :: setting.value

def SectionBlock.rows (block : SectionBlock) : List Text :=
  [] :: headerText block.kind :: block.lines

def SpecText.rows (doc : SpecText) : List Text :=
  doc.settings.map Setting.line ++ doc.sections.flatMap SectionBlock.rows

/-- Every line ends in a line feed. -/
def SpecText.render (doc : SpecText) : Text :=
  doc.rows.flatMap fun row => row ++ ['\n']

def Setting.mark (setting : Setting) : Mark :=
  .setting setting.name setting.value

def SectionBlock.marks (block : SectionBlock) : List Mark :=
  .blank :: .header block.kind.text ::
    block.lines.map (.stored block.kind.text)

def SpecText.marks (doc : SpecText) : List Mark :=
  doc.settings.map Setting.mark ++ doc.sections.flatMap SectionBlock.marks

/-! ## The lines of the text -/

theorem linesOf_rows {rows : List Text}
    (h : ∀ row ∈ rows, ∀ c ∈ row, isNewlineChar c = false) :
    linesOf (rows.flatMap fun row => row ++ ['\n']) = rows ∧
      lastLine (rows.flatMap fun row => row ++ ['\n']) = [] := by
  induction rows with
  | nil => exact linesOf_of_none rfl
  | cons row rows ih =>
      have htext : ((row :: rows).flatMap fun row => row ++ ['\n']) =
          row ++ '\n' :: rows.flatMap fun row => row ++ ['\n'] := by simp
      have hend : EndOfLine
          ('\n' :: rows.flatMap fun row => row ++ ['\n']) := .inr rfl
      have hline := hend.restOfLine (h row List.mem_cons_self)
      have hbreak : readNewline (afterLine
          (row ++ '\n' :: rows.flatMap fun row => row ++ ['\n'])) =
            some (rows.flatMap fun row => row ++ ['\n']) := by
        rw [hline.2]
        rfl
      rcases linesOf_of_some hbreak with ⟨hlines, hlast⟩
      rcases ih fun row' hrow' => h row' (List.mem_cons_of_mem row hrow') with
        ⟨ihlines, ihlast⟩
      rw [htext, hlines, hlast, hline.1, ihlines]
      exact ⟨rfl, ihlast⟩

theorem newline_of_textChar {c : Char} (h : isTextChar c = true) :
    isNewlineChar c = false := by
  cases hc : isNewlineChar c with
  | false => rfl
  | true =>
      rw [textChar_not_newline c hc] at h
      cases h

theorem IsVariableName.chars {name : Text} (h : IsVariableName name) :
    ∀ c ∈ name, isTextChar c = true := by
  rcases h.splits with ⟨c, w, d, rfl, hc, -, hw, hd⟩
  intro a ha
  rcases List.mem_cons.mp ha with rfl | ha
  · apply textChar_of_isAlpha
    simp only [isAlpha, Bool.or_eq_true]
    exact .inr hc
  · rcases List.mem_append.mp ha with ha | ha
    · exact textChar_of_isAlpha a (hw a ha)
    · exact textChar_of_isDigit a (hd a ha)

theorem Setting.line_chars (setting : Setting) :
    ∀ c ∈ setting.line, isTextChar c = true := by
  intro c hc
  unfold Setting.line at hc
  rcases List.mem_append.mp hc with hc | hc
  · exact setting.isName.chars c hc
  · rcases List.mem_cons.mp hc with rfl | hc
    · decide
    · rcases List.mem_cons.mp hc with rfl | hc
      · decide
      · exact setting.isLine.chars c hc

theorem headerText_chars (n : Section) :
    ∀ c ∈ headerText n, isTextChar c = true := by
  cases n <;> exact forall_mem_of_all (by decide)

theorem SpecText.rows_chars (doc : SpecText) :
    ∀ row ∈ doc.rows, ∀ c ∈ row, isNewlineChar c = false := by
  intro row hrow c hc
  apply newline_of_textChar
  rcases List.mem_append.mp hrow with hrow | hrow
  · rcases List.mem_map.mp hrow with ⟨setting, -, rfl⟩
    exact setting.line_chars c hc
  · rcases List.mem_flatMap.mp hrow with ⟨block, -, hrow⟩
    rcases List.mem_cons.mp hrow with rfl | hrow
    · cases hc
    · rcases List.mem_cons.mp hrow with rfl | hrow
      · exact headerText_chars block.kind c hc
      · exact (block.isLine row hrow).chars c hc

/-! ## The machine on the text -/

theorem readName_variableName {name : Text} (h : IsVariableName name)
    (t : List Char) : readName (name ++ ':' :: t) = some (name, ':' :: t) := by
  rcases h.splits with ⟨c, w, d, rfl, hc, hne, hw, hd⟩
  have halpha : headIs isAlpha (d ++ ':' :: t) = false := by
    cases d with
    | nil => rfl
    | cons a d =>
        have ha := hd a List.mem_cons_self
        change isAlpha a = false
        simp only [isDigit, Bool.and_eq_true, decide_eq_true_eq] at ha
        have hle : a.toNat ≤ 57 := ha.2
        simp only [isAlpha, Bool.or_eq_false_iff, Bool.and_eq_false_iff,
          decide_eq_false_iff_not]
        constructor
        · left
          intro hlow
          have : 97 ≤ a.toNat := hlow
          omega
        · left
          intro hlow
          have : 65 ≤ a.toNat := hlow
          omega
  have htake : (w ++ (d ++ ':' :: t)).takeWhile isAlpha = w := by
    rw [List.takeWhile_append_of_pos hw, ← takeTails_headIs,
      takeTails_eq_nil halpha, List.append_nil]
  have hdrop : (w ++ (d ++ ':' :: t)).dropWhile isAlpha = d ++ ':' :: t := by
    rw [List.dropWhile_append_of_pos hw, ← dropTails_headIs,
      dropTails_eq_self halpha]
  have hdigits : (d ++ ':' :: t).takeWhile isDigit = d := by
    rw [List.takeWhile_append_of_pos hd, ← takeTails_headIs,
      takeTails_eq_nil rfl, List.append_nil]
  have hrest : (d ++ ':' :: t).dropWhile isDigit = ':' :: t := by
    rw [List.dropWhile_append_of_pos hd, ← dropTails_headIs,
      dropTails_eq_self rfl]
  simp only [List.cons_append, List.append_assoc, readName]
  rw [htake, hdrop, hdigits, hrest, if_pos ⟨hc, hne⟩]

theorem IsLine.skipBlanks {line : Text} (h : IsLine line) :
    Peg.skipBlanks line = line := skipBlanks_of_head h.head

theorem Setting.step (setting : Setting) :
    SpecFile.step .outside setting.line =
      some (setting.mark, .outside) := by
  have hskip : skipBlanks setting.line = setting.line := by
    apply skipBlanks_of_head
    unfold Setting.line
    rcases setting.isName.splits with ⟨c, w, d, hname, hc, -⟩
    rw [hname]
    change isBlank c = false
    cases hblank : isBlank c with
    | false => rfl
    | true =>
        simp only [isBlank, Bool.or_eq_true, beq_iff_eq] at hblank
        rcases hblank with rfl | rfl
        · cases hc
        · cases hc
  have hvalue : skipBlanks (' ' :: setting.value) = setting.value :=
    setting.isLine.skipBlanks
  have hsetting : settingOf setting.line = some setting.mark := by
    unfold settingOf readSetting
    rw [hskip, Setting.line, readName_variableName setting.isName]
    have hcolon : skipBlanks (':' :: ' ' :: setting.value) =
        ':' :: ' ' :: setting.value := rfl
    have htake : setting.value.takeWhile isTextChar = setting.value :=
      List.takeWhile_eq_self_iff.mpr setting.isLine.chars
    have hdrop : setting.value.dropWhile isTextChar = [] :=
      List.dropWhile_eq_nil_iff.mpr setting.isLine.chars
    simp only [hcolon, hvalue, htake, hdrop, if_neg setting.isLine.ne_nil]
    rfl
  have hne : skipBlanks setting.line ≠ [] := by
    rw [hskip, Setting.line]
    simp
  rw [step_outside, if_neg hne, hsetting]

theorem lineOf_isLine {line : Text} (h : IsLine line)
    (hcomment : isComment line = false) (name : Text) :
    lineOf name line = some (.stored name line) := by
  have hskip := h.skipBlanks
  have hne : skipBlanks line ≠ [] := by
    rw [hskip]
    exact h.ne_nil
  rw [lineOf_of_all name hne (by rw [hskip]; exact h.chars), hskip, lineMark,
    hcomment]
  rfl

theorem accepts_inside_lines (name : Text) {lines rows : List Text}
    {marks : List Mark}
    (hline : ∀ line ∈ lines, lineOf name line = some (.stored name line))
    (h : Accepts (.inside name) rows marks) :
    Accepts (.inside name) (lines ++ rows)
      (lines.map (.stored name) ++ marks) := by
  induction lines with
  | nil => exact h
  | cons line lines ih =>
      have hstep := step_inside_of_lineOf (hline line List.mem_cons_self)
      exact accepts_cons.mpr ⟨_, _, _, hstep, rfl,
        ih fun l hl => hline l (List.mem_cons_of_mem line hl)⟩

theorem SectionBlock.accepts (block : SectionBlock) {st : State}
    {rows : List Text} {marks : List Mark}
    (hst : SpecFile.step st [] = some (.blank, .outside))
    (h : Accepts (.inside block.kind.text) rows marks) :
    Accepts st (block.rows ++ rows) (block.marks ++ marks) := by
  have hline : ∀ line ∈ block.lines, lineOf block.kind.text line =
      some (.stored block.kind.text line) := fun line hline =>
    lineOf_isLine (block.isLine line hline) (block.noComment line hline) _
  have hheader : SpecFile.step .outside (headerText block.kind) =
      some (.header block.kind.text, .opened block.kind.text) := by
    cases block.kind <;> decide
  have hlines : Accepts (.opened block.kind.text) (block.lines ++ rows)
      (block.lines.map (.stored block.kind.text) ++ marks) := by
    cases hcons : block.lines with
    | nil => exact absurd hcons block.nonempty
    | cons line lines =>
        rw [hcons] at hline
        have hstep : SpecFile.step (.opened block.kind.text) line =
            some (.stored block.kind.text line, .inside block.kind.text) := by
          rw [step_opened, hline line List.mem_cons_self]
          rfl
        exact accepts_cons.mpr ⟨_, _, _, hstep, rfl, accepts_inside_lines _
          (fun l hl => hline l (List.mem_cons_of_mem line hl)) h⟩
  exact accepts_cons.mpr ⟨_, _, _, hst, rfl,
    accepts_cons.mpr ⟨_, _, _, hheader, rfl, hlines⟩⟩

theorem accepts_sections (blocks : List SectionBlock) {st : State}
    (hst : SpecFile.step st [] = some (.blank, .outside)) (hclosed : st.closed) :
    Accepts st (blocks.flatMap SectionBlock.rows)
      (blocks.flatMap SectionBlock.marks) := by
  induction blocks generalizing st with
  | nil => exact accepts_nil.mpr ⟨rfl, hclosed⟩
  | cons block blocks ih =>
      rw [List.flatMap_cons, List.flatMap_cons]
      exact block.accepts hst (ih rfl rfl)

theorem SpecText.accepts (doc : SpecText) :
    Accepts .outside doc.rows doc.marks := by
  unfold SpecText.rows SpecText.marks
  induction doc.settings with
  | nil => exact accepts_sections doc.sections rfl rfl
  | cons setting settings ih =>
      exact accepts_cons.mpr ⟨_, _, _, setting.step, rfl, ih⟩

theorem SpecText.marks_ne_nil (doc : SpecText) : doc.marks ≠ [] := by
  unfold SpecText.marks
  rcases doc.nonempty with h | h
  · simp [h]
  · rcases List.exists_cons_of_ne_nil h with ⟨block, blocks, hcons⟩
    rw [hcons, List.flatMap_cons, SectionBlock.marks]
    simp

/-- The text is read, and its marks are carried out. -/
theorem SpecText.parse_eq_fold (doc : SpecText) (overflowChecks : Bool) :
    parse overflowChecks doc.render =
      (Outcome.fold (addMark overflowChecks) { spec := {} } doc.marks >>=
        fun st => .ok st.spec) := by
  rcases linesOf_rows doc.rows_chars with ⟨hlines, hlast⟩
  have haccepts := doc.accepts
  rw [← hlines] at haccepts
  apply parse_of_accepts doc.marks_ne_nil _ haccepts
  rw [hlast]
  rfl

/-! ## What the marks store -/

section Stores

variable (overflowChecks : Bool)

def setSetting (spec : SpecFile) (setting : Setting) : SpecFile :=
  setVariable spec (KnownVariableControl.of setting.name) setting.name
    setting.value

theorem fold_settings (settings : List Setting) (st : SectionState) :
    Outcome.fold (addMark overflowChecks) st (settings.map Setting.mark) =
      .ok { st with spec := settings.foldl setSetting st.spec } := by
  induction settings generalizing st with
  | nil => rfl
  | cons setting settings ih => exact ih _

/-- The fields that hold the text of a section. -/
def fieldText : Section → SpecFile → Text
  | .description, spec => spec.description
  | .prep, spec => spec.prepScript
  | .build, spec => spec.buildScript
  | .files, _ => []
  | .install, spec => spec.installScript
  | .changelog, spec => spec.changelog

def pushText : Section → SpecFile → Text → SpecFile
  | .description, spec, s => { spec with description := spec.description ++ s }
  | .prep, spec, s => { spec with prepScript := spec.prepScript ++ s }
  | .build, spec, s => { spec with buildScript := spec.buildScript ++ s }
  | .files, spec, _ => spec
  | .install, spec, s =>
      { spec with installScript := spec.installScript ++ s }
  | .changelog, spec, s => { spec with changelog := spec.changelog ++ s }

theorem pushText_pushText (kind : Section) (spec : SpecFile) (s t : Text) :
    pushText kind (pushText kind spec s) t = pushText kind spec (s ++ t) := by
  cases kind <;> simp [pushText]

theorem storeLine_text {kind : Section} (hkind : kind ≠ .files)
    (count : ℤ) (spec : SpecFile) (line : Text) :
    storeLine overflowChecks ⟨kind.text, count, spec⟩ line =
      pushLine overflowChecks ⟨kind.text, count, spec⟩ (pushText kind) line := by
  unfold storeLine
  rw [Section.of?_text]
  cases kind with
  | files => exact absurd rfl hkind
  | description => rfl
  | prep => rfl
  | build => rfl
  | install => rfl
  | changelog => rfl

/-- What a list of lines appends, when `count` lines are there already. -/
def appended (count : ℤ) : List Text → Text
  | [] => []
  | line :: lines => appendNewlineString line count ++ appended (count + 1) lines

theorem fold_text {kind : Section} (hkind : kind ≠ .files)
    (lines : List Text) (count : ℤ) (spec : SpecFile)
    (hcount : count + lines.length < 2 ^ 31) :
    ∃ count', Outcome.fold (addMark overflowChecks) ⟨kind.text, count, spec⟩
        (lines.map (.stored kind.text)) =
      .ok ⟨kind.text, count', pushText kind spec (appended count lines)⟩ := by
  induction lines generalizing count spec with
  | nil =>
      refine ⟨count, ?_⟩
      cases kind <;> simp [pushText, appended]
  | cons line lines ih =>
      rw [List.length_cons] at hcount
      push_cast at hcount
      have hsmall : count + 1 < 2 ^ 31 := by omega
      rcases ih (count + 1) (pushText kind spec
        (appendNewlineString line count)) (by omega) with ⟨count', hfold⟩
      refine ⟨count', ?_⟩
      rw [List.map_cons, Outcome.fold_cons, addMark,
        storeLine_text overflowChecks hkind,
        pushLine, increment, if_pos hsmall, Outcome.ok_bind, Outcome.pure_eq,
        Outcome.ok_bind]
      dsimp only
      rw [hfold, pushText_pushText]
      rfl

theorem fold_files (lines : List Text) (st : SectionState) :
    Outcome.fold (addMark overflowChecks) st
        (lines.map (.stored Section.files.text)) =
      .ok { st with
        sectionNameTmp := if lines = [] then st.sectionNameTmp
          else Section.files.text
        spec := { st.spec with
          files := st.spec.files ++ lines.map trimEnd } } := by
  induction lines generalizing st with
  | nil => simp
  | cons line lines ih =>
      have hstore : storeLine overflowChecks
          { st with sectionNameTmp := Section.files.text } line =
            .ok { st with
              sectionNameTmp := Section.files.text
              spec := { st.spec with
                files := st.spec.files ++ [trimEnd line] } } := rfl
      rw [List.map_cons, Outcome.fold_cons, addMark, hstore, Outcome.ok_bind,
        ih]
      simp

/-- A text of lines, joined by line feeds. -/
def joined (lines : List Text) : Text := ['\n'].intercalate lines

theorem appended_of_pos {count : ℤ} (hcount : 0 < count) (lines : List Text) :
    appended count lines = lines.flatMap fun line => '\n' :: line := by
  induction lines generalizing count with
  | nil => rfl
  | cons line lines ih =>
      have hne : count ≠ 0 := by omega
      rw [appended, appendNewlineString, if_neg hne, ih (by omega),
        List.flatMap_cons]

theorem appended_zero (lines : List Text) : appended 0 lines = joined lines := by
  have hjoined : ∀ line lines, joined (line :: lines) =
      line ++ lines.flatMap fun line => '\n' :: line :=
    intercalate_cons '\n'
  cases lines with
  | nil => rfl
  | cons line lines =>
      rw [appended, appendNewlineString, if_pos rfl,
        appended_of_pos (by omega), hjoined]

def storeSection (spec : SpecFile) (block : SectionBlock) : SpecFile :=
  if block.kind = .files then
    { spec with files := spec.files ++ block.lines.map trimEnd }
  else pushText block.kind spec (joined block.lines)

/-- What the lines of a section add to the file. -/
theorem fold_stored (kind : Section) (lines : List Text) (spec : SpecFile)
    (hcount : kind ≠ .files → lines.length < 2 ^ 31) :
    ∃ st', Outcome.fold (addMark overflowChecks) ⟨kind.text, 0, spec⟩
        (lines.map (.stored kind.text)) = .ok st' ∧
      st'.spec = if kind = .files then
          { spec with files := spec.files ++ lines.map trimEnd }
        else pushText kind spec (joined lines) := by
  by_cases hfiles : kind = .files
  · rw [if_pos hfiles, hfiles, fold_files]
    exact ⟨_, rfl, rfl⟩
  · have hlength := hcount hfiles
    rw [if_neg hfiles, ← appended_zero]
    rcases fold_text overflowChecks hfiles lines 0 spec
      (by omega) with ⟨count', hfold⟩
    exact ⟨_, hfold, rfl⟩

theorem fold_section (block : SectionBlock) (st : SectionState)
    (hcount : block.kind ≠ .files → block.lines.length < 2 ^ 31) :
    ∃ st', Outcome.fold (addMark overflowChecks) st block.marks = .ok st' ∧
      st'.spec = storeSection st.spec block :=
  fold_stored overflowChecks block.kind block.lines st.spec hcount

theorem fold_sections (blocks : List SectionBlock) (st : SectionState)
    (hcount : ∀ block ∈ blocks, block.kind ≠ .files →
      block.lines.length < 2 ^ 31) :
    ∃ st', Outcome.fold (addMark overflowChecks) st
        (blocks.flatMap SectionBlock.marks) = .ok st' ∧
      st'.spec = blocks.foldl storeSection st.spec := by
  induction blocks generalizing st with
  | nil => exact ⟨st, rfl, rfl⟩
  | cons block blocks ih =>
      rcases fold_section overflowChecks block st
        (hcount block List.mem_cons_self) with ⟨st₁, hfold, hspec⟩
      rcases ih st₁ (fun b hb => hcount b (List.mem_cons_of_mem block hb)) with
        ⟨st₂, hfold', hspec'⟩
      refine ⟨st₂, ?_, ?_⟩
      · rw [List.flatMap_cons, Outcome.fold_append, hfold, Outcome.ok_bind,
          hfold']
      · rw [hspec', hspec]
        rfl

end Stores

/-! ## Reading back -/

def lastValue? (settings : List Setting) (key : Text) : Option Text :=
  ((settings.filter fun setting => setting.name = key).getLast?).map
    Setting.value

def SpecText.lastValue (doc : SpecText) (key : String) : Text :=
  (lastValue? doc.settings key.toList).getD []

def SpecText.sectionLines (doc : SpecText) (kind : Section) : List Text :=
  ((doc.sections.find? fun block => block.kind = kind).map
    SectionBlock.lines).getD []

def knownNames : List Text :=
  ["Name".toList, "Version".toList, "Release".toList, "Summary".toList,
    "License".toList]

/-- The file holds what was written. -/
structure Describes (doc : SpecText) (spec : SpecFile) : Prop where
  name : spec.name = doc.lastValue "Name"
  version : spec.version = doc.lastValue "Version"
  release : spec.release = doc.lastValue "Release"
  summary : spec.summary = doc.lastValue "Summary"
  license : spec.license = doc.lastValue "License"
  sources : spec.sources = []
  variableMap : ∀ key, spec.variableMap.lookup key =
    if key ∈ knownNames then none else lastValue? doc.settings key
  description : spec.description = joined (doc.sectionLines .description)
  prepScript : spec.prepScript = joined (doc.sectionLines .prep)
  buildScript : spec.buildScript = joined (doc.sectionLines .build)
  installScript : spec.installScript = joined (doc.sectionLines .install)
  files : spec.files = doc.sectionLines .files
  changelog : spec.changelog = joined (doc.sectionLines .changelog)

theorem lastValue?_append_singleton (settings : List Setting)
    (setting : Setting) (key : Text) :
    lastValue? (settings ++ [setting]) key =
      if setting.name = key then some setting.value
      else lastValue? settings key := by
  unfold lastValue?
  rw [List.filter_append]
  by_cases h : setting.name = key
  · simp [h]
  · simp [h]

/-- What a setting changes. -/
theorem setSetting_eq (spec : SpecFile) (setting : Setting) :
    setSetting spec setting =
      { spec with
        name := if setting.name = "Name".toList then setting.value
          else spec.name
        version := if setting.name = "Version".toList then setting.value
          else spec.version
        release := if setting.name = "Release".toList then setting.value
          else spec.release
        summary := if setting.name = "Summary".toList then setting.value
          else spec.summary
        license := if setting.name = "License".toList then setting.value
          else spec.license
        variableMap := if setting.name ∈ knownNames then spec.variableMap
          else spec.variableMap.insert setting.name setting.value } := by
  unfold setSetting KnownVariableControl.of
  by_cases h₁ : setting.name = "Name".toList
  · rw [h₁]
    rfl
  by_cases h₂ : setting.name = "Version".toList
  · rw [h₂]
    rfl
  by_cases h₃ : setting.name = "Release".toList
  · rw [h₃]
    rfl
  by_cases h₄ : setting.name = "Summary".toList
  · rw [h₄]
    rfl
  by_cases h₅ : setting.name = "License".toList
  · rw [h₅]
    rfl
  have hnot : setting.name ∉ knownNames := by
    simp only [knownNames, List.mem_cons, List.not_mem_nil, or_false, not_or]
    exact ⟨h₁, h₂, h₃, h₄, h₅⟩
  simp only [if_neg h₁, if_neg h₂, if_neg h₃, if_neg h₄, if_neg h₅, if_neg hnot]
  rfl

theorem foldl_settings (settings : List Setting) :
    ∃ m, settings.foldl setSetting {} =
      { name := (lastValue? settings "Name".toList).getD []
        version := (lastValue? settings "Version".toList).getD []
        release := (lastValue? settings "Release".toList).getD []
        summary := (lastValue? settings "Summary".toList).getD []
        license := (lastValue? settings "License".toList).getD []
        variableMap := m } ∧
      ∀ key, m.lookup key =
        if key ∈ knownNames then none else lastValue? settings key := by
  induction settings using List.reverseRecOn with
  | nil => exact ⟨∅, rfl, fun key => by simp [lastValue?]⟩
  | append_singleton settings setting ih =>
      rcases ih with ⟨m, hfold, hlookup⟩
      have hgetD : ∀ key, (lastValue? (settings ++ [setting]) key).getD [] =
          if setting.name = key then setting.value
          else (lastValue? settings key).getD [] := by
        intro key
        rw [lastValue?_append_singleton]
        split_ifs
        · rfl
        · rfl
      refine ⟨if setting.name ∈ knownNames then m
        else m.insert setting.name setting.value, ?_, ?_⟩
      · rw [List.foldl_append, List.foldl_cons, List.foldl_nil, hfold,
          setSetting_eq]
        simp only [hgetD]
      · intro key
        rw [lastValue?_append_singleton]
        by_cases hknown : setting.name ∈ knownNames
        · rw [if_pos hknown, hlookup]
          by_cases hkey : key ∈ knownNames
          · rw [if_pos hkey, if_pos hkey]
          · have hne : setting.name ≠ key := by
              rintro rfl
              exact hkey hknown
            rw [if_neg hkey, if_neg hkey, if_neg hne]
        · rw [if_neg hknown]
          by_cases heq : setting.name = key
          · subst heq
            rw [Finmap.lookup_insert, if_neg hknown, if_pos rfl]
          · rw [Finmap.lookup_insert_of_ne _ (fun h => heq h.symm), hlookup,
              if_neg heq]

/-- The part of a file that settings fill in. -/
def settingsPart (spec : SpecFile) :
    (Text × Text × Text × Text × Text) × List Text × HashMap Text :=
  ((spec.name, spec.version, spec.release, spec.summary, spec.license),
    spec.sources, spec.variableMap)

theorem settingsPart_storeSection (spec : SpecFile) (block : SectionBlock) :
    settingsPart (storeSection spec block) = settingsPart spec := by
  unfold storeSection
  cases block.kind <;> rfl

theorem settingsPart_foldl (blocks : List SectionBlock) (spec : SpecFile) :
    settingsPart (blocks.foldl storeSection spec) = settingsPart spec := by
  induction blocks generalizing spec with
  | nil => rfl
  | cons block blocks ih =>
      rw [List.foldl_cons, ih, settingsPart_storeSection]

theorem fieldText_stored {kind : Section} (hkind : kind ≠ .files)
    (spec : SpecFile) (other : Section) (files : List Text) (s : Text) :
    fieldText kind (if other = .files then { spec with files := files }
        else pushText other spec s) =
      fieldText kind spec ++ if other = kind then s else [] := by
  cases other <;> cases kind <;> simp [fieldText, pushText] at hkind ⊢

theorem fieldText_storeSection {kind : Section} (hkind : kind ≠ .files)
    (spec : SpecFile) (block : SectionBlock) :
    fieldText kind (storeSection spec block) =
      fieldText kind spec ++
        if block.kind = kind then joined block.lines else [] :=
  fieldText_stored hkind spec block.kind _ (joined block.lines)

theorem files_storeSection (spec : SpecFile) (block : SectionBlock) :
    (storeSection spec block).files =
      spec.files ++
        if block.kind = .files then block.lines.map trimEnd else [] := by
  unfold storeSection
  cases hblock : block.kind <;> simp [pushText]

/-- Of sections of different kinds, one at most is of a given kind. -/
theorem flatMap_kind {α : Type} (f : SectionBlock → List α)
    {blocks : List SectionBlock}
    (hdistinct : (blocks.map SectionBlock.kind).Nodup) (kind : Section) :
    (blocks.flatMap fun block => if block.kind = kind then f block else []) =
      ((blocks.find? fun block => block.kind = kind).map f).getD [] := by
  induction blocks with
  | nil => rfl
  | cons block blocks ih =>
      rw [List.map_cons, List.nodup_cons] at hdistinct
      rw [List.flatMap_cons]
      by_cases hkind : block.kind = kind
      · have hrest : (blocks.flatMap fun block =>
            if block.kind = kind then f block else []) = [] := by
          apply List.flatMap_eq_nil_iff.mpr
          intro other hother
          apply if_neg
          intro heq
          apply hdistinct.1
          rw [hkind, ← heq]
          exact List.mem_map_of_mem hother
        rw [if_pos hkind, hrest, List.find?_cons_of_pos (by simpa using hkind)]
        simp
      · rw [if_neg hkind, List.find?_cons_of_neg (by simpa using hkind),
          List.nil_append, ih hdistinct.2]

theorem fieldText_foldl {kind : Section} (hkind : kind ≠ .files)
    (blocks : List SectionBlock) (spec : SpecFile) :
    fieldText kind (blocks.foldl storeSection spec) =
      fieldText kind spec ++ blocks.flatMap fun block =>
        if block.kind = kind then joined block.lines else [] := by
  induction blocks generalizing spec with
  | nil => simp
  | cons block blocks ih =>
      rw [List.foldl_cons, ih, fieldText_storeSection hkind,
        List.flatMap_cons, List.append_assoc]

theorem files_foldl (blocks : List SectionBlock) (spec : SpecFile) :
    (blocks.foldl storeSection spec).files =
      spec.files ++ blocks.flatMap fun block =>
        if block.kind = .files then block.lines.map trimEnd else [] := by
  induction blocks generalizing spec with
  | nil => simp
  | cons block blocks ih =>
      rw [List.foldl_cons, ih, files_storeSection, List.flatMap_cons,
        List.append_assoc]

theorem SpecText.fieldText_eq (doc : SpecText) {kind : Section}
    (hkind : kind ≠ .files) {spec : SpecFile}
    (hspec : fieldText kind spec = []) :
    fieldText kind (doc.sections.foldl storeSection spec) =
      joined (doc.sectionLines kind) := by
  rw [fieldText_foldl hkind, hspec, List.nil_append,
    flatMap_kind (fun block => joined block.lines) doc.distinct]
  unfold SpecText.sectionLines
  cases doc.sections.find? fun block => block.kind = kind with
  | none => rfl
  | some block => rfl

/-! ## File names -/

theorem isWhitespace_of_isChar {c : Char} (h : isChar c = true) :
    isWhitespace c = false := by
  rw [isChar, ← Bool.or_assoc, Bool.or_eq_true] at h
  rcases h with halphanumeric | hmark
  · obtain ⟨hlow, hhigh⟩ := printable_of_alphanumeric halphanumeric
    exact isWhitespace_of_printable hlow hhigh
  · have hall : ∀ d ∈ charMarks, isWhitespace d = false :=
      forall_mem_of_all (by decide)
    exact hall c (List.contains_iff_mem.mp hmark)

theorem SectionBlock.trimEnd_lines (block : SectionBlock)
    (hkind : block.kind = .files) :
    block.lines.map trimEnd = block.lines := by
  have hline : ∀ line ∈ block.lines, trimEnd line = id line := by
    intro line hmem
    apply trimEnd_eq_self
    intro c hlast
    have htext := (block.isLine line hmem).chars c
      (List.mem_of_getLast? hlast)
    simp only [isTextChar, Bool.or_eq_true] at htext
    rcases htext with hchar | hblank
    · exact isWhitespace_of_isChar hchar
    · rw [block.trimmed hkind line hmem c hlast] at hblank
      cases hblank
  rw [List.map_congr_left hline, List.map_id]

theorem SpecText.files_eq (doc : SpecText) {spec : SpecFile}
    (hspec : spec.files = []) :
    (doc.sections.foldl storeSection spec).files = doc.sectionLines .files := by
  rw [files_foldl, hspec, List.nil_append,
    flatMap_kind (fun block => block.lines.map trimEnd) doc.distinct]
  unfold SpecText.sectionLines
  cases hfind : doc.sections.find? fun block => block.kind = .files with
  | none => rfl
  | some block =>
      have hkind : block.kind = .files := by
        simpa using List.find?_some hfind
      exact block.trimEnd_lines hkind

/-! ## The round trip -/

/-- A spec file whose sections of text have fewer lines than the counter can
count is read back as it was written. -/
theorem parse_render (overflowChecks : Bool) (doc : SpecText)
    (hcount : ∀ block ∈ doc.sections, block.kind ≠ .files →
      block.lines.length < 2 ^ 31) :
    ∃ spec, parse overflowChecks doc.render = .ok spec ∧
      Describes doc spec := by
  rcases foldl_settings doc.settings with ⟨m, hsettings, hlookup⟩
  rcases fold_sections overflowChecks doc.sections
    { spec := doc.settings.foldl setSetting {} } hcount with
    ⟨st, hfold, hspec⟩
  refine ⟨st.spec, ?_, ?_⟩
  · rw [doc.parse_eq_fold, SpecText.marks, Outcome.fold_append, fold_settings,
      Outcome.ok_bind, hfold]
    rfl
  · rw [hsettings] at hspec
    have hpart := settingsPart_foldl doc.sections
      { name := (lastValue? doc.settings "Name".toList).getD []
        version := (lastValue? doc.settings "Version".toList).getD []
        release := (lastValue? doc.settings "Release".toList).getD []
        summary := (lastValue? doc.settings "Summary".toList).getD []
        license := (lastValue? doc.settings "License".toList).getD []
        variableMap := m }
    rw [← hspec] at hpart
    simp only [settingsPart, Prod.mk.injEq] at hpart
    have htext : ∀ kind, kind ≠ .files →
        fieldText kind st.spec = joined (doc.sectionLines kind) := by
      intro kind hkind
      rw [hspec]
      apply doc.fieldText_eq hkind
      cases kind <;> rfl
    exact {
      name := hpart.1.1
      version := hpart.1.2.1
      release := hpart.1.2.2.1
      summary := hpart.1.2.2.2.1
      license := hpart.1.2.2.2.2
      sources := hpart.2.1
      variableMap := by
        intro key
        rw [hpart.2.2]
        exact hlookup key
      description := htext .description (by decide)
      prepScript := htext .prep (by decide)
      buildScript := htext .build (by decide)
      installScript := htext .install (by decide)
      files := by
        rw [hspec]
        exact doc.files_eq rfl
      changelog := htext .changelog (by decide) }

/-- A setting and two sections. -/
def smallText : SpecText where
  settings := [{
    name := "Name".toList
    value := "hello".toList
    isName := ⟨'N', "ame".toList, [], rfl, rfl, by decide,
      forall_mem_of_all (by decide), by simp⟩
    isLine := ⟨by decide, forall_mem_of_all (by decide), rfl⟩ }]
  sections := [
    { kind := .files
      lines := ["/usr".toList]
      nonempty := by decide
      isLine := by
        intro line hline
        cases List.mem_singleton.mp hline
        exact ⟨by decide, forall_mem_of_all (by decide), rfl⟩
      noComment := by decide
      trimmed := by
        intro _ line hline c hc
        cases List.mem_singleton.mp hline
        cases hc
        rfl },
    { kind := .build
      lines := ["make".toList, "%install".toList]
      nonempty := by decide
      isLine := by
        intro line hline
        simp only [List.mem_cons, List.not_mem_nil, or_false] at hline
        rcases hline with rfl | rfl
        · exact ⟨by decide, forall_mem_of_all (by decide), rfl⟩
        · exact ⟨by decide, forall_mem_of_all (by decide), rfl⟩
      noComment := by decide
      trimmed := by
        intro h
        cases h }]
  distinct := by decide
  nonempty := .inl (by simp)

theorem parse_render_small :
    smallText.render = "Name: hello\n\n%files\n/usr\n\n%build\nmake\n%install\n".toList ∧
      ∃ spec, parse true smallText.render = .ok spec ∧
        Describes smallText spec := by
  refine ⟨by decide +kernel, parse_render true smallText ?_⟩
  intro block hblock _
  simp only [smallText, List.mem_cons, List.not_mem_nil, or_false] at hblock
  rcases hblock with rfl | rfl
  · simp
  · simp

/-! ## Too many lines -/

theorem fold_text_overflow {kind : Section} (hkind : kind ≠ .files)
    (lines : List Text) (count : ℤ) (spec : SpecFile) (hsmall : count < 2 ^ 31)
    (hcount : 2 ^ 31 ≤ count + lines.length) :
    Outcome.fold (addMark true) ⟨kind.text, count, spec⟩
        (lines.map (.stored kind.text)) =
      .panic "attempt to add with overflow" := by
  induction lines generalizing count spec with
  | nil =>
      rw [List.length_nil] at hcount
      push_cast at hcount
      omega
  | cons line lines ih =>
      rw [List.length_cons] at hcount
      push_cast at hcount
      rw [List.map_cons, Outcome.fold_cons, addMark,
        storeLine_text true hkind, pushLine, increment]
      by_cases hnext : count + 1 < 2 ^ 31
      · rw [if_pos hnext, Outcome.ok_bind, Outcome.pure_eq, Outcome.ok_bind]
        exact ih (count + 1) _ hnext (by omega)
      · rw [if_neg hnext, if_pos rfl]
        rfl

/-- A build script of `n` lines. -/
def longText (n : ℕ) (hn : n ≠ 0) : SpecText where
  settings := []
  sections := [{
    kind := .build
    lines := List.replicate n ['a']
    nonempty := fun h => hn ((List.replicate_eq_nil_iff _).mp h)
    isLine := by
      intro line hline
      rw [List.eq_of_mem_replicate hline]
      exact ⟨by decide, forall_mem_of_all (by decide), rfl⟩
    noComment := by
      intro line hline
      rw [List.eq_of_mem_replicate hline]
      rfl
    trimmed := by
      intro h
      cases h }]
  distinct := List.nodup_singleton _
  nonempty := .inr (List.cons_ne_nil _ _)

theorem parse_longText {n : ℕ} (hn : n ≠ 0) (hlarge : 2 ^ 31 ≤ n) :
    parse true (longText n hn).render =
      .panic "attempt to add with overflow" := by
  have hstart : Outcome.fold (addMark true) { spec := {} }
      (longText n hn).marks =
        Outcome.fold (addMark true) ⟨Section.build.text, 0, {}⟩
          ((List.replicate n ['a']).map (.stored Section.build.text) ++ []) :=
    rfl
  have hcount : (2 : ℤ) ^ 31 ≤ 0 + (List.replicate n ['a']).length := by
    rw [List.length_replicate]
    exact_mod_cast (by omega : 2 ^ 31 ≤ 0 + n)
  rw [SpecText.parse_eq_fold, hstart, List.append_nil,
    fold_text_overflow (by decide) _ 0 {} (by norm_num) hcount]
  rfl

/-- With as many lines as the counter has values, the file is not read. -/
theorem parse_render_overflow :
    parse true (longText (2 ^ 31) (by norm_num)).render =
        .panic "attempt to add with overflow" ∧
      ¬ ∃ spec, parse true (longText (2 ^ 31) (by norm_num)).render = .ok spec := by
  have hpanic := parse_longText (n := 2 ^ 31) (by norm_num) le_rfl
  refine ⟨hpanic, ?_⟩
  rintro ⟨spec, hok⟩
  rw [hpanic] at hok
  cases hok

end Ips.SpecFile
