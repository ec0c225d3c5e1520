import Ips.MakefileReader

/-!
# Makefiles of assignments

Lines `NAME=VALUE` and `NAME+=VALUE`.  Make runs them in order: the first form
sets the list of values of the variable, the second one appends to it.
-/

namespace Ips.Makefile

open Peg

/-! ## Names and operators -/

/-- The characters `[A-Z0-9_.]`. -/
def isAsciiNameChar (c : Char) : Bool :=
  ('A' ≤ c && c ≤ 'Z') || (('0' ≤ c && c ≤ '9') || (c == '_' || c == '.'))

theorem isNameChar_of_ascii (upper : UppercaseTable) {c : Char}
    (h : c.toNat < 128) : isNameChar upper c = isAsciiNameChar c := by
  unfold isNameChar isAsciiNameChar
  rw [upper.ascii c h]

theorem isAsciiNameChar_lt {c : Char} (h : isAsciiNameChar c = true) :
    c.toNat < 128 := by
  simp only [isAsciiNameChar, Bool.or_eq_true, Bool.and_eq_true,
    decide_eq_true_eq, beq_iff_eq] at h
  rcases h with ⟨-, h⟩ | ⟨-, h⟩ | rfl | rfl
  · exact lt_of_le_of_lt (show c.toNat ≤ 'Z'.toNat from h) (by decide)
  · exact lt_of_le_of_lt (show c.toNat ≤ '9'.toNat from h) (by decide)
  · decide
  · decide

theorem isNameChar_of_isAsciiNameChar (upper : UppercaseTable) {c : Char}
    (h : isAsciiNameChar c = true) : isNameChar upper c = true := by
  rw [isNameChar_of_ascii upper (isAsciiNameChar_lt h), h]

structure IsName (name : Text) : Prop where
  ne_nil : name ≠ []
  chars : ∀ c ∈ name, isAsciiNameChar c = true

def Blanks (s : Text) : Prop := ∀ c ∈ s, isBlank c = true

theorem skip_blanks_append {blanks : Text} (h : Blanks blanks)
    (s : List Char) : skip (blanks ++ s) = skip s := by
  rw [skip_eq, skip_eq, List.dropWhile_append_of_pos h]

theorem headIs_isNameChar_blanks (upper : UppercaseTable) {blanks u t : Text}
    {mode : VariableMode} (hblanks : Blanks blanks)
    (hop : readOperator u = some (mode, t)) :
    headIs (isNameChar upper) (blanks ++ u) = false := by
  cases blanks with
  | cons c w =>
      have hc := hblanks c List.mem_cons_self
      simp only [isBlank, Bool.or_eq_true, beq_iff_eq] at hc
      rcases hc with rfl | rfl
      · exact isNameChar_of_ascii upper (by decide)
      · exact isNameChar_of_ascii upper (by decide)
  | nil =>
      unfold readOperator at hop
      split at hop
      · exact isNameChar_of_ascii upper (by decide)
      · exact isNameChar_of_ascii upper (by decide)
      · cases hop

theorem readOperator_head {u t : List Char} {mode : VariableMode}
    (hop : readOperator u = some (mode, t)) : headIs isBlank u = false := by
  unfold readOperator at hop
  split at hop
  · rfl
  · rfl
  · cases hop

/-- An assignment that stands where an item is read is read as such. -/
theorem readItem_assignment (upper : UppercaseTable) {name blanks u t : Text}
    {mode : VariableMode} (hname : IsName name) (hblanks : Blanks blanks)
    (hop : readOperator u = some (mode, t)) :
    skip (name ++ (blanks ++ u)) = name ++ (blanks ++ u) ∧
      readItem upper (name ++ (blanks ++ u)) =
        some ([.assignment name mode (restOfLine (skip t))],
          afterLine (skip t)) := by
  have hall : ∀ c ∈ name, isNameChar upper c = true := fun c hc =>
    isNameChar_of_isAsciiNameChar upper (hname.chars c hc)
  have hrest := headIs_isNameChar_blanks upper hblanks hop
  have htake : (name ++ (blanks ++ u)).takeWhile (isNameChar upper) = name := by
    rw [List.takeWhile_append_of_pos hall, ← takeTails_headIs,
      takeTails_eq_nil hrest, List.append_nil]
  have hdrop : (name ++ (blanks ++ u)).dropWhile (isNameChar upper) =
      blanks ++ u := by
    rw [List.dropWhile_append_of_pos hall, ← dropTails_headIs,
      dropTails_eq_self hrest]
  have hassign : readAssignment upper (name ++ (blanks ++ u)) =
      some (.assignment name mode (restOfLine (skip t)),
        afterLine (skip t)) := by
    unfold readAssignment
    rw [htake, hdrop, skip_blanks_append hblanks,
      skip_of_head (readOperator_head hop), hop]
  -- The first character is a name character: no line break, hash or keyword.
  cases hcons : name with
  | nil => exact absurd hcons hname.ne_nil
  | cons c w =>
      have hc := hname.chars c (by rw [hcons]; exact List.mem_cons_self)
      have hne : ∀ d, isAsciiNameChar d = false → c ≠ d := by
        rintro d hd rfl
        rw [hc] at hd
        cases hd
      have hnewline : readNewline (c :: (w ++ (blanks ++ u))) = none := by
        rw [readNewline_eq_none_iff]
        simp [headIs, isNewlineChar, hne '\n' (by decide), hne '\r' (by decide)]
      have hcomment : readComment (c :: (w ++ (blanks ++ u))) = none := by
        unfold readComment
        split
        · next heq =>
            cases heq
            exact absurd rfl (hne '#' (by decide))
        · rfl
      have hdefine : readDefine upper (c :: (w ++ (blanks ++ u))) = none := by
        have hword : readWords ["define"] (c :: (w ++ (blanks ++ u))) =
            none := by
          simp [readWords, Ne.symm (hne 'd' (by decide))]
        unfold readDefine
        rw [hword]
      rw [hcons] at hassign
      constructor
      · apply skip_of_head
        change isBlank c = false
        simp [isBlank, hne ' ' (by decide), hne '\t' (by decide)]
      · unfold readItem
        simp only [List.cons_append] at hassign ⊢
        rw [hnewline, hcomment, hdefine, hassign]

/-! ## Lines -/

inductive LineBreak where
  | lf
  | crlf
  | cr
  deriving DecidableEq

def LineBreak.render : LineBreak → Text
  | .lf => ['\n']
  | .crlf => ['\r', '\n']
  | .cr => ['\r']

def operatorText : VariableMode → Text
  | .set => ['=']
  | .add => ['+', '=']

structure AssignmentLine where
  name : Text
  before : Text
  mode : VariableMode
  after : Text
  value : Text
  isName : IsName name
  before_blanks : Blanks before
  after_blanks : Blanks after
  value_line : ∀ c ∈ value, isNewlineChar c = false
  value_head : headIs isBlank value = false

def AssignmentLine.render (line : AssignmentLine) : Text :=
  line.name ++ (line.before ++
    (operatorText line.mode ++ (line.after ++ line.value)))

/-- Lines with their line breaks, and possibly a last line without one. -/
structure AssignmentText where
  lines : List (AssignmentLine × LineBreak)
  last : Option AssignmentLine
  nonempty : lines ≠ [] ∨ last.isSome

def renderLines (lines : List (AssignmentLine × LineBreak)) : Text :=
  lines.flatMap fun x => x.1.render ++ x.2.render

def renderLast : Option AssignmentLine → Text
  | some line => line.render
  | none => []

def AssignmentText.render (doc : AssignmentText) : Text :=
  renderLines doc.lines ++ renderLast doc.last

def AssignmentText.assignments (doc : AssignmentText) : List AssignmentLine :=
  doc.lines.map Prod.fst ++ doc.last.toList

/-- What make does: the values of a variable after the lines. -/
def run (lines : List AssignmentLine) (name : Text) : List Text :=
  lines.foldl
    (fun values line =>
      if line.name = name then
        match line.mode with
        | .set => [line.value]
        | .add => values ++ [line.value]
      else values)
    []

def valuesOf (m : Makefile) (name : Text) : List Text :=
  ((m.variableMap.lookup name).map MakefileVariable.values).getD []

/-! ## Reading the lines -/

theorem readOperator_render (mode : VariableMode) (t : List Char) :
    readOperator (operatorText mode ++ t) = some (mode, t) := by
  cases mode with
  | set => rfl
  | add => rfl

def AssignmentLine.item (line : AssignmentLine) : Item :=
  .assignment line.name line.mode line.value

theorem readItem_line (upper : UppercaseTable) (line : AssignmentLine)
    {t : List Char} (ht : EndOfLine t) :
    readItem upper (skip (line.render ++ t)) = some ([line.item], t) := by
  have hread := readItem_assignment upper line.isName line.before_blanks
    (readOperator_render line.mode (line.after ++ (line.value ++ t)))
  have hhead : headIs isBlank (line.value ++ t) = false := by
    cases hvalue : line.value with
    | nil => exact ht.blank
    | cons c w =>
        have h := line.value_head
        rw [hvalue] at h
        exact h
  have hline := ht.restOfLine line.value_line
  rw [skip_blanks_append line.after_blanks, skip_of_head hhead, hline.1,
    hline.2] at hread
  have hrender : line.render ++ t = line.name ++ (line.before ++
      (operatorText line.mode ++ (line.after ++ (line.value ++ t)))) := by
    simp only [AssignmentLine.render, List.append_assoc]
  rw [hrender, hread.1, hread.2]
  rfl

/-- A line break at the end of a line.  The one after a carriage return would
be taken with it, so the next line must not start with a line feed. -/
theorem readItem_break (upper : UppercaseTable) (br : LineBreak)
    {t : List Char} (ht : t.head? ≠ some '\n') :
    readItem upper (skip (br.render ++ t)) = some ([.newline], t) := by
  have hread : readNewline (br.render ++ t) = some t := by
    cases br with
    | lf => rfl
    | crlf => rfl
    | cr =>
        cases t with
        | nil => rfl
        | cons c t =>
            have hc : c ≠ '\n' := by simpa using ht
            change readNewline ('\r' :: c :: t) = some (c :: t)
            unfold readNewline
            split
            · next heq => cases heq
            · next heq =>
                cases heq
                exact absurd rfl hc
            · next heq =>
                cases heq
                rfl
            · next h => exact absurd rfl (h (c :: t))
  have hskip : skip (br.render ++ t) = br.render ++ t := by
    apply skip_of_head
    cases br <;> rfl
  unfold readItem
  rw [hskip, hread]

theorem head_render (line : AssignmentLine) (t : List Char) :
    (line.render ++ t).head? ≠ some '\n' := by
  unfold AssignmentLine.render
  cases hname : line.name with
  | nil => exact absurd hname line.isName.ne_nil
  | cons c w =>
      have hc := line.isName.chars c (by rw [hname]; exact List.mem_cons_self)
      intro h
      cases h
      cases hc

def lineItems (lines : List (AssignmentLine × LineBreak)) : List Item :=
  lines.flatMap fun x => [x.1.item, .newline]

def lastItems : Option AssignmentLine → List Item
  | some line => [line.item]
  | none => []

theorem repeatAll_readItem_render (upper : UppercaseTable)
    (lines : List (AssignmentLine × LineBreak)) (last : Option AssignmentLine) :
    repeatAll skip (readItem upper) (renderLines lines ++ renderLast last) =
      (lineItems lines ++ lastItems last, []) := by
  have hconsuming := readItem_consuming upper
  have hnil : repeatAll skip (readItem upper) [] = ([], []) :=
    repeatAll_of_none skip_shrinking hconsuming
      (by rw [skip_of_head rfl]; rfl)
  induction lines with
  | nil =>
      cases last with
      | none => exact hnil
      | some line =>
          have hread := readItem_line upper line (.inl rfl)
          rw [List.append_nil] at hread
          change repeatAll skip (readItem upper) line.render = _
          rw [repeatAll_of_some skip_shrinking hconsuming hread, hnil]
          rfl
  | cons x lines ih =>
      have htail : (renderLines lines ++ renderLast last).head? ≠
          some '\n' := by
        cases lines with
        | nil =>
            cases last with
            | none => simp [renderLines, renderLast]
            | some line =>
                have h := head_render line []
                rwa [List.append_nil] at h
        | cons y lines =>
            simp only [renderLines, List.flatMap_cons, List.append_assoc]
            exact head_render y.1 _
      have hend : EndOfLine
          (x.2.render ++ (renderLines lines ++ renderLast last)) := by
        right
        cases x.2 <;> rfl
      have hline := readItem_line upper x.1 hend
      have hbreak := readItem_break upper x.2 htail
      have hcons : renderLines (x :: lines) ++ renderLast last =
          x.1.render ++
            (x.2.render ++ (renderLines lines ++ renderLast last)) := by
        simp only [renderLines, List.flatMap_cons, List.append_assoc]
      rw [hcons, repeatAll_of_some skip_shrinking hconsuming hline,
        repeatAll_of_some skip_shrinking hconsuming hbreak, ih]
      rfl

theorem readMakefile_render (upper : UppercaseTable) (doc : AssignmentText) :
    readMakefile upper doc.render =
      some (lineItems doc.lines ++ lastItems doc.last) := by
  have hne : lineItems doc.lines ++ lastItems doc.last ≠ [] := by
    rcases doc.nonempty with h | h
    · cases hlines : doc.lines with
      | nil => exact absurd hlines h
      | cons x lines => simp [lineItems]
    · rcases Option.isSome_iff_exists.mp h with ⟨line, hlast⟩
      simp [hlast, lastItems]
  unfold readMakefile readDocument AssignmentText.render
  rw [repeatAll_readItem_render]
  exact if_pos ⟨hne, skip_of_head rfl⟩

/-! ## What is stored -/

def stored (lines : List AssignmentLine) (name : Text) : List Text :=
  lines.foldl
    (fun values line => if line.name = name then [line.value] else values) []

theorem valuesOf_insertVariable (m : Makefile) (key name : Text)
    (values : List Text) :
    valuesOf (insertVariable m (key, { values := values })) name =
      if key = name then values else valuesOf m name := by
  unfold valuesOf
  rw [lookup_insertVariable]
  split_ifs
  · rfl
  · rfl

theorem valuesOf_foldl (lines : List AssignmentLine) (m : Makefile)
    (name : Text) :
    valuesOf ((lines.map AssignmentLine.item).foldl addItem m) name =
      lines.foldl
        (fun values line => if line.name = name then [line.value] else values)
        (valuesOf m name) := by
  induction lines generalizing m with
  | nil => rfl
  | cons line lines ih =>
      rw [List.map_cons, List.foldl_cons, List.foldl_cons, ih]
      congr 1
      exact valuesOf_insertVariable m line.name name [line.value]

theorem foldl_lineItems (m : Makefile) (doc : AssignmentText) :
    (lineItems doc.lines ++ lastItems doc.last).foldl addItem m =
      (doc.assignments.map AssignmentLine.item).foldl addItem m := by
  have hlines : ∀ (lines : List (AssignmentLine × LineBreak)) (m : Makefile),
      (lineItems lines).foldl addItem m =
        ((lines.map Prod.fst).map AssignmentLine.item).foldl addItem m := by
    intro lines
    induction lines with
    | nil => exact fun m => rfl
    | cons x lines ih => exact fun m => ih (addItem m x.1.item)
  unfold AssignmentText.assignments
  rw [List.foldl_append, List.map_append, List.foldl_append, hlines]
  cases doc.last with
  | none => rfl
  | some line => rfl

/-! ## Running the lines -/

/-- The lines for a name. -/
def linesFor (lines : List AssignmentLine) (name : Text) :
    List AssignmentLine :=
  lines.filter fun line => line.name = name

theorem stored_append_singleton (lines : List AssignmentLine)
    (line : AssignmentLine) (name : Text) :
    stored (lines ++ [line]) name =
      if line.name = name then [line.value] else stored lines name := by
  simp [stored]

theorem run_append_singleton (lines : List AssignmentLine)
    (line : AssignmentLine) (name : Text) :
    run (lines ++ [line]) name =
      if line.name = name then
        match line.mode with
        | .set => [line.value]
        | .add => run lines name ++ [line.value]
      else run lines name := by
  simp [run]

theorem linesFor_append_singleton (lines : List AssignmentLine)
    (line : AssignmentLine) (name : Text) :
    linesFor (lines ++ [line]) name =
      if line.name = name then linesFor lines name ++ [line]
      else linesFor lines name := by
  unfold linesFor
  rw [List.filter_append]
  by_cases h : line.name = name
  · simp [h]
  · simp [h]

theorem run_eq_nil_iff (lines : List AssignmentLine) (name : Text) :
    run lines name = [] ↔ linesFor lines name = [] := by
  induction lines using List.reverseRecOn with
  | nil => simp [run, linesFor]
  | append_singleton lines line ih =>
      rw [run_append_singleton, linesFor_append_singleton]
      by_cases h : line.name = name
      · rw [if_pos h, if_pos h]
        cases line.mode with
        | set => simp
        | add => simp
      · rw [if_neg h, if_neg h]
        exact ih

/-- The values of a name are stored as make runs the lines, unless the last
line for the name appends to something. -/
theorem stored_eq_run_iff (lines : List AssignmentLine) (name : Text) :
    stored lines name = run lines name ↔
      ∀ last, (linesFor lines name).getLast? = some last →
        last.mode = .add → linesFor lines name = [last] := by
  induction lines using List.reverseRecOn with
  | nil => simp [stored, run, linesFor]
  | append_singleton lines line ih =>
      rw [stored_append_singleton, run_append_singleton,
        linesFor_append_singleton]
      by_cases h : line.name = name
      · rw [if_pos h, if_pos h, if_pos h, List.getLast?_concat]
        cases hmode : line.mode with
        | set =>
            constructor
            · rintro - last hlast hadd
              cases hlast
              rw [hmode] at hadd
              cases hadd
            · intro _
              rfl
        | add =>
            have hnil : [line.value] = run lines name ++ [line.value] ↔
                linesFor lines name = [] := by
              rw [← run_eq_nil_iff]
              constructor
              · intro heq
                exact List.self_eq_append_left.mp heq
              · intro heq
                rw [heq, List.nil_append]
            rw [hnil]
            constructor
            · rintro heq last hlast -
              cases hlast
              rw [heq, List.nil_append]
            · intro hlast
              have heq := hlast line rfl hmode
              exact List.append_left_eq_self.mp heq
      · rw [if_neg h, if_neg h, if_neg h]
        exact ih

/-- `Makefile::parse_string` accepts every text of assignments, and stores the
values that make computes exactly when no appending line comes last after
other lines for its name. -/
theorem parseString_assignments (upper : UppercaseTable)
    (doc : AssignmentText) :
    ∃ m, parseString upper doc.render = .ok m ∧
      ((∀ name, valuesOf m name = run doc.assignments name) ↔
        ∀ name last,
          (linesFor doc.assignments name).getLast? = some last →
          last.mode = .add → linesFor doc.assignments name = [last]) := by
  refine ⟨(lineItems doc.lines ++ lastItems doc.last).foldl addItem new, ?_,
    ?_⟩
  · rw [parseString_eq, readMakefile_render]
  · apply forall_congr'
    intro name
    rw [foldl_lineItems, valuesOf_foldl]
    exact stored_eq_run_iff doc.assignments name

def plainLine (name value : Text) (mode : VariableMode) (hname : IsName name)
    (hvalue : ∀ c ∈ value, isNewlineChar c = false)
    (hhead : headIs isBlank value = false) : AssignmentLine where
  name := name
  before := []
  mode := mode
  after := []
  value := value
  isName := hname
  before_blanks := by simp [Blanks]
  after_blanks := by simp [Blanks]
  value_line := hvalue
  value_head := hhead

/-- The lines `A=1` and `A+=2`. -/
def appendingText : AssignmentText where
  lines := [
    (plainLine ['A'] ['1'] .set ⟨by decide, forall_mem_of_all (by decide)⟩
      (forall_mem_of_all (by decide)) rfl, .lf),
    (plainLine ['A'] ['2'] .add ⟨by decide, forall_mem_of_all (by decide)⟩
      (forall_mem_of_all (by decide)) rfl, .lf)]
  last := none
  nonempty := .inl (by simp)

theorem parseString_appending_lost :
    appendingText.render = "A=1\nA+=2\n".toList ∧
      run appendingText.assignments ['A'] = [['1'], ['2']] ∧
      (match parseString asciiUppercase appendingText.render with
        | .ok m => valuesOf m ['A']
        | _ => []) = [['2']] := by
  decide +kernel

end Ips.Makefile
