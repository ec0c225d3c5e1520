import Ips.SpecFileReader

/-!
# Spec files line by line

An abstract machine that goes over the physical lines of a spec file.  Outside
of sections there are blank lines, settings and headers; a header is followed
by at least one line of its section, and a blank line ends the section.  The
grammar accepts what the machine accepts, except for the two kinds of variables
on which the walk over the pairs panics.
-/

namespace Ips.SpecFile

open Peg

/-! ## The machine -/

/-- Whether a line is in no section, right behind a header, or behind a line of
a section. -/
inductive State where
  | outside
  | opened (name : Text)
  | inside (name : Text)
  deriving DecidableEq

def settingOf (l : Text) : Option Mark :=
  match readSetting (skipBlanks l) with
  | some (mark, []) => some mark
  | _ => none

def headerOf (l : Text) : Option Text :=
  match skipBlanks l with
  | '%' :: t =>
      if (skipBlanks t).takeWhile isSectionNameChar ≠ [] ∧
          skipBlanks ((skipBlanks t).dropWhile isSectionNameChar) = [] then
        some ((skipBlanks t).takeWhile isSectionNameChar)
      else none
  | _ => none

def lineOf (name l : Text) : Option Mark :=
  if skipBlanks l ≠ [] ∧ (skipBlanks l).all isTextChar then
    some (lineMark name (skipBlanks l))
  else none

def step : State → Text → Option (Mark × State)
  | .outside, l =>
      if skipBlanks l = [] then some (.blank, .outside)
      else
        match settingOf l with
        | some mark => some (mark, .outside)
        | none => (headerOf l).map fun name => (.header name, .opened name)
  | .opened name, l => (lineOf name l).map fun mark => (mark, .inside name)
  | .inside name, l =>
      if skipBlanks l = [] then some (.blank, .outside)
      else (lineOf name l).map fun mark => (mark, .inside name)

theorem step_outside (l : Text) :
    step .outside l =
      if skipBlanks l = [] then some (.blank, .outside)
      else
        match settingOf l with
        | some mark => some (mark, .outside)
        | none => (headerOf l).map fun name => (.header name, .opened name) :=
  rfl

theorem step_opened (name l : Text) :
    step (.opened name) l =
      (lineOf name l).map fun mark => (mark, .inside name) := rfl

theorem step_inside (name l : Text) :
    step (.inside name) l =
      if skipBlanks l = [] then some (.blank, .outside)
      else (lineOf name l).map fun mark => (mark, .inside name) := rfl

def steps : State → List Text → Option (List Mark × State)
  | st, [] => some ([], st)
  | st, l :: ls =>
      match step st l with
      | none => none
      | some (mark, st') => (steps st' ls).map fun x => (mark :: x.1, x.2)

/-- A header needs a line behind it. -/
def State.closed : State → Bool
  | .opened _ => false
  | _ => true

/-- The machine accepts the lines and marks them. -/
def Accepts (st : State) (lines : List Text) (marks : List Mark) : Prop :=
  ∃ st', steps st lines = some (marks, st') ∧ st'.closed

theorem accepts_nil {st : State} {marks : List Mark} :
    Accepts st [] marks ↔ marks = [] ∧ st.closed := by
  constructor
  · rintro ⟨st', hsteps, hclosed⟩
    cases hsteps
    exact ⟨rfl, hclosed⟩
  · rintro ⟨rfl, hclosed⟩
    exact ⟨st, rfl, hclosed⟩

theorem accepts_cons {st : State} {l : Text} {ls : List Text}
    {marks : List Mark} :
    Accepts st (l :: ls) marks ↔
      ∃ mark st' rest, step st l = some (mark, st') ∧
        marks = mark :: rest ∧ Accepts st' ls rest := by
  constructor
  · rintro ⟨st'', hsteps, hclosed⟩
    unfold steps at hsteps
    split at hsteps
    · cases hsteps
    · next mark st' hstep =>
        rcases Option.map_eq_some_iff.mp hsteps with ⟨x, hx, heq⟩
        cases heq
        exact ⟨mark, st', x.1, hstep, rfl, x.2, hx, hclosed⟩
  · rintro ⟨mark, st', rest, hstep, rfl, st'', hsteps, hclosed⟩
    refine ⟨st'', ?_, hclosed⟩
    simp [steps, hstep, hsteps]

/-! ## Readers at a line -/

section AtLine

variable {l r : List Char}

theorem textChar_not_newline (c : Char) (h : isNewlineChar c = true) :
    isTextChar c = false := by
  simp only [isNewlineChar, Bool.or_eq_true, beq_iff_eq] at h
  rcases h with rfl | rfl
  · decide
  · decide

theorem skipBlanks_append (hr : EndOfLine r) (w : List Char) :
    skipBlanks (w ++ r) = skipBlanks w ++ r :=
  dropWhile_append_of_head hr.blank w

theorem takeWhile_text_append (hr : EndOfLine r) (w : List Char) :
    (w ++ r).takeWhile isTextChar = w.takeWhile isTextChar ∧
      (w ++ r).dropWhile isTextChar = w.dropWhile isTextChar ++ r :=
  have hhead := hr.head textChar_not_newline
  ⟨takeWhile_append_of_head hhead w, dropWhile_append_of_head hhead w⟩

theorem not_newline_suffix {w x : List Char}
    (hw : ∀ c ∈ w, isNewlineChar c = false) (hx : x <:+ w) :
    ∀ c ∈ x, isNewlineChar c = false :=
  fun c hc => hw c (hx.subset hc)

theorem readLine_append (hl : ∀ c ∈ l, isNewlineChar c = false)
    (hr : EndOfLine r) (name : Text) :
    readLine name (skipBlanks (l ++ r)) =
      (lineOf name l).bind fun mark =>
        (readNewline r).map fun t => ([mark], t) := by
  have hskip := not_newline_suffix hl (skipBlanks_suffix l)
  have hdrop := not_newline_suffix hskip
    (List.dropWhile_suffix isTextChar (l := skipBlanks l))
  rw [skipBlanks_append hr]
  unfold readLine lineOf
  rw [(takeWhile_text_append hr _).1, (takeWhile_text_append hr _).2,
    readNewline_append hdrop]
  by_cases hnil : skipBlanks l = []
  · simp [hnil]
  · by_cases hall : (skipBlanks l).all isTextChar = true
    · have hall' : ∀ c ∈ skipBlanks l, isTextChar c = true :=
        List.all_eq_true.mp hall
      have htake : (skipBlanks l).takeWhile isTextChar = skipBlanks l :=
        List.takeWhile_eq_self_iff.mpr hall'
      have hend : (skipBlanks l).dropWhile isTextChar = [] :=
        List.dropWhile_eq_nil_iff.mpr hall'
      rw [htake, hend, if_neg hnil, if_pos rfl, if_pos ⟨hnil, hall⟩]
      cases readNewline r with
      | none => rfl
      | some t => rfl
    · have hend : (skipBlanks l).dropWhile isTextChar ≠ [] := by
        intro hend
        exact hall (List.all_eq_true.mpr (List.dropWhile_eq_nil_iff.mp hend))
      have hnot : ¬ (skipBlanks l ≠ [] ∧ (skipBlanks l).all isTextChar = true) :=
        fun h => hall h.2
      rw [if_neg hend, if_neg hnot, Option.bind_none]
      exact ite_self none

theorem readBlankLine_append (hl : ∀ c ∈ l, isNewlineChar c = false)
    (hr : EndOfLine r) :
    readBlankLine (skipBlanks (l ++ r)) =
      if skipBlanks l = [] then (readNewline r).map fun t => ([.blank], t)
      else none := by
  have hskip := not_newline_suffix hl (skipBlanks_suffix l)
  unfold readBlankLine
  rw [skipBlanks_append hr, readNewline_append hskip]
  split_ifs
  · rfl
  · rfl

theorem readHeader_append (hl : ∀ c ∈ l, isNewlineChar c = false)
    (hr : EndOfLine r) :
    readHeader (skipBlanks (l ++ r)) =
      (headerOf l).bind fun name =>
        (readNewline r).map fun t => (name, t) := by
  have hskip := not_newline_suffix hl (skipBlanks_suffix l)
  have hhead : headIs isSectionNameChar r = false := by
    apply hr.head
    intro c hc
    simp only [isNewlineChar, Bool.or_eq_true, beq_iff_eq] at hc
    rcases hc with rfl | rfl
    · decide
    · decide
  rw [skipBlanks_append hr]
  by_cases hpercent : ∃ t, skipBlanks l = '%' :: t
  · rcases hpercent with ⟨t, ht⟩
    rw [ht] at hskip
    have ht' := not_newline_suffix hskip (List.suffix_cons '%' t)
    have hrest := not_newline_suffix ht' ((skipBlanks_suffix _).trans
      ((List.dropWhile_suffix isSectionNameChar).trans (skipBlanks_suffix t)))
    unfold headerOf
    rw [ht]
    simp only [List.cons_append, readHeader]
    rw [skipBlanks_append hr, takeWhile_append_of_head hhead,
      dropWhile_append_of_head hhead, skipBlanks_append hr,
      readNewline_append hrest]
    by_cases hname : (skipBlanks t).takeWhile isSectionNameChar = []
    · simp [hname]
    · by_cases hend : skipBlanks
          ((skipBlanks t).dropWhile isSectionNameChar) = []
      · simp only [hname, hend, ne_eq, not_false_eq_true, and_self, if_true,
          if_false, Option.bind_some]
        cases readNewline r with
        | none => rfl
        | some u => rfl
      · simp [hname, hend]
  · have hnone : headerOf l = none := by
      unfold headerOf
      split
      · next t ht => exact absurd ⟨t, ht⟩ hpercent
      · rfl
    rw [hnone]
    apply readHeader_of_ne
    rintro ⟨t, ht⟩
    cases hs : skipBlanks l with
    | nil =>
        rw [hs, List.nil_append] at ht
        rcases hr with hr | hr
        · rw [hr] at ht
          cases ht
        · rw [ht] at hr
          cases hr
    | cons c w =>
        rw [hs, List.cons_append] at ht
        cases ht
        exact hpercent ⟨w, hs⟩

theorem readName_append (hr : EndOfLine r) (w : List Char) :
    readName (w ++ r) = (readName w).map fun x => (x.1, x.2 ++ r) := by
  have halpha : headIs isAlpha r = false := by
    apply hr.head
    intro c hc
    simp only [isNewlineChar, Bool.or_eq_true, beq_iff_eq] at hc
    rcases hc with rfl | rfl
    · decide
    · decide
  have hdigit : headIs isDigit r = false := by
    apply hr.head
    intro c hc
    simp only [isNewlineChar, Bool.or_eq_true, beq_iff_eq] at hc
    rcases hc with rfl | rfl
    · decide
    · decide
  cases w with
  | nil =>
      rw [List.nil_append]
      cases r with
      | nil => rfl
      | cons c t =>
          rcases hr with hr | hr
          · cases hr
          · have hc : isUppercase c = false := by
              change isNewlineChar c = true at hr
              simp only [isNewlineChar, Bool.or_eq_true, beq_iff_eq] at hr
              rcases hr with rfl | rfl
              · decide
              · decide
            simp [readName, hc]
  | cons c w =>
      simp only [List.cons_append, readName]
      rw [takeWhile_append_of_head halpha, dropWhile_append_of_head halpha,
        takeWhile_append_of_head hdigit, dropWhile_append_of_head hdigit]
      split_ifs
      · rfl
      · rfl

theorem readSetting_append (hr : EndOfLine r) (w : List Char) :
    readSetting (w ++ r) = (readSetting w).map fun x => (x.1, x.2 ++ r) := by
  unfold readSetting
  rw [readName_append hr]
  cases readName w with
  | none => rfl
  | some result =>
      rcases result with ⟨name, u⟩
      dsimp only [Option.map_some]
      rw [skipBlanks_append hr]
      by_cases hcolon : ∃ v, skipBlanks u = ':' :: v
      · rcases hcolon with ⟨v, hv⟩
        rw [hv]
        simp only [List.cons_append]
        rw [skipBlanks_append hr, (takeWhile_text_append hr _).1,
          (takeWhile_text_append hr _).2]
        split_ifs
        · rfl
        · rfl
      · have hnone : ∀ v, skipBlanks u ++ r ≠ ':' :: v := by
          intro v hv
          cases hu : skipBlanks u with
          | nil =>
              rw [hu, List.nil_append] at hv
              rcases hr with hr | hr
              · rw [hr] at hv
                cases hv
              · rw [hv] at hr
                cases hr
          | cons c w =>
              rw [hu, List.cons_append] at hv
              cases hv
              exact hcolon ⟨w, hu⟩
        split
        · next v hv => exact absurd hv (hnone v)
        · split
          · next v hv => exact absurd ⟨v, hv⟩ hcolon
          · rfl

theorem readSetting_suffix {s t : List Char} {mark : Mark}
    (h : readSetting s = some (mark, t)) : t <:+ s := by
  rcases readSetting_eq_some h with ⟨name, u, v, hname, hcolon, -, -, rfl⟩
  have hu : u <:+ s := ⟨name, (readName_splits hname).symm⟩
  have hv : v <:+ u := (List.suffix_cons ':' v).trans
    (hcolon ▸ skipBlanks_suffix u)
  exact (List.dropWhile_suffix isTextChar).trans
    ((skipBlanks_suffix v).trans (hv.trans hu))

theorem readSettings_append (hl : ∀ c ∈ l, isNewlineChar c = false)
    (hr : EndOfLine r) :
    readSettings (skipBlanks (l ++ r)) =
      (settingOf l).bind fun mark => (readNewline r).map fun t =>
        (mark :: (Peg.star skipBlanks readBlankLine (skipBlanks t)).1,
          (Peg.star skipBlanks readBlankLine (skipBlanks t)).2) := by
  unfold readSettings settingOf
  rw [skipBlanks_append hr, readSetting_append hr]
  cases hsetting : readSetting (skipBlanks l) with
  | none => rfl
  | some result =>
      rcases result with ⟨mark, x⟩
      have hx := not_newline_suffix hl
        ((readSetting_suffix hsetting).trans (skipBlanks_suffix l))
      have hskip : skipBlanks x = x := by
        rcases readSetting_eq_some hsetting with ⟨-, -, v, -, -, -, -, rfl⟩
        exact skipBlanks_dropWhile_text (skipBlanks v)
      dsimp only [Option.map_some]
      unfold readOnce
      rw [readBlankLine_append hx hr, hskip]
      cases x with
      | nil =>
          rw [if_pos rfl]
          dsimp only [Option.bind_some]
          cases readNewline r with
          | none => rfl
          | some t => rfl
      | cons c y => rfl

theorem readUnknown_of_readName {s : List Char} (h : readName s = none)
    (size : ℕ) (rule' : Rule) (ps : List (Parser Rule)) :
    readUnknown size rule'
      (rule rule' (seq (Grammar.variableName :: str ":" :: ps))) s = none := by
  have hname : Grammar.variableName (specContext size) s = none := by
    rw [variableName_eq, h]
    rfl
  have hbody : seq (Grammar.variableName :: str ":" :: ps)
      (specContext size) s = none := by
    simp only [seq, hname]
  unfold readUnknown
  rw [seq_cons, rule_of_none hbody]
  rfl

theorem readName_of_head {s : List Char} (h : headIs isUppercase s = false) :
    readName s = none := by
  cases s with
  | nil => rfl
  | cons c t =>
      have hc : isUppercase c = false := h
      simp [readName, hc]

/-- Where no setting can start, there is a section or a blank line. -/
theorem readItem_of_readName {s : List Char} (h : readName s = none)
    (size : ℕ) : readItem size s = orElse readSection readBlankLine s := by
  have hsettings : readSettings s = none := by
    unfold readSettings readSetting
    rw [h]
  have hmulti : readUnknown size .multilineVariable Grammar.multilineVariable s =
      none := readUnknown_of_readName h size _ _
  have hempty : readUnknown size .emptyVariable Grammar.emptyVariable s =
      none := readUnknown_of_readName h size _ []
  unfold readItem
  rw [orElse_of_none hsettings, orElse_of_none hmulti, orElse_of_none hempty]

theorem readItem_blank (hl : ∀ c ∈ l, isNewlineChar c = false)
    (hr : EndOfLine r) (size : ℕ) (hblank : skipBlanks l = []) :
    readItem size (skipBlanks (l ++ r)) =
      (readNewline r).map fun t => ([.blank], t) := by
  have hname : readName (skipBlanks (l ++ r)) = none := by
    rw [skipBlanks_append hr, hblank, readName_append hr]
    rfl
  have hheader : headerOf l = none := by
    unfold headerOf
    rw [hblank]
  have hsection : readSection (skipBlanks (l ++ r)) = none := by
    unfold readSection
    rw [readHeader_append hl hr, hheader]
    rfl
  rw [readItem_of_readName hname, orElse_of_none hsection,
    readBlankLine_append hl hr, if_pos hblank]

theorem readItem_setting (hl : ∀ c ∈ l, isNewlineChar c = false)
    (hr : EndOfLine r) (size : ℕ) {mark : Mark} {t : List Char}
    (hsetting : settingOf l = some mark) (ht : readNewline r = some t) :
    readItem size (skipBlanks (l ++ r)) =
      some (mark :: (Peg.star skipBlanks readBlankLine (skipBlanks t)).1,
        (Peg.star skipBlanks readBlankLine (skipBlanks t)).2) := by
  apply orElse_of_some
  rw [readSettings_append hl hr, hsetting, ht]
  rfl

theorem headerOf_eq_some {name : Text} (h : headerOf l = some name) :
    ∃ t, skipBlanks l = '%' :: t ∧
      name = (skipBlanks t).takeWhile isSectionNameChar ∧ name ≠ [] ∧
      skipBlanks ((skipBlanks t).dropWhile isSectionNameChar) = [] := by
  unfold headerOf at h
  split at h
  · next t ht =>
      split_ifs at h with hname
      cases h
      exact ⟨t, ht, rfl, hname.1, hname.2⟩
  · cases h

theorem readItem_header (hl : ∀ c ∈ l, isNewlineChar c = false)
    (hr : EndOfLine r) (size : ℕ) {name : Text} {t : List Char}
    (hheader : headerOf l = some name) (ht : readNewline r = some t) :
    readItem size (skipBlanks (l ++ r)) =
      (readOnce skipBlanks (readLine name) (skipBlanks t)).map fun x =>
        (.header name :: x.1, x.2) := by
  rcases headerOf_eq_some hheader with ⟨u, hu, -, -, -⟩
  have hname : readName (skipBlanks (l ++ r)) = none := by
    rw [skipBlanks_append hr, hu]
    exact readName_of_head rfl
  have hsection : readSection (skipBlanks (l ++ r)) =
      (readOnce skipBlanks (readLine name) (skipBlanks t)).map fun x =>
        (.header name :: x.1, x.2) := by
    unfold readSection
    rw [readHeader_append hl hr, hheader, ht]
    dsimp only [Option.bind_some, Option.map_some]
    cases readOnce skipBlanks (readLine name) (skipBlanks t) with
    | none => rfl
    | some x => rfl
  have hblank : readBlankLine (skipBlanks (l ++ r)) = none := by
    rw [readBlankLine_append hl hr, hu]
    rfl
  rw [readItem_of_readName hname]
  cases hread : readSection (skipBlanks (l ++ r)) with
  | none => rw [orElse_of_none hread, hblank, ← hsection, hread]
  | some x => rw [orElse_of_some hread, ← hsection, hread]

/-- On any other line there is nothing, or a variable that the walk does not
know. -/
theorem readItem_other (hl : ∀ c ∈ l, isNewlineChar c = false)
    (hr : EndOfLine r) (size : ℕ) (hblank : skipBlanks l ≠ [])
    (hother : readNewline r = none ∨ (settingOf l = none ∧ headerOf l = none)) :
    readItem size (skipBlanks (l ++ r)) = none ∨
      ∃ rule' t, readItem size (skipBlanks (l ++ r)) =
        some ([.unknown rule'], t) := by
  have hsettings : readSettings (skipBlanks (l ++ r)) = none := by
    rw [readSettings_append hl hr]
    rcases hother with h | ⟨h, -⟩
    · rw [h]
      cases settingOf l <;> rfl
    · rw [h]
      rfl
  have hheader : readHeader (skipBlanks (l ++ r)) = none := by
    rw [readHeader_append hl hr]
    rcases hother with h | ⟨-, h⟩
    · rw [h]
      cases headerOf l <;> rfl
    · rw [h]
      rfl
  have hsection : readSection (skipBlanks (l ++ r)) = none := by
    unfold readSection
    rw [hheader]
  have hnone : readBlankLine (skipBlanks (l ++ r)) = none := by
    rw [readBlankLine_append hl hr, if_neg hblank]
  unfold readItem
  rw [orElse_of_none hsettings]
  cases hmulti : readUnknown size .multilineVariable Grammar.multilineVariable
      (skipBlanks (l ++ r)) with
  | some x =>
      right
      rw [orElse_of_some hmulti]
      rcases Option.map_eq_some_iff.mp hmulti with ⟨y, -, rfl⟩
      exact ⟨_, _, rfl⟩
  | none =>
      rw [orElse_of_none hmulti]
      cases hempty : readUnknown size .emptyVariable Grammar.emptyVariable
          (skipBlanks (l ++ r)) with
      | some x =>
          right
          rw [orElse_of_some hempty]
          rcases Option.map_eq_some_iff.mp hempty with ⟨y, -, rfl⟩
          exact ⟨_, _, rfl⟩
      | none =>
          left
          rw [orElse_of_none hempty, orElse_of_none hsection, hnone]

end AtLine

/-! ## Lines that fit in a section -/

theorem textChar_of_skipBlanks {s : List Char}
    (h : ∀ c ∈ skipBlanks s, isTextChar c = true) :
    ∀ c ∈ s, isTextChar c = true := by
  intro c hc
  rw [← List.takeWhile_append_dropWhile (p := isBlank) (l := s)] at hc
  rcases List.mem_append.mp hc with hc | hc
  · have hblank := List.mem_takeWhile_imp hc
    simp [isTextChar, hblank]
  · exact h c hc

theorem textChar_of_dropWhile {s : List Char} {test : Char → Bool}
    (htest : ∀ c, test c = true → isTextChar c = true)
    (h : ∀ c ∈ s.dropWhile test, isTextChar c = true) :
    ∀ c ∈ s, isTextChar c = true := by
  intro c hc
  rw [← List.takeWhile_append_dropWhile (p := test) (l := s)] at hc
  rcases List.mem_append.mp hc with hc | hc
  · exact htest c (List.mem_takeWhile_imp hc)
  · exact h c hc

theorem textChar_of_isAlpha (c : Char) (h : isAlpha c = true) :
    isTextChar c = true := by
  simp [isTextChar, isChar, h]

theorem textChar_of_isDigit (c : Char) (h : isDigit c = true) :
    isTextChar c = true := by
  simp [isTextChar, isChar, h]

theorem textChar_of_sectionNameChar (c : Char)
    (h : isSectionNameChar c = true) : isTextChar c = true := by
  simp only [isSectionNameChar, Bool.or_eq_true] at h
  rcases h with h | h
  · apply textChar_of_isAlpha
    simp only [isAlpha, Bool.or_eq_true]
    exact .inl h
  · exact textChar_of_isDigit c h

theorem textChar_of_readName {s w t : List Char}
    (h : readName s = some (w, t)) (ht : ∀ c ∈ t, isTextChar c = true) :
    ∀ c ∈ s, isTextChar c = true := by
  unfold readName at h
  split at h
  · next c u =>
      split_ifs at h with hupper
      cases h
      intro d hd
      rcases List.mem_cons.mp hd with rfl | hd
      · apply textChar_of_isAlpha
        simp only [isAlpha, Bool.or_eq_true]
        exact .inr hupper.1
      · exact textChar_of_dropWhile textChar_of_isAlpha
          (textChar_of_dropWhile textChar_of_isDigit ht) d hd
  · cases h

theorem lineOf_of_all {l : Text} (name : Text) (hne : skipBlanks l ≠ [])
    (h : ∀ c ∈ skipBlanks l, isTextChar c = true) :
    lineOf name l = some (lineMark name (skipBlanks l)) :=
  if_pos ⟨hne, List.all_eq_true.mpr h⟩

/-- A setting would fit in a section. -/
theorem lineOf_of_settingOf {l : Text} {mark : Mark} (name : Text)
    (h : settingOf l = some mark) :
    lineOf name l = some (lineMark name (skipBlanks l)) := by
  unfold settingOf at h
  split at h
  · next hread =>
      rcases readSetting_eq_some hread with
        ⟨key, u, v, hname, hcolon, -, -, hend⟩
      have hv : ∀ c ∈ v, isTextChar c = true := by
        apply textChar_of_skipBlanks
        exact List.dropWhile_eq_nil_iff.mp hend.symm
      have hu : ∀ c ∈ u, isTextChar c = true := by
        apply textChar_of_skipBlanks
        intro c hc
        rw [hcolon] at hc
        rcases List.mem_cons.mp hc with rfl | hc
        · decide
        · exact hv c hc
      apply lineOf_of_all name
      · intro hnil
        rw [hnil] at hname
        cases hname
      · exact textChar_of_readName hname hu
  · cases h

/-- So would a header. -/
theorem lineOf_of_headerOf {l key : Text} (name : Text)
    (h : headerOf l = some key) :
    lineOf name l = some (lineMark name (skipBlanks l)) := by
  rcases headerOf_eq_some h with ⟨t, ht, -, -, hend⟩
  apply lineOf_of_all name
  · rw [ht]
    simp
  · rw [ht]
    intro c hc
    rcases List.mem_cons.mp hc with rfl | hc
    · decide
    · refine textChar_of_skipBlanks (textChar_of_dropWhile
        textChar_of_sectionNameChar (textChar_of_skipBlanks ?_)) c hc
      intro d hd
      rw [hend] at hd
      cases hd

/-! ## The grammar follows the machine -/

def Known (marks : List Mark) : Prop := ∀ r, Mark.unknown r ∉ marks

theorem known_append {xs ys : List Mark} :
    Known (xs ++ ys) ↔ Known xs ∧ Known ys := by
  unfold Known
  simp only [List.mem_append, not_or]
  exact forall_and

/-- The loop over the items reads the text to its end and marks its lines. -/
def ReadsTo (size : ℕ) (s : List Char) (marks : List Mark) : Prop :=
  ∃ rest, repeatAll skipBlanks (readItem size) s = (marks, rest) ∧
    skipBlanks rest = [] ∧ Known marks

section Loop

variable {size : ℕ} {s t : List Char} {marks : List Mark}

theorem readsTo_of_none (h : readItem size (skipBlanks s) = none) :
    ReadsTo size s marks ↔ marks = [] ∧ skipBlanks s = [] := by
  unfold ReadsTo
  rw [repeatAll_of_none skipBlanks_shrinking (readItem_consuming size) h]
  constructor
  · rintro ⟨rest, heq, hend, -⟩
    cases heq
    exact ⟨rfl, hend⟩
  · rintro ⟨rfl, hend⟩
    refine ⟨s, rfl, hend, ?_⟩
    intro r hr
    cases hr

theorem readsTo_of_some {xs : List Mark}
    (h : readItem size (skipBlanks s) = some (xs, t)) :
    ReadsTo size s marks ↔
      ∃ rest, marks = xs ++ rest ∧ Known xs ∧ ReadsTo size t rest := by
  unfold ReadsTo
  rw [repeatAll_of_some skipBlanks_shrinking (readItem_consuming size) h]
  constructor
  · rintro ⟨rest, heq, hend, hknown⟩
    cases heq
    rw [known_append] at hknown
    exact ⟨_, rfl, hknown.1, _, rfl, hend, hknown.2⟩
  · rintro ⟨more, rfl, hknown, rest, heq, hend, hknown'⟩
    rw [heq]
    exact ⟨rest, rfl, hend, known_append.mpr ⟨hknown, hknown'⟩⟩

/-- The loop does not care about blanks in front of the text. -/
theorem readsTo_congr (h : skipBlanks s = skipBlanks t) :
    ReadsTo size s marks ↔ ReadsTo size t marks := by
  cases hread : readItem size (skipBlanks s) with
  | none =>
      have hread' := hread
      rw [h] at hread'
      rw [readsTo_of_none hread, readsTo_of_none hread', h]
  | some result =>
      have hread' := hread
      rw [h] at hread'
      rw [readsTo_of_some hread, readsTo_of_some hread']

theorem readItem_of_readBlankLine {xs : List Mark}
    (h : readBlankLine s = some (xs, t)) : readItem size s = some (xs, t) := by
  have hhead : headIs isNewlineChar s = true := by
    cases hs : headIs isNewlineChar s with
    | true => rfl
    | false =>
        rw [readBlankLine, readNewline_eq_none_iff.mpr hs] at h
        cases h
  have hline : EndOfLine s := .inr hhead
  have hname : readName s = none := by
    have hnil := readName_append hline []
    exact hnil
  have hsection : readSection s = none := by
    have hheader : readHeader s = none := by
      apply readHeader_of_ne
      rintro ⟨u, rfl⟩
      cases hhead
    unfold readSection
    rw [hheader]
  rw [readItem_of_readName hname, orElse_of_none hsection, h]

/-- Blank lines are marked one by one, whoever takes them. -/
theorem readsTo_blanks (t : List Char) (marks : List Mark) :
    (∃ rest,
      marks = (Peg.star skipBlanks readBlankLine (skipBlanks t)).1 ++ rest ∧
      ReadsTo size (Peg.star skipBlanks readBlankLine (skipBlanks t)).2 rest) ↔
        ReadsTo size t marks := by
  have hstar := star_gap skipBlanks_shrinking readBlankLine_consuming
    skipBlanks_skipBlanks t
  have hloop : (∃ rest,
      marks = (repeatAll skipBlanks readBlankLine t).1 ++ rest ∧
      ReadsTo size (repeatAll skipBlanks readBlankLine t).2 rest) ↔
        ReadsTo size t marks := by
    revert marks
    apply repeatAll_induction skipBlanks_shrinking readBlankLine_consuming
      (fun t result => ∀ marks,
        (∃ rest, marks = result.1 ++ rest ∧ ReadsTo size result.2 rest) ↔
          ReadsTo size t marks)
    · intro s _ marks
      simp
    · intro s xs t hread ih marks
      have hknown : Known xs := by
        rcases Option.map_eq_some_iff.mp hread with ⟨u, -, heq⟩
        cases heq
        intro r' hmem
        cases List.mem_singleton.mp hmem
      rw [readsTo_of_some (readItem_of_readBlankLine hread)]
      constructor
      · rintro ⟨rest, rfl, hrest⟩
        refine ⟨_, List.append_assoc _ _ _, hknown, ?_⟩
        exact (ih _).mp ⟨rest, rfl, hrest⟩
      · rintro ⟨more, rfl, -, hmore⟩
        rcases (ih more).mpr hmore with ⟨rest, rfl, hrest⟩
        exact ⟨rest, (List.append_assoc _ _ _).symm, hrest⟩
  rw [← hloop, hstar.1]
  apply exists_congr
  intro rest
  rw [readsTo_congr hstar.2]

theorem lineMark_known (name line : Text) : Known [lineMark name line] := by
  intro r hr
  have hmark := List.mem_singleton.mp hr
  unfold lineMark at hmark
  split_ifs at hmark

/-- A line that fits, at the place where it starts. -/
theorem readLine_eq_some {name : Text} {xs : List Mark}
    (h : readLine name (skipBlanks s) = some (xs, t)) :
    ∃ mark, lineOf name (restOfLine s) = some mark ∧ xs = [mark] ∧
      readNewline (afterLine s) = some t := by
  have hread := readLine_append (fun c => restOfLine_not_newline (s := s))
    (afterLine_end s) name
  rw [restOfLine_append_afterLine, h] at hread
  rcases Option.bind_eq_some_iff.mp hread.symm with ⟨mark, hmark, hmap⟩
  rcases Option.map_eq_some_iff.mp hmap with ⟨u, hu, heq⟩
  cases heq
  exact ⟨mark, hmark, rfl, hu⟩

theorem readLine_eq_none {name : Text}
    (h : readLine name (skipBlanks s) = none)
    (ht : readNewline (afterLine s) = some t) :
    lineOf name (restOfLine s) = none := by
  have hread := readLine_append (fun c => restOfLine_not_newline (s := s))
    (afterLine_end s) name
  rw [restOfLine_append_afterLine, h, ht] at hread
  cases hline : lineOf name (restOfLine s) with
  | none => rfl
  | some mark =>
      rw [hline] at hread
      cases hread

theorem lineOf_eq_some {name l : Text} {mark : Mark}
    (h : lineOf name l = some mark) :
    skipBlanks l ≠ [] ∧ mark = lineMark name (skipBlanks l) := by
  unfold lineOf at h
  split_ifs at h with hline
  cases h
  exact ⟨hline.1, rfl⟩

theorem step_inside_of_lineOf {name l : Text} {mark : Mark}
    (h : lineOf name l = some mark) :
    step (.inside name) l = some (mark, .inside name) := by
  rw [step_inside, if_neg (lineOf_eq_some h).1, h]
  rfl

/-- The machine goes along with the lines of a section. -/
theorem accepts_lines (name : Text) (t : List Char) (marks : List Mark) :
    (Accepts (.inside name) (linesOf t) marks ↔
      ∃ rest, marks = (repeatAll skipBlanks (readLine name) t).1 ++ rest ∧
        Accepts (.inside name)
          (linesOf (repeatAll skipBlanks (readLine name) t).2) rest) ∧
    lastLine t = lastLine (repeatAll skipBlanks (readLine name) t).2 ∧
    readLine name (skipBlanks (repeatAll skipBlanks (readLine name) t).2) =
      none ∧
    Known (repeatAll skipBlanks (readLine name) t).1 := by
  revert marks
  apply repeatAll_induction skipBlanks_shrinking (readLine_consuming name)
    (fun t result => ∀ marks,
      (Accepts (.inside name) (linesOf t) marks ↔
        ∃ rest, marks = result.1 ++ rest ∧
          Accepts (.inside name) (linesOf result.2) rest) ∧
      lastLine t = lastLine result.2 ∧
      readLine name (skipBlanks result.2) = none ∧ Known result.1)
  · intro s hnone marks
    refine ⟨by simp, rfl, hnone, ?_⟩
    intro r hr
    cases hr
  · intro s xs t hread ih marks
    rcases readLine_eq_some hread with ⟨mark, hmark, rfl, hbreak⟩
    rcases linesOf_of_some hbreak with ⟨hlines, hlast⟩
    have hstep := step_inside_of_lineOf hmark
    refine ⟨?_, ?_, (ih marks).2.2.1, ?_⟩
    · rw [hlines, accepts_cons]
      constructor
      · rintro ⟨mark', st', rest, hstep', rfl, hrest⟩
        rw [hstep] at hstep'
        cases hstep'
        rcases (ih rest).1.mp hrest with ⟨more, rfl, hmore⟩
        exact ⟨more, rfl, hmore⟩
      · rintro ⟨more, rfl, hmore⟩
        exact ⟨mark, .inside name, _, hstep, rfl,
          (ih _).1.mpr ⟨more, rfl, hmore⟩⟩
    · rw [hlast]
      exact (ih marks).2.1
    · rw [known_append]
      refine ⟨?_, (ih marks).2.2.2⟩
      rw [(lineOf_eq_some hmark).2]
      exact lineMark_known name _

/-- Where no further line fits, being inside of a section is like being
outside. -/
theorem accepts_inside_iff {name : Text}
    (h : readLine name (skipBlanks s) = none) :
    Accepts (.inside name) (linesOf s) marks ↔
      Accepts .outside (linesOf s) marks := by
  cases hbreak : readNewline (afterLine s) with
  | none =>
      rw [(linesOf_of_none hbreak).1, accepts_nil, accepts_nil]
      rfl
  | some t =>
      have hline := readLine_eq_none h hbreak
      have hstep : step (.inside name) (restOfLine s) =
          step .outside (restOfLine s) := by
        rw [step_inside, step_outside]
        by_cases hblank : skipBlanks (restOfLine s) = []
        · rw [if_pos hblank, if_pos hblank]
        · have hsetting : settingOf (restOfLine s) = none := by
            cases hsome : settingOf (restOfLine s) with
            | none => rfl
            | some mark =>
                rw [lineOf_of_settingOf name hsome] at hline
                cases hline
          have hheader : headerOf (restOfLine s) = none := by
            cases hsome : headerOf (restOfLine s) with
            | none => rfl
            | some key =>
                rw [lineOf_of_headerOf name hsome] at hline
                cases hline
          rw [if_neg hblank, if_neg hblank, hline, hsetting, hheader]
          rfl
      rw [(linesOf_of_some hbreak).1, accepts_cons, accepts_cons, hstep]

theorem settingOf_eq_some {l : Text} {mark : Mark}
    (h : settingOf l = some mark) : ∃ name value, mark = .setting name value := by
  unfold settingOf at h
  split at h
  · next hread =>
      cases h
      rcases readSetting_eq_some hread with ⟨name, u, v, hrest⟩
      exact ⟨name, _, hrest.2.2.2.1⟩
  · cases h

theorem readsTo_setting {mark : Mark} (hmark : ∀ r, mark ≠ .unknown r)
    (hread : readItem size (skipBlanks s) =
      some (mark :: (Peg.star skipBlanks readBlankLine (skipBlanks t)).1,
        (Peg.star skipBlanks readBlankLine (skipBlanks t)).2)) :
    ReadsTo size s marks ↔
      ∃ rest, marks = mark :: rest ∧ ReadsTo size t rest := by
  rw [readsTo_of_some hread]
  constructor
  · rintro ⟨rest, rfl, -, hrest⟩
    exact ⟨_, rfl, (readsTo_blanks t _).mp ⟨rest, rfl, hrest⟩⟩
  · rintro ⟨more, rfl, hmore⟩
    have hknown : Known more := hmore.elim fun _ h => h.2.2
    rcases (readsTo_blanks t more).mpr hmore with ⟨rest, rfl, hrest⟩
    refine ⟨rest, rfl, ?_, hrest⟩
    intro r hr
    rcases List.mem_cons.mp hr with heq | hmem
    · exact hmark r heq.symm
    · exact (known_append.mp hknown).1 r hmem

theorem accepts_outside_cons {l : Text} {ls : List Text} {mark : Mark}
    (hstep : step .outside l = some (mark, .outside)) :
    Accepts .outside (l :: ls) marks ↔
      ∃ rest, marks = mark :: rest ∧ Accepts .outside ls rest := by
  rw [accepts_cons]
  constructor
  · rintro ⟨mark', st', rest, hstep', rfl, hrest⟩
    rw [hstep] at hstep'
    cases hstep'
    exact ⟨rest, rfl, hrest⟩
  · rintro ⟨rest, rfl, hrest⟩
    exact ⟨mark, .outside, rest, hstep, rfl, hrest⟩

theorem not_accepts_opened {name : Text}
    (h : readLine name (skipBlanks t) = none) :
    ¬ Accepts (.opened name) (linesOf t) marks := by
  cases hbreak : readNewline (afterLine t) with
  | none =>
      rw [(linesOf_of_none hbreak).1, accepts_nil]
      rintro ⟨-, hclosed⟩
      cases hclosed
  | some u =>
      rw [(linesOf_of_some hbreak).1, accepts_cons, step_opened,
        readLine_eq_none h hbreak]
      rintro ⟨mark, st', rest, hstep, -⟩
      cases hstep

/-- Behind a header, the machine reads the lines of the section and is then
as good as outside. -/
theorem accepts_opened_iff {name : Text} {mark : Mark} {u : List Char}
    (marks : List Mark) (h : readLine name (skipBlanks t) = some ([mark], u)) :
    (Accepts (.opened name) (linesOf t) marks ↔
      ∃ rest,
        marks = mark :: (repeatAll skipBlanks (readLine name) u).1 ++ rest ∧
        Accepts .outside
          (linesOf (repeatAll skipBlanks (readLine name) u).2) rest) ∧
    lastLine t = lastLine (repeatAll skipBlanks (readLine name) u).2 := by
  rcases readLine_eq_some h with ⟨mark', hmark, heq, hbreak⟩
  cases heq
  rcases linesOf_of_some hbreak with ⟨hlines, hlast⟩
  have hloop := accepts_lines name u
  have hend := (hloop []).2.2.1
  constructor
  · rw [hlines, accepts_cons, step_opened, hmark]
    constructor
    · rintro ⟨mark'', st', rest, hstep, rfl, hrest⟩
      cases hstep
      rcases (hloop rest).1.mp hrest with ⟨more, rfl, hmore⟩
      exact ⟨more, rfl, (accepts_inside_iff hend).mp hmore⟩
    · rintro ⟨more, rfl, hmore⟩
      refine ⟨mark, .inside name, _, rfl, rfl, ?_⟩
      exact (hloop _).1.mpr ⟨more, rfl, (accepts_inside_iff hend).mpr hmore⟩
  · rw [hlast]
    exact (hloop []).2.1

theorem readsTo_section {name : Text} {mark : Mark} {u : List Char}
    (hline : readLine name (skipBlanks t) = some ([mark], u))
    (hread : readItem size (skipBlanks s) =
      (readOnce skipBlanks (readLine name) (skipBlanks t)).map fun x =>
        (.header name :: x.1, x.2)) :
    ReadsTo size s marks ↔
      ∃ rest,
        marks = .header name ::
          (mark :: (repeatAll skipBlanks (readLine name) u).1 ++ rest) ∧
        ReadsTo size (repeatAll skipBlanks (readLine name) u).2 rest := by
  have hstar := star_gap skipBlanks_shrinking (readLine_consuming name)
    skipBlanks_skipBlanks u
  have honce : readOnce skipBlanks (readLine name) (skipBlanks t) =
      some (mark :: (repeatAll skipBlanks (readLine name) u).1,
        (Peg.star skipBlanks (readLine name) (skipBlanks u)).2) := by
    unfold readOnce
    rw [hline]
    dsimp only
    rw [hstar.1]
    rfl
  rw [honce, Option.map_some] at hread
  have hknown : Known (.header name :: mark ::
      (repeatAll skipBlanks (readLine name) u).1) := by
    rcases readLine_eq_some hline with ⟨mark', hmark, heq, -⟩
    cases heq
    have hfirst : Known [mark] := by
      rw [(lineOf_eq_some hmark).2]
      exact lineMark_known name _
    intro r hr
    rcases List.mem_cons.mp hr with heq | hr
    · cases heq
    · exact known_append.mpr ⟨hfirst, (accepts_lines name u []).2.2.2⟩ r hr
  rw [readsTo_of_some hread]
  constructor
  · rintro ⟨rest, rfl, -, hrest⟩
    exact ⟨rest, rfl, (readsTo_congr hstar.2).mp hrest⟩
  · rintro ⟨rest, rfl, hrest⟩
    exact ⟨rest, rfl, hknown, (readsTo_congr hstar.2).mpr hrest⟩

theorem skipBlanks_ne_nil (h : skipBlanks (restOfLine s) ≠ []) :
    skipBlanks s ≠ [] := by
  rw [← restOfLine_append_afterLine s, skipBlanks_append (afterLine_end s)]
  simp [h]

/-- A line that is nothing, or a variable that the walk does not know, is not
read to the end. -/
theorem not_readsTo_other (size : ℕ) (marks : List Mark)
    (hblank : skipBlanks (restOfLine s) ≠ [])
    (hother : readNewline (afterLine s) = none ∨
      settingOf (restOfLine s) = none ∧ headerOf (restOfLine s) = none) :
    ¬ ReadsTo size s marks := by
  have hr := afterLine_end s
  have hs := restOfLine_append_afterLine s
  rcases readItem_other (fun c => restOfLine_not_newline (s := s)) hr size
    hblank hother with hnone | ⟨rule', t, hsome⟩
  · rw [hs] at hnone
    rw [readsTo_of_none hnone]
    exact fun h => skipBlanks_ne_nil hblank h.2
  · rw [hs] at hsome
    rw [readsTo_of_some hsome]
    rintro ⟨rest, -, hknown, -⟩
    exact hknown rule' List.mem_cons_self

/-- The loop over the items marks the lines of a text as the machine does. -/
def MarksAlike (size : ℕ) (s : List Char) : Prop :=
  ∀ marks, ReadsTo size s marks ↔
    skipBlanks (lastLine s) = [] ∧ Accepts .outside (linesOf s) marks

theorem marksAlike_of_last (hbreak : readNewline (afterLine s) = none) :
    MarksAlike size s := by
  intro marks
  obtain ⟨hlines, hlast⟩ := linesOf_of_none hbreak
  rw [hlines, hlast, accepts_nil]
  by_cases hblank : skipBlanks (restOfLine s) = []
  · have hnone := readItem_blank (fun c => restOfLine_not_newline (s := s))
      (afterLine_end s) size hblank
    rw [restOfLine_append_afterLine, hbreak] at hnone
    rw [readsTo_of_none hnone]
    simp [State.closed, and_comm]
  · have hnot := not_readsTo_other size marks hblank (.inl hbreak)
    simp [hnot, skipBlanks_ne_nil hblank]

/-- A line that is an item of its own. -/
theorem marksAlike_of_line {mark : Mark}
    (hbreak : readNewline (afterLine s) = some t)
    (hstep : step .outside (restOfLine s) = some (mark, .outside))
    (hread : ∀ marks, ReadsTo size s marks ↔
      ∃ rest, marks = mark :: rest ∧ ReadsTo size t rest)
    (ht : MarksAlike size t) : MarksAlike size s := by
  intro marks
  obtain ⟨hlines, hlast⟩ := linesOf_of_some hbreak
  rw [hlines, hlast, hread, accepts_outside_cons hstep]
  constructor
  · rintro ⟨rest, hmarks, hrest⟩
    obtain ⟨hend, hrest⟩ := (ht rest).mp hrest
    exact ⟨hend, rest, hmarks, hrest⟩
  · rintro ⟨hend, rest, hmarks, hrest⟩
    exact ⟨rest, hmarks, (ht rest).mpr ⟨hend, hrest⟩⟩

/-- A header, which is one item with the lines of its section. -/
theorem marksAlike_of_header {name : Text}
    (hbreak : readNewline (afterLine s) = some t)
    (hblank : skipBlanks (restOfLine s) ≠ [])
    (hsetting : settingOf (restOfLine s) = none)
    (hheader : headerOf (restOfLine s) = some name)
    (ih : ∀ u : List Char, u.length < s.length → MarksAlike size u) :
    MarksAlike size s := by
  intro marks
  obtain ⟨hlines, hlast⟩ := linesOf_of_some hbreak
  have hread := readItem_header (fun c => restOfLine_not_newline (s := s))
    (afterLine_end s) size hheader hbreak
  rw [restOfLine_append_afterLine] at hread
  have hstep : step .outside (restOfLine s) =
      some (.header name, .opened name) := by
    rw [step_outside, if_neg hblank, hsetting, hheader]
    rfl
  rw [hlines, hlast, accepts_cons, hstep]
  cases hline : readLine name (skipBlanks t) with
  | none =>
      have hnone : readItem size (skipBlanks s) = none := by
        rw [hread, readOnce, hline]
        rfl
      rw [readsTo_of_none hnone]
      constructor
      · rintro ⟨-, hend⟩
        exact absurd hend (skipBlanks_ne_nil hblank)
      · rintro ⟨-, mark, st', rest, heq, -, hrest⟩
        cases heq
        exact absurd hrest (not_accepts_opened hline)
  | some result =>
      obtain ⟨xs, u⟩ := result
      obtain ⟨mark, -, rfl, -⟩ := readLine_eq_some hline
      have hu : (repeatAll skipBlanks (readLine name) u).2.length <
          s.length := by
        have h₁ := repeatAll_length_le skipBlanks_shrinking
          (readLine_consuming name) u
        have h₂ := readLine_consuming name hline
        have h₃ := skipBlanks_shrinking t
        have h₄ := readNewline_length_lt hbreak
        have h₅ := (afterLine_suffix s).length_le
        omega
      have hopened := fun rest => accepts_opened_iff rest hline
      rw [readsTo_section hline hread, (hopened []).2]
      constructor
      · rintro ⟨rest, rfl, hrest⟩
        obtain ⟨hend, hrest⟩ := (ih _ hu rest).mp hrest
        exact ⟨hend, _, _, _, rfl, rfl,
          (hopened _).1.mpr ⟨rest, rfl, hrest⟩⟩
      · rintro ⟨hend, mark', st', rest, heq, rfl, hrest⟩
        cases heq
        obtain ⟨more, rfl, hmore⟩ := (hopened rest).1.mp hrest
        exact ⟨more, rfl, (ih _ hu more).mpr ⟨hend, hmore⟩⟩

/-- The grammar marks the lines as the machine does. -/
theorem marksAlike (size : ℕ) (s : List Char) : MarksAlike size s := by
  induction hlen : s.length using Nat.strong_induction_on generalizing s with
  | _ n ih =>
      have hl : ∀ c ∈ restOfLine s, isNewlineChar c = false :=
        fun c => restOfLine_not_newline
      have hr := afterLine_end s
      have hs := restOfLine_append_afterLine s
      have hshorter : ∀ u : List Char, u.length < s.length →
          MarksAlike size u :=
        fun u hu => ih u.length (hlen ▸ hu) u rfl
      cases hbreak : readNewline (afterLine s) with
      | none => exact marksAlike_of_last hbreak
      | some t =>
          have ht : MarksAlike size t :=
            hshorter t (lt_of_lt_of_le (readNewline_length_lt hbreak)
              (afterLine_suffix s).length_le)
          by_cases hblank : skipBlanks (restOfLine s) = []
          · have hread := readItem_blank hl hr size hblank
            rw [hs, hbreak] at hread
            have hknown : Known [Mark.blank] := by
              intro r hr
              cases List.mem_singleton.mp hr
            refine marksAlike_of_line hbreak
              (by rw [step_outside, if_pos hblank]) ?_ ht
            intro marks
            rw [readsTo_of_some hread]
            simp [hknown]
          · cases hsetting : settingOf (restOfLine s) with
            | some mark =>
                have hread := readItem_setting hl hr size hsetting hbreak
                rw [hs] at hread
                have hmark : ∀ r, mark ≠ .unknown r := by
                  obtain ⟨name, value, rfl⟩ := settingOf_eq_some hsetting
                  simp
                exact marksAlike_of_line hbreak
                  (by rw [step_outside, if_neg hblank, hsetting])
                  (fun marks => readsTo_setting hmark hread) ht
            | none =>
                cases hheader : headerOf (restOfLine s) with
                | some name =>
                    exact marksAlike_of_header hbreak hblank hsetting hheader
                      hshorter
                | none =>
                    intro marks
                    have hnot := not_readsTo_other size marks hblank
                      (.inr ⟨hsetting, hheader⟩)
                    simp [hnot, (linesOf_of_some hbreak).1, accepts_cons,
                      step_outside, hblank, hsetting, hheader]

end Loop

/-! ## What is accepted -/

theorem step_stored {st st' : State} {l name line : Text}
    (h : step st l = some (.stored name line, st')) :
    ∀ c ∈ line, isTextChar c = true := by
  have hline : ∀ key, lineOf key l = some (.stored name line) →
      ∀ c ∈ line, isTextChar c = true := by
    intro key hmark
    unfold lineOf at hmark
    split_ifs at hmark with htext
    rw [Option.some.injEq] at hmark
    unfold lineMark at hmark
    split_ifs at hmark
    cases hmark
    exact List.all_eq_true.mp htext.2
  cases st with
  | outside =>
      rw [step_outside] at h
      split_ifs at h
      · cases h
      · split at h
        · next mark hsetting =>
            obtain ⟨key, value, rfl⟩ := settingOf_eq_some hsetting
            cases h
        · obtain ⟨key, -, heq⟩ := Option.map_eq_some_iff.mp h
          cases heq
  | opened key =>
      rw [step_opened] at h
      obtain ⟨mark, hmark, heq⟩ := Option.map_eq_some_iff.mp h
      cases heq
      exact hline key hmark
  | inside key =>
      rw [step_inside] at h
      split_ifs at h
      · cases h
      · obtain ⟨mark, hmark, heq⟩ := Option.map_eq_some_iff.mp h
        cases heq
        exact hline key hmark

theorem accepts_stored {st : State} {ls : List Text} {marks : List Mark}
    (h : Accepts st ls marks) :
    ∀ name line, .stored name line ∈ marks → ∀ c ∈ line, isTextChar c = true := by
  induction ls generalizing st marks with
  | nil =>
      obtain ⟨rfl, -⟩ := accepts_nil.mp h
      intro name line hmem
      cases hmem
  | cons l ls ih =>
      obtain ⟨mark, st', rest, hstep, rfl, hrest⟩ := accepts_cons.mp h
      intro name line hmem
      rcases List.mem_cons.mp hmem with rfl | hmem
      · exact step_stored hstep
      · exact ih hrest name line hmem

theorem known_of_fold {overflowChecks : Bool} {marks : List Mark}
    {st st' : SectionState}
    (h : Outcome.fold (addMark overflowChecks) st marks = .ok st') :
    Known marks := by
  intro r hr
  obtain ⟨c, c', hstep⟩ := Outcome.exists_step_of_fold_ok _ h hr
  cases hstep

/-- On lines that the machine accepts, `specfile::parse` carries out their
marks. -/
theorem parse_of_accepts {content : Text} {marks : List Mark}
    (hne : marks ≠ []) (hlast : skipBlanks (lastLine content) = [])
    (haccepts : Accepts .outside (linesOf content) marks)
    (overflowChecks : Bool) :
    parse overflowChecks content =
      (Outcome.fold (addMark overflowChecks) { spec := {} } marks >>=
        fun st => .ok st.spec) := by
  rcases (marksAlike content.length content marks).mpr ⟨hlast, haccepts⟩
    with ⟨rest, hloop, hend, -⟩
  rw [parse_eq]
  unfold readSpec readDocument
  dsimp only
  rw [hloop, if_pos ⟨hne, hend⟩]

/-- `specfile::parse` succeeds exactly on what the machine accepts, when the
marks can be carried out. -/
theorem parse_eq_ok_iff (overflowChecks : Bool) (content : Text)
    (spec : SpecFile) :
    parse overflowChecks content = .ok spec ↔
      ∃ marks st, marks ≠ [] ∧ skipBlanks (lastLine content) = [] ∧
        Accepts .outside (linesOf content) marks ∧
        Outcome.fold (addMark overflowChecks) { spec := {} } marks = .ok st ∧
        st.spec = spec := by
  constructor
  · intro h
    rw [parse_eq] at h
    unfold readSpec readDocument at h
    dsimp only at h
    split_ifs at h with hdoc
    · rcases Outcome.bind_eq_ok_iff.mp h with ⟨st, hfold, hspec⟩
      have hreads : ReadsTo content.length content
          (repeatAll skipBlanks (readItem content.length) content).1 :=
        ⟨_, rfl, hdoc.2, known_of_fold hfold⟩
      rcases (marksAlike _ _ _).mp hreads with ⟨hlast, haccepts⟩
      cases hspec
      exact ⟨_, st, hdoc.1, hlast, haccepts, hfold, rfl⟩
  · rintro ⟨marks, st, hne, hlast, haccepts, hfold, rfl⟩
    rw [parse_of_accepts hne hlast haccepts, hfold]
    rfl

end Ips.SpecFile
