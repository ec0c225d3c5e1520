import Ips.PegLines
import Ips.SpecFile

/-!
# Reading a spec file without a parse tree

Every line of a spec file gets a mark that says what becomes of it.  The last
theorem says that `specfile::parse` rejects a text, or carries out the marks of
its lines one after the other.
-/

namespace Ips.SpecFile

open Peg

/-! ## Tokens -/

theorem skip_eq : skip = skipBlanks := skipWhitespace_blanks

def isUppercase (c : Char) : Bool := 'A' ≤ c && c ≤ 'Z'

def isSectionNameChar (c : Char) : Bool := ('a' ≤ c && c ≤ 'z') || isDigit c

def charMarks : List Char :=
  [',', '.', '_', '/', '-', '=', '>', '<', '!', '\x27', '#', ':', '\x7b',
    '\x7d', '%', '*', '@', '\x22']

/-- The characters of the rule `char`. -/
def isChar (c : Char) : Bool := isAlpha c || (isDigit c || charMarks.contains c)

def isTextChar (c : Char) : Bool := isChar c || isBlank c

def specContext (size : ℕ) : Context := ⟨.nonAtomic, size, skip⟩

@[simp] theorem gap_specContext (size : ℕ) :
    (specContext size).gap = skipBlanks := skip_eq

theorem specContext_shrinking (size : ℕ) :
    Shrinking (specContext size).implicit := by
  change Shrinking skip
  rw [skip_eq]
  exact skipBlanks_shrinking

theorem readsOne_char : ReadsOne Grammar.char (headIs isChar) := by
  have hmarks := readsOne_strs (R := Rule)
    [(',', ","), ('.', "."), ('_', "_"), ('/', "/"), ('-', "-"), ('=', "="),
      ('>', ">"), ('<', "<"), ('!', "!"), ('\x27', "'"), ('#', "#"), (':', ":"),
      ('\x7b', "\x7b"), ('\x7d', "\x7d"), ('%', "%"), ('*', "*"), ('@', "@"),
      ('\x22', "\"")]
    (by decide)
  have halnum : ReadsOne (asciiAlphanumeric : Parser Rule)
      (headIs fun c => isAlpha c || isDigit c) := readsOne_asciiAlphanumeric
  have hboth := halnum.choice_cons hmarks
  refine ReadsOne.rule ⟨rfl, ?_⟩ _
  intro ctx s
  refine (hboth.2 ctx s).trans ?_
  cases s with
  | nil => rfl
  | cons c t => simp only [headIs, isChar, Bool.or_assoc, charMarks]; rfl

theorem readsPiece_text : ReadsPiece Grammar.text isTextChar := by
  intro ctx s
  have hrun : repOnce Grammar.char ctx.atomically s = _ :=
    readsOne_char.repOnce ctx s
  have hblank : Grammar.whitespace ctx.atomically s =
      if headIs isBlank s then some ([], s.tail) else none :=
    ((readsOne_str (by decide)).choice_cons
      (readsOne_choice_single (readsOne_str (by decide)))).2 ctx s
  have htext : Grammar.text ctx.atomically s =
      choice [repOnce Grammar.char, Grammar.whitespace] ctx.atomically s := by
    unfold Grammar.text
    rw [atomicRule_atomically]
  rw [htext]
  simp only [choice, hrun, hblank, readRunOnce, takeTails_headIs,
    dropTails_headIs]
  cases s with
  | nil =>
      left
      exact ⟨rfl, rfl⟩
  | cons c t =>
      by_cases hc : isChar c = true
      · right
        have htake : (c :: t).takeWhile isChar = c :: t.takeWhile isChar := by
          simp [hc]
        have hdrop : (c :: t).dropWhile isChar = t.dropWhile isChar := by
          simp [hc]
        refine ⟨c, t.takeWhile isChar, t.dropWhile isChar, ?_, ?_, ?_⟩
        · rw [List.takeWhile_append_dropWhile]
        · intro d hd
          have hmem : d ∈ (c :: t).takeWhile isChar := by
            rw [htake]
            exact hd
          have hall := List.all_eq_true.mp List.all_takeWhile d hmem
          rw [isTextChar, hall]
          rfl
        · rw [htake, hdrop, if_neg (by simp)]
          rfl
      · have htake : (c :: t).takeWhile isChar = [] := by
          simp [hc]
        rw [htake, if_pos rfl]
        by_cases hb : isBlank c = true
        · right
          refine ⟨c, [], t, rfl, ?_, ?_⟩
          · intro d hd
            cases List.mem_singleton.mp hd
            simp [isTextChar, hb]
          · simp [headIs, hb]
        · left
          constructor
          · simp [headIs, isTextChar, hc, hb]
          · simp [headIs, hb]

theorem lexes_text : Lexes (repOnce Grammar.text) (readRunOnce (headIs isTextChar)) :=
  readsPiece_text.repOnce

theorem variableText_eq (size : ℕ) (s : List Char) :
    Grammar.variableText (specContext size) s =
      if s.takeWhile isTextChar = [] then none
      else some ([leaf .variableText (size - s.length)
        (s.takeWhile isTextChar)], s.dropWhile isTextChar) := by
  have h : Grammar.variableText (specContext size) s = _ :=
    lexes_text.atomicRule_eq (readRunOnce_splits _) .variableText rfl s
  rw [h, readRunOnce, takeTails_headIs, dropTails_headIs]
  split_ifs
  · rfl
  · rfl

theorem sectionText_eq (size : ℕ) (s : List Char) :
    Grammar.sectionText (specContext size) s =
      if s.takeWhile isTextChar = [] then none
      else some ([leaf .sectionText (size - s.length)
        (s.takeWhile isTextChar)], s.dropWhile isTextChar) := by
  have h : Grammar.sectionText (specContext size) s = _ :=
    lexes_text.atomicRule_eq (readRunOnce_splits _) .sectionText rfl s
  rw [h, readRunOnce, takeTails_headIs, dropTails_headIs]
  split_ifs
  · rfl
  · rfl

/-- A comment has at least one character behind the hash. -/
def readCommentText : Reader (List Char)
  | '#' :: t =>
      if t.takeWhile isTextChar = [] then none
      else some ('#' :: t.takeWhile isTextChar, t.dropWhile isTextChar)
  | _ => none

theorem readCommentText_splits : Splits readCommentText := by
  intro s w t hread
  unfold readCommentText at hread
  split at hread
  · split_ifs at hread
    cases hread
    rw [List.cons_append, List.takeWhile_append_dropWhile]
  · cases hread

theorem commentLine_eq (size : ℕ) (s : List Char) :
    Grammar.commentLine (specContext size) s =
      (readCommentText s).map fun x =>
        ([leaf .commentLine (size - s.length) x.1], x.2) := by
  have hlex : Lexes (seq [str "#", Grammar.sectionText]) readCommentText := by
    intro ctx s
    have hstr := (readsOne_str (R := Rule) (w := "#") (c := '#') rfl).2 ctx s
    have htext := (lexes_text.atomicRule Rule.sectionText) ctx s.tail
    cases s with
    | nil => rfl
    | cons c t =>
        by_cases hc : c = '#'
        · subst hc
          have hstr' : (str "#" : Parser Rule) ctx.atomically ('#' :: t) =
              some ([], t) := rfl
          simp only [seq, hstr', gap_atomically, id, readCommentText]
          rw [List.tail_cons] at htext
          unfold Grammar.sectionText
          rw [htext, readRunOnce, takeTails_headIs, dropTails_headIs]
          split_ifs
          · rfl
          · rfl
        · have hhead : headIs (· == '#') (c :: t) = false := by
            simp [headIs, hc]
          rw [hhead, if_neg Bool.false_ne_true] at hstr
          have hread : readCommentText (c :: t) = none := by
            unfold readCommentText
            split
            · next heq =>
                cases heq
                exact absurd rfl hc
            · rfl
          simp only [seq, hstr, hread, Option.map_none]
  exact hlex.atomicRule_eq readCommentText_splits .commentLine rfl s

def readName : Reader (List Char)
  | c :: t =>
      if isUppercase c ∧ t.takeWhile isAlpha ≠ [] then
        some (c :: (t.takeWhile isAlpha ++
            (t.dropWhile isAlpha).takeWhile isDigit),
          (t.dropWhile isAlpha).dropWhile isDigit)
      else none
  | [] => none

theorem readName_splits : Splits readName := by
  intro s w t hread
  unfold readName at hread
  split at hread
  · split_ifs at hread
    cases hread
    rw [List.cons_append, List.append_assoc, List.takeWhile_append_dropWhile,
      List.takeWhile_append_dropWhile]
  · cases hread

theorem variableName_eq (size : ℕ) (s : List Char) :
    Grammar.variableName (specContext size) s =
      (readName s).map fun x =>
        ([leaf .variableName (size - s.length) x.1], x.2) := by
  have halpha : ReadsOne Grammar.alpha (headIs isAlpha) :=
    ((readsOne_charIf _).choice_cons
      (readsOne_choice_single (readsOne_charIf _))).rule _
  have hdigit : ReadsOne Grammar.digit (headIs isDigit) :=
    (readsOne_charIf _).rule _
  have hupper : ReadsOne Grammar.uppercase (headIs isUppercase) :=
    (readsOne_charIf _).rule _
  have hlex : Lexes
      (seq [Grammar.uppercase, repOnce Grammar.alpha, rep Grammar.digit])
      readName := by
    intro ctx s
    cases s with
    | nil => rfl
    | cons c t =>
        have hfirst := hupper.2 ctx (c :: t)
        have hmore := halpha.repOnce ctx t
        have hrest := hdigit.rep ctx (t.dropWhile isAlpha)
        rw [readRunOnce, takeTails_headIs, dropTails_headIs] at hmore
        rw [readRun, takeTails_headIs, dropTails_headIs] at hrest
        simp only [seq, hfirst, gap_atomically, id, readName, headIs]
        by_cases hc : isUppercase c = true
        · by_cases ht : t.takeWhile isAlpha = []
          · rw [if_pos ht] at hmore
            simp [hc, ht, hmore]
          · rw [if_neg ht] at hmore
            simp [hc, ht, hmore, hrest]
        · simp [hc]
  exact hlex.atomicRule_eq readName_splits .variableName rfl s

theorem sectionName_eq (size : ℕ) (s : List Char) :
    Grammar.sectionName (specContext size) s =
      if s.takeWhile isSectionNameChar = [] then none
      else some ([leaf .sectionName (size - s.length)
        (s.takeWhile isSectionNameChar)], s.dropWhile isSectionNameChar) := by
  have hchar : ReadsOne
      (choice [asciiAlphaLower, asciiDigit] : Parser Rule)
      (headIs isSectionNameChar) :=
    (readsOne_charIf _).choice_cons
      (readsOne_choice_single (readsOne_charIf _))
  have h : Grammar.sectionName (specContext size) s = _ :=
    hchar.repOnce.atomicRule_eq (readRunOnce_splits _) .sectionName rfl s
  rw [h, readRunOnce, takeTails_headIs, dropTails_headIs]
  split_ifs
  · rfl
  · rfl

/-! ## Lines and what becomes of them -/

inductive Mark where
  | blank
  | setting (name value : Text)
  | header (name : Text)
  | comment
  | stored (name line : Text)
  | unknown (r : Rule)
  deriving DecidableEq

/-- What a mark does, in the state of the walk over a section. -/
def addMark (overflowChecks : Bool) (st : SectionState) :
    Mark → Outcome SpecError SectionState
  | .blank => .ok st
  | .setting name value =>
      .ok { st with
        spec := setVariable st.spec (KnownVariableControl.of name) name value }
  | .header name => .ok { sectionNameTmp := name, spec := st.spec }
  | .comment => .ok st
  | .stored name line =>
      storeLine overflowChecks { st with sectionNameTmp := name } line
  | .unknown r => .panic (unknownRule r)

def readBlankLine : Reader (List Mark) := fun s =>
  (readNewline s).map fun t => ([.blank], t)

def isComment : Text → Bool
  | '#' :: _ :: _ => true
  | _ => false

def lineMark (name line : Text) : Mark :=
  if isComment line then .comment else .stored name line

def readLine (name : Text) : Reader (List Mark) := fun s =>
  if s.takeWhile isTextChar = [] then none
  else
    match readNewline (s.dropWhile isTextChar) with
    | none => none
    | some t => some ([lineMark name (s.takeWhile isTextChar)], t)

def readSetting (s : List Char) : Option (Mark × List Char) :=
  match readName s with
  | none => none
  | some (name, t) =>
      match skipBlanks t with
      | ':' :: u =>
          if (skipBlanks u).takeWhile isTextChar = [] then none
          else some (.setting name ((skipBlanks u).takeWhile isTextChar),
            (skipBlanks u).dropWhile isTextChar)
      | _ => none

/-- A setting takes the blank lines behind it. -/
def readSettings : Reader (List Mark) := fun s =>
  match readSetting s with
  | none => none
  | some (mark, t) =>
      match readOnce skipBlanks readBlankLine (skipBlanks t) with
      | none => none
      | some (blanks, u) => some (mark :: blanks.tail, u)

def readHeader (s : List Char) : Option (Text × List Char) :=
  match s with
  | '%' :: t =>
      if (skipBlanks t).takeWhile isSectionNameChar = [] then none
      else
        match readNewline
            (skipBlanks ((skipBlanks t).dropWhile isSectionNameChar)) with
        | none => none
        | some u => some ((skipBlanks t).takeWhile isSectionNameChar, u)
  | _ => none

def readSection : Reader (List Mark) := fun s =>
  match readHeader s with
  | none => none
  | some (name, t) =>
      match readOnce skipBlanks (readLine name) (skipBlanks t) with
      | none => none
      | some (lines, u) => some (.header name :: lines, u)

/-- Variables of a kind that the walk does not know. -/
def readUnknown (size : ℕ) (r : Rule) (p : Parser Rule) : Reader (List Mark) :=
  fun s =>
    (seq [p, repOnce newline] (specContext size) s).map fun x =>
      ([.unknown r], x.2)

def readItem (size : ℕ) : Reader (List Mark) :=
  orElse readSettings
    (orElse (readUnknown size .multilineVariable Grammar.multilineVariable)
      (orElse (readUnknown size .emptyVariable Grammar.emptyVariable)
        (orElse readSection readBlankLine)))

def readSpec (content : Text) : Option (List Mark) :=
  readDocument skipBlanks (readItem content.length) content

/-! ## Nodes -/

/-- The node of a line of a section, and its mark. -/
inductive LineNode (name : Text) : Pair Rule → Mark → Prop
  | comment (i j : ℕ) (w line : Text) :
      LineNode name ⟨.sectionLine, i, w, [leaf .commentLine j line]⟩ .comment
  | stored (i j : ℕ) (w line : Text) :
      LineNode name ⟨.sectionLine, i, w, [leaf .sectionText j line]⟩
        (.stored name line)

/-- The nodes of an item of a file, and its marks. -/
inductive ItemNodes : List (Pair Rule) → List Mark → Prop
  | blank : ItemNodes [] [.blank]
  | setting (i j k : ℕ) (w name value : Text) {blanks : List Mark}
      (hblanks : ∀ mark ∈ blanks, mark = .blank) :
      ItemNodes
        [⟨.variableRule, i, w,
          [leaf .variableName j name, leaf .variableText k value]⟩]
        (.setting name value :: blanks)
  | unknown (pair : Pair Rule)
      (hunknown : pair.asRule = .multilineVariable ∨
        pair.asRule = .emptyVariable) :
      ItemNodes [pair] [.unknown pair.asRule]
  | section (i j : ℕ) (w name : Text) {lines : List (Pair Rule)}
      {marks : List Mark} (hlines : List.Forall₂ (LineNode name) lines marks) :
      ItemNodes [⟨.sectionRule, i, w, leaf .sectionName j name :: lines⟩]
        (.header name :: marks)

inductive FileNodes : List (Pair Rule) → List Mark → Prop
  | nil : FileNodes [] []
  | cons {xs ys : List (Pair Rule)} {marks more : List Mark}
      (hitem : ItemNodes xs marks) (hrest : FileNodes ys more) :
      FileNodes (xs ++ ys) (marks ++ more)

theorem ItemNodes.fileNodes {pairs : List (Pair Rule)} {marks : List Mark}
    (h : ItemNodes pairs marks) : FileNodes pairs marks := by
  have hcons := FileNodes.cons h .nil
  rwa [List.append_nil, List.append_nil] at hcons

theorem FileNodes.append (xs ys : List (Pair Rule)) (marks more : List Mark)
    (h : FileNodes xs marks) (h' : FileNodes ys more) :
    FileNodes (xs ++ ys) (marks ++ more) := by
  induction h with
  | nil => exact h'
  | cons hitem _ ih =>
      rw [List.append_assoc, List.append_assoc]
      exact .cons hitem ih

/-! ## The rules and their readers -/

section Simulation

/-- Line breaks leave no pairs. -/
def MeansBlanks (pairs : List (Pair Rule)) (marks : List Mark) : Prop :=
  pairs = [] ∧ ∀ mark ∈ marks, mark = .blank

theorem MeansBlanks.append
    (xs xs' : List (Pair Rule)) (ys ys' : List Mark)
    (h : MeansBlanks xs ys) (h' : MeansBlanks xs' ys') :
    MeansBlanks (xs ++ xs') (ys ++ ys') := by
  constructor
  · rw [h.1, h'.1, List.append_nil]
  · intro mark hmark
    rcases List.mem_append.mp hmark with hmark | hmark
    · exact h.2 mark hmark
    · exact h'.2 mark hmark

theorem newline_simulates (ctx : Context) :
    Simulates MeansBlanks (newline ctx) readBlankLine := by
  intro s
  unfold readBlankLine
  rw [newline_eq]
  cases readNewline s with
  | none => exact .none
  | some t => exact .some ⟨⟨rfl, by simp⟩, rfl⟩

theorem newlines_simulates (size : ℕ) :
    Simulates MeansBlanks (repOnce newline (specContext size))
      (readOnce skipBlanks readBlankLine) := by
  have hbreaks := (newline_simulates (specContext size)).repOnce
    ⟨rfl, by simp⟩ MeansBlanks.append
  rwa [gap_specContext] at hbreaks

theorem variableRule_eq (size : ℕ) (s : List Char) :
    (Grammar.variableRule (specContext size) s = none ∧
      readSetting s = none) ∨
    ∃ i j k w name value t,
      Grammar.variableRule (specContext size) s =
        some ([⟨.variableRule, i, w,
          [leaf .variableName j name, leaf .variableText k value]⟩], t) ∧
      readSetting s = some (.setting name value, t) := by
  unfold readSetting
  cases hname : readName s with
  | none =>
      left
      refine ⟨rule_of_none ?_, rfl⟩
      simp only [seq, variableName_eq, hname, Option.map_none]
  | some result =>
      rcases result with ⟨name, t⟩
      dsimp only
      by_cases hcolon : ∃ u, skipBlanks t = ':' :: u
      · rcases hcolon with ⟨u, hu⟩
        have hstr : (str ":" : Parser Rule) (specContext size) (':' :: u) =
            some ([], u) := rfl
        rw [hu]
        by_cases hvalue : (skipBlanks u).takeWhile isTextChar = []
        · left
          refine ⟨rule_of_none ?_, if_pos hvalue⟩
          simp only [seq, variableName_eq, hname, Option.map_some,
            gap_specContext, hu, hstr, variableText_eq, if_pos hvalue]
        · right
          have hbody : seq [Grammar.variableName, str ":", Grammar.variableText]
              (specContext size) s =
                some ([leaf .variableName (size - s.length) name] ++ ([] ++
                  [leaf .variableText (size - (skipBlanks u).length)
                    ((skipBlanks u).takeWhile isTextChar)]),
                  (skipBlanks u).dropWhile isTextChar) := by
            simp only [seq, variableName_eq, hname, Option.map_some,
              gap_specContext, hu, hstr, variableText_eq, if_neg hvalue]
          exact ⟨_, _, _, _, name, _, _, rule_of_some rfl hbody, if_neg hvalue⟩
      · left
        have hstr : (str ":" : Parser Rule) (specContext size)
            (skipBlanks t) = none := by
          cases hskip : skipBlanks t with
          | nil => rfl
          | cons c u =>
              have hc : ¬ ':' = c := by
                rintro rfl
                exact hcolon ⟨u, hskip⟩
              simp [str, hc]
        constructor
        · apply rule_of_none
          simp only [seq, variableName_eq, hname, Option.map_some,
            gap_specContext, hstr]
        · split
          · next u hu => exact absurd ⟨u, hu⟩ hcolon
          · rfl

theorem settings_simulates (size : ℕ) :
    Simulates ItemNodes
      (seq [Grammar.variableRule, repOnce newline] (specContext size))
      readSettings := by
  intro s
  unfold readSettings seq
  rcases variableRule_eq size s with ⟨hp, hr⟩ |
    ⟨i, j, k, w, name, value, t, hp, hr⟩
  · rw [hp, hr]
    exact .none
  · rw [hp, hr]
    have hseq : seq [repOnce newline] = (repOnce newline : Parser Rule) := rfl
    rw [gap_specContext, hseq]
    dsimp only
    cases hread : readOnce skipBlanks readBlankLine (skipBlanks t) with
    | none =>
        rw [(newlines_simulates size).none_iff.mpr hread]
        exact .none
    | some result =>
        rcases (newlines_simulates size).exists_of_some hread with
          ⟨pairs, hpairs, rfl, hblanks⟩
        rw [hpairs]
        refine .some ⟨.setting i j k w name value ?_, rfl⟩
        exact fun mark hmark => hblanks mark (List.mem_of_mem_tail hmark)

theorem skipBlanks_dropWhile_text (s : List Char) :
    skipBlanks (s.dropWhile isTextChar) = s.dropWhile isTextChar := by
  apply skipBlanks_of_head
  have hhead := headIs_dropWhile isTextChar s
  cases hdrop : s.dropWhile isTextChar with
  | nil => rfl
  | cons c t =>
      rw [hdrop] at hhead
      have hc : isTextChar c = false := hhead
      simp only [isTextChar, Bool.or_eq_false_iff] at hc
      exact hc.2

theorem readCommentText_eq (s : List Char) :
    readCommentText s =
      if isComment (s.takeWhile isTextChar) then
        some (s.takeWhile isTextChar, s.dropWhile isTextChar)
      else none := by
  unfold readCommentText
  split
  · next t =>
      have hhash : isTextChar '#' = true := by decide
      simp only [List.takeWhile_cons, List.dropWhile_cons, hhash, if_true]
      cases ht : t.takeWhile isTextChar with
      | nil => rfl
      | cons c w => rfl
  · next hne =>
      cases hs : s with
      | nil => rfl
      | cons c t =>
          have hc : c ≠ '#' := by
            rintro rfl
            exact hne t hs
          have hno : isComment ((c :: t).takeWhile isTextChar) = false := by
            rw [List.takeWhile_cons]
            split_ifs
            · unfold isComment
              split
              · next heq =>
                  injection heq with hhead
                  exact absurd hhead hc
              · rfl
            · rfl
          rw [hno]
          rfl

theorem sectionLine_simulates (size : ℕ) (name : Text) :
    Simulates (List.Forall₂ (LineNode name))
      (Grammar.sectionLine (specContext size)) (readLine name) := by
  intro s
  have hcomment : seq [Grammar.commentLine, newline] (specContext size) s =
      if isComment (s.takeWhile isTextChar) then
        (readNewline (s.dropWhile isTextChar)).map fun t =>
          ([leaf .commentLine (size - s.length) (s.takeWhile isTextChar)], t)
      else none := by
    simp only [seq, commentLine_eq, readCommentText_eq, newline_eq,
      gap_specContext]
    split_ifs
    · simp only [Option.map_some, skipBlanks_dropWhile_text]
      cases readNewline (s.dropWhile isTextChar) with
      | none => rfl
      | some t => rfl
    · rfl
  have htext : seq [Grammar.sectionText, newline] (specContext size) s =
      if s.takeWhile isTextChar = [] then none
      else (readNewline (s.dropWhile isTextChar)).map fun t =>
        ([leaf .sectionText (size - s.length) (s.takeWhile isTextChar)], t) := by
    simp only [seq, sectionText_eq, newline_eq, gap_specContext]
    split_ifs
    · rfl
    · simp only [skipBlanks_dropWhile_text]
      cases readNewline (s.dropWhile isTextChar) with
      | none => rfl
      | some t => rfl
  unfold readLine lineMark
  by_cases hnil : s.takeWhile isTextChar = []
  · have hchoice : choice [seq [Grammar.commentLine, newline],
        seq [Grammar.sectionText, newline]] (specContext size) s = none := by
      simp only [choice, hcomment, htext, hnil, if_true]
      rfl
    rw [if_pos hnil, Grammar.sectionLine, rule_of_none hchoice]
    exact .none
  · rw [if_neg hnil]
    rw [if_neg hnil] at htext
    cases hbreak : readNewline (s.dropWhile isTextChar) with
    | none =>
        have hchoice : choice [seq [Grammar.commentLine, newline],
            seq [Grammar.sectionText, newline]] (specContext size) s =
              none := by
          simp only [choice, hcomment, htext, hbreak, Option.map_none]
          split_ifs
          · rfl
          · rfl
        rw [Grammar.sectionLine, rule_of_none hchoice]
        exact .none
    | some t =>
        by_cases hkind : isComment (s.takeWhile isTextChar) = true
        · have hchoice : choice [seq [Grammar.commentLine, newline],
              seq [Grammar.sectionText, newline]] (specContext size) s =
                some ([leaf .commentLine (size - s.length)
                  (s.takeWhile isTextChar)], t) := by
            simp only [choice, hcomment, hbreak, if_pos hkind, Option.map_some]
          rw [Grammar.sectionLine, rule_of_some rfl hchoice, if_pos hkind]
          exact .some ⟨.cons (.comment _ _ _ _) .nil, rfl⟩
        · have hchoice : choice [seq [Grammar.commentLine, newline],
              seq [Grammar.sectionText, newline]] (specContext size) s =
                some ([leaf .sectionText (size - s.length)
                  (s.takeWhile isTextChar)], t) := by
            simp only [choice, hcomment, htext, hbreak, if_neg hkind,
              Option.map_some]
          rw [Grammar.sectionLine, rule_of_some rfl hchoice, if_neg hkind]
          exact .some ⟨.cons (.stored _ _ _ _) .nil, rfl⟩

theorem readHeader_of_ne {s : List Char} (h : ¬ ∃ t, s = '%' :: t) :
    readHeader s = none := by
  unfold readHeader
  split
  · next t => exact absurd ⟨t, rfl⟩ h
  · rfl

theorem header_eq (size : ℕ) (q : Parser Rule) (s : List Char) :
    ∃ start,
      seq [str "%", Grammar.sectionName, newline, q] (specContext size) s =
        match readHeader s with
        | none => none
        | some (name, t) =>
            (q (specContext size) (skipBlanks t)).map fun x =>
              (leaf .sectionName start name :: x.1, x.2) := by
  by_cases hpercent : ∃ t, s = '%' :: t
  · rcases hpercent with ⟨t, rfl⟩
    refine ⟨size - (skipBlanks t).length, ?_⟩
    have hstr : (str "%" : Parser Rule) (specContext size) ('%' :: t) =
        some ([], t) := rfl
    simp only [seq, hstr, gap_specContext, sectionName_eq, newline_eq,
      readHeader]
    split_ifs with hname
    · rfl
    · cases hbreak : readNewline
          (skipBlanks ((skipBlanks t).dropWhile isSectionNameChar)) with
      | none => simp only [hbreak, Option.map_none]
      | some u =>
          simp only [hbreak, Option.map_some]
          cases q (specContext size) (skipBlanks u) with
          | none => rfl
          | some result => rfl
  · refine ⟨0, ?_⟩
    have hstr : (str "%" : Parser Rule) (specContext size) s = none := by
      cases s with
      | nil => rfl
      | cons c t =>
          have hc : ¬ '%' = c := by
            rintro rfl
            exact hpercent ⟨t, rfl⟩
          simp [str, hc]
    rw [readHeader_of_ne hpercent]
    simp only [seq, hstr]

theorem section_simulates (size : ℕ) :
    Simulates ItemNodes (Grammar.sectionRule (specContext size))
      readSection := by
  intro s
  unfold readSection
  rcases header_eq size (repOnce Grammar.sectionLine) s with ⟨start, hseq⟩
  cases hheader : readHeader s with
  | none =>
      rw [hheader] at hseq
      rw [Grammar.sectionRule, rule_of_none hseq]
      exact .none
  | some result =>
      rcases result with ⟨name, t⟩
      rw [hheader] at hseq
      have hlines : Simulates (List.Forall₂ (LineNode name))
          (repOnce Grammar.sectionLine (specContext size))
          (readOnce (specContext size).gap (readLine name)) :=
        (sectionLine_simulates size name).repOnce .nil
          (fun _ _ _ _ h h' => List.rel_append h h')
      rw [gap_specContext] at hlines
      dsimp only
      cases hread : readOnce skipBlanks (readLine name) (skipBlanks t) with
      | none =>
          simp only [hlines.none_iff.mpr hread, Option.map_none] at hseq
          rw [Grammar.sectionRule, rule_of_none hseq]
          exact .none
      | some found =>
          rcases hlines.exists_of_some hread with ⟨pairs, hpairs, hmarks⟩
          simp only [hpairs, Option.map_some] at hseq
          rw [Grammar.sectionRule, rule_of_some rfl hseq]
          exact .some ⟨.section _ _ _ _ hmarks, rfl⟩

/-- The node of a rule in front of line breaks. -/
theorem seq_rule_newlines {r : Rule} {p : Parser Rule} {size : ℕ}
    {s t : List Char} {pairs : List (Pair Rule)}
    (h : seq [rule r p, repOnce newline] (specContext size) s =
      some (pairs, t)) : ∃ pair, pairs = [pair] ∧ pair.asRule = r := by
  unfold seq at h
  cases hp : p (specContext size) s with
  | none =>
      rw [rule_of_none hp] at h
      cases h
  | some result =>
      rw [rule_of_some rfl hp] at h
      dsimp only at h
      split at h
      · cases h
      · next breaks u hbreaks =>
          cases h
          have hseq : seq [repOnce newline] =
            (repOnce newline : Parser Rule) := rfl
          rw [hseq] at hbreaks
          obtain ⟨marks, -, hnil, -⟩ :=
            (newlines_simulates size).of_some hbreaks
          rw [hnil]
          exact ⟨_, rfl, rfl⟩

theorem unknown_simulates (size : ℕ) {r : Rule} (p : Parser Rule)
    (hr : r = .multilineVariable ∨ r = .emptyVariable) :
    Simulates ItemNodes (seq [rule r p, repOnce newline] (specContext size))
      (readUnknown size r (rule r p)) := by
  intro s
  unfold readUnknown
  cases hread : seq [rule r p, repOnce newline] (specContext size) s with
  | none => exact .none
  | some result =>
      rcases seq_rule_newlines hread with ⟨pair, hpairs, hrule⟩
      refine .some ⟨?_, rfl⟩
      rw [hpairs, ← hrule]
      exact .unknown pair (by rwa [hrule])

theorem item_simulates (size : ℕ) :
    Simulates ItemNodes
      (choice [
        seq [Grammar.variableRule, repOnce newline],
        seq [Grammar.multilineVariable, repOnce newline],
        seq [Grammar.emptyVariable, repOnce newline],
        Grammar.sectionRule, newline] (specContext size))
      (readItem size) := by
  have hmultiline := unknown_simulates size
    (seq [Grammar.variableName, str ":", opt newline,
      repOnce (seq [Grammar.text, newline])]) (.inl rfl)
  have hempty := unknown_simulates size
    (seq [Grammar.variableName, str ":"]) (.inr rfl)
  have hblank : Simulates ItemNodes (newline (specContext size))
      readBlankLine := by
    intro s
    unfold readBlankLine
    rw [newline_eq]
    cases readNewline s with
    | none => exact .none
    | some t => exact .some ⟨.blank, rfl⟩
  exact (settings_simulates size).choice_cons
    (hmultiline.choice_cons (hempty.choice_cons
      ((section_simulates size).choice_cons hblank.choice_single)))

end Simulation

/-! ## What the walk does with the nodes -/

section Walk

variable (overflowChecks : Bool)

/-- The walk over the pairs does what the marks do. -/
def MeansMarks (pairs : List (Pair Rule)) (marks : List Mark) : Prop :=
  ∀ st : SectionState,
    (Outcome.fold (addMark overflowChecks) st marks >>= fun st' =>
      .ok st'.spec) =
        Outcome.fold (readPair overflowChecks) st.spec pairs

theorem MeansMarks.append
    (xs xs' : List (Pair Rule)) (ys ys' : List Mark)
    (h : MeansMarks overflowChecks xs ys)
    (h' : MeansMarks overflowChecks xs' ys') :
    MeansMarks overflowChecks (xs ++ xs') (ys ++ ys') := by
  intro st
  rw [Outcome.fold_append, Outcome.fold_append, ← h st, Outcome.bind_assoc,
    Outcome.bind_assoc]
  congr 1
  funext st'
  exact h' st'

theorem fold_addMark_blanks (st : SectionState) {marks : List Mark}
    (h : ∀ mark ∈ marks, mark = .blank) :
    Outcome.fold (addMark overflowChecks) st marks = .ok st := by
  induction marks with
  | nil => rfl
  | cons mark marks ih =>
      cases h mark List.mem_cons_self
      exact ih fun mark hmark => h mark (List.mem_cons_of_mem _ hmark)

theorem pushLine_name {st st' : SectionState} {push : SpecFile → Text → SpecFile}
    {line : Text} (h : pushLine overflowChecks st push line = .ok st') :
    st'.sectionNameTmp = st.sectionNameTmp := by
  rcases Outcome.bind_eq_ok_iff.mp h with ⟨count, -, hst⟩
  cases hst
  rfl

theorem storeLine_name {st st' : SectionState} {line : Text}
    (h : storeLine overflowChecks st line = .ok st') :
    st'.sectionNameTmp = st.sectionNameTmp := by
  unfold storeLine at h
  split at h
  · exact pushLine_name overflowChecks h
  · exact pushLine_name overflowChecks h
  · exact pushLine_name overflowChecks h
  · cases h
    rfl
  · exact pushLine_name overflowChecks h
  · exact pushLine_name overflowChecks h
  · cases h

/-- A line of a section does what its mark does, and leaves the name of the
section alone. -/
theorem LineNode.means {name : Text} {pair : Pair Rule} {mark : Mark}
    (h : LineNode name pair mark) {st : SectionState}
    (hst : st.sectionNameTmp = name) :
    addMark overflowChecks st mark = readSectionPair overflowChecks st pair ∧
      ∀ st', addMark overflowChecks st mark = .ok st' →
        st'.sectionNameTmp = name := by
  cases h with
  | comment i j w line =>
      refine ⟨rfl, ?_⟩
      intro st' hst'
      cases hst'
      exact hst
  | stored i j w line =>
      have hname : { st with sectionNameTmp := name } = st := by
        rw [← hst]
      rw [addMark, hname]
      constructor
      · simp only [readSectionPair, Outcome.fold_cons, Outcome.fold_nil,
          readLineOrComment, leaf, if_true]
        cases storeLine overflowChecks st line <;> rfl
      · intro st' hst'
        rw [storeLine_name overflowChecks hst', hst]

theorem fold_lines {name : Text} {pairs : List (Pair Rule)}
    {marks : List Mark} (h : List.Forall₂ (LineNode name) pairs marks)
    (st : SectionState) (hst : st.sectionNameTmp = name) :
    Outcome.fold (addMark overflowChecks) st marks =
      Outcome.fold (readSectionPair overflowChecks) st pairs := by
  induction h generalizing st with
  | nil => rfl
  | @cons pair mark pairs marks hline _ ih =>
      rcases hline.means overflowChecks hst with ⟨hmark, hkeep⟩
      rw [Outcome.fold_cons, Outcome.fold_cons, ← hmark]
      cases hadd : addMark overflowChecks st mark with
      | ok st' => exact ih st' (hkeep st' hadd)
      | err error => rfl
      | panic message => rfl

theorem ItemNodes.means {pairs : List (Pair Rule)} {marks : List Mark}
    (h : ItemNodes pairs marks) : MeansMarks overflowChecks pairs marks := by
  intro st
  cases h with
  | blank => rfl
  | setting i j k w name value hblanks =>
      rw [Outcome.fold_cons, addMark, Outcome.ok_bind,
        fold_addMark_blanks _ _ hblanks]
      simp only [Outcome.ok_bind, Outcome.fold_cons, Outcome.fold_nil, readPair,
        List.foldl_cons, List.foldl_nil, readVariablePair, leaf]
      cases KnownVariableControl.of name <;> rfl
  | unknown pair hunknown =>
      rw [Outcome.fold_cons, Outcome.fold_cons, readPair]
      rcases hunknown with hrule | hrule
      · rw [hrule]
        rfl
      · rw [hrule]
        rfl
  | @«section» i j w name lines marks hlines =>
      have hfold := fold_lines overflowChecks hlines
        { sectionNameTmp := name, spec := st.spec } rfl
      rw [Outcome.fold_cons, addMark, Outcome.ok_bind, hfold]
      simp only [Outcome.fold_cons, Outcome.fold_nil, readPair,
        readSectionPair, leaf, Outcome.ok_bind]
      cases Outcome.fold (readSectionPair overflowChecks)
        { sectionNameTmp := name, spec := st.spec } lines <;> rfl

theorem FileNodes.means {pairs : List (Pair Rule)} {marks : List Mark}
    (h : FileNodes pairs marks) : MeansMarks overflowChecks pairs marks := by
  induction h with
  | nil =>
      intro st
      rfl
  | cons hitem _ ih =>
      exact MeansMarks.append overflowChecks _ _ _ _
        (hitem.means overflowChecks) ih

end Walk

/-! ## Whole files -/

theorem readBlankLine_consuming : Consuming readBlankLine := by
  intro s marks t hread
  unfold readBlankLine at hread
  rcases Option.map_eq_some_iff.mp hread with ⟨u, hbreak, heq⟩
  cases heq
  exact readNewline_length_lt hbreak

theorem readLine_consuming (name : Text) : Consuming (readLine name) := by
  intro s marks t hread
  unfold readLine at hread
  split_ifs at hread
  split at hread
  · cases hread
  · next hbreak =>
      cases hread
      exact lt_of_lt_of_le (readNewline_length_lt hbreak)
        (List.dropWhile_suffix _).length_le

theorem readOnce_consuming {r : Reader (List Mark)} (hr : Consuming r) :
    Consuming (readOnce skipBlanks r) := by
  intro s marks t hread
  unfold readOnce at hread
  split at hread
  · cases hread
  · next u hu =>
      cases hread
      have hlt := hr hu
      have hrest : (Peg.star skipBlanks r (skipBlanks u)).2.length ≤
          u.length := by
        unfold Peg.star
        have hskip := skipBlanks_shrinking u
        split
        · exact hskip
        · next v hv =>
            have := hr hv
            have := repeatAll_length_le skipBlanks_shrinking hr v
            dsimp only
            omega
      omega

theorem readName_length_lt {s w t : List Char}
    (h : readName s = some (w, t)) : t.length < s.length := by
  have hsplit := readName_splits h
  unfold readName at h
  split at h
  · split_ifs at h
    cases h
    rw [hsplit]
    simp only [List.length_append, List.length_cons]
    omega
  · cases h

/-- A setting ends at a character that is no text. -/
theorem readSetting_eq_some {s t : List Char} {mark : Mark}
    (h : readSetting s = some (mark, t)) :
    ∃ name u v, readName s = some (name, u) ∧ skipBlanks u = ':' :: v ∧
      (skipBlanks v).takeWhile isTextChar ≠ [] ∧
      mark = .setting name ((skipBlanks v).takeWhile isTextChar) ∧
      t = (skipBlanks v).dropWhile isTextChar := by
  unfold readSetting at h
  split at h
  · cases h
  · next name u hname =>
      split at h
      · next v hcolon =>
          split_ifs at h with hvalue
          cases h
          exact ⟨name, u, v, hname, hcolon, hvalue, rfl, rfl⟩
      · cases h

theorem readSetting_length_lt {s t : List Char} {mark : Mark}
    (h : readSetting s = some (mark, t)) : t.length < s.length := by
  rcases readSetting_eq_some h with ⟨name, u, v, hname, hcolon, -, -, rfl⟩
  have h₁ := readName_length_lt hname
  have h₂ := skipBlanks_shrinking u
  have h₃ := skipBlanks_shrinking v
  have h₄ := (List.dropWhile_suffix isTextChar (l := skipBlanks v)).length_le
  rw [hcolon, List.length_cons] at h₂
  omega

theorem readHeader_eq_some {s t : List Char} {name : Text}
    (h : readHeader s = some (name, t)) :
    ∃ u, s = '%' :: u ∧ name = (skipBlanks u).takeWhile isSectionNameChar ∧
      name ≠ [] ∧
      readNewline
        (skipBlanks ((skipBlanks u).dropWhile isSectionNameChar)) = some t := by
  unfold readHeader at h
  split at h
  · next u =>
      split_ifs at h with hname
      split at h
      · cases h
      · next hbreak =>
          cases h
          exact ⟨u, rfl, rfl, hname, hbreak⟩
  · cases h

theorem readHeader_length_lt {s t : List Char} {name : Text}
    (h : readHeader s = some (name, t)) : t.length < s.length := by
  rcases readHeader_eq_some h with ⟨u, rfl, -, -, hbreak⟩
  have h₁ := readNewline_length_lt hbreak
  have h₂ := skipBlanks_shrinking ((skipBlanks u).dropWhile isSectionNameChar)
  have h₃ := (List.dropWhile_suffix isSectionNameChar
    (l := skipBlanks u)).length_le
  have h₄ := skipBlanks_shrinking u
  rw [List.length_cons]
  omega

theorem bounded_text : Bounded Grammar.text := by
  have hpair : ∀ {p q : Parser Rule}, Bounded p → Bounded q →
      Bounded (choice [p, q]) := by
    intro p q hp hq
    apply bounded_choice
    intro r hr
    simp only [List.mem_cons, List.not_mem_nil, or_false] at hr
    rcases hr with rfl | rfl
    · exact hp
    · exact hq
  have hblank : Bounded Grammar.whitespace :=
    (hpair (bounded_str _) (bounded_str _)).atomic
  have hchar : Bounded Grammar.char := by
    apply Bounded.rule
    apply bounded_choice
    intro p hp
    rcases List.mem_cons.mp hp with rfl | hp
    · apply bounded_choice
      intro p hp
      simp only [List.mem_cons, List.not_mem_nil, or_false] at hp
      rcases hp with rfl | rfl | rfl <;> exact bounded_charIf _
    · simp only [List.mem_cons, List.not_mem_nil, or_false] at hp
      rcases hp with rfl | rfl | rfl | rfl | rfl | rfl | rfl | rfl | rfl |
        rfl | rfl | rfl | rfl | rfl | rfl | rfl | rfl | rfl <;>
        exact bounded_str _
  exact (hpair hchar.repOnce hblank).atomicRule _

theorem readUnknown_consuming (size : ℕ) (r : Rule) (ps : List (Parser Rule))
    (hps : ∀ p ∈ ps, Bounded p) :
    Consuming (readUnknown size r
      (rule r (seq (Grammar.variableName :: str ":" :: ps)))) := by
  intro s marks t hread
  unfold readUnknown at hread
  rcases Option.map_eq_some_iff.mp hread with ⟨x, hseq, heq⟩
  cases heq
  have hgap := specContext_shrinking size
  refine seq_length_lt hgap ?_ bounded_newline.repOnce hseq
  intro ys u hrule
  obtain ⟨zs, hbody⟩ := rule_eq_some hrule
  refine seq_length_lt hgap ?_ (bounded_seq ?_) hbody
  · intro ys v hname
    rw [variableName_eq] at hname
    rcases Option.map_eq_some_iff.mp hname with ⟨y, hy, heq⟩
    cases heq
    exact readName_length_lt hy
  · intro p hp
    rcases List.mem_cons.mp hp with rfl | hp
    · exact bounded_str _
    · exact hps p hp

theorem readItem_consuming (size : ℕ) : Consuming (readItem size) := by
  have hblank := readOnce_consuming readBlankLine_consuming
  have hsettings : Consuming readSettings := by
    intro s marks t hread
    unfold readSettings at hread
    split at hread
    · cases hread
    · next mark u hsetting =>
        split at hread
        · cases hread
        · next blanks v hblanks =>
            cases hread
            have h₁ := readSetting_length_lt hsetting
            have h₂ := hblank hblanks
            have h₃ := skipBlanks_shrinking u
            omega
  have hsection : Consuming readSection := by
    intro s marks t hread
    unfold readSection at hread
    split at hread
    · cases hread
    · next name u hheader =>
        split at hread
        · cases hread
        · next lines v hlines =>
            cases hread
            have h₁ := readHeader_length_lt hheader
            have h₂ := readOnce_consuming (readLine_consuming name) hlines
            have h₃ := skipBlanks_shrinking u
            omega
  have hmultiline := readUnknown_consuming size .multilineVariable
    [opt newline, repOnce (seq [Grammar.text, newline])] (by
      intro p hp
      simp only [List.mem_cons, List.not_mem_nil, or_false] at hp
      rcases hp with rfl | rfl
      · exact bounded_newline.opt
      · apply Bounded.repOnce
        apply bounded_seq
        intro p hp
        simp only [List.mem_cons, List.not_mem_nil, or_false] at hp
        rcases hp with rfl | rfl
        · exact bounded_text
        · exact bounded_newline)
  have hempty := readUnknown_consuming size .emptyVariable [] (by simp)
  exact hsettings.orElse (hmultiline.orElse (hempty.orElse
    (hsection.orElse readBlankLine_consuming)))

theorem readItem_ne_nil (size : ℕ) ⦃s : List Char⦄ ⦃marks : List Mark⦄
    ⦃t : List Char⦄ (h : readItem size s = some (marks, t)) : marks ≠ [] := by
  have hunknown : ∀ r p, readUnknown size r p s = some (marks, t) →
      marks ≠ [] := by
    intro r p hread
    rcases Option.map_eq_some_iff.mp hread with ⟨x, -, heq⟩
    cases heq
    simp
  unfold readItem orElse at h
  split at h
  · next hread =>
      cases h
      unfold readSettings at hread
      split at hread
      · cases hread
      · split at hread
        · cases hread
        · cases hread
          simp
  · split at h
    · next hread =>
        cases h
        exact hunknown _ _ hread
    · split at h
      · next hread =>
          cases h
          exact hunknown _ _ hread
      · split at h
        · next hread =>
            cases h
            unfold readSection at hread
            split at hread
            · cases hread
            · split at hread
              · cases hread
              · cases hread
                simp
        · rcases Option.map_eq_some_iff.mp h with ⟨x, -, heq⟩
          cases heq
          simp

/-- The grammar rejects a text that is no list of items, and otherwise its
nodes are those of the items. -/
theorem parse_nodes (content : Text) :
    (Peg.parse skip Grammar.file content = none ∧ readSpec content = none) ∨
    ∃ pairs marks,
      Peg.parse skip Grammar.file content =
        some (pairs ++ [leaf .EOI content.length []]) ∧
      readSpec content = some marks ∧ FileNodes pairs marks := by
  have hsimulates : Simulates FileNodes
      (choice [
        seq [Grammar.variableRule, repOnce newline],
        seq [Grammar.multilineVariable, repOnce newline],
        seq [Grammar.emptyVariable, repOnce newline],
        Grammar.sectionRule, newline] (specContext content.length))
      (readItem content.length) :=
    (item_simulates content.length).mono fun _ _ => ItemNodes.fileNodes
  have hgap : Shrinking skip := by
    rw [skip_eq]
    exact skipBlanks_shrinking
  have hidem : ∀ s, skip (skip s) = skip s := by
    rw [skip_eq]
    exact skipBlanks_skipBlanks
  unfold readSpec Peg.parse Grammar.file Grammar.eoi
  rcases hsimulates.document content .EOI .nil FileNodes.append hgap hidem
      (readItem_consuming content.length) (readItem_ne_nil content.length) with
    ⟨hnone, hparse⟩ | ⟨marks, pairs, hmarks, hparse, hnodes⟩
  · left
    rw [skip_eq] at hnone
    exact ⟨by rw [hparse]; rfl, hnone⟩
  · right
    rw [skip_eq] at hmarks
    exact ⟨pairs, marks, by rw [hparse]; rfl, hmarks, hnodes⟩

/-- `specfile::parse` rejects a text that is no list of items and otherwise
carries out the marks of its lines in order. -/
theorem parse_eq (overflowChecks : Bool) (content : Text) :
    parse overflowChecks content =
      match readSpec content with
      | none => .err .parserError
      | some marks =>
          Outcome.fold (addMark overflowChecks) { spec := {} } marks >>=
            fun st => .ok st.spec := by
  unfold parse
  rcases parse_nodes content with
    ⟨hparse, hnone⟩ | ⟨pairs, marks, hparse, hmarks, hnodes⟩
  · rw [hparse, hnone]
  · rw [hparse, hmarks]
    dsimp only
    rw [Outcome.fold_append, ← hnodes.means overflowChecks { spec := {} }]
    cases Outcome.fold (addMark overflowChecks) { spec := {} } marks <;> rfl

end Ips.SpecFile
