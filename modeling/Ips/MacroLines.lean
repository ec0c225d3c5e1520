import Ips.MacroReader

/-!
# Expanding a script line by line

The line a script line is expanded to, piece by piece.  Blanks between pieces
are skipped, and a space is put behind every run of text.
-/

namespace Ips.Macros

open Peg

/-! ## The pieces of a line -/

/-- A piece with the blanks before it. -/
structure Spaced where
  before : Text
  piece : Piece
  deriving DecidableEq

def readSpaced : Reader (List Spaced) := fun s =>
  (readPiece (skipBlanks s)).map fun x =>
    ([⟨s.takeWhile isBlank, x.1⟩], x.2)

/-- The pieces at the start of a line, and what is left behind them. -/
def pieces (line : Text) : List Spaced × Text := repeatAll id readSpaced line

def Piece.isText : Piece → Bool
  | .text _ => true
  | _ => false

theorem readSpaced_eq_some {s t : List Char} {xs : List Spaced}
    (h : readSpaced s = some (xs, t)) :
    ∃ piece, readPiece (skipBlanks s) = some (piece, t) ∧
      xs = [⟨s.takeWhile isBlank, piece⟩] := by
  obtain ⟨x, hread, heq⟩ := Option.map_eq_some_iff.mp h
  cases heq
  exact ⟨x.1, hread, rfl⟩

theorem readSpaced_of_some {s t : List Char} {piece : Piece}
    (h : readPiece (skipBlanks s) = some (piece, t)) :
    readSpaced s = some ([⟨s.takeWhile isBlank, piece⟩], t) := by
  unfold readSpaced
  rw [h]
  rfl

theorem readSpaced_of_none {s : List Char}
    (h : readPiece (skipBlanks s) = none) : readSpaced s = none := by
  unfold readSpaced
  rw [h]
  rfl

theorem readTextPiece_ne_nil {s t : List Char} {piece : Piece}
    (h : readTextPiece s = some (piece, t)) :
    ∃ chars, piece = .text chars ∧ chars ≠ [] := by
  unfold readTextPiece at h
  split_ifs at h with hnil
  cases h
  exact ⟨_, rfl, hnil⟩

theorem readMacro_not_isText {s t : List Char} {piece : Piece}
    (h : readMacro s = some (piece, t)) : piece.isText = false := by
  rcases orElse_eq_some h with href | ⟨-, hopt⟩
  · have hreference := readReference_isReference href
    cases piece with
    | text chars => cases hreference
    | bare before name => rfl
    | braced before name after => rfl
    | optional name => rfl
  · obtain ⟨name, rfl⟩ := readOptional_eq_optional hopt
    rfl

theorem readPiece_spelled_ne_nil {s t : List Char} {piece : Piece}
    (h : readPiece s = some (piece, t)) : piece.spelled ≠ [] := by
  rcases orElse_eq_some h with htext | ⟨-, hmark⟩
  · obtain ⟨chars, rfl, hne⟩ := readTextPiece_ne_nil htext
    exact hne
  · have hkind := readMacro_not_isText hmark
    cases piece with
    | text chars => cases hkind
    | bare before name => exact List.cons_ne_nil _ _
    | braced before name after => exact List.cons_ne_nil _ _
    | optional name => exact List.cons_ne_nil _ _

theorem readPiece_length_lt {s t : List Char} {piece : Piece}
    (h : readPiece s = some (piece, t)) : t.length < s.length := by
  have hlength := congrArg List.length (readPiece_spelled h)
  have hpos := List.length_pos_of_ne_nil (readPiece_spelled_ne_nil h)
  rw [List.length_append] at hlength
  omega

theorem readSpaced_consuming : Consuming readSpaced := by
  intro s xs t h
  obtain ⟨piece, hread, -⟩ := readSpaced_eq_some h
  exact lt_of_lt_of_le (readPiece_length_lt hread) (skipBlanks_shrinking s)

theorem pieces_of_none {s : List Char}
    (h : readPiece (skipBlanks s) = none) : pieces s = ([], s) :=
  repeatAll_of_none shrinking_id readSpaced_consuming (readSpaced_of_none h)

theorem pieces_of_some {s t : List Char} {piece : Piece}
    (h : readPiece (skipBlanks s) = some (piece, t)) :
    pieces s =
      (⟨s.takeWhile isBlank, piece⟩ :: (pieces t).1, (pieces t).2) :=
  repeatAll_of_some shrinking_id readSpaced_consuming (readSpaced_of_some h)

/-- The pieces of a line come from the right end of it. -/
theorem pieces_induction
    (P : List Char → List Spaced → List Char → Prop)
    (hstop : ∀ s, readPiece (skipBlanks s) = none → P s [] s)
    (hround : ∀ s piece t, readPiece (skipBlanks s) = some (piece, t) →
      P t (pieces t).1 (pieces t).2 →
      P s (⟨s.takeWhile isBlank, piece⟩ :: (pieces t).1) (pieces t).2)
    (s : List Char) : P s (pieces s).1 (pieces s).2 := by
  apply repeatAll_induction shrinking_id readSpaced_consuming
    (fun s result => P s result.1 result.2)
  · intro s hnone
    cases hread : readPiece (skipBlanks s) with
    | none => exact hstop s hread
    | some result =>
        have hsome := readSpaced_of_some hread
        rw [id, hsome] at hnone
        cases hnone
  · intro s xs t hsome ih
    obtain ⟨piece, hread, rfl⟩ := readSpaced_eq_some hsome
    exact hround s piece t hread ih

/-! ## The rules on a line -/

/-- Text on one line and without parentheses. -/
structure PlainLine (s : List Char) : Prop where
  paren : '(' ∉ s
  newline : ∀ c ∈ s, isNewlineChar c = false

theorem PlainLine.suffix {s t : List Char} (h : PlainLine s) (ht : t <:+ s) :
    PlainLine t :=
  ⟨not_mem_of_suffix h.paren ht, fun c hc => h.newline c (ht.subset hc)⟩

theorem PlainLine.head {s : List Char} (h : PlainLine s) :
    headIs isNewlineChar s = false := by
  cases s with
  | nil => rfl
  | cons c t => exact h.newline c List.mem_cons_self

theorem PlainLine.readPiece {s t : List Char} {piece : Piece}
    (h : PlainLine s) (hread : readPiece (skipBlanks s) = some (piece, t)) :
    PlainLine t := by
  apply h.suffix
  exact (List.suffix_append _ t).trans
    (readPiece_spelled hread ▸ skipBlanks_suffix s)

section Rules

variable {s : List Char}

theorem text_cases (size : ℕ) (h : PlainLine s) :
    (Grammar.text (macroContext size) (skipBlanks s) = none ∧
      readTextPiece (skipBlanks s) = none) ∨
    ∃ pairs piece t,
      Grammar.text (macroContext size) (skipBlanks s) = some (pairs, t) ∧
      readTextPiece (skipBlanks s) = some (piece, t) ∧
      MeansPieces pairs [piece] := by
  have htext := text_eq size (headIs_skipBlanks s)
    (h.suffix (skipBlanks_suffix s)).head
  unfold readTextPiece
  rw [htext]
  split_ifs
  · exact .inl ⟨rfl, rfl⟩
  · exact .inr ⟨_, _, _, rfl, rfl, fun macros replacedLine => rfl⟩

theorem element_cases (size : ℕ) (h : PlainLine s) :
    (element (macroContext size) (skipBlanks s) = none ∧
      readPiece (skipBlanks s) = none) ∨
    ∃ pairs piece t,
      element (macroContext size) (skipBlanks s) = some (pairs, t) ∧
      readPiece (skipBlanks s) = some (piece, t) ∧
      MeansPieces pairs [piece] := by
  unfold element readPiece
  rcases text_cases size h with ⟨htext, hread⟩ | ⟨pairs, piece, t, htext, hread, hmeans⟩
  · simp only [choice, htext, orElse_of_none hread]
    rcases textWithMacros_cases size (h.suffix (skipBlanks_suffix s)).paren with
      ⟨hmark, hread'⟩ | ⟨pairs, piece, t, hmark, hread', hmeans⟩
    · simp only [hmark]
      exact .inl ⟨trivial, hread'⟩
    · simp only [hmark]
      exact .inr ⟨pairs, piece, t, rfl, hread', hmeans⟩
  · simp only [choice, htext, orElse_of_some hread]
    exact .inr ⟨pairs, piece, t, rfl, rfl, hmeans⟩

/-- The loop over the elements of a line reads its pieces. -/
theorem elements_eq (size : ℕ) (s : List Char) :
    PlainLine s →
      MeansPieces
          (repeatAll skipBlanks (element (macroContext size)) s).1
          ((pieces s).1.map Spaced.piece) ∧
        (repeatAll skipBlanks (element (macroContext size)) s).2 =
          (pieces s).2 := by
  have hconsuming := consumes_element.consuming (macroContext_shrinking size)
  apply pieces_induction fun s xs t => PlainLine s →
    MeansPieces (repeatAll skipBlanks (element (macroContext size)) s).1
        (xs.map Spaced.piece) ∧
      (repeatAll skipBlanks (element (macroContext size)) s).2 = t
  · intro s hread hplain
    rcases element_cases size hplain with ⟨hnone, -⟩ | ⟨_, _, _, -, hsome, -⟩
    · rw [repeatAll_of_none skipBlanks_shrinking hconsuming hnone]
      exact ⟨fun macros replacedLine => rfl, rfl⟩
    · rw [hread] at hsome
      cases hsome
  · intro s piece t hread ih hplain
    rcases element_cases size hplain with ⟨-, hnone⟩ | ⟨pairs, _, _, helement, hsome, hmeans⟩
    · rw [hread] at hnone
      cases hnone
    · rw [hread] at hsome
      cases hsome
      obtain ⟨hrest, hend⟩ := ih (hplain.readPiece hread)
      rw [repeatAll_of_some skipBlanks_shrinking hconsuming helement]
      exact ⟨hmeans.append _ _ _ _ hrest, hend⟩

/-- The loop over the text before the first macro. -/
theorem texts_eq (size : ℕ) (s : List Char) :
    PlainLine s →
      ∃ texts : List Spaced, texts.all (fun x => x.piece.isText) ∧
        MeansPieces
          (repeatAll skipBlanks (Grammar.text (macroContext size)) s).1
          (texts.map Spaced.piece) ∧
        pieces s =
          (texts ++ (pieces (repeatAll skipBlanks
            (Grammar.text (macroContext size)) s).2).1,
          (pieces (repeatAll skipBlanks
            (Grammar.text (macroContext size)) s).2).2) ∧
        PlainLine (repeatAll skipBlanks
          (Grammar.text (macroContext size)) s).2 ∧
        readTextPiece (skipBlanks (repeatAll skipBlanks
          (Grammar.text (macroContext size)) s).2) = none := by
  have hconsuming := consumes_text.consuming (macroContext_shrinking size)
  apply repeatAll_induction skipBlanks_shrinking hconsuming
    fun s result => PlainLine s →
      ∃ texts : List Spaced, texts.all (fun x => x.piece.isText) ∧
        MeansPieces result.1 (texts.map Spaced.piece) ∧
        pieces s = (texts ++ (pieces result.2).1, (pieces result.2).2) ∧
        PlainLine result.2 ∧ readTextPiece (skipBlanks result.2) = none
  · intro s hnone hplain
    rcases text_cases size hplain with ⟨-, hread⟩ | ⟨_, _, _, hsome, -, -⟩
    · exact ⟨[], rfl, fun macros replacedLine => rfl, rfl, hplain, hread⟩
    · rw [hnone] at hsome
      cases hsome
  · intro s xs t hsome ih hplain
    rcases text_cases size hplain with ⟨hnone, -⟩ | ⟨pairs, piece, _, htext, hread, hmeans⟩
    · rw [hsome] at hnone
      cases hnone
    · rw [hsome] at htext
      cases htext
      have hpiece : readPiece (skipBlanks s) = some (piece, t) :=
        orElse_of_some hread
      obtain ⟨texts, hall, hmore, hpieces, hrest⟩ := ih (hplain.readPiece hpiece)
      obtain ⟨chars, rfl, -⟩ := readTextPiece_ne_nil hread
      refine ⟨⟨s.takeWhile isBlank, .text chars⟩ :: texts, ?_, ?_, ?_, hrest⟩
      · simpa [Piece.isText] using hall
      · exact hmeans.append _ _ _ _ hmore
      · rw [pieces_of_some hpiece, hpieces]
        rfl

end Rules

/-! ## A line -/

/-- The grammar reads a line to its end, and there is a macro on it. -/
def accepted (line : Text) : Bool :=
  (pieces line).1.any (fun x => !x.piece.isText) &&
    (skipBlanks (pieces line).2).isEmpty

theorem element_eq_none_iff (size : ℕ) {s : List Char} (h : PlainLine s)
    (htext : readTextPiece (skipBlanks s) = none) :
    element (macroContext size) (skipBlanks s) = none ↔
      (pieces s).1.any (fun x => !x.piece.isText) = false := by
  rcases element_cases size h with ⟨helement, hread⟩ | ⟨pairs, piece, t, helement, hread, -⟩
  · rw [pieces_of_none hread]
    exact iff_of_true helement rfl
  · have hmark : readMacro (skipBlanks s) = some (piece, t) := by
      rwa [readPiece, orElse_of_none htext] at hread
    have hkind := readMacro_not_isText hmark
    rw [pieces_of_some hread, helement]
    simp [hkind]

theorem replaceLine_eq (macros : HashMap Text) {line : Text}
    (h : PlainLine line) :
    replaceLine macros line =
      if accepted line then do
        let replacedLine ←
          Outcome.fold (addPiece macros) [] ((pieces line).1.map Spaced.piece)
        return trimEnd replacedLine
      else .err .parserError := by
  obtain ⟨texts, hall, hmeans, hpieces, hplain, hstop⟩ :=
    texts_eq line.length line h
  have hfile := file_eq line
  obtain ⟨hmore, hend⟩ := elements_eq line.length _ hplain
  have hnone := element_eq_none_iff line.length hplain hstop
  simp only at hfile
  generalize repeatAll skipBlanks (Grammar.text (macroContext line.length))
    line = first at *
  generalize repeatAll skipBlanks (element (macroContext line.length))
    first.2 = second at *
  have hnotext : texts.any (fun x => !x.piece.isText) = false := by
    rw [List.any_eq_false]
    intro x hx
    simpa using List.all_eq_true.mp hall x hx
  have haccepted : accepted line =
      ((pieces first.2).1.any (fun x => !x.piece.isText) &&
        (skipBlanks second.2).isEmpty) := by
    unfold accepted
    rw [hpieces, hend, List.any_append, hnotext, Bool.false_or]
  have hbody : seq [soi, rep Grammar.text, repOnce element, rep Grammar.text,
      Grammar.eoi] (macroContext line.length) line =
        if accepted line then
          some (first.1 ++ (second.1 ++ [leaf .EOI line.length []]), [])
        else none := by
    rw [hfile, haccepted]
    by_cases hmark :
        (pieces first.2).1.any (fun x => !x.piece.isText) = true
    · rw [if_neg (fun h => by rw [hnone.mp h] at hmark; cases hmark), hmark]
      simp
    · rw [if_pos (hnone.mpr (Bool.eq_false_of_not_eq_true hmark)),
        Bool.eq_false_of_not_eq_true hmark]
      rfl
  have hparse : Peg.parse skip Grammar.file line =
      (rule .file (seq [soi, rep Grammar.text, repOnce element,
        rep Grammar.text, Grammar.eoi]) (macroContext line.length) line).map
          Prod.fst := rfl
  unfold replaceLine
  rw [hparse]
  split_ifs with hline
  · rw [if_pos hline] at hbody
    rw [rule_of_some rfl hbody]
    have hpairs : MeansPieces (first.1 ++ (second.1 ++
        [leaf .EOI line.length []])) ((pieces line).1.map Spaced.piece) := by
      rw [hpieces, List.map_append, ← List.append_nil ((pieces first.2).1.map _)]
      exact hmeans.append _ _ _ _ (hmore.append _ _ _ _ fun _ _ => rfl)
    simp only [Option.map_some, Outcome.fold_cons, Outcome.fold_nil]
    rw [hpairs macros []]
    cases Outcome.fold (addPiece macros) [] ((pieces line).1.map Spaced.piece)
      <;> rfl
  · rw [if_neg hline] at hbody
    rw [rule_of_none hbody]
    rfl

/-! ## A script -/

/-- What a piece that does not stop the walk adds to the line. -/
def Piece.output (macros : HashMap Text) : Piece → Text
  | .text chars => chars ++ [' ']
  | piece => (macros.lookup piece.name).getD []

/-- A piece the walk does not stop at. -/
def Piece.Defined (macros : HashMap Text) (piece : Piece) : Prop :=
  piece.isText = true ∨
    (piece.isReference = true ∧ ∃ value, macros.lookup piece.name = some value)

theorem addPiece_eq_ok_iff {macros : HashMap Text} {replacedLine line : Text}
    {piece : Piece} :
    addPiece macros replacedLine piece = .ok line ↔
      piece.Defined macros ∧ line = replacedLine ++ piece.output macros := by
  have hvariable : ∀ name, (getVariable macros name >>= fun value =>
      (.ok (replacedLine ++ value) : Outcome MacroParserError Text)) = .ok line ↔
        (∃ value, macros.lookup name = some value) ∧
          line = replacedLine ++ (macros.lookup name).getD [] := by
    intro name
    unfold getVariable
    cases macros.lookup name with
    | none => simp
    | some value => simp [eq_comm]
  cases piece with
  | text chars =>
      have hdefined : (Piece.text chars).Defined macros := .inl rfl
      simp only [addPiece, Piece.output, hdefined, true_and,
        Outcome.ok.injEq, List.append_assoc]
      exact eq_comm
  | bare before name =>
      have hdefined : (Piece.bare before name).Defined macros ↔
          ∃ value, macros.lookup name = some value := by
        simp [Piece.Defined, Piece.isText, Piece.isReference, Piece.name]
      rw [hdefined]
      exact hvariable name
  | braced before name after =>
      have hdefined : (Piece.braced before name after).Defined macros ↔
          ∃ value, macros.lookup name = some value := by
        simp [Piece.Defined, Piece.isText, Piece.isReference, Piece.name]
      rw [hdefined]
      exact hvariable name
  | optional name =>
      simp [addPiece, Piece.Defined, Piece.isText, Piece.isReference]

theorem fold_addPiece {macros : HashMap Text} {ps : List Piece}
    {replacedLine line : Text} :
    Outcome.fold (addPiece macros) replacedLine ps = .ok line ↔
      (∀ piece ∈ ps, piece.Defined macros) ∧
        line = replacedLine ++ ps.flatMap (Piece.output macros) := by
  induction ps generalizing replacedLine with
  | nil => simp [eq_comm]
  | cons piece ps ih =>
      rw [Outcome.fold_cons, Outcome.bind_eq_ok_iff, List.forall_mem_cons,
        List.flatMap_cons]
      constructor
      · rintro ⟨middle, hfirst, hrest⟩
        obtain ⟨hdefined, rfl⟩ := addPiece_eq_ok_iff.mp hfirst
        obtain ⟨hall, rfl⟩ := ih.mp hrest
        exact ⟨⟨hdefined, hall⟩, List.append_assoc _ _ _⟩
      · rintro ⟨⟨hdefined, hall⟩, rfl⟩
        refine ⟨_, addPiece_eq_ok_iff.mpr ⟨hdefined, rfl⟩, ih.mpr ⟨hall, ?_⟩⟩
        exact (List.append_assoc _ _ _).symm

/-- The line before its end is trimmed. -/
def output (macros : HashMap Text) (xs : List Spaced) : Text :=
  xs.flatMap fun x => x.piece.output macros

theorem replaceLine_eq_ok_iff {macros : HashMap Text} {line out : Text}
    (h : PlainLine line) :
    replaceLine macros line = .ok out ↔
      accepted line = true ∧
        (∀ x ∈ (pieces line).1, x.piece.Defined macros) ∧
        out = trimEnd (output macros (pieces line).1) := by
  rw [replaceLine_eq macros h]
  split_ifs with hline
  · rw [Outcome.bind_eq_ok_iff]
    simp only [fold_addPiece, List.forall_mem_map, List.flatMap_map,
      List.nil_append, Outcome.pure_eq, Outcome.ok.injEq, output]
    constructor
    · rintro ⟨a, ⟨hall, rfl⟩, rfl⟩
      exact ⟨hline, hall, rfl⟩
    · rintro ⟨-, hall, rfl⟩
      exact ⟨_, ⟨hall, rfl⟩, rfl⟩
  · simp [hline]

theorem fold_pushLine {macros : HashMap Text} {ls : List Text}
    {n m : ℕ} {s t : Text} :
    Outcome.fold (pushLine macros) (n, s) ls = .ok (m, t) ↔
      m = n + ls.length ∧
        ∃ outs, List.Forall₂ (fun l out => replaceLine macros l = .ok out) ls outs ∧
          t = s ++ (if n = 0 then ['\n'].intercalate outs
            else outs.flatMap fun out => '\n' :: out) := by
  induction ls generalizing n s with
  | nil =>
      simp only [Outcome.fold_nil, Outcome.ok.injEq, Prod.mk.injEq,
        List.forall₂_nil_left_iff, List.length_nil]
      constructor
      · rintro ⟨rfl, rfl⟩
        exact ⟨rfl, [], rfl, by simp⟩
      · rintro ⟨rfl, outs, rfl, rfl⟩
        exact ⟨rfl, by simp⟩
  | cons l ls ih =>
      have hjoin : ∀ out outs, s ++ (if n = 0 then
            ['\n'].intercalate (out :: outs)
          else (out :: outs).flatMap fun out => '\n' :: out) =
          (if n = 0 then s ++ out else s ++ '\n' :: out) ++
            (if n + 1 = 0 then ['\n'].intercalate outs
              else outs.flatMap fun out => '\n' :: out) := by
        intro out outs
        rw [if_neg (Nat.succ_ne_zero n), intercalate_cons]
        split_ifs <;> simp
      rw [Outcome.fold_cons, Outcome.bind_eq_ok_iff]
      simp only [pushLine, Outcome.bind_eq_ok_iff, Outcome.pure_eq,
        Outcome.ok.injEq]
      constructor
      · rintro ⟨state, ⟨out, hout, rfl⟩, hrest⟩
        obtain ⟨rfl, outs, hall, rfl⟩ := ih.mp hrest
        refine ⟨?_, out :: outs, .cons hout hall, (hjoin out outs).symm⟩
        rw [List.length_cons]
        omega
      · rintro ⟨rfl, outs, hall, rfl⟩
        cases hall with
        | @cons _ out _ outs hout hall =>
            refine ⟨_, ⟨out, hout, rfl⟩, ih.mpr ⟨?_, outs, hall, hjoin out outs⟩⟩
            rw [List.length_cons]
            omega

theorem parse_eq_ok_iff_lines {macros : HashMap Text} {rawString out : Text} :
    parse macros rawString = .ok out ↔
      ∃ outs,
        List.Forall₂ (fun l out => replaceLine macros l = .ok out)
          (lines rawString) outs ∧
        out = ['\n'].intercalate outs := by
  unfold parse
  rw [Outcome.bind_eq_ok_iff]
  constructor
  · rintro ⟨⟨m, t⟩, hfold, heq⟩
    obtain ⟨-, outs, hall, rfl⟩ := fold_pushLine.mp hfold
    cases heq
    exact ⟨outs, hall, rfl⟩
  · rintro ⟨outs, hall, rfl⟩
    exact ⟨_, fold_pushLine.mpr ⟨rfl, outs, hall, rfl⟩, rfl⟩

/-- The lines of a script without carriage returns and parentheses. -/
theorem plainLine_of_mem_lines {rawString line : Text}
    (hreturn : '\r' ∉ rawString) (hparen : '(' ∉ rawString)
    (h : line ∈ lines rawString) : PlainLine line := by
  have hpart : ∀ part ∈ splitAt '\n' rawString, PlainLine part := by
    intro part hpart
    refine ⟨?_, ?_⟩
    · intro hmem
      exact hparen (mem_of_mem_splitAt hpart hmem).1
    · intro c hc
      obtain ⟨hmem, hne⟩ := mem_of_mem_splitAt hpart hc
      have hne' : c ≠ '\r' := fun heq => hreturn (heq ▸ hmem)
      simp [isNewlineChar, hne, hne']
  unfold lines at h
  rcases List.mem_append.mp h with hfront | hlast
  · obtain ⟨part, hmem, rfl⟩ := List.mem_map.mp hfront
    have hplain := hpart part (List.mem_of_mem_dropLast hmem)
    unfold stripReturn
    split_ifs
    · exact ⟨fun hc => hplain.paren (List.mem_of_mem_dropLast hc),
        fun c hc => hplain.newline c (List.mem_of_mem_dropLast hc)⟩
    · exact hplain
  · obtain ⟨hmem, -⟩ := List.mem_filter.mp hlast
    exact hpart line (List.mem_of_getLast? (Option.mem_toList.mp hmem))

theorem forall₂_replaceLine {macros : HashMap Text} {ls outs : List Text}
    (h : ∀ line ∈ ls, PlainLine line) :
    List.Forall₂ (fun l out => replaceLine macros l = .ok out) ls outs ↔
      (∀ line ∈ ls, accepted line = true ∧
        ∀ x ∈ (pieces line).1, x.piece.Defined macros) ∧
      outs = ls.map fun line => trimEnd (output macros (pieces line).1) := by
  induction ls generalizing outs with
  | nil => simp
  | cons line ls ih =>
      rw [List.forall_mem_cons] at h
      rw [List.forall₂_cons_left_iff, List.forall_mem_cons, List.map_cons]
      constructor
      · rintro ⟨out, outs, hline, hrest, rfl⟩
        obtain ⟨haccepted, hdefined, rfl⟩ := (replaceLine_eq_ok_iff h.1).mp hline
        obtain ⟨hall, rfl⟩ := (ih h.2).mp hrest
        exact ⟨⟨⟨haccepted, hdefined⟩, hall⟩, rfl⟩
      · rintro ⟨⟨⟨haccepted, hdefined⟩, hall⟩, rfl⟩
        exact ⟨_, _, (replaceLine_eq_ok_iff h.1).mpr ⟨haccepted, hdefined, rfl⟩,
          (ih h.2).mpr ⟨hall, rfl⟩, rfl⟩

theorem parse_eq_ok_iff {macros : HashMap Text} {rawString out : Text}
    (hreturn : '\r' ∉ rawString) (hparen : '(' ∉ rawString) :
    parse macros rawString = .ok out ↔
      (∀ line ∈ lines rawString, accepted line = true ∧
        ∀ x ∈ (pieces line).1, x.piece.Defined macros) ∧
      out = ['\n'].intercalate ((lines rawString).map fun line =>
        trimEnd (output macros (pieces line).1)) := by
  have hplain : ∀ line ∈ lines rawString, PlainLine line :=
    fun line hline => plainLine_of_mem_lines hreturn hparen hline
  rw [parse_eq_ok_iff_lines]
  simp only [forall₂_replaceLine hplain]
  constructor
  · rintro ⟨outs, ⟨hall, rfl⟩, rfl⟩
    exact ⟨hall, rfl⟩
  · rintro ⟨hall, rfl⟩
    exact ⟨_, ⟨hall, rfl⟩, rfl⟩

end Ips.Macros
