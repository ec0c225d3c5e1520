import Ips.Macros
import Ips.PegReaders

/-!
# Reading a line of a script without a parse tree

A line without parentheses is a sequence of runs of text, references to macros
and optional macros, with blanks between them.  The grammar also wants a
reference or an optional macro on every line.
-/

namespace Ips.Macros

open Peg

/-! ## Tokens -/

theorem skip_eq : skip = skipBlanks := skipWhitespace_blanks

def charMarks : List Char :=
  ['.', '_', '/', '-', '=', '>', '<', '!', '\x27', '#', '\x22']

/-- The characters of the rule `char`. -/
def isChar (c : Char) : Bool := isAlpha c || (isDigit c || charMarks.contains c)

def macroContext (size : ℕ) : Context := ⟨.nonAtomic, size, skip⟩

@[simp] theorem gap_macroContext (size : ℕ) :
    (macroContext size).gap = skipBlanks := skip_eq

theorem macroContext_shrinking (size : ℕ) :
    Shrinking (macroContext size).implicit := by
  change Shrinking skip
  rw [skip_eq]
  exact skipBlanks_shrinking

theorem readsOne_char : ReadsOne Grammar.char (headIs isChar) := by
  have hmarks := readsOne_strs (R := Rule)
    [('.', "."), ('_', "_"), ('/', "/"), ('-', "-"), ('=', "="), ('>', ">"),
      ('<', "<"), ('!', "!"), ('\x27', "'"), ('#', "#"), ('\x22', "\"")]
    (by decide)
  have hboth := readsOne_asciiAlphanumeric.choice_cons hmarks
  refine ReadsOne.rule ⟨rfl, ?_⟩ _
  intro ctx s
  refine (hboth.2 ctx s).trans ?_
  cases s with
  | nil => rfl
  | cons c t => simp only [headIs, isChar, Bool.or_assoc, charMarks]; rfl

theorem lexes_chars : Lexes (repOnce Grammar.char) (readRunOnce (headIs isChar)) :=
  readsOne_char.repOnce

theorem macroName_eq (size : ℕ) (s : List Char) :
    Grammar.macroName (macroContext size) s =
      if s.takeWhile isChar = [] then none
      else some ([leaf .macroName (size - s.length) (s.takeWhile isChar)],
        s.dropWhile isChar) := by
  have h : Grammar.macroName (macroContext size) s = _ :=
    lexes_chars.atomicRule_eq (readRunOnce_splits _) .macroName rfl s
  rw [h, readRunOnce, takeTails_headIs, dropTails_headIs]
  split_ifs
  · rfl
  · rfl

/-- Text where an element of a line is read, that is behind blanks: the
alternatives for blanks and line breaks find nothing there. -/
theorem text_eq (size : ℕ) {s : List Char} (hblank : headIs isBlank s = false)
    (hline : headIs isNewlineChar s = false) :
    Grammar.text (macroContext size) s =
      if s.takeWhile isChar = [] then none
      else some ([leaf .text (size - s.length) (s.takeWhile isChar)],
        s.dropWhile isChar) := by
  have hrun : repOnce Grammar.char (macroContext size).atomically s = _ :=
    lexes_chars (macroContext size) s
  have hspace : Grammar.whitespace (macroContext size).atomically s = none := by
    have h : Grammar.whitespace (macroContext size).atomically s =
        if headIs isBlank s then some ([], s.tail) else none :=
      ((readsOne_str (by decide)).choice_cons
        (readsOne_choice_single (readsOne_str (by decide)))).2 _ s
    rw [h, hblank]
    rfl
  have hbreak : (newline : Parser Rule) (macroContext size).atomically s =
      none := by
    rw [newline_eq, readNewline_eq_none_iff.mpr hline]
    rfl
  rw [readRunOnce, takeTails_headIs, dropTails_headIs] at hrun
  unfold Grammar.text atomicRule rule atomic
  simp only [choice, hrun, hspace, hbreak]
  split_ifs with hnil
  · rfl
  · have hsplit : s = s.takeWhile isChar ++ s.dropWhile isChar :=
      List.takeWhile_append_dropWhile.symm
    simp only [Option.map_some, leaf]
    rw [take_of_append hsplit]
    rfl

/-! ## Pieces -/

/-- What stands on a line between blanks.  Blanks can also stand inside a
reference. -/
inductive Piece where
  | text (chars : Text)
  | bare (before name : Text)
  | braced (before name after : Text)
  | optional (name : Text)
  deriving DecidableEq

def Piece.spelled : Piece → Text
  | .text chars => chars
  | .bare before name => '%' :: (before ++ name)
  | .braced before name after =>
      '%' :: '\x7b' :: (before ++ (name ++ (after ++ ['\x7d'])))
  | .optional name => '%' :: '\x7b' :: '?' :: (name ++ ['\x7d'])

def readTextPiece : Reader Piece := fun s =>
  if s.takeWhile isChar = [] then none
  else some (.text (s.takeWhile isChar), s.dropWhile isChar)

def readClosing : List Char → Option (List Char)
  | '\x7d' :: t => some t
  | _ => none

def readBraced : Reader Piece
  | '%' :: '\x7b' :: t =>
      if (skipBlanks t).takeWhile isChar = [] then none
      else
        (readClosing (skipBlanks ((skipBlanks t).dropWhile isChar))).map
          fun u =>
            (.braced (t.takeWhile isBlank) ((skipBlanks t).takeWhile isChar)
              (((skipBlanks t).dropWhile isChar).takeWhile isBlank), u)
  | _ => none

def readBare : Reader Piece
  | '%' :: t =>
      if (skipBlanks t).takeWhile isChar = [] then none
      else some (.bare (t.takeWhile isBlank) ((skipBlanks t).takeWhile isChar),
        (skipBlanks t).dropWhile isChar)
  | _ => none

def readOptional : Reader Piece
  | '%' :: '\x7b' :: '?' :: t =>
      if t.takeWhile isChar = [] then none
      else
        (readClosing (t.dropWhile isChar)).map fun u =>
          (.optional (t.takeWhile isChar), u)
  | _ => none

def readReference : Reader Piece := orElse readBraced readBare

def readMacro : Reader Piece := orElse readReference readOptional

def readPiece : Reader Piece := orElse readTextPiece readMacro

theorem takeWhile_append_skipBlanks (s : List Char) :
    s.takeWhile isBlank ++ skipBlanks s = s := List.takeWhile_append_dropWhile

theorem readClosing_eq_some {s t : List Char} (h : readClosing s = some t) :
    s = '\x7d' :: t := by
  unfold readClosing at h
  split at h
  · cases h
    rfl
  · cases h

theorem readBraced_spelled {s t : List Char} {piece : Piece}
    (h : readBraced s = some (piece, t)) : s = piece.spelled ++ t := by
  unfold readBraced at h
  split at h
  · next u =>
      split_ifs at h
      obtain ⟨v, hclose, heq⟩ := Option.map_eq_some_iff.mp h
      cases heq
      have hname : (skipBlanks u).takeWhile isChar ++
          (skipBlanks u).dropWhile isChar = skipBlanks u :=
        List.takeWhile_append_dropWhile
      have hafter := takeWhile_append_skipBlanks
        ((skipBlanks u).dropWhile isChar)
      have hbefore := takeWhile_append_skipBlanks u
      rw [readClosing_eq_some hclose] at hafter
      simp only [Piece.spelled, List.cons_append, List.append_assoc,
        List.nil_append]
      rw [hafter, hname, hbefore]
  · cases h

theorem readBare_spelled {s t : List Char} {piece : Piece}
    (h : readBare s = some (piece, t)) : s = piece.spelled ++ t := by
  unfold readBare at h
  split at h
  · next u =>
      split_ifs at h
      cases h
      have hname : (skipBlanks u).takeWhile isChar ++
          (skipBlanks u).dropWhile isChar = skipBlanks u :=
        List.takeWhile_append_dropWhile
      simp only [Piece.spelled, List.cons_append, List.append_assoc]
      rw [hname, takeWhile_append_skipBlanks]
  · cases h

theorem readOptional_spelled {s t : List Char} {piece : Piece}
    (h : readOptional s = some (piece, t)) : s = piece.spelled ++ t := by
  unfold readOptional at h
  split at h
  · next u =>
      split_ifs at h
      obtain ⟨v, hclose, heq⟩ := Option.map_eq_some_iff.mp h
      cases heq
      have hname : u.takeWhile isChar ++ u.dropWhile isChar = u :=
        List.takeWhile_append_dropWhile
      rw [readClosing_eq_some hclose] at hname
      simp only [Piece.spelled, List.cons_append, List.append_assoc,
        List.nil_append]
      rw [hname]
  · cases h

theorem readTextPiece_spelled {s t : List Char} {piece : Piece}
    (h : readTextPiece s = some (piece, t)) : s = piece.spelled ++ t := by
  unfold readTextPiece at h
  split_ifs at h
  cases h
  exact List.takeWhile_append_dropWhile.symm

theorem readMacro_spelled {s t : List Char} {piece : Piece}
    (h : readMacro s = some (piece, t)) : s = piece.spelled ++ t := by
  rcases orElse_eq_some h with href | ⟨-, hopt⟩
  · rcases orElse_eq_some href with hbraced | ⟨-, hbare⟩
    · exact readBraced_spelled hbraced
    · exact readBare_spelled hbare
  · exact readOptional_spelled hopt

theorem readPiece_spelled {s t : List Char} {piece : Piece}
    (h : readPiece s = some (piece, t)) : s = piece.spelled ++ t := by
  rcases orElse_eq_some h with htext | ⟨-, hmark⟩
  · exact readTextPiece_spelled htext
  · exact readMacro_spelled hmark

/-! ## The rules and their readers -/

/-- What a piece does to the line that is put together. -/
def addPiece (macros : HashMap Text) (replacedLine : Text) :
    Piece → Outcome MacroParserError Text
  | .text chars => .ok (replacedLine ++ chars ++ [' '])
  | .bare _ name => do
      let value ← getVariable macros name
      return replacedLine ++ value
  | .braced _ name _ => do
      let value ← getVariable macros name
      return replacedLine ++ value
  | .optional _ => .panic (unexpected "inner match" .specOptionalMacro)

def MeansPieces (pairs : List (Pair Rule)) (pieces : List Piece) : Prop :=
  ∀ macros replacedLine,
    Outcome.fold (readTestPair macros) replacedLine pairs =
      Outcome.fold (addPiece macros) replacedLine pieces

theorem MeansPieces.append
    (xs xs' : List (Pair Rule)) (ys ys' : List Piece)
    (h : MeansPieces xs ys) (h' : MeansPieces xs' ys') :
    MeansPieces (xs ++ xs') (ys ++ ys') := by
  intro macros replacedLine
  rw [Outcome.fold_append, Outcome.fold_append, h macros replacedLine]
  congr 1
  funext line
  exact h' macros line

def Piece.name : Piece → Text
  | .text _ => []
  | .bare _ name => name
  | .braced _ name _ => name
  | .optional name => name

theorem str_eq_none {w : String} {c : Char} (hw : w.toList = [c])
    {s : List Char} (h : c ∉ s) (ctx : Context) :
    (str w : Parser Rule) ctx s = none := by
  have hread := (readsOne_str (R := Rule) hw).2 ctx s
  have hhead : headIs (· == c) s = false := by
    cases s with
    | nil => rfl
    | cons d t =>
        have hne : d ≠ c := fun heq => h (by simp [heq])
        simpa [headIs] using hne
  rw [hhead, if_neg Bool.false_ne_true] at hread
  exact hread

theorem str_eq_none_of_ne {w : String} {s : List Char}
    (h : ∀ t, s ≠ w.toList ++ t) (ctx : Context) :
    (str w : Parser Rule) ctx s = none := by
  unfold str
  rw [if_neg]
  intro hprefix
  obtain ⟨t, ht⟩ := List.isPrefixOf_iff_prefix.mp hprefix
  exact h t ht.symm

theorem not_mem_of_suffix {c : Char} {s t : List Char} (h : c ∉ s)
    (hsuffix : t <:+ s) : c ∉ t := fun hmem => h (hsuffix.subset hmem)

theorem closing_eq (ctx : Context) (s : List Char) :
    (str "\x7d" : Parser Rule) ctx s =
      (readClosing s).map fun t => ([], t) := by
  unfold readClosing
  split
  · rfl
  · next hne =>
      apply str_eq_none_of_ne
      intro t ht
      exact hne t ht

theorem braced_eq (size : ℕ) (s : List Char) :
    ∃ start,
      seq [str "%\x7b", Grammar.macroName, str "\x7d"] (macroContext size) s =
        (readBraced s).map fun x =>
          ([leaf .macroName start x.1.name], x.2) := by
  unfold readBraced
  split
  · next t =>
      refine ⟨size - (skipBlanks t).length, ?_⟩
      have hopen : (str "%\x7b" : Parser Rule) (macroContext size)
          ('%' :: '\x7b' :: t) = some ([], t) := rfl
      simp only [seq, hopen, gap_macroContext, macroName_eq]
      split_ifs
      · rfl
      · simp only [closing_eq]
        cases readClosing
            (skipBlanks ((skipBlanks t).dropWhile isChar)) with
        | none => rfl
        | some u => rfl
  · next hne =>
      refine ⟨0, ?_⟩
      have hopen : (str "%\x7b" : Parser Rule) (macroContext size) s = none :=
        str_eq_none_of_ne (fun t ht => hne t ht) _
      simp only [seq, hopen]
      rfl

theorem bare_eq (size : ℕ) (s : List Char) :
    ∃ start,
      seq [str "%", Grammar.macroName] (macroContext size) s =
        (readBare s).map fun x =>
          ([leaf .macroName start x.1.name], x.2) := by
  unfold readBare
  split
  · next t =>
      refine ⟨size - (skipBlanks t).length, ?_⟩
      have hopen : (str "%" : Parser Rule) (macroContext size) ('%' :: t) =
          some ([], t) := rfl
      simp only [seq, hopen, gap_macroContext, macroName_eq]
      split_ifs
      · rfl
      · rfl
  · next hne =>
      refine ⟨0, ?_⟩
      have hopen : (str "%" : Parser Rule) (macroContext size) s = none :=
        str_eq_none_of_ne (fun t ht => hne t ht) _
      simp only [seq, hopen]
      rfl

theorem withoutParameters_eq (size : ℕ) (s : List Char) :
    ∃ start, Grammar.specMacroWithoutParameters (macroContext size) s =
      (readReference s).map fun x =>
        ([leaf .macroName start x.1.name], x.2) := by
  obtain ⟨start, hbraced⟩ := braced_eq size s
  obtain ⟨start', hbare⟩ := bare_eq size s
  unfold Grammar.specMacroWithoutParameters readReference
  cases hread : readBraced s with
  | some result =>
      refine ⟨start, ?_⟩
      rw [hread] at hbraced
      simp only [choice, hbraced, orElse_of_some hread, Option.map_some]
  | none =>
      refine ⟨start', ?_⟩
      rw [hread] at hbraced
      simp only [choice, hbraced, hbare, orElse_of_none hread, Option.map_none]
      cases readBare s <;> rfl

/-- Without a parenthesis there are no parameters. -/
theorem withParameters_eq_none (size : ℕ) {s : List Char} (h : '(' ∉ s) :
    Grammar.specMacroWithParameters (macroContext size) s = none := by
  have hparen : ∀ t, t <:+ s → (str "(" : Parser Rule) (macroContext size)
      (skipBlanks ((skipBlanks t).dropWhile isChar)) = none := by
    intro t ht
    apply str_eq_none rfl
    apply not_mem_of_suffix h
    exact (skipBlanks_suffix _).trans ((List.dropWhile_suffix _).trans
      ((skipBlanks_suffix t).trans ht))
  have hname : ∀ (t : List Char) (ps : List (Parser Rule)), t <:+ s →
      seq (Grammar.macroName :: str "(" :: ps) (macroContext size)
        (skipBlanks t) = none := by
    intro t ps ht
    rw [seq_cons, macroName_eq]
    split_ifs
    · rfl
    · simp only [gap_macroContext]
      cases ps with
      | nil =>
          simp only [seq, hparen t ht]
      | cons p ps =>
          rw [seq_cons, hparen t ht]
  have hopen : ∀ (w : String) (ps : List (Parser Rule)),
      seq (str w :: Grammar.macroName :: str "(" :: ps) (macroContext size) s =
        none := by
    intro w ps
    rw [seq_cons, str_eq]
    cases hread : readWords [w] s with
    | none => rfl
    | some result =>
        have hsuffix := (readWords_splits [w]).suffixing hread
        simp only [Option.map_some, gap_macroContext]
        rw [hname _ ps hsuffix]
  unfold Grammar.specMacroWithParameters
  simp only [choice, hopen]

theorem function_eq_none (size : ℕ) {s : List Char} (h : '(' ∉ s) :
    Grammar.function (macroContext size) s = none := by
  apply rule_of_none
  have hopen : (str "%(" : Parser Rule) (macroContext size) s = none := by
    apply str_eq_none_of_ne
    intro t ht
    apply h
    rw [ht]
    simp
  rw [seq_cons, hopen]

theorem specMacro_eq (size : ℕ) {s : List Char} (h : '(' ∉ s) :
    ∃ start text, Grammar.specMacro (macroContext size) s =
      (readReference s).map fun x =>
        ([⟨.specMacro, size - s.length, text,
          [leaf .macroName start x.1.name]⟩], x.2) := by
  obtain ⟨start, hwithout⟩ := withoutParameters_eq size s
  have hwith := withParameters_eq_none size h
  cases hread : readReference s with
  | none =>
      refine ⟨0, [], ?_⟩
      rw [hread] at hwithout
      apply rule_of_none
      simp only [choice, hwith, hwithout, Option.map_none]
  | some result =>
      refine ⟨start, s.take (s.length - result.2.length), ?_⟩
      rw [hread] at hwithout
      apply rule_of_some rfl
      simp only [choice, hwith, hwithout, Option.map_some]

theorem specOptionalMacro_eq (size : ℕ) (s : List Char) :
    ∃ text, Grammar.specOptionalMacro (macroContext size) s =
      (readOptional s).map fun x =>
        ([leaf .specOptionalMacro (size - s.length) text], x.2) := by
  refine ⟨match readOptional s with
    | none => []
    | some x => s.take (s.length - x.2.length), ?_⟩
  have hbody : seq [str "%\x7b?", repOnce Grammar.char, str "\x7d"]
      (macroContext size).atomically s =
        (readOptional s).map fun x => ([], x.2) := by
    unfold readOptional
    split
    · next t =>
        have hopen : (str "%\x7b?" : Parser Rule)
            (macroContext size).atomically ('%' :: '\x7b' :: '?' :: t) =
              some ([], t) := rfl
        have hrun : repOnce Grammar.char (macroContext size).atomically t = _ :=
          lexes_chars (macroContext size) t
        rw [readRunOnce, takeTails_headIs, dropTails_headIs] at hrun
        simp only [seq, hopen, gap_atomically, id, hrun]
        split_ifs
        · rfl
        · simp only [Option.map_some, closing_eq]
          cases readClosing (t.dropWhile isChar) with
          | none => rfl
          | some u => rfl
    · next hne =>
        have hopen : (str "%\x7b?" : Parser Rule)
            (macroContext size).atomically s = none :=
          str_eq_none_of_ne (fun t ht => hne t ht) _
        simp only [seq, hopen]
        rfl
  unfold Grammar.specOptionalMacro atomicRule rule atomic
  rw [hbody]
  cases readOptional s with
  | none => rfl
  | some result => rfl

def Piece.isReference : Piece → Bool
  | .bare _ _ => true
  | .braced _ _ _ => true
  | _ => false

theorem readReference_isReference {s t : List Char} {piece : Piece}
    (h : readReference s = some (piece, t)) : piece.isReference = true := by
  rcases orElse_eq_some h with hbraced | ⟨-, hbare⟩
  · unfold readBraced at hbraced
    split at hbraced
    · split_ifs at hbraced
      obtain ⟨u, -, heq⟩ := Option.map_eq_some_iff.mp hbraced
      cases heq
      rfl
    · cases hbraced
  · unfold readBare at hbare
    split at hbare
    · split_ifs at hbare
      cases hbare
      rfl
    · cases hbare

theorem readOptional_eq_optional {s t : List Char} {piece : Piece}
    (h : readOptional s = some (piece, t)) : ∃ name, piece = .optional name := by
  unfold readOptional at h
  split at h
  · split_ifs at h
    obtain ⟨u, -, heq⟩ := Option.map_eq_some_iff.mp h
    cases heq
    exact ⟨_, rfl⟩
  · cases h

theorem addPiece_reference {piece : Piece} (h : piece.isReference = true)
    (macros : HashMap Text) (replacedLine : Text) :
    addPiece macros replacedLine piece =
      (getVariable macros piece.name >>= fun value =>
        .ok (replacedLine ++ value)) := by
  cases piece with
  | text chars => cases h
  | bare before name => rfl
  | braced before name after => rfl
  | optional name => cases h

/-- On text without a parenthesis, the elements of a line with macros are the
references and the optional macros. -/
theorem textWithMacros_cases (size : ℕ) {s : List Char} (h : '(' ∉ s) :
    (Grammar.textWithMacros (macroContext size) s = none ∧
      readMacro s = none) ∨
    ∃ pairs piece t,
      Grammar.textWithMacros (macroContext size) s = some (pairs, t) ∧
      readMacro s = some (piece, t) ∧ MeansPieces pairs [piece] := by
  have hfunction := function_eq_none size h
  obtain ⟨start, text, hmark⟩ := specMacro_eq size h
  obtain ⟨text', hoptional⟩ := specOptionalMacro_eq size s
  cases href : readReference s with
  | some result =>
      right
      obtain ⟨piece, t⟩ := result
      rw [href] at hmark
      have hchoice : choice [Grammar.function, Grammar.specMacro,
          Grammar.specOptionalMacro] (macroContext size) s =
            some ([⟨.specMacro, size - s.length, text,
              [leaf .macroName start piece.name]⟩], t) := by
        simp only [choice, hfunction, hmark, Option.map_some]
      refine ⟨_, piece, t, rule_of_some rfl hchoice, orElse_of_some href, ?_⟩
      intro macros replacedLine
      rw [Outcome.fold_cons, Outcome.fold_cons,
        addPiece_reference (readReference_isReference href)]
      simp only [readTestPair, readInner, readMacroPair, leaf,
        Outcome.fold_cons, Outcome.fold_nil, Outcome.pure_eq,
        Outcome.bind_assoc, Outcome.ok_bind]
  | none =>
      rw [href] at hmark
      cases hopt : readOptional s with
      | none =>
          left
          rw [hopt] at hoptional
          refine ⟨rule_of_none ?_, ?_⟩
          · simp only [choice, hfunction, hmark, hoptional, Option.map_none]
          · rw [readMacro, orElse_of_none href, hopt]
      | some result =>
          right
          obtain ⟨piece, t⟩ := result
          rw [hopt] at hoptional
          have hchoice : choice [Grammar.function, Grammar.specMacro,
              Grammar.specOptionalMacro] (macroContext size) s =
                some ([leaf .specOptionalMacro (size - s.length) text'], t) := by
            simp only [choice, hfunction, hmark, hoptional, Option.map_none,
              Option.map_some]
          refine ⟨_, piece, t, rule_of_some rfl hchoice, ?_, ?_⟩
          · rw [readMacro, orElse_of_none href, hopt]
          · obtain ⟨name, rfl⟩ := readOptional_eq_optional hopt
            intro macros replacedLine
            rfl

/-! ## Whole lines -/

theorem consumes_char : Consumes Grammar.char := by
  apply Consumes.rule
  apply consumes_choice
  intro p hp
  rcases List.mem_cons.mp hp with rfl | hp
  · apply consumes_choice
    intro p hp
    simp only [List.mem_cons, List.not_mem_nil, or_false] at hp
    rcases hp with rfl | rfl | rfl
    · exact consumes_charIf _
    · exact consumes_charIf _
    · exact consumes_charIf _
  · simp only [List.mem_cons, List.not_mem_nil, or_false] at hp
    rcases hp with rfl | rfl | rfl | rfl | rfl | rfl | rfl | rfl | rfl | rfl |
      rfl <;> exact consumes_str (by decide)

theorem consumes_text : Consumes Grammar.text := by
  apply Consumes.atomicRule
  apply consumes_choice
  intro p hp
  simp only [List.mem_cons, List.not_mem_nil, or_false] at hp
  rcases hp with rfl | rfl | rfl
  · exact consumes_char.repOnce
  · apply Consumes.atomic
    apply consumes_choice
    intro p hp
    simp only [List.mem_cons, List.not_mem_nil, or_false] at hp
    rcases hp with rfl | rfl
    · exact consumes_str (by decide)
    · exact consumes_str (by decide)
  · exact consumes_newline

theorem consumes_macroName : Consumes Grammar.macroName :=
  consumes_char.repOnce.atomicRule _

theorem bounded_macroParameters : Bounded Grammar.macroParameters := by
  apply Bounded.rep
  apply bounded_choice
  intro p hp
  simp only [List.mem_cons, List.not_mem_nil, or_false] at hp
  rcases hp with rfl | rfl
  · exact bounded_str _
  · exact consumes_char.repOnce.bounded.atomicRule _

theorem consumes_specMacro : Consumes Grammar.specMacro := by
  have hopen : ∀ (w : String) (ps : List (Parser Rule)), w.toList ≠ [] →
      (∀ p ∈ ps, Bounded p) →
      Consumes (seq (str w :: Grammar.macroName :: ps)) := by
    intro w ps hw hps
    apply (consumes_str hw).seq
    intro q hq
    rcases List.mem_cons.mp hq with rfl | hq
    · exact consumes_macroName.bounded
    · exact hps q hq
  have hparameters : ∀ p ∈ [str "(", Grammar.macroParameters, str ")",
      str "\x7d"], Bounded p := by
    intro p hp
    simp only [List.mem_cons, List.not_mem_nil, or_false] at hp
    rcases hp with rfl | rfl | rfl | rfl
    · exact bounded_str _
    · exact bounded_macroParameters
    · exact bounded_str _
    · exact bounded_str _
  apply Consumes.rule
  apply consumes_choice
  intro p hp
  simp only [List.mem_cons, List.not_mem_nil, or_false] at hp
  rcases hp with rfl | rfl
  · apply consumes_choice
    intro p hp
    simp only [List.mem_cons, List.not_mem_nil, or_false] at hp
    rcases hp with rfl | rfl
    · exact hopen _ _ (by decide) hparameters
    · exact hopen _ _ (by decide) (fun p hp => hparameters p (by
        simp only [List.mem_cons, List.not_mem_nil, or_false] at hp ⊢
        tauto))
  · apply consumes_choice
    intro p hp
    simp only [List.mem_cons, List.not_mem_nil, or_false] at hp
    rcases hp with rfl | rfl
    · exact hopen _ _ (by decide) (fun p hp => hparameters p (by
        simp only [List.mem_cons, List.not_mem_nil, or_false] at hp ⊢
        tauto))
    · exact hopen _ _ (by decide) (by simp)

theorem consumes_specOptionalMacro : Consumes Grammar.specOptionalMacro := by
  apply Consumes.atomicRule
  apply (consumes_str (by decide)).seq
  intro q hq
  simp only [List.mem_cons, List.not_mem_nil, or_false] at hq
  rcases hq with rfl | rfl
  · exact consumes_char.repOnce.bounded
  · exact bounded_str _

theorem consumes_textWithMacros : Consumes Grammar.textWithMacros := by
  have hinner : Bounded (choice [Grammar.specMacro, Grammar.specOptionalMacro,
      Grammar.text]) := by
    apply bounded_choice
    intro p hp
    simp only [List.mem_cons, List.not_mem_nil, or_false] at hp
    rcases hp with rfl | rfl | rfl
    · exact consumes_specMacro.bounded
    · exact consumes_specOptionalMacro.bounded
    · exact consumes_text.bounded
  apply Consumes.rule
  apply consumes_choice
  intro p hp
  simp only [List.mem_cons, List.not_mem_nil, or_false] at hp
  rcases hp with rfl | rfl | rfl
  · apply Consumes.rule
    apply (consumes_str (by decide)).seq
    intro q hq
    simp only [List.mem_cons, List.not_mem_nil, or_false] at hq
    rcases hq with rfl | rfl
    · exact hinner.rep
    · exact bounded_str _
  · exact consumes_specMacro
  · exact consumes_specOptionalMacro

/-- An element of a line. -/
def element : Parser Rule := choice [Grammar.text, Grammar.textWithMacros]

theorem consumes_element : Consumes element := by
  apply consumes_choice
  intro p hp
  simp only [List.mem_cons, List.not_mem_nil, or_false] at hp
  rcases hp with rfl | rfl
  · exact consumes_text
  · exact consumes_textWithMacros

/-- The text before the first macro is read by the first loop of the rule, so
the second loop has to start with a macro, and nothing is left for the third. -/
theorem file_eq (line : List Char) :
    seq [soi, rep Grammar.text, repOnce element, rep Grammar.text, Grammar.eoi]
        (macroContext line.length) line =
      let texts := repeatAll skipBlanks
        (Grammar.text (macroContext line.length)) line
      let loop := repeatAll skipBlanks
        (element (macroContext line.length)) texts.2
      if element (macroContext line.length) (skipBlanks texts.2) = none then
        none
      else if skipBlanks loop.2 = [] then
        some (texts.1 ++ (loop.1 ++ [leaf .EOI line.length []]), [])
      else none := by
  have htext := consumes_text.consuming (macroContext_shrinking line.length)
  have helement := consumes_element.consuming
    (macroContext_shrinking line.length)
  have hfirst := star_gap skipBlanks_shrinking htext skipBlanks_skipBlanks line
  have heoi := rule_endOfInput Rule.EOI (macroContext line.length) rfl
  have hsize : (macroContext line.length).size = line.length := rfl
  simp only [seq, soi, hsize, if_true, rep, repOnce, Grammar.eoi,
    gap_macroContext, heoi, hfirst.1, hfirst.2, List.nil_append]
  generalize repeatAll skipBlanks
    (Grammar.text (macroContext line.length)) line = texts
  cases hread : element (macroContext line.length) (skipBlanks texts.2) with
  | none => simp
  | some result =>
      obtain ⟨xs, t⟩ := result
      have hmore := star_gap skipBlanks_shrinking helement
        skipBlanks_skipBlanks t
      have hloop := repeatAll_of_some skipBlanks_shrinking helement hread
      have hstop := repeatAll_stops skipBlanks_shrinking helement t
      have hnone : Grammar.text (macroContext line.length)
          (skipBlanks (repeatAll skipBlanks
            (element (macroContext line.length)) t).2) = none := by
        unfold element choice at hstop
        split at hstop
        · next htext => exact htext
        · cases hstop
      have hthird : Peg.star skipBlanks (Grammar.text (macroContext line.length))
          (skipBlanks (repeatAll skipBlanks
            (element (macroContext line.length)) t).2) =
            ([], skipBlanks (repeatAll skipBlanks
              (element (macroContext line.length)) t).2) := by
        unfold Peg.star
        rw [hnone]
      simp only [hloop, hmore.1, hmore.2, hthird, skipBlanks_skipBlanks,
        reduceCtorEq, if_false]
      split_ifs
      · simp
      · rfl

end Ips.Macros
