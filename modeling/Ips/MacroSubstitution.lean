import Ips.MacroLines

/-!
# Macro expansion and plain substitution

Plain substitution puts the value of a macro where the macro is referred to,
and keeps everything else.  The expansion of a script does the same exactly
when every run of text is followed by one space and every reference by none:
the blanks of the script are skipped, and the walk writes its own.
-/

namespace Ips.Macros

open Peg

/-! ## Plain substitution -/

/-- A reference: the name in braces, or the longest name behind the sign. -/
def readPlainReference : Reader Text
  | '%' :: '\x7b' :: t =>
      if t.takeWhile isChar = [] then none
      else
        (readClosing (t.dropWhile isChar)).map fun u => (t.takeWhile isChar, u)
  | '%' :: t =>
      if t.takeWhile isChar = [] then none
      else some (t.takeWhile isChar, t.dropWhile isChar)
  | _ => none

/-- The value of a reference, or the next character. -/
def substituteNext (macros : HashMap Text) : Reader Text
  | [] => none
  | c :: t =>
      match readPlainReference (c :: t) with
      | none => some ([c], t)
      | some (name, u) =>
          match macros.lookup name with
          | none => some ([c], t)
          | some value => some (value, u)

def substitute (macros : HashMap Text) (line : Text) : Text :=
  (repeatAll id (substituteNext macros) line).1

/-- The script with its lines substituted and the ends of the lines trimmed. -/
def substituted (macros : HashMap Text) (rawString : Text) : Text :=
  ['\n'].intercalate
    ((lines rawString).map fun line => trimEnd (substitute macros line))

theorem readPlainReference_splits {s t : List Char} {name : Text}
    (h : readPlainReference s = some (name, t)) :
    ∃ w, w ≠ [] ∧ s = w ++ t := by
  unfold readPlainReference at h
  split at h
  · next u =>
      split_ifs at h
      obtain ⟨v, hclose, heq⟩ := Option.map_eq_some_iff.mp h
      cases heq
      refine ⟨'%' :: '\x7b' :: (u.takeWhile isChar ++ ['\x7d']), by simp, ?_⟩
      have hname : u.takeWhile isChar ++ u.dropWhile isChar = u :=
        List.takeWhile_append_dropWhile
      rw [readClosing_eq_some hclose] at hname
      simp [hname]
  · next u _ =>
      split_ifs at h
      cases h
      refine ⟨'%' :: u.takeWhile isChar, by simp, ?_⟩
      simp
  · cases h

section Substitute

variable {macros : HashMap Text}

theorem substituteNext_cases {s t w : List Char}
    (h : substituteNext macros s = some (w, t)) :
    (∃ c, s = c :: t ∧ w = [c]) ∨
      ∃ name u, macros.lookup name = some w ∧ u ≠ [] ∧ s = u ++ t := by
  cases s with
  | nil => cases h
  | cons c s =>
      simp only [substituteNext] at h
      split at h
      · cases h
        exact .inl ⟨c, rfl, rfl⟩
      · next name u href =>
          split at h
          · cases h
            exact .inl ⟨c, rfl, rfl⟩
          · next value hvalue =>
              cases h
              obtain ⟨v, hne, hsplit⟩ := readPlainReference_splits href
              exact .inr ⟨name, v, hvalue, hne, hsplit⟩

theorem substituteNext_consuming : Consuming (substituteNext macros) := by
  intro s w t h
  rcases substituteNext_cases h with ⟨c, rfl, -⟩ | ⟨-, u, -, hne, rfl⟩
  · exact Nat.lt_succ_self _
  · have hpos := List.length_pos_of_ne_nil hne
    rw [List.length_append]
    omega

theorem substituteNext_suffixing : Suffixing (substituteNext macros) := by
  intro s w t h
  rcases substituteNext_cases h with ⟨c, rfl, -⟩ | ⟨-, u, -, -, rfl⟩
  · exact List.suffix_cons c t
  · exact List.suffix_append u t

@[simp] theorem substitute_nil : substitute macros [] = [] := by
  unfold substitute
  rw [repeatAll_of_none shrinking_id substituteNext_consuming rfl]

theorem substitute_of_some {s t w : List Char}
    (h : substituteNext macros s = some (w, t)) :
    substitute macros s = w ++ substitute macros t := by
  unfold substitute
  rw [repeatAll_of_some shrinking_id substituteNext_consuming h]

theorem substitute_cons {c : Char} {t : List Char}
    (h : readPlainReference (c :: t) = none) :
    substitute macros (c :: t) = c :: substitute macros t := by
  have hnext : substituteNext macros (c :: t) = some ([c], t) := by
    simp only [substituteNext, h]
  exact substitute_of_some hnext

theorem substitute_reference {s t : List Char} {name value : Text}
    (h : readPlainReference s = some (name, t))
    (hvalue : macros.lookup name = some value) :
    substitute macros s = value ++ substitute macros t := by
  cases s with
  | nil => cases h
  | cons c s =>
      have hnext : substituteNext macros (c :: s) = some (value, t) := by
        simp only [substituteNext, h, hvalue]
      exact substitute_of_some hnext

theorem readPlainReference_of_ne {c : Char} {t : List Char} (h : c ≠ '%') :
    readPlainReference (c :: t) = none := by
  unfold readPlainReference
  split
  · next heq =>
      cases heq
      exact absurd rfl h
  · next heq =>
      cases heq
      exact absurd rfl h
  · rfl

/-- Text without the sign is kept. -/
theorem substitute_append {w : List Char} (h : '%' ∉ w) (t : List Char) :
    substitute macros (w ++ t) = w ++ substitute macros t := by
  induction w with
  | nil => rfl
  | cons c w ih =>
      have hc : c ≠ '%' := fun heq => h (by simp [heq])
      have hw : '%' ∉ w := fun hmem => h (List.mem_cons_of_mem c hmem)
      rw [List.cons_append, substitute_cons (readPlainReference_of_ne hc), ih hw]
      rfl

end Substitute

/-! ## Substitution piece by piece -/

/-- No blanks stand inside of the piece. -/
def Piece.isTight : Piece → Bool
  | .text _ => true
  | .bare before _ => before.isEmpty
  | .braced before _ after => before.isEmpty && after.isEmpty
  | .optional _ => false

/-- What plain substitution makes of a piece. -/
def Piece.plain (macros : HashMap Text) : Piece → Text
  | .text chars => chars
  | piece =>
      if piece.isTight then (macros.lookup piece.name).getD []
      else piece.spelled

/-- The text of a piece without the space behind it. -/
def Piece.core (macros : HashMap Text) : Piece → Text
  | .text chars => chars
  | piece => (macros.lookup piece.name).getD []

theorem Piece.plain_eq (macros : HashMap Text) (piece : Piece) :
    piece.plain macros =
      if piece.isTight then piece.core macros else piece.spelled := by
  cases piece with
  | text chars => rfl
  | bare before name => rfl
  | braced before name after => rfl
  | optional name => rfl

theorem Piece.core_of_lookup {macros : HashMap Text} {piece : Piece}
    (hkind : piece.isText = false) {value : Text}
    (h : macros.lookup piece.name = some value) : piece.core macros = value := by
  cases piece with
  | text chars => cases hkind
  | bare before name => simp only [Piece.core, h, Option.getD_some]
  | braced before name after => simp only [Piece.core, h, Option.getD_some]
  | optional name => simp only [Piece.core, h, Option.getD_some]

theorem readPlainReference_bare {u : List Char} (h : ∀ v, u ≠ '\x7b' :: v) :
    readPlainReference ('%' :: u) =
      if u.takeWhile isChar = [] then none
      else some (u.takeWhile isChar, u.dropWhile isChar) := by
  unfold readPlainReference
  split
  · next v heq =>
      cases heq
      exact absurd rfl (h v)
  · next heq =>
      cases heq
      rfl
  · next hne => exact absurd rfl (hne u)

theorem percent_not_mem_chars (s : List Char) : '%' ∉ s.takeWhile isChar := by
  intro hmem
  have hchar := List.mem_takeWhile_imp hmem
  revert hchar
  decide

theorem percent_not_mem_blanks (s : List Char) : '%' ∉ s.takeWhile isBlank := by
  intro hmem
  have hblank := List.mem_takeWhile_imp hmem
  revert hblank
  decide

theorem takeWhile_char_of_blank {s : List Char}
    (h : s.takeWhile isBlank ≠ []) : s.takeWhile isChar = [] := by
  cases s with
  | nil => rfl
  | cons c t =>
      by_cases hblank : isBlank c = true
      · have hchar : isChar c = false := by
          simp only [isBlank, Bool.or_eq_true, beq_iff_eq] at hblank
          rcases hblank with rfl | rfl
          · decide
          · decide
        simp [hchar]
      · rw [List.takeWhile_cons, if_neg hblank] at h
        exact absurd rfl h

section Pieces

variable {macros : HashMap Text} {s t : List Char} {piece : Piece}

theorem substitute_text (h : readTextPiece s = some (piece, t)) :
    substitute macros s = piece.plain macros ++ substitute macros t := by
  unfold readTextPiece at h
  split_ifs at h
  cases h
  conv_lhs => rw [← List.takeWhile_append_dropWhile (p := isChar) (l := s)]
  exact substitute_append (percent_not_mem_chars s) _

/-- A sign that starts no reference is kept, and so is what follows it up to
the next sign. -/
theorem substitute_verbatim {w : List Char} (hw : '%' ∉ w)
    (hs : s = '%' :: (w ++ t)) (h : readPlainReference s = none) :
    substitute macros s = '%' :: w ++ substitute macros t := by
  subst hs
  rw [substitute_cons h, substitute_append hw]
  rfl

theorem skipBlanks_of_takeWhile (h : s.takeWhile isBlank = []) :
    skipBlanks s = s := by
  have hsplit := takeWhile_append_skipBlanks s
  rwa [h, List.nil_append] at hsplit

theorem readClosing_of_blank (h : s.takeWhile isBlank ≠ []) :
    readClosing s = none := by
  unfold readClosing
  split
  · exact absurd rfl h
  · rfl

theorem readPlainReference_of_braced (h : readBraced s = some (piece, t)) :
    readPlainReference s =
      if piece.isTight then some (piece.name, t) else none := by
  unfold readBraced at h
  split at h
  · next u =>
      split_ifs at h with hname
      obtain ⟨v, hclose, heq⟩ := Option.map_eq_some_iff.mp h
      cases heq
      simp only [Piece.isTight, Piece.name, Bool.and_eq_true, List.isEmpty_iff]
      split_ifs with htight
      · rw [skipBlanks_of_takeWhile htight.2] at hclose
        rw [skipBlanks_of_takeWhile htight.1] at hname hclose ⊢
        simp only [readPlainReference, hname, hclose, if_false, Option.map_some]
      · simp only [readPlainReference]
        split_ifs with hchars
        · rfl
        · have hbefore : u.takeWhile isBlank = [] := by
            by_contra hne
            exact hchars (takeWhile_char_of_blank hne)
          have hafter : (u.dropWhile isChar).takeWhile isBlank ≠ [] := by
            intro hnil
            apply htight
            rw [skipBlanks_of_takeWhile hbefore]
            exact ⟨hbefore, hnil⟩
          rw [readClosing_of_blank hafter]
          rfl
  · cases h

theorem readPlainReference_of_bare (h : readBare s = some (piece, t)) :
    readPlainReference s =
      if piece.isTight then some (piece.name, t) else none := by
  unfold readBare at h
  split at h
  · next u =>
      split_ifs at h with hname
      cases h
      have hopen : ∀ v, u ≠ '\x7b' :: v := by
        rintro v rfl
        exact hname rfl
      rw [readPlainReference_bare hopen]
      simp only [Piece.isTight, Piece.name, List.isEmpty_iff]
      split_ifs with hchars htight htight
      · rw [skipBlanks_of_takeWhile htight] at hname
        exact absurd hchars hname
      · rfl
      · rw [skipBlanks_of_takeWhile htight]
      · exact absurd (takeWhile_char_of_blank htight) hchars
  · cases h

/-- The plain references are the references without blanks. -/
theorem readPlainReference_of_reference
    (h : readReference s = some (piece, t)) :
    readPlainReference s =
      if piece.isTight then some (piece.name, t) else none := by
  rcases orElse_eq_some h with hbraced | ⟨-, hbare⟩
  · exact readPlainReference_of_braced hbraced
  · exact readPlainReference_of_bare hbare

theorem spelled_reference (h : readReference s = some (piece, t)) :
    ∃ w, '%' ∉ w ∧ piece.spelled = '%' :: w := by
  rcases orElse_eq_some h with hbraced | ⟨-, hbare⟩
  · unfold readBraced at hbraced
    split at hbraced
    · split_ifs at hbraced
      obtain ⟨u, -, heq⟩ := Option.map_eq_some_iff.mp hbraced
      cases heq
      refine ⟨_, ?_, rfl⟩
      simp only [List.mem_cons, List.mem_append, not_or]
      exact ⟨by decide, percent_not_mem_blanks _, percent_not_mem_chars _,
        percent_not_mem_blanks _, by decide⟩
    · cases hbraced
  · unfold readBare at hbare
    split at hbare
    · split_ifs at hbare
      cases hbare
      refine ⟨_, ?_, rfl⟩
      rw [List.mem_append, not_or]
      exact ⟨percent_not_mem_blanks _, percent_not_mem_chars _⟩
    · cases hbare

theorem substitute_reference_piece (h : readReference s = some (piece, t))
    (hdefined : piece.Defined macros) :
    substitute macros s = piece.plain macros ++ substitute macros t := by
  have hplain := readPlainReference_of_reference h
  have hspelled : s = piece.spelled ++ t :=
    readMacro_spelled (orElse_of_some h)
  have hkind := readMacro_not_isText (orElse_of_some h)
  rcases hdefined with htext | ⟨-, value, hvalue⟩
  · rw [hkind] at htext
    cases htext
  · rw [Piece.plain_eq]
    split_ifs with htight
    · rw [if_pos htight] at hplain
      rw [substitute_reference hplain hvalue, Piece.core_of_lookup hkind hvalue]
    · rw [if_neg htight] at hplain
      obtain ⟨w, hw, hsign⟩ := spelled_reference h
      rw [hsign] at hspelled ⊢
      exact substitute_verbatim hw hspelled hplain

theorem substitute_piece (h : readPiece s = some (piece, t))
    (hdefined : piece.Defined macros) :
    substitute macros s = piece.plain macros ++ substitute macros t := by
  rcases orElse_eq_some h with htext | ⟨-, hmark⟩
  · exact substitute_text htext
  · rcases orElse_eq_some hmark with href | ⟨-, hopt⟩
    · exact substitute_reference_piece href hdefined
    · obtain ⟨name, rfl⟩ := readOptional_eq_optional hopt
      rcases hdefined with htext | ⟨href, -⟩
      · cases htext
      · cases href

end Pieces

/-! ## Spacing -/

/-- What the walk writes behind a piece. -/
def Piece.separator : Piece → Text
  | .text _ => [' ']
  | _ => []

/-- Before the first piece stands `blanks`, before every other piece what the
walk writes there, and no blanks stand inside of a piece. -/
def wellSpaced : Text → List Spaced → Bool
  | _, [] => true
  | blanks, x :: xs =>
      x.before == blanks && x.piece.isTight && wellSpaced x.piece.separator xs

def WellSpaced (rawString : Text) : Prop :=
  ∀ line ∈ lines rawString, wellSpaced [] (pieces line).1 = true

instance (rawString : Text) : Decidable (WellSpaced rawString) :=
  inferInstanceAs (Decidable (∀ line ∈ lines rawString,
    wellSpaced [] (pieces line).1 = true))

theorem Piece.output_eq (macros : HashMap Text) (piece : Piece) :
    piece.output macros = piece.core macros ++ piece.separator := by
  cases piece with
  | text chars => rfl
  | bare before name => exact (List.append_nil _).symm
  | braced before name after => exact (List.append_nil _).symm
  | optional name => exact (List.append_nil _).symm

theorem Piece.separator_blank (piece : Piece) :
    ∀ c ∈ piece.separator, isBlank c = true := by
  cases piece with
  | text chars => simp [Piece.separator, isBlank]
  | bare before name => simp [Piece.separator]
  | braced before name after => simp [Piece.separator]
  | optional name => simp [Piece.separator]

def plainOutput (macros : HashMap Text) (xs : List Spaced) : Text :=
  xs.flatMap fun x => x.before ++ x.piece.plain macros

theorem whitespace_of_blank {c : Char} (h : isBlank c = true) :
    isWhitespace c = true := by
  simp only [isBlank, Bool.or_eq_true, beq_iff_eq] at h
  rcases h with rfl | rfl
  · decide
  · decide

theorem blank_of_skipBlanks {s : List Char} (h : skipBlanks s = []) :
    ∀ c ∈ s, isBlank c = true := List.dropWhile_eq_nil_iff.mp h

section Spacing

variable {macros : HashMap Text}

theorem substitute_pieces (line : Text) :
    (∀ x ∈ (pieces line).1, x.piece.Defined macros) →
      substitute macros line =
        plainOutput macros (pieces line).1 ++
          substitute macros (pieces line).2 := by
  apply pieces_induction fun s xs t =>
    (∀ x ∈ xs, x.piece.Defined macros) →
      substitute macros s = plainOutput macros xs ++ substitute macros t
  · intro s _ _
    rfl
  · intro s piece t hread ih hall
    rw [List.forall_mem_cons] at hall
    conv_lhs => rw [← takeWhile_append_skipBlanks s]
    rw [substitute_append (percent_not_mem_blanks s),
      substitute_piece hread hall.1, ih hall.2]
    simp [plainOutput]

theorem substitute_accepted {line : Text} (h : accepted line = true)
    (hall : ∀ x ∈ (pieces line).1, x.piece.Defined macros) :
    substitute macros line =
      plainOutput macros (pieces line).1 ++ (pieces line).2 := by
  have hblank : ∀ c ∈ (pieces line).2, isBlank c = true := by
    apply blank_of_skipBlanks
    simp only [accepted, Bool.and_eq_true, List.isEmpty_iff] at h
    exact h.2
  have hpercent : '%' ∉ (pieces line).2 := by
    intro hmem
    have hc := hblank _ hmem
    revert hc
    decide
  have hrest : substitute macros ((pieces line).2 ++ []) = _ :=
    substitute_append hpercent []
  rw [substitute_pieces line hall]
  rw [List.append_nil, substitute_nil, List.append_nil] at hrest
  rw [hrest]

theorem output_of_wellSpaced {blanks : Text} {xs : List Spaced}
    (hblanks : ∀ c ∈ blanks, isBlank c = true)
    (h : wellSpaced blanks xs = true) :
    ∃ rest, (∀ c ∈ rest, isBlank c = true) ∧
      blanks ++ output macros xs = plainOutput macros xs ++ rest := by
  induction xs generalizing blanks with
  | nil => exact ⟨blanks, hblanks, by simp [output, plainOutput]⟩
  | cons x xs ih =>
      simp only [wellSpaced, Bool.and_eq_true, beq_iff_eq] at h
      obtain ⟨⟨rfl, htight⟩, hrest⟩ := h
      obtain ⟨rest, hblank, heq⟩ := ih x.piece.separator_blank hrest
      refine ⟨rest, hblank, ?_⟩
      have hout : output macros (x :: xs) =
          x.piece.core macros ++ (x.piece.separator ++ output macros xs) := by
        simp [output, Piece.output_eq]
      have hplain : plainOutput macros (x :: xs) =
          x.before ++ (x.piece.core macros ++ plainOutput macros xs) := by
        simp [plainOutput, Piece.plain_eq, htight]
      rw [hout, hplain, heq]
      simp

end Spacing

/-! ## Words -/

/-- Text with no whitespace at its ends that does not start like a macro. -/
structure IsWord (s : Text) : Prop where
  starts : ∃ c t, s = c :: t ∧ isWhitespace c = false ∧ c ≠ '%'
  ends : ∀ c, s.getLast? = some c → isWhitespace c = false

/-- The values of a table are words on one line. -/
structure WordValues (macros : HashMap Text) : Prop where
  word : ∀ name value, macros.lookup name = some value → IsWord value
  line : ∀ name value, macros.lookup name = some value → '\n' ∉ value

theorem whitespace_of_isChar {c : Char} (h : isChar c = true) :
    isWhitespace c = false := by
  rw [isChar, ← Bool.or_assoc, Bool.or_eq_true] at h
  rcases h with halphanumeric | hmark
  · obtain ⟨hlow, hhigh⟩ := printable_of_alphanumeric halphanumeric
    exact isWhitespace_of_printable hlow hhigh
  · have hall : ∀ d ∈ charMarks, isWhitespace d = false :=
      forall_mem_of_all (by decide)
    exact hall c (List.contains_iff_mem.mp hmark)

theorem isWord_chars {chars : Text} (hne : chars ≠ [])
    (h : ∀ c ∈ chars, isChar c = true) : IsWord chars := by
  constructor
  · cases chars with
    | nil => exact absurd rfl hne
    | cons c t =>
        have hc := h c List.mem_cons_self
        refine ⟨c, t, rfl, whitespace_of_isChar hc, ?_⟩
        rintro rfl
        revert hc
        decide
  · intro c hlast
    exact whitespace_of_isChar (h c (List.mem_of_getLast? hlast))

/-- Blanks before a word can be told from the word. -/
theorem blanks_append_inj {a b s t : Text} {c d : Char}
    (ha : ∀ x ∈ a, isBlank x = true) (hb : ∀ x ∈ b, isBlank x = true)
    (hc : isWhitespace c = false) (hd : isWhitespace d = false)
    (h : a ++ c :: s = b ++ d :: t) : a = b ∧ c = d ∧ s = t := by
  have hnot : ∀ x, isWhitespace x = false → isBlank x = false := by
    intro x hx
    by_contra hblank
    rw [whitespace_of_blank (Bool.eq_true_of_not_eq_false hblank)] at hx
    cases hx
  have htake : ∀ (w : Text) (x : Char) (u : Text),
      (∀ y ∈ w, isBlank y = true) → isWhitespace x = false →
        (w ++ x :: u).takeWhile isBlank = w := by
    intro w x u hw hx
    rw [List.takeWhile_append_of_pos hw, List.takeWhile_cons, hnot x hx]
    simp
  have hab : a = b := by
    rw [← htake a c s ha hc, h, htake b d t hb hd]
  subst hab
  have hrest := List.append_cancel_left h
  cases hrest
  exact ⟨rfl, rfl, rfl⟩

theorem trimEnd_cons {c : Char} (h : isWhitespace c = false) (s : Text) :
    trimEnd (c :: s) = c :: trimEnd s := by
  have hone := trimEnd_append_of_last (s := [c]) s (by
    intro d hd
    cases hd
    exact h)
  exact hone

theorem trimEnd_blanks_append {c : Char} (h : isWhitespace c = false)
    (w s : Text) : trimEnd (w ++ c :: s) = w ++ c :: trimEnd s := by
  rw [trimEnd_append, trimEnd_cons h, if_neg (List.cons_ne_nil _ _)]

/-- What the reader promises of a piece and the blanks before it. -/
structure Spaced.WellFormed (x : Spaced) : Prop where
  before : ∀ c ∈ x.before, isBlank c = true
  text : ∀ chars, x.piece = .text chars →
    chars ≠ [] ∧ ∀ c ∈ chars, isChar c = true

theorem readPiece_text {s t : List Char} {chars : Text}
    (h : readPiece s = some (.text chars, t)) :
    chars ≠ [] ∧ ∀ c ∈ chars, isChar c = true := by
  rcases orElse_eq_some h with htext | ⟨-, hmark⟩
  · unfold readTextPiece at htext
    split_ifs at htext with hnil
    cases htext
    exact ⟨hnil, fun c hc => List.mem_takeWhile_imp hc⟩
  · have hkind := readMacro_not_isText hmark
    cases hkind

theorem pieces_wellFormed (line : Text) :
    ∀ x ∈ (pieces line).1, x.WellFormed := by
  apply pieces_induction fun _ xs _ => ∀ x ∈ xs, x.WellFormed
  · intro s _ x hx
    cases hx
  · intro s piece t hread ih x hx
    rcases List.mem_cons.mp hx with rfl | hx
    · refine ⟨fun c hc => List.mem_takeWhile_imp hc, ?_⟩
      rintro chars rfl
      exact readPiece_text hread
    · exact ih x hx

theorem Spaced.isWord_core {macros : HashMap Text} (hwords : WordValues macros)
    {x : Spaced} (hx : x.WellFormed) (hdefined : x.piece.Defined macros) :
    IsWord (x.piece.core macros) := by
  obtain ⟨before, piece⟩ := x
  cases hkind : piece.isText with
  | true =>
      cases piece with
      | text chars =>
          obtain ⟨hne, hchars⟩ := hx.text chars rfl
          exact isWord_chars hne hchars
      | bare before name => cases hkind
      | braced before name after => cases hkind
      | optional name => cases hkind
  | false =>
      obtain ⟨-, value, hvalue⟩ := hdefined.resolve_left (by simp [hkind])
      have hcore : piece.core macros = value :=
        Piece.core_of_lookup hkind hvalue
      dsimp only
      rw [hcore]
      exact hwords.word _ _ hvalue

theorem Piece.spelled_of_not_isTight {piece : Piece}
    (h : piece.isTight = false) : ∃ t, piece.spelled = '%' :: t := by
  cases piece with
  | text chars => cases h
  | bare before name => exact ⟨_, rfl⟩
  | braced before name after => exact ⟨_, rfl⟩
  | optional name => exact ⟨_, rfl⟩

theorem wellSpaced_of_output {macros : HashMap Text}
    (hwords : WordValues macros) {blanks rest : Text} {xs : List Spaced}
    (hblanks : ∀ c ∈ blanks, isBlank c = true)
    (hdefined : ∀ x ∈ xs, x.piece.Defined macros)
    (hformed : ∀ x ∈ xs, x.WellFormed)
    (h : trimEnd (blanks ++ output macros xs) =
      trimEnd (plainOutput macros xs ++ rest)) :
    wellSpaced blanks xs = true := by
  induction xs generalizing blanks with
  | nil => rfl
  | cons x xs ih =>
      rw [List.forall_mem_cons] at hdefined hformed
      have hword := Spaced.isWord_core hwords hformed.1 hdefined.1
      have hout : output macros (x :: xs) =
          x.piece.core macros ++ (x.piece.separator ++ output macros xs) := by
        simp [output, Piece.output_eq]
      have hplain : plainOutput macros (x :: xs) ++ rest =
          x.before ++ (x.piece.plain macros ++
            (plainOutput macros xs ++ rest)) := by
        simp [plainOutput]
      rw [hout, hplain] at h
      obtain ⟨c, core, hcore, hc, hpercent⟩ := hword.starts
      by_cases htight : x.piece.isTight = true
      · rw [Piece.plain_eq, if_pos htight] at h
        have hsame : blanks = x.before ∧ trimEnd (x.piece.core macros ++
            (x.piece.separator ++ output macros xs)) =
              trimEnd (x.piece.core macros ++
                (plainOutput macros xs ++ rest)) := by
          simp only [hcore, List.cons_append, trimEnd_blanks_append hc] at h
          obtain ⟨hbefore, -, hrest⟩ := blanks_append_inj hblanks
            hformed.1.before hc hc h
          refine ⟨hbefore, ?_⟩
          rw [hcore, List.cons_append, List.cons_append, trimEnd_cons hc,
            trimEnd_cons hc, hrest]
        obtain ⟨rfl, hrest⟩ := hsame
        rw [trimEnd_append_of_last _ hword.ends,
          trimEnd_append_of_last _ hword.ends] at hrest
        have hmore := ih x.piece.separator_blank hdefined.2 hformed.2
          (List.append_cancel_left hrest)
        simp [wellSpaced, htight, hmore]
      · -- the substitution starts with the sign, the expansion with a word
        obtain ⟨t, hspelled⟩ := Piece.spelled_of_not_isTight
          (Bool.eq_false_of_not_eq_true htight)
        have hsign : isWhitespace '%' = false := by decide
        rw [Piece.plain_eq, if_neg htight, hspelled, hcore, List.cons_append,
          List.cons_append, trimEnd_blanks_append hc,
          trimEnd_blanks_append hsign] at h
        obtain ⟨-, hfirst, -⟩ := blanks_append_inj hblanks hformed.1.before
          hc hsign h
        exact absurd hfirst hpercent

/-! ## Scripts -/

theorem trimEnd_output_iff {macros : HashMap Text} {line : Text}
    (haccepted : accepted line = true)
    (hdefined : ∀ x ∈ (pieces line).1, x.piece.Defined macros) :
    (wellSpaced [] (pieces line).1 = true →
      trimEnd (output macros (pieces line).1) =
        trimEnd (substitute macros line)) ∧
    (WordValues macros → trimEnd (output macros (pieces line).1) =
        trimEnd (substitute macros line) →
      wellSpaced [] (pieces line).1 = true) := by
  have hrest : ∀ c ∈ (pieces line).2, isWhitespace c = true := by
    simp only [accepted, Bool.and_eq_true, List.isEmpty_iff] at haccepted
    intro c hc
    exact whitespace_of_blank (blank_of_skipBlanks haccepted.2 c hc)
  rw [substitute_accepted haccepted hdefined]
  constructor
  · intro hspaced
    obtain ⟨rest, hblank, heq⟩ := output_of_wellSpaced (by simp) hspaced
    rw [List.nil_append] at heq
    rw [heq, trimEnd_append_blanks _ hrest,
      trimEnd_append_blanks _ fun c hc => whitespace_of_blank (hblank c hc)]
  · intro hwords h
    exact wellSpaced_of_output hwords (by simp) hdefined
      (pieces_wellFormed line) h

theorem parse_of_wellSpaced {macros : HashMap Text} {rawString out : Text}
    (hreturn : '\r' ∉ rawString) (hparen : '(' ∉ rawString)
    (hok : parse macros rawString = .ok out) (h : WellSpaced rawString) :
    out = substituted macros rawString := by
  obtain ⟨hall, rfl⟩ := (parse_eq_ok_iff hreturn hparen).mp hok
  unfold substituted
  congr 1
  apply List.map_congr_left
  intro line hline
  obtain ⟨haccepted, hdefined⟩ := hall line hline
  exact (trimEnd_output_iff haccepted hdefined).1 (h line hline)

theorem mem_of_mem_trimEnd {s : Text} {c : Char} (h : c ∈ trimEnd s) : c ∈ s := by
  unfold trimEnd at h
  rw [List.mem_reverse] at h
  exact List.mem_reverse.mp (List.dropWhile_subset _ h)

section OneLine

variable {macros : HashMap Text} (hwords : WordValues macros)

include hwords

theorem newline_not_mem_output {xs : List Spaced}
    (hformed : ∀ x ∈ xs, x.WellFormed) : '\n' ∉ output macros xs := by
  intro hmem
  obtain ⟨x, hx, hc⟩ := List.mem_flatMap.mp hmem
  have htext : ∀ chars, x.piece = .text chars → False := by
    intro chars hpiece
    rw [hpiece, Piece.output, List.mem_append] at hc
    rcases hc with hc | hc
    · have hchar := ((hformed x hx).text chars hpiece).2 _ hc
      revert hchar
      decide
    · revert hc
      decide
  have hvalue : ∀ name, '\n' ∉ (macros.lookup name).getD [] := by
    intro name
    cases hlookup : macros.lookup name with
    | none => simp
    | some value => exact hwords.line name value hlookup
  cases hpiece : x.piece with
  | text chars => exact htext chars hpiece
  | bare before name =>
      rw [hpiece] at hc
      exact hvalue name hc
  | braced before name after =>
      rw [hpiece] at hc
      exact hvalue name hc
  | optional name =>
      rw [hpiece] at hc
      exact hvalue name hc

theorem newline_not_mem_substitute {line : Text} (h : '\n' ∉ line) :
    '\n' ∉ substitute macros line := by
  have hall : ∀ c ∈ substitute macros line, c ≠ '\n' := by
    refine repeatAll_forall (P := fun c => c ≠ '\n') shrinking_id
      substituteNext_consuming (fun _ => List.suffix_rfl)
      substituteNext_suffixing ?_
    intro u w t hu hnext c hc
    rintro rfl
    rcases substituteNext_cases hnext with ⟨d, rfl, rfl⟩ | ⟨name, _, hvalue, -, -⟩
    · rw [List.mem_singleton] at hc
      subst hc
      exact h (hu.subset List.mem_cons_self)
    · exact hwords.line name w hvalue hc
  exact fun hmem => hall _ hmem rfl

end OneLine

theorem wellSpaced_of_parse {macros : HashMap Text} {rawString out : Text}
    (hreturn : '\r' ∉ rawString) (hparen : '(' ∉ rawString)
    (hwords : WordValues macros)
    (hok : parse macros rawString = .ok out)
    (h : out = substituted macros rawString) : WellSpaced rawString := by
  obtain ⟨hall, rfl⟩ := (parse_eq_ok_iff hreturn hparen).mp hok
  intro line hline
  have hne : lines rawString ≠ [] := List.ne_nil_of_mem hline
  have hlines : ((lines rawString).map fun line =>
      trimEnd (output macros (pieces line).1)) =
        (lines rawString).map fun line => trimEnd (substitute macros line) := by
    -- both sides are split back at the line feeds
    have hleft : (['\n'].intercalate ((lines rawString).map fun line =>
        trimEnd (output macros (pieces line).1))).splitOn '\n' = _ :=
      List.splitOn_intercalate '\n' (by
        intro out hout hmem
        obtain ⟨l, hl, rfl⟩ := List.mem_map.mp hout
        exact newline_not_mem_output hwords (pieces_wellFormed l)
          (mem_of_mem_trimEnd hmem)) (by simpa using hne)
    have hright : (['\n'].intercalate ((lines rawString).map fun line =>
        trimEnd (substitute macros line))).splitOn '\n' = _ :=
      List.splitOn_intercalate '\n' (by
        intro out hout hmem
        obtain ⟨l, hl, rfl⟩ := List.mem_map.mp hout
        apply newline_not_mem_substitute hwords _ (mem_of_mem_trimEnd hmem)
        intro hc
        have hchar := (plainLine_of_mem_lines hreturn hparen hl).newline _ hc
        cases hchar) (by simpa using hne)
    rw [← hleft, h, substituted, hright]
  have heq := List.map_inj_left.mp hlines line hline
  obtain ⟨haccepted, hdefined⟩ := hall line hline
  exact (trimEnd_output_iff haccepted hdefined).2 hwords heq

/-- A table that gives one value to the names of a list. -/
def constantTable (names : List Text) (value : Text) : HashMap Text :=
  names.foldr (fun name table => table.insert name value) ∅

theorem lookup_constantTable (names : List Text) (value name : Text) :
    (constantTable names value).lookup name =
      if name ∈ names then some value else none := by
  induction names with
  | nil => simp [constantTable]
  | cons first names ih =>
      have hcons : constantTable (first :: names) value =
          (constantTable names value).insert first value := rfl
      rw [hcons]
      by_cases heq : name = first
      · subst heq
        rw [Finmap.lookup_insert, if_pos List.mem_cons_self]
      · rw [Finmap.lookup_insert_of_ne _ heq, ih]
        simp [heq]

theorem exists_wordValues {macros : HashMap Text} {rawString out : Text}
    (hreturn : '\r' ∉ rawString) (hparen : '(' ∉ rawString)
    (hok : parse macros rawString = .ok out) :
    ∃ table result, WordValues table ∧ parse table rawString = .ok result := by
  obtain ⟨hall, -⟩ := (parse_eq_ok_iff hreturn hparen).mp hok
  have hlookup := lookup_constantTable ((lines rawString).flatMap fun line =>
    (pieces line).1.map fun x => x.piece.name) ['v']
  refine ⟨constantTable ((lines rawString).flatMap fun line =>
      (pieces line).1.map fun x => x.piece.name) ['v'], _, ?_,
    (parse_eq_ok_iff hreturn hparen).mpr ⟨?_, rfl⟩⟩
  · have hvalue : ∀ name value, (constantTable ((lines rawString).flatMap
        fun line => (pieces line).1.map fun x => x.piece.name) ['v']).lookup
          name = some value → value = ['v'] := by
      intro name value h
      rw [hlookup] at h
      split_ifs at h
      cases h
      rfl
    constructor
    · intro name value h
      rw [hvalue name value h]
      exact isWord_chars (by decide) (forall_mem_of_all (by decide))
    · intro name value h
      rw [hvalue name value h]
      decide
  · intro line hline
    obtain ⟨haccepted, hdefined⟩ := hall line hline
    refine ⟨haccepted, ?_⟩
    intro x hx
    rcases hdefined x hx with htext | ⟨href, -⟩
    · exact .inl htext
    · refine .inr ⟨href, ['v'], ?_⟩
      rw [hlookup, if_pos]
      exact List.mem_flatMap.mpr ⟨line, hline, List.mem_map.mpr ⟨x, hx, rfl⟩⟩

/-- The expansion of a script is the plain substitution, whatever the values of
the macros are, exactly when the script is spaced as the walk spaces it.  For
one table whose values are words, too, there is no other case. -/
theorem parse_substitutes_iff {macros : HashMap Text} {rawString out : Text}
    (hreturn : '\r' ∉ rawString) (hparen : '(' ∉ rawString)
    (hok : parse macros rawString = .ok out) :
    ((∀ table result, parse table rawString = .ok result →
        result = substituted table rawString) ↔ WellSpaced rawString) ∧
      (WordValues macros →
        (out = substituted macros rawString ↔ WellSpaced rawString)) := by
  refine ⟨⟨?_, ?_⟩, ?_⟩
  · intro h
    obtain ⟨table, result, hwords, hresult⟩ :=
      exists_wordValues hreturn hparen hok
    exact wellSpaced_of_parse hreturn hparen hwords hresult
      (h table result hresult)
  · intro h table result hresult
    exact parse_of_wellSpaced hreturn hparen hresult h
  · intro hwords
    exact ⟨wellSpaced_of_parse hreturn hparen hwords hok,
      parse_of_wellSpaced hreturn hparen hok⟩

theorem parse_substitutes_spaced :
    "make -C zlib\nzliblib zlib".toList =
      substituted (Finmap.singleton "name".toList "zlib".toList)
        "make -C %name\n%\x7bname\x7dlib %name".toList := by
  have hok : parse (Finmap.singleton "name".toList "zlib".toList)
      "make -C %name\n%\x7bname\x7dlib %name".toList =
        .ok "make -C zlib\nzliblib zlib".toList := by
    decide +kernel
  exact (parse_substitutes_iff (by decide) (by decide) hok).1.mpr
    (by decide +kernel) _ _ hok

/-- A space is put between text and the reference right behind it. -/
theorem parse_not_substituted :
    ¬ ∀ macros rawString out, '\r' ∉ rawString → '(' ∉ rawString →
        parse macros rawString = .ok out →
          out = substituted macros rawString := by
  intro h
  have hout := h (Finmap.singleton "name".toList "zlib".toList)
    "src/%\x7bname\x7d".toList "src/ zlib".toList (by decide) (by decide)
    (by decide +kernel)
  revert hout
  decide +kernel

end Ips.Macros
