import Ips.MacroSubstitution
import Ips.SpecFileLines

/-!
# From the spec file to the build script

The macro parser runs on the build script of a spec file.  Of the lines that
the spec file can hold it accepts those with a reference and without the marks
that only the grammar of spec files knows.
-/

namespace Ips

open Peg

/-! ## Lines with references -/

namespace Macros

inductive IsReference : Text → Prop
  | bare {before name : Text}
      (hbefore : ∀ c ∈ before, isBlank c = true)
      (hname : name ≠ []) (hchars : ∀ c ∈ name, isChar c = true) :
      IsReference (Piece.bare before name).spelled
  | braced {before name after : Text}
      (hbefore : ∀ c ∈ before, isBlank c = true)
      (hname : name ≠ []) (hchars : ∀ c ∈ name, isChar c = true)
      (hafter : ∀ c ∈ after, isBlank c = true) :
      IsReference (Piece.braced before name after).spelled

/-- A line of macro characters, blanks and references, and whether there is a
reference on it. -/
inductive MacroLine : Bool → Text → Prop
  | nil : MacroLine false []
  | char {c : Char} {b : Bool} {s : Text} :
      (isChar c || isBlank c) = true → MacroLine b s → MacroLine b (c :: s)
  | reference {w : Text} {b : Bool} {s : Text} :
      IsReference w → MacroLine b s → MacroLine true (w ++ s)

theorem IsReference.head {w : Text} (h : IsReference w) :
    ∃ t, w = '%' :: t := by
  cases h with
  | bare => exact ⟨_, rfl⟩
  | braced => exact ⟨_, rfl⟩

theorem MacroLine.append {b : Bool} {w s : Text}
    (hw : ∀ c ∈ w, (isChar c || isBlank c) = true) (h : MacroLine b s) :
    MacroLine b (w ++ s) := by
  induction w with
  | nil => exact h
  | cons c w ih =>
      rw [List.forall_mem_cons] at hw
      exact .char hw.1 (ih hw.2)

theorem MacroLine.dropWhile {test : Char → Bool} (htest : test '%' = false)
    {b : Bool} {s : Text} (h : MacroLine b s) :
    MacroLine b (s.dropWhile test) := by
  induction h with
  | nil => exact .nil
  | @char c b s hc h ih =>
      rw [List.dropWhile_cons]
      split_ifs
      · exact ih
      · exact .char hc h
  | @reference w b s hw h _ =>
      obtain ⟨t, rfl⟩ := hw.head
      rw [List.cons_append, List.dropWhile_cons, htest]
      exact .reference hw h

/-! The reader finds the references of such a line. -/

theorem readReference_spelled {s t : List Char} {piece : Piece}
    (h : readReference s = some (piece, t)) : IsReference piece.spelled := by
  have hblanks : ∀ u : List Char, ∀ c ∈ u.takeWhile isBlank, isBlank c = true :=
    fun u c hc => List.mem_takeWhile_imp hc
  have hchars : ∀ u : List Char, ∀ c ∈ u.takeWhile isChar, isChar c = true :=
    fun u c hc => List.mem_takeWhile_imp hc
  rcases orElse_eq_some h with hbraced | ⟨-, hbare⟩
  · unfold readBraced at hbraced
    split at hbraced
    · split_ifs at hbraced with hname
      obtain ⟨u, -, heq⟩ := Option.map_eq_some_iff.mp hbraced
      cases heq
      exact .braced (hblanks _) hname (hchars _) (hblanks _)
    · cases hbraced
  · unfold readBare at hbare
    split at hbare
    · split_ifs at hbare with hname
      cases hbare
      exact .bare (hblanks _) hname (hchars _)
    · cases hbare

theorem char_not_blank {c : Char} (h : isChar c = true) : isBlank c = false := by
  by_contra hblank
  have hspace := whitespace_of_blank (Bool.eq_true_of_not_eq_false hblank)
  rw [whitespace_of_isChar h] at hspace
  cases hspace

theorem headIs_append_of_ne_nil {test : Char → Bool} {w : Text} (hne : w ≠ [])
    (h : ∀ c ∈ w, test c = false) (s : Text) :
    headIs test (w ++ s) = false := by
  cases w with
  | nil => exact absurd rfl hne
  | cons c w => exact h c List.mem_cons_self

theorem skipBlanks_name {before name : Text}
    (hbefore : ∀ c ∈ before, isBlank c = true)
    (hname : name ≠ []) (hchars : ∀ c ∈ name, isChar c = true) (s : Text) :
    skipBlanks (before ++ (name ++ s)) = name ++ s := by
  have hhead : headIs isBlank (name ++ s) = false :=
    headIs_append_of_ne_nil hname (fun c hc => char_not_blank (hchars c hc)) s
  unfold skipBlanks
  rw [List.dropWhile_append_of_pos hbefore]
  exact skipBlanks_of_head hhead

theorem readBraced_append {before name after : Text}
    (hbefore : ∀ c ∈ before, isBlank c = true)
    (hname : name ≠ []) (hchars : ∀ c ∈ name, isChar c = true)
    (hafter : ∀ c ∈ after, isBlank c = true) (s : Text) :
    ∃ piece, readBraced ((Piece.braced before name after).spelled ++ s) =
      some (piece, s) := by
  have hopen : (Piece.braced before name after).spelled ++ s =
      '%' :: '\x7b' :: (before ++ (name ++ (after ++ '\x7d' :: s))) := by
    simp [Piece.spelled]
  have htest : headIs isChar (after ++ '\x7d' :: s) = false := by
    cases after with
    | nil => rfl
    | cons c after =>
        have hblank := hafter c List.mem_cons_self
        change isChar c = false
        by_contra hchar
        rw [char_not_blank (Bool.eq_true_of_not_eq_false hchar)] at hblank
        cases hblank
  have hskip : skipBlanks (after ++ '\x7d' :: s) = '\x7d' :: s := by
    unfold skipBlanks
    rw [List.dropWhile_append_of_pos hafter]
    rfl
  have htake : (name ++ (after ++ '\x7d' :: s)).takeWhile isChar = name := by
    rw [takeWhile_append_of_head htest, List.takeWhile_eq_self_iff.mpr hchars]
  have hdrop : (name ++ (after ++ '\x7d' :: s)).dropWhile isChar =
      after ++ '\x7d' :: s := by
    rw [dropWhile_append_of_head htest, List.dropWhile_eq_nil_iff.mpr hchars,
      List.nil_append]
  refine ⟨.braced ((before ++ (name ++ (after ++ '\x7d' :: s))).takeWhile isBlank)
    name ((after ++ '\x7d' :: s).takeWhile isBlank), ?_⟩
  rw [hopen]
  simp only [readBraced, skipBlanks_name hbefore hname hchars, htake, hdrop,
    hskip, if_neg hname, readClosing, Option.map_some]

theorem readBare_append {before name : Text}
    (hbefore : ∀ c ∈ before, isBlank c = true)
    (hname : name ≠ []) (hchars : ∀ c ∈ name, isChar c = true) (s : Text) :
    ∃ piece, readReference ((Piece.bare before name).spelled ++ s) =
      some (piece, s.dropWhile isChar) := by
  have hspelled : (Piece.bare before name).spelled ++ s =
      '%' :: (before ++ (name ++ s)) := by
    simp [Piece.spelled]
  have hopen : headIs (· == '\x7b') (before ++ (name ++ s)) = false := by
    rw [← List.append_assoc]
    apply headIs_append_of_ne_nil
    · simp [hname]
    · intro c hc
      rw [beq_eq_false_iff_ne]
      rintro rfl
      rcases List.mem_append.mp hc with hc | hc
      · have hblank := hbefore _ hc
        revert hblank
        decide
      · have hchar := hchars _ hc
        revert hchar
        decide
  have hbraced : readBraced ('%' :: (before ++ (name ++ s))) = none := by
    generalize before ++ (name ++ s) = u at hopen
    unfold readBraced
    split
    · next heq =>
        cases heq
        cases hopen
    · rfl
  have htake : (name ++ s).takeWhile isChar ≠ [] := by
    rw [List.takeWhile_append_of_pos hchars]
    simp [hname]
  rw [hspelled, readReference, orElse_of_none hbraced]
  refine ⟨.bare ((before ++ (name ++ s)).takeWhile isBlank)
    ((name ++ s).takeWhile isChar), ?_⟩
  simp only [readBare, skipBlanks_name hbefore hname hchars, if_neg htake]
  rw [List.dropWhile_append_of_pos hchars]

theorem readReference_append {w s : Text} {b : Bool} (hw : IsReference w)
    (hs : MacroLine b s) :
    ∃ piece t, readReference (w ++ s) = some (piece, t) ∧ MacroLine b t := by
  cases hw with
  | bare hbefore hname hchars =>
      obtain ⟨piece, hread⟩ := readBare_append hbefore hname hchars s
      exact ⟨piece, _, hread, hs.dropWhile (by decide)⟩
  | braced hbefore hname hchars hafter =>
      obtain ⟨piece, hread⟩ := readBraced_append hbefore hname hchars hafter s
      exact ⟨piece, s, orElse_of_some hread, hs⟩

def Piece.isPlain (piece : Piece) : Bool := piece.isText || piece.isReference

theorem MacroLine.pieces_eq {b : Bool} {s : Text} (h : MacroLine b s) :
    skipBlanks (pieces s).2 = [] ∧
      (∀ x ∈ (pieces s).1, x.piece.isPlain = true) ∧
      (b = true → (pieces s).1.any (fun x => !x.piece.isText) = true) := by
  induction hn : s.length using Nat.strong_induction_on generalizing b s with
  | _ n ih =>
      subst hn
      have hskip : MacroLine b (skipBlanks s) := h.dropWhile (by decide)
      have hhead := headIs_skipBlanks s
      have hle := skipBlanks_shrinking s
      have hround : ∀ piece t, readPiece (skipBlanks s) = some (piece, t) →
          piece.isPlain = true →
          ∀ b', MacroLine b' t → (b = true → piece.isText = true → b' = true) →
          skipBlanks (pieces s).2 = [] ∧
            (∀ x ∈ (pieces s).1, x.piece.isPlain = true) ∧
            (b = true → (pieces s).1.any (fun x => !x.piece.isText) = true) := by
        intro piece t hread hplain b' ht hb
        have hlt := readPiece_length_lt hread
        obtain ⟨hend, hall, hany⟩ := ih t.length (by omega) ht rfl
        rw [pieces_of_some hread]
        refine ⟨hend, List.forall_mem_cons.mpr ⟨hplain, hall⟩, ?_⟩
        intro htrue
        rw [List.any_cons, Bool.or_eq_true]
        by_cases htext : piece.isText = true
        · exact .inr (hany (hb htrue htext))
        · left
          simpa using htext
      generalize hs : skipBlanks s = u at hskip hhead
      cases hskip with
      | nil =>
          have hnone : readPiece (skipBlanks s) = none := by
            rw [hs]
            rfl
          rw [pieces_of_none hnone]
          exact ⟨hs, by simp, fun hfalse => by cases hfalse⟩
      | @char c b u hc hu =>
          have hchar : isChar c = true := by
            change isBlank c = false at hhead
            rwa [hhead, Bool.or_false] at hc
          have hread : readPiece (skipBlanks s) =
              some (.text ((c :: u).takeWhile isChar),
                (c :: u).dropWhile isChar) := by
            apply orElse_of_some
            rw [hs, readTextPiece, if_neg]
            simp [hchar]
          apply hround _ _ hread rfl b
          · exact (MacroLine.char hc hu).dropWhile (by decide)
          · exact fun htrue _ => htrue
      | @reference w b u hw hu =>
          obtain ⟨piece, t, hread, ht⟩ := readReference_append hw hu
          have htext : readTextPiece (w ++ u) = none := by
            obtain ⟨v, rfl⟩ := hw.head
            rfl
          have hpiece : readPiece (skipBlanks s) = some (piece, t) := by
            rw [hs, readPiece, orElse_of_none htext]
            exact orElse_of_some hread
          have hreference := readReference_isReference hread
          apply hround piece t hpiece _ b ht
          · intro _ hkind
            cases piece with
            | text chars => cases hreference
            | bare before name => cases hkind
            | braced before name after => cases hkind
            | optional name => cases hkind
          · rw [Piece.isPlain, hreference, Bool.or_true]

theorem macroLine_of_pieces (s : Text) :
    (∀ x ∈ (pieces s).1, x.piece.isPlain = true) →
      skipBlanks (pieces s).2 = [] →
        MacroLine ((pieces s).1.any fun x => !x.piece.isText) s := by
  apply pieces_induction fun s xs t =>
    (∀ x ∈ xs, x.piece.isPlain = true) →
      skipBlanks t = [] → MacroLine (xs.any fun x => !x.piece.isText) s
  · intro s _ _ hend
    have hline : MacroLine false (s ++ []) := MacroLine.append (fun c hc => by
      rw [blank_of_skipBlanks hend c hc, Bool.or_true]) .nil
    rwa [List.append_nil] at hline
  · intro s piece t hread ih hall hend
    rw [List.forall_mem_cons] at hall
    have hrest := ih hall.2 hend
    rw [← takeWhile_append_skipBlanks s, readPiece_spelled hread]
    apply MacroLine.append
    · intro c hc
      rw [List.mem_takeWhile_imp hc, Bool.or_true]
    · rw [List.any_cons]
      rcases orElse_eq_some hread with htext | ⟨-, hmark⟩
      · obtain ⟨chars, rfl, -⟩ := readTextPiece_ne_nil htext
        apply MacroLine.append
        · intro c hc
          rw [(readPiece_text hread).2 c hc, Bool.true_or]
        · exact hrest
      · rw [readMacro_not_isText hmark, Bool.not_false, Bool.true_or]
        rcases orElse_eq_some hmark with href | ⟨-, hopt⟩
        · exact .reference (readReference_spelled href) hrest
        · obtain ⟨name, rfl⟩ := readOptional_eq_optional hopt
          cases hall.1

/-- The lines without optional macros that the grammar accepts. -/
theorem macroLine_iff (line : Text) :
    MacroLine true line ↔
      accepted line = true ∧ ∀ x ∈ (pieces line).1, x.piece.isPlain = true := by
  simp only [accepted, Bool.and_eq_true, List.isEmpty_iff]
  constructor
  · intro h
    obtain ⟨hend, hall, hany⟩ := h.pieces_eq
    exact ⟨⟨hany rfl, hend⟩, hall⟩
  · rintro ⟨⟨hany, hend⟩, hall⟩
    have hline := macroLine_of_pieces line hall hend
    rwa [hany] at hline

/-! ## Names -/

/-- The line refers to the name as `%name` or in braces, without blanks. -/
def RefersTo (line name : Text) : Prop :=
  ∃ t u, t <:+ line ∧ readPlainReference t = some (name, u)

theorem readPiece_reference {s t : List Char} {piece : Piece}
    (h : readPiece s = some (piece, t)) (href : piece.isReference = true) :
    readReference s = some (piece, t) := by
  rcases orElse_eq_some h with htext | ⟨-, hmark⟩
  · obtain ⟨chars, rfl, -⟩ := readTextPiece_ne_nil htext
    cases href
  · rcases orElse_eq_some hmark with href' | ⟨-, hopt⟩
    · exact href'
    · obtain ⟨name, rfl⟩ := readOptional_eq_optional hopt
      cases href

theorem refersTo_of_mem_pieces (line : Text) :
    ∀ x ∈ (pieces line).1, x.piece.isReference = true →
      x.piece.isTight = true → RefersTo line x.piece.name := by
  apply pieces_induction fun s xs _ => ∀ x ∈ xs,
    x.piece.isReference = true → x.piece.isTight = true →
      RefersTo s x.piece.name
  · intro s _ x hx
    cases hx
  · intro s piece t hread ih x hx href htight
    rcases List.mem_cons.mp hx with rfl | hx
    · have hplain := readPlainReference_of_reference
        (readPiece_reference hread href)
      rw [if_pos htight] at hplain
      exact ⟨_, t, skipBlanks_suffix s, hplain⟩
    · obtain ⟨u, v, hu, hplain⟩ := ih x hx href htight
      refine ⟨u, v, hu.trans ?_, hplain⟩
      exact (List.suffix_append _ t).trans
        (readPiece_spelled hread ▸ skipBlanks_suffix s)

/-- The names of the references with blanks inside of them are defined. -/
def LooseNamesDefined (macros : HashMap Text) (line : Text) : Prop :=
  ∀ x ∈ (pieces line).1, x.piece.isTight = false →
    ∃ value, macros.lookup x.piece.name = some value

theorem pieces_defined_iff {macros : HashMap Text} {line : Text}
    (hplain : ∀ x ∈ (pieces line).1, x.piece.isPlain = true)
    (hnames : ∀ name, RefersTo line name →
      ∃ value, macros.lookup name = some value) :
    (∀ x ∈ (pieces line).1, x.piece.Defined macros) ↔
      LooseNamesDefined macros line := by
  constructor
  · intro hall x hx hloose
    rcases hall x hx with htext | ⟨-, hvalue⟩
    · cases hpiece : x.piece with
      | text chars =>
          rw [hpiece] at hloose
          cases hloose
      | bare before name =>
          rw [hpiece] at htext
          cases htext
      | braced before name after =>
          rw [hpiece] at htext
          cases htext
      | optional name =>
          rw [hpiece] at htext
          cases htext
    · exact hvalue
  · intro hloose x hx
    rcases Bool.or_eq_true_iff.mp (hplain x hx) with htext | href
    · exact .inl htext
    · refine .inr ⟨href, ?_⟩
      by_cases htight : x.piece.isTight = true
      · exact hnames _ (refersTo_of_mem_pieces line x hx href htight)
      · exact hloose x hx (Bool.eq_false_of_not_eq_true htight)

theorem Piece.Defined.isPlain {macros : HashMap Text} {piece : Piece}
    (h : piece.Defined macros) : piece.isPlain = true := by
  rcases h with htext | ⟨href, -⟩
  · rw [Piece.isPlain, htext, Bool.true_or]
  · rw [Piece.isPlain, href, Bool.or_true]

theorem parse_ok_iff_macroLines {macros : HashMap Text} {rawString : Text}
    (hreturn : '\r' ∉ rawString) (hparen : '(' ∉ rawString)
    (hnames : ∀ line ∈ lines rawString, ∀ name, RefersTo line name →
      ∃ value, macros.lookup name = some value) :
    (∃ out, parse macros rawString = .ok out) ↔
      ∀ line ∈ lines rawString,
        MacroLine true line ∧ LooseNamesDefined macros line := by
  simp only [parse_eq_ok_iff hreturn hparen, exists_and_left, exists_eq,
    and_true, macroLine_iff]
  constructor
  · intro h line hline
    obtain ⟨haccepted, hdefined⟩ := h line hline
    have hplain : ∀ x ∈ (pieces line).1, x.piece.isPlain = true :=
      fun x hx => (hdefined x hx).isPlain
    exact ⟨⟨haccepted, hplain⟩,
      (pieces_defined_iff hplain (hnames line hline)).mp hdefined⟩
  · intro h line hline
    obtain ⟨⟨haccepted, hplain⟩, hloose⟩ := h line hline
    exact ⟨haccepted,
      (pieces_defined_iff hplain (hnames line hline)).mpr hloose⟩

end Macros

/-! ## The characters of a build script -/

namespace SpecFile

theorem setVariable_buildScript (spec : SpecFile)
    (varControl : KnownVariableControl) (name value : Text) :
    (setVariable spec varControl name value).buildScript =
      spec.buildScript := by
  cases varControl <;> rfl

theorem pushLine_spec {overflowChecks : Bool} {st st' : SectionState}
    {push : SpecFile → Text → SpecFile} {line : Text}
    (h : pushLine overflowChecks st push line = .ok st') :
    st'.spec = push st.spec (appendNewlineString line st.sectionLine) := by
  obtain ⟨count, -, heq⟩ := Outcome.bind_eq_ok_iff.mp h
  cases heq
  rfl

theorem mem_appendNewlineString {line : Text} {count : ℤ} {c : Char}
    (h : c ∈ appendNewlineString line count) : c = '\n' ∨ c ∈ line := by
  unfold appendNewlineString at h
  split_ifs at h
  · exact .inr h
  · exact List.mem_cons.mp h

theorem storeLine_buildScript {overflowChecks : Bool} {st st' : SectionState}
    {line : Text} (h : storeLine overflowChecks st line = .ok st') :
    ∀ c ∈ st'.spec.buildScript,
      c ∈ st.spec.buildScript ∨ c = '\n' ∨ c ∈ line := by
  intro c hc
  unfold storeLine at h
  split at h
  · rw [pushLine_spec h] at hc
    exact .inl hc
  · rw [pushLine_spec h] at hc
    exact .inl hc
  · rw [pushLine_spec h] at hc
    rcases List.mem_append.mp hc with hc | hc
    · exact .inl hc
    · exact .inr (mem_appendNewlineString hc)
  · cases h
    exact .inl hc
  · rw [pushLine_spec h] at hc
    exact .inl hc
  · rw [pushLine_spec h] at hc
    exact .inl hc
  · cases h

theorem addMark_buildScript {overflowChecks : Bool} {st st' : SectionState}
    {mark : Mark} (h : addMark overflowChecks st mark = .ok st') :
    ∀ c ∈ st'.spec.buildScript, c ∈ st.spec.buildScript ∨ c = '\n' ∨
      ∃ name line, mark = .stored name line ∧ c ∈ line := by
  intro c hc
  cases mark with
  | blank =>
      cases h
      exact .inl hc
  | setting name value =>
      cases h
      exact .inl ((setVariable_buildScript st.spec _ name value) ▸ hc)
  | header name =>
      cases h
      exact .inl hc
  | comment =>
      cases h
      exact .inl hc
  | stored name line =>
      rcases storeLine_buildScript h c hc with hc | hc | hc
      · exact .inl hc
      · exact .inr (.inl hc)
      · exact .inr (.inr ⟨name, line, rfl, hc⟩)
  | unknown r => cases h

theorem buildScript_chars {overflowChecks : Bool} {content : Text}
    {spec : SpecFile} (h : parse overflowChecks content = .ok spec) :
    ∀ c ∈ spec.buildScript, isTextChar c = true ∨ c = '\n' := by
  obtain ⟨marks, st, -, -, haccepts, hfold, rfl⟩ :=
    (parse_eq_ok_iff overflowChecks content spec).mp h
  apply Outcome.fold_invariant _ (P := fun st : SectionState =>
    ∀ c ∈ st.spec.buildScript, isTextChar c = true ∨ c = '\n') _ _ hfold
  · intro st mark hmark st' hst hadd c hc
    rcases addMark_buildScript hadd c hc with hc | rfl | ⟨name, line, rfl, hc⟩
    · exact hst c hc
    · exact .inr rfl
    · exact .inl (accepts_stored haccepts name line hmark c hc)
  · intro c hc
    cases hc

end SpecFile

/-! ## Both stages -/

theorem buildScript_not_mem {overflowChecks : Bool} {content : Text}
    {spec : SpecFile} (h : SpecFile.parse overflowChecks content = .ok spec)
    {c : Char} (hc : SpecFile.isTextChar c = false) (hline : c ≠ '\n') :
    c ∉ spec.buildScript := by
  intro hmem
  rcases SpecFile.buildScript_chars h c hmem with htext | heq
  · rw [hc] at htext
    cases htext
  · exact hline heq

/-- The macro parser expands the build script of a spec file, under a table
that defines what the script refers to, exactly when every line consists of
macro characters, blanks and references and there is a reference on it.  Names
that are written with blanks around them have to be defined as well. -/
theorem macros_parse_buildScript_iff {overflowChecks : Bool} {content : Text}
    {spec : SpecFile} {macros : HashMap Text}
    (hspec : SpecFile.parse overflowChecks content = .ok spec)
    (hnames : ∀ line ∈ lines spec.buildScript, ∀ name,
      Macros.RefersTo line name → ∃ value, macros.lookup name = some value) :
    (∃ out, Macros.parse macros spec.buildScript = .ok out) ↔
      ∀ line ∈ lines spec.buildScript,
        Macros.MacroLine true line ∧ Macros.LooseNamesDefined macros line := by
  apply Macros.parse_ok_iff_macroLines
  · exact buildScript_not_mem hspec (by decide) (by decide)
  · exact buildScript_not_mem hspec (by decide) (by decide)
  · exact hnames

theorem macros_parse_buildScript_named :
    ∃ out, Macros.parse (Finmap.singleton "name".toList "zlib".toList)
      "make -C %name".toList = .ok out := by
  have hspec : SpecFile.parse true "%build\nmake -C %name\n".toList =
      .ok { buildScript := "make -C %name".toList } := by decide +kernel
  have hlines : lines "make -C %name".toList = ["make -C %name".toList] := by
    decide +kernel
  apply (macros_parse_buildScript_iff hspec ?_).mpr
  · rw [hlines]
    simp only [List.mem_singleton, forall_eq]
    refine ⟨(Macros.macroLine_iff _).mpr (by decide +kernel), ?_⟩
    have htight : ∀ x ∈ (Macros.pieces "make -C %name".toList).1,
        x.piece.isTight = true := by decide +kernel
    intro x hx hloose
    rw [htight x hx] at hloose
    cases hloose
  · rw [hlines]
    simp only [List.mem_singleton, forall_eq]
    rintro name ⟨t, u, ht, href⟩
    have hall : ∀ t ∈ "make -C %name".toList.tails,
        (Macros.readPlainReference t).all (fun x => x.1 == "name".toList) =
          true := by decide +kernel
    have hname := hall t ((List.mem_tails t _).mpr ht)
    rw [href] at hname
    have heq : name = "name".toList := eq_of_beq hname
    rw [heq]
    exact ⟨"zlib".toList, by decide +kernel⟩

/-- A line without a macro is rejected. -/
theorem macros_parse_buildScript_rejected :
    ¬ ∀ overflowChecks content spec macros,
        SpecFile.parse overflowChecks content = .ok spec →
        ¬ "%(".toList <:+: spec.buildScript →
        ¬ "%\x7b?".toList <:+: spec.buildScript →
        (∀ line ∈ lines spec.buildScript, ∀ name,
          Macros.RefersTo line name →
            ∃ value, macros.lookup name = some value) →
        ∃ out, Macros.parse macros spec.buildScript = .ok out := by
  intro h
  obtain ⟨out, hout⟩ := h true "%build\nmake\n".toList
    { buildScript := "make".toList } ∅ (by decide +kernel) (by decide)
    (by decide) (by
      have hlines : lines "make".toList = ["make".toList] := by decide +kernel
      rw [hlines]
      simp only [List.mem_singleton, forall_eq]
      rintro name ⟨t, u, ht, href⟩
      have hall : ∀ t ∈ "make".toList.tails,
          Macros.readPlainReference t = none := by decide +kernel
      rw [hall t ((List.mem_tails t _).mpr ht)] at href
      cases href)
  have herr : Macros.parse ∅ "make".toList = .err .parserError := by
    decide +kernel
  rw [herr] at hout
  cases hout

end Ips
