import Ips.ManifestSegments

/-!
# Reading across the end of a text

A text that ends with a line break is followed by another one.  Gaps, words,
values and properties of the first text are read as before, unless a double
quote was left open there or a property had no value.
-/

namespace Ips.Manifest

open Peg

/-! ## The seam -/

/-- What is left of the text `t` when `B` follows; `C` stands for `B` without
a line feed that belongs to the line break in front of it. -/
def joined (B C t : List Char) : List Char := if t = [] then C else t ++ B

theorem joined_nil (B C : List Char) : joined B C [] = C := rfl

theorem joined_of_ne_nil (B C : List Char) {t : List Char} (h : t ≠ []) :
    joined B C t = t ++ B := if_neg h

theorem getLast?_of_suffix {s t : List Char} {last : Char}
    (hs : s.getLast? = some last) (h : t <:+ s) (hne : t ≠ []) :
    t.getLast? = some last := by
  obtain ⟨w, rfl⟩ := h
  rwa [List.getLast?_append_of_ne_nil _ hne] at hs

theorem ne_nil_of_getLast? {s : List Char} {last : Char}
    (h : s.getLast? = some last) : s ≠ [] := by
  rintro rfl
  cases h

section Seam

variable {last : Char} {B C s : List Char}

theorem isNewlineChar_last (hC : readNewline (last :: B) = some C) :
    isNewlineChar last = true := by
  by_contra h
  have hnone : readNewline (last :: B) = none :=
    readNewline_eq_none_iff.mpr (by simpa [headIs] using h)
  rw [hnone] at hC
  cases hC

theorem getLast?_tail {c : Char} (hC : readNewline (last :: B) = some C)
    (hc : isNewlineChar c = false) (hs : (c :: s).getLast? = some last) :
    s.getLast? = some last := by
  apply getLast?_of_suffix hs (List.suffix_cons c s)
  rintro rfl
  rw [List.getLast?_singleton, Option.some.injEq] at hs
  rw [hs, isNewlineChar_last hC] at hc
  cases hc

/-- Running up to the end of a text stops in front of its line break. -/
theorem dropWhile_joined (test : Char → Bool) (htest : test last = false)
    (hs : s.getLast? = some last) :
    (s ++ B).dropWhile test = s.dropWhile test ++ B ∧
      (s ++ B).takeWhile test = s.takeWhile test ∧
      (s.dropWhile test).getLast? = some last := by
  have hne : s.dropWhile test ≠ [] := by
    intro hnil
    have hall := List.dropWhile_eq_nil_iff.mp hnil last
      (List.mem_of_getLast? hs)
    rw [htest] at hall
    cases hall
  refine ⟨?_, ?_, getLast?_of_suffix hs (List.dropWhile_suffix _) hne⟩
  · rw [List.dropWhile_append, if_neg (by simpa using hne)]
  · have hlen : (s.takeWhile test).length ≠ s.length := by
      intro heq
      apply hne
      have hsum := congrArg List.length
        (List.takeWhile_append_dropWhile (p := test) (l := s))
      rw [List.length_append] at hsum
      exact List.length_eq_zero_iff.mp (by omega)
    rw [List.takeWhile_append, if_neg hlen]

/-! ## Gaps -/

theorem readNewline_joined (hC : readNewline (last :: B) = some C)
    (hs : s.getLast? = some last) :
    readNewline (s ++ B) = (readNewline s).map (joined B C) := by
  cases s with
  | nil => cases hs
  | cons c u =>
      cases u with
      | nil =>
          rw [List.getLast?_singleton, Option.some.injEq] at hs
          rw [hs, List.singleton_append, hC]
          rcases (by simpa [isNewlineChar] using isNewlineChar_last hC :
            last = '\n' ∨ last = '\r') with rfl | rfl
          · rfl
          · rfl
      | cons d v =>
          by_cases hlf : c = '\n'
          · subst c
            rfl
          · by_cases hcr : c = '\r'
            · subst c
              by_cases hd : d = '\n'
              · subst d
                cases v with
                | nil =>
                    cases hs
                    cases hC
                    rfl
                | cons e v => rfl
              · have hlone : ∀ w, readNewline ('\r' :: d :: w) =
                    some (d :: w) := by
                  intro w
                  simp [readNewline, hd]
                rw [List.cons_append, List.cons_append, hlone, hlone]
                rfl
            · have hnone : ∀ w, readNewline (c :: w) = none := by
                intro w
                rw [readNewline_eq_none_iff]
                simp [headIs, isNewlineChar, hlf, hcr]
              rw [List.cons_append, hnone, hnone]
              rfl

theorem readWhitespace_joined (hC : readNewline (last :: B) = some C)
    (hs : s.getLast? = some last) :
    readWhitespace (s ++ B) = (readWhitespace s).map (joined B C) := by
  cases s with
  | nil => cases hs
  | cons c u =>
      by_cases hslash : c = '\\'
      · subst c
        exact readNewline_joined hC (getLast?_tail hC rfl hs)
      · by_cases hspace : c = ' '
        · subst c
          have hu := ne_nil_of_getLast? (getLast?_tail hC rfl hs)
          simp [readWhitespace, joined_of_ne_nil B C hu]
        · by_cases htab : c = '\t'
          · subst c
            have hu := ne_nil_of_getLast? (getLast?_tail hC rfl hs)
            simp [readWhitespace, joined_of_ne_nil B C hu]
          · have hnone : ∀ w, readWhitespace (c :: w) = none := by
              intro w
              unfold readWhitespace
              split <;> simp_all
            rw [List.cons_append, hnone, hnone]
            rfl

theorem readComment_joined (hC : readNewline (last :: B) = some C)
    (hs : s.getLast? = some last) :
    readComment (s ++ B) = (readComment s).map (joined B C) := by
  cases s with
  | nil => cases hs
  | cons c u =>
      by_cases hhash : c = '#'
      · subst c
        obtain ⟨hdrop, -, hend⟩ := dropWhile_joined (B := B)
          (fun c => !isNewlineChar c) (by simp [isNewlineChar_last hC])
          (getLast?_tail hC rfl hs)
        change readNewline ((u ++ B).dropWhile _) = _
        rw [hdrop]
        exact readNewline_joined hC hend
      · have hnone : ∀ w, readComment (c :: w) = none := by
          intro w
          unfold readComment
          split <;> simp_all
        rw [List.cons_append, hnone, hnone]
        rfl

theorem readGap_joined (hC : readNewline (last :: B) = some C)
    (hs : s.getLast? = some last) :
    readGap (s ++ B) = (readGap s).map (joined B C) := by
  unfold readGap
  rw [readWhitespace_joined hC hs, readComment_joined hC hs]
  cases readWhitespace s with
  | none => rfl
  | some t => rfl

/-- A gap of the first text that reaches its end goes on in the second. -/
theorem skip_joined (hC : readNewline (last :: B) = some C) (t : List Char)
    (ht : t ≠ [] → t.getLast? = some last) :
    skip (joined B C t) = joined B (skip C) (skip t) := by
  revert ht
  apply skip_induction (fun t u => (t ≠ [] → t.getLast? = some last) →
    skip (joined B C t) = joined B (skip C) u)
  · intro t hnone ht
    by_cases hne : t = []
    · subst t
      rfl
    · rw [joined_of_ne_nil _ _ hne, joined_of_ne_nil _ _ hne]
      apply skip_of_none
      rw [readGap_joined hC (ht hne), hnone]
      rfl
  · intro t v hsome ih ht
    have hne : t ≠ [] := by
      rintro rfl
      cases hsome
    rw [joined_of_ne_nil _ _ hne]
    have hgap : readGap (t ++ B) = some (joined B C v) := by
      rw [readGap_joined hC (ht hne), hsome]
      rfl
    rw [skip_of_gap hgap]
    apply ih
    intro hv
    exact getLast?_of_suffix (ht hne) (readGap_suffix hsome) hv

theorem skip_append_joined (hC : readNewline (last :: B) = some C)
    (hs : s.getLast? = some last) :
    skip (s ++ B) = joined B (skip C) (skip s) := by
  rw [← skip_joined hC s fun _ => hs,
    joined_of_ne_nil _ _ (ne_nil_of_getLast? hs)]

theorem getLast?_skip (hs : s.getLast? = some last) (hne : skip s ≠ []) :
    (skip s).getLast? = some last :=
  getLast?_of_suffix hs (skip_suffix s) hne

/-! ## Tokens -/

theorem isNameChar_last (hC : readNewline (last :: B) = some C) :
    isNameChar last = false := by
  rw [Bool.eq_false_iff]
  intro hname
  have hline := isNewlineChar_of_nameChar hname
  rw [isNewlineChar_last hC] at hline
  cases hline

theorem readPropertyName_joined (hC : readNewline (last :: B) = some C)
    (hs : s.getLast? = some last) :
    readPropertyName (s ++ B) =
      (readPropertyName s).map fun x => (x.1, x.2 ++ B) := by
  obtain ⟨hdrop, htake, -⟩ := dropWhile_joined (B := B) _ (isNameChar_last hC) hs
  unfold readPropertyName readRunOnce
  simp only [takeTails_headIs, dropTails_headIs, hdrop, htake]
  split_ifs
  · rfl
  · rfl

theorem getLast?_propertyName (hC : readNewline (last :: B) = some C)
    (hs : s.getLast? = some last) {key t : List Char}
    (h : readPropertyName s = some (key, t)) : t.getLast? = some last := by
  rw [(readPropertyName_eq_some h).2]
  exact (dropWhile_joined (B := B) _ (isNameChar_last hC) hs).2.2

theorem isPrefixOf_joined {w : List Char} (hw : OneLine w)
    (hC : readNewline (last :: B) = some C) (hs : s.getLast? = some last) :
    w.isPrefixOf (s ++ B) = w.isPrefixOf s := by
  induction w generalizing s with
  | nil => simp
  | cons a w ih =>
      cases s with
      | nil => cases hs
      | cons c u =>
          rw [List.cons_append, List.isPrefixOf_cons_cons, List.isPrefixOf_cons_cons]
          by_cases hac : a = c
          · subst c
            have hu := getLast?_tail hC (hw a List.mem_cons_self) hs
            rw [ih (fun d hd => hw d (List.mem_cons_of_mem a hd)) hu]
          · rw [beq_false_of_ne hac]
            rfl

theorem readWords_joined {ws : List String}
    (hws : ∀ word ∈ ws, word.toList.all (fun c => !isNewlineChar c) = true)
    (hC : readNewline (last :: B) = some C) (hs : s.getLast? = some last) :
    readWords ws (s ++ B) = (readWords ws s).map fun x => (x.1, x.2 ++ B) := by
  induction ws with
  | nil => rfl
  | cons word ws ih =>
      rw [List.forall_mem_cons] at hws
      have hline : OneLine word.toList := by
        intro c hc
        simpa using List.all_eq_true.mp hws.1 c hc
      unfold readWords
      rw [isPrefixOf_joined hline hC hs]
      split_ifs with hword
      · have hle := (List.isPrefixOf_iff_prefix.mp hword).length_le
        rw [List.drop_append_of_le_length hle]
        rfl
      · exact ih hws.2

theorem getLast?_words {ws : List String}
    (hws : ∀ word ∈ ws, word.toList.all (fun c => !isNewlineChar c) = true)
    (hC : readNewline (last :: B) = some C) (hs : s.getLast? = some last)
    {w t : List Char} (h : readWords ws s = some (w, t)) :
    t.getLast? = some last := by
  have hsplit := readWords_splits ws h
  apply getLast?_of_suffix hs ⟨w, hsplit.symm⟩
  rintro rfl
  rw [List.append_nil] at hsplit
  subst hsplit
  have hline := oneLine_readWords hws h last (List.mem_of_getLast? hs)
  rw [isNewlineChar_last hC] at hline
  cases hline

theorem readActionName_joined (hC : readNewline (last :: B) = some C)
    (hs : s.getLast? = some last) {name t : List Char}
    (h : readActionName s = some (name, t)) :
    readActionName (s ++ B) = some (name, t ++ B) ∧ t.getLast? = some last := by
  refine ⟨?_, getLast?_words (by decide) hC hs h⟩
  unfold readActionName at h ⊢
  rw [readWords_joined (by decide) hC hs, h]
  rfl

theorem isBareStart_joined (hC : readNewline (last :: B) = some C)
    (hs : s.getLast? = some last) : isBareStart (s ++ B) = isBareStart s := by
  have hne := ne_nil_of_getLast? hs
  unfold isBareStart
  rw [readWhitespace_joined hC hs, readNewline_joined hC hs,
    Option.isNone_map, Option.isNone_map]
  cases s with
  | nil => exact absurd rfl hne
  | cons c u => rfl

theorem isBareStart_last (hC : readNewline (last :: B) = some C)
    (t : List Char) : isBareStart (last :: t) = false := by
  have hsome : (readNewline (last :: t)).isNone = false := by
    rw [readNewline_isNone]
    simp [headIs, isNewlineChar_last hC]
  unfold isBareStart
  rw [hsome]
  simp

theorem bareTails_joined (hC : readNewline (last :: B) = some C)
    (hs : s.getLast? = some last) :
    takeTails isBareStart (s ++ B) = takeTails isBareStart s ∧
      dropTails isBareStart (s ++ B) = dropTails isBareStart s ++ B ∧
      (dropTails isBareStart s).getLast? = some last := by
  induction s with
  | nil => cases hs
  | cons c u ih =>
      have hstart := isBareStart_joined hC hs
      rw [List.cons_append] at hstart ⊢
      unfold takeTails dropTails
      rw [hstart]
      split_ifs with hbare
      · have hu : u.getLast? = some last := by
          apply getLast?_of_suffix hs (List.suffix_cons c u)
          rintro rfl
          rw [List.getLast?_singleton, Option.some.injEq] at hs
          rw [hs, isBareStart_last hC] at hbare
          cases hbare
        obtain ⟨htake, hdrop, hend⟩ := ih hu
        exact ⟨by rw [htake], hdrop, hend⟩
      · exact ⟨rfl, rfl, hs⟩

theorem readBare_joined (hC : readNewline (last :: B) = some C)
    (hs : s.getLast? = some last) :
    readBare (s ++ B) = (readBare s).map fun x => (x.1, x.2 ++ B) := by
  obtain ⟨htake, hdrop, -⟩ := bareTails_joined hC hs
  unfold readBare readRunOnce
  rw [htake, hdrop]
  split_ifs
  · rfl
  · rfl

/-! ## Values -/

/-- A value that starts with a double quote and holds no other one. -/
def OpenQuote (value : Text) : Prop :=
  value.head? = some '\"' ∧ '\"' ∉ value.tail

instance (value : Text) : Decidable (OpenQuote value) :=
  inferInstanceAs (Decidable (_ ∧ _))

theorem dropWhile_quote_cases (u : List Char) :
    (u.dropWhile (· != '\"') = [] ∧ '\"' ∉ u) ∨
      ∃ t, u.dropWhile (· != '\"') = '\"' :: t := by
  cases hdrop : u.dropWhile (· != '\"') with
  | nil =>
      refine .inl ⟨rfl, ?_⟩
      intro hmem
      have hall := List.dropWhile_eq_nil_iff.mp hdrop _ hmem
      simp at hall
  | cons d t =>
      have hd : d = '\"' := by
        simpa using head_dropWhile hdrop
      exact .inr ⟨t, by rw [hd]⟩

theorem dropWhile_quote_eq_nil {u : List Char} (h : '\"' ∉ u) :
    u.dropWhile (· != '\"') = [] := by
  apply List.dropWhile_eq_nil_iff.mpr
  intro c hc
  rw [bne_iff_ne]
  rintro rfl
  exact h hc

/-- A quoted string of the first text stays one, and one that is not closed
there is not closed by a text without a double quote. -/
theorem readQuoted_joined {u : List Char} (h : '\"' ∈ u ∨ '\"' ∉ B) :
    readQuoted ('\"' :: (u ++ B)) =
      (readQuoted ('\"' :: u)).map fun x => (x.1, x.2 ++ B) := by
  have hsplit : ∀ v, (v ++ B).dropWhile (· != '\"') =
      if (v.dropWhile (· != '\"')).isEmpty then B.dropWhile (· != '\"')
      else v.dropWhile (· != '\"') ++ B := fun v => List.dropWhile_append
  rcases dropWhile_quote_cases u with ⟨hdrop, hnot⟩ | ⟨t, hdrop⟩
  · have hrest := dropWhile_quote_eq_nil (h.resolve_left hnot)
    simp [readQuoted, hsplit, hdrop, hrest]
  · have htake : (u ++ B).takeWhile (· != '\"') =
        u.takeWhile (· != '\"') := by
      have hlen : (u.takeWhile (· != '\"')).length ≠ u.length := by
        intro heq
        have hsum := congrArg List.length
          (List.takeWhile_append_dropWhile (p := (· != '\"')) (l := u))
        rw [List.length_append, hdrop, List.length_cons] at hsum
        omega
      rw [List.takeWhile_append, if_neg hlen]
    simp [readQuoted, hsplit, hdrop, htake]

theorem readBare_head {w t : List Char} (h : readBare s = some (w, t)) :
    w.head? = s.head? ∧ w <+: s := by
  have hsplit := readRunOnce_splits _ h
  have hlt := readRunOnce_consuming _ h
  cases w with
  | nil =>
      rw [hsplit] at hlt
      simp at hlt
  | cons c w => exact ⟨by rw [hsplit]; rfl, t, hsplit.symm⟩

theorem readQuoted_open {u : List Char} (h : '\"' ∉ u) :
    readQuoted ('\"' :: u) = none := by
  simp [readQuoted, dropWhile_quote_eq_nil h]

theorem getLast?_value (hC : readNewline (last :: B) = some C)
    (hs : s.getLast? = some last) {value t : List Char}
    (h : readPropertyValue s = some (value, t)) : t.getLast? = some last := by
  have hsplit := readPropertyValue_splits h
  have hlast := isNewlineChar_last hC
  apply getLast?_of_suffix hs ⟨value, hsplit.symm⟩
  rintro rfl
  rw [List.append_nil] at hsplit
  subst hsplit
  unfold readPropertyValue at h
  split at h
  · next hquoted =>
      rw [h] at hquoted
      unfold readQuoted at hquoted
      split at hquoted
      · next u =>
          split at hquoted
          · next v hv =>
              simp only [Option.some.injEq, Prod.mk.injEq] at hquoted
              rw [← hquoted.1, ← List.cons_append,
                List.getLast?_append_of_ne_nil _ (by simp),
                List.getLast?_singleton, Option.some.injEq] at hs
              rw [← hs] at hlast
              cases hlast
          · cases hquoted
      · cases hquoted
  · have hline := oneLine_readBare h last (List.mem_of_getLast? hs)
    rw [hlast] at hline
    cases hline

theorem readPropertyValue_joined (hC : readNewline (last :: B) = some C)
    (hs : s.getLast? = some last) {value t : List Char}
    (h : readPropertyValue s = some (value, t))
    (hquote : OpenQuote value → '\"' ∉ B) :
    readPropertyValue (s ++ B) = some (value, t ++ B) := by
  have hjoined : readQuoted (s ++ B) =
      (readQuoted s).map fun x => (x.1, x.2 ++ B) := by
    cases s with
    | nil => cases hs
    | cons c u =>
        by_cases hc : c = '\"'
        · subst c
          apply readQuoted_joined
          by_cases hmem : '\"' ∈ u
          · exact .inl hmem
          · refine .inr (hquote ?_)
            -- the value is the bare word from the open quote on
            unfold readPropertyValue at h
            rw [readQuoted_open hmem] at h
            obtain ⟨hhead, w, hw⟩ := readBare_head h
            refine ⟨hhead, ?_⟩
            cases value with
            | nil => simp
            | cons d v =>
                rw [List.cons_append, List.cons.injEq] at hw
                intro hin
                apply hmem
                rw [← hw.2]
                exact List.mem_append_left _ hin
        · rw [readQuoted_eq_none (by simpa using hc),
            readQuoted_eq_none (by simpa using hc)]
          rfl
  unfold readPropertyValue at h ⊢
  rw [hjoined, readBare_joined hC hs]
  cases hq : readQuoted s with
  | some result =>
      rw [hq] at h
      cases h
      rfl
  | none =>
      rw [hq] at h
      have hbare : readBare s = some (value, t) := h
      rw [hbare]
      rfl

theorem readPropertyValue_joined_none (hC : readNewline (last :: B) = some C)
    (hs : s.getLast? = some last) (h : readPropertyValue s = none) :
    readPropertyValue (s ++ B) = none := by
  unfold readPropertyValue at h ⊢
  split at h
  · cases h
  · have hbare : readBare (s ++ B) = none := by
      rw [readBare_joined hC hs, h]
      rfl
    have hhead : (s ++ B).head? ≠ some '\"' := by
      cases s with
      | nil => cases hs
      | cons c u =>
          intro hc
          rw [List.cons_append, List.head?_cons, Option.some.injEq] at hc
          subst c
          have hstart : isBareStart ('\"' :: u) = true := by
            simp [isBareStart, readWhitespace, readNewline]
          simp [readBare, readRunOnce, takeTails, hstart] at h
    rw [readQuoted_eq_none hhead, hbare]

/-! ## Properties -/

/-- No open double quote of the segments is closed in the second text. -/
def QuotesApart (B : List Char) (ps : List (Segment SegmentKind)) : Prop :=
  ∀ p ∈ ps, isValue p = true → OpenQuote p.text → '\"' ∉ B

theorem QuotesApart.mono {ps qs : List (Segment SegmentKind)}
    (h : QuotesApart B qs) (hsub : ∀ p ∈ ps, p ∈ qs) : QuotesApart B ps :=
  fun p hp => h p (hsub p hp)

/-- Behind the equals sign of a property only blanks and comments are left. -/
def danglingEquals (s : List Char) : Bool :=
  match readPropertyName s with
  | none => false
  | some (_, s₁) =>
      match skip s₁ with
      | '=' :: s₂ => (skip s₂).isEmpty
      | _ => false

theorem danglingEquals_of_some {key s₁ s₂ : List Char}
    (hname : readPropertyName s = some (key, s₁)) (hskip : skip s₁ = '=' :: s₂)
    (hempty : skip s₂ = []) : danglingEquals s = true := by
  unfold danglingEquals
  simp [hname, hskip, hempty]

/-- The name and the equals sign of a property of the first text. -/
theorem propertyName_joined (hC : readNewline (last :: B) = some C)
    (hs : s.getLast? = some last) {key s₁ s₂ : List Char}
    (hname : readPropertyName s = some (key, s₁))
    (hskip : skip s₁ = '=' :: s₂) :
    readPropertyName (s ++ B) = some (key, s₁ ++ B) ∧
      skip (s₁ ++ B) = '=' :: (s₂ ++ B) ∧ s₂.getLast? = some last := by
  have hs₁ := getLast?_propertyName hC hs hname
  have hequals : ('=' :: s₂).getLast? = some last := by
    rw [← hskip]
    exact getLast?_skip hs₁ (by simp [hskip])
  refine ⟨?_, ?_, getLast?_tail hC rfl hequals⟩
  · rw [readPropertyName_joined hC hs, hname]
    rfl
  · rw [skip_append_joined hC hs₁, hskip]
    rfl

theorem skip_ne_nil_of_value {s value t : List Char}
    (h : readPropertyValue (skip s) = some (value, t)) : skip s ≠ [] := by
  intro hnil
  rw [hnil] at h
  cases h

theorem readProperty_joined (hC : readNewline (last :: B) = some C)
    (hs : s.getLast? = some last) {ps : List (Segment SegmentKind)}
    {t : List Char} (h : propertySegments s = some (ps, t))
    (hquote : QuotesApart B ps) :
    ∃ props, readProperty s = some (props, t) ∧
      readProperty (s ++ B) = some (props, t ++ B) ∧
      t.getLast? = some last := by
  obtain ⟨key, s₁, s₂, value, hname, hskip, hvalue, rfl⟩ :=
    propertySegments_eq_some h
  obtain ⟨hname', hskip', hs₂⟩ := propertyName_joined hC hs hname hskip
  have hne := skip_ne_nil_of_value hvalue
  have hopen : OpenQuote value → '\"' ∉ B :=
    hquote ⟨.value, value, t⟩ (by simp [propertyCut]) rfl
  have hvalue' : readPropertyValue (skip (s₂ ++ B)) = some (value, t ++ B) := by
    rw [skip_append_joined hC hs₂, joined_of_ne_nil _ _ hne]
    exact readPropertyValue_joined hC (getLast?_skip hs₂ hne) hvalue hopen
  exact ⟨_, readProperty_of_some hname hskip hvalue,
    readProperty_of_some hname' hskip' hvalue',
    getLast?_value hC (getLast?_skip hs₂ hne) hvalue⟩

theorem readProperty_joined_none (hC : readNewline (last :: B) = some C)
    (hs : s.getLast? = some last) (h : readProperty s = none)
    (hequals : (skip C).head? ≠ some '=')
    (hdangling : danglingEquals s = true →
      readPropertyValue (skip C) = none) :
    readProperty (s ++ B) = none := by
  by_contra hsome
  obtain ⟨⟨props, t⟩, hread⟩ := Option.ne_none_iff_exists'.mp hsome
  obtain ⟨key, s₁', s₂', value, hname', hskip', hvalue', -⟩ :=
    readProperty_eq_some hread
  rw [readPropertyName_joined hC hs] at hname'
  obtain ⟨⟨key', s₁⟩, hname, heq⟩ := Option.map_eq_some_iff.mp hname'
  cases heq
  have hs₁ := getLast?_propertyName hC hs hname
  rw [skip_append_joined hC hs₁] at hskip'
  cases hskip : skip s₁ with
  | nil =>
      rw [hskip, joined_nil] at hskip'
      rw [hskip'] at hequals
      exact hequals rfl
  | cons c s₂ =>
      have hne : skip s₁ ≠ [] := by simp [hskip]
      have hend := getLast?_skip hs₁ hne
      rw [hskip] at hend
      rw [hskip, joined_of_ne_nil _ _ (by simp), List.cons_append,
        List.cons.injEq] at hskip'
      obtain ⟨rfl, rfl⟩ := hskip'
      have hs₂ := getLast?_tail hC rfl hend
      rw [skip_append_joined hC hs₂] at hvalue'
      by_cases hempty : skip s₂ = []
      · rw [hempty, joined_nil, hdangling
          (danglingEquals_of_some hname hskip hempty)] at hvalue'
        cases hvalue'
      · rw [joined_of_ne_nil _ _ hempty] at hvalue'
        cases hread : readPropertyValue (skip s₂) with
        | none =>
            rw [readPropertyValue_joined_none hC (getLast?_skip hs₂ hempty)
              hread] at hvalue'
            cases hvalue'
        | some result =>
            rw [readProperty_of_some hname hskip hread] at h
            cases h

theorem gapped_eq_some {t : List Char} {xs : List (Segment SegmentKind)}
    (h : andThen gapSegments propertySegments s = some (xs, t)) :
    ∃ ps, propertySegments (skip s) = some (ps, t) ∧ xs = gapsOf s ++ ps := by
  rw [andThen_of_some (gapSegments_eq s)] at h
  obtain ⟨⟨ps, u⟩, hread, heq⟩ := Option.map_eq_some_iff.mp h
  cases heq
  exact ⟨ps, hread, rfl⟩

/-- The loop over the properties of the first text stops where it stopped. -/
theorem properties_joined (hC : readNewline (last :: B) = some C)
    (hs : s.getLast? = some last)
    (hquote : QuotesApart B (propertiesCut s).1)
    (hstop : readProperty (joined B (skip C) (skip (propertiesCut s).2)) =
      none) :
    repeatAll skip readProperty (s ++ B) =
        ((repeatAll skip readProperty s).1, (propertiesCut s).2 ++ B) ∧
      (propertiesCut s).2.getLast? = some last := by
  revert hs hquote hstop
  unfold propertiesCut
  apply repeatAll_induction shrinking_id gapped_consuming (fun s result =>
    s.getLast? = some last → QuotesApart B result.1 →
    readProperty (joined B (skip C) (skip result.2)) = none →
      repeatAll skip readProperty (s ++ B) =
          ((repeatAll skip readProperty s).1, result.2 ++ B) ∧
        result.2.getLast? = some last)
  · intro s hnone hs _ hstop
    have hread : readProperty (skip s) = none := by
      rw [id, andThen_of_some (gapSegments_eq s), Option.map_eq_none_iff] at hnone
      exact propertySegments_simulates.none_iff.mp hnone
    rw [← skip_append_joined hC hs] at hstop
    rw [repeatAll_of_none skip_shrinking readProperty_consuming hstop,
      repeatAll_of_none skip_shrinking readProperty_consuming hread]
    exact ⟨rfl, hs⟩
  · intro s xs t hround ih hs hquote hstop
    rw [id] at hround
    obtain ⟨ps, hps, rfl⟩ := gapped_eq_some hround
    have hne : skip s ≠ [] := by
      intro hnil
      rw [hnil] at hps
      cases hps
    obtain ⟨props, hread, hread', ht⟩ := readProperty_joined hC
      (getLast?_skip hs hne) hps
      (hquote.mono fun p hp => by simp [hp])
    rw [← joined_of_ne_nil B (skip C) hne, ← skip_append_joined hC hs] at hread'
    obtain ⟨hloop, hend⟩ := ih ht (hquote.mono fun p hp => by simp [hp]) hstop
    rw [repeatAll_of_some skip_shrinking readProperty_consuming hread',
      repeatAll_of_some skip_shrinking readProperty_consuming hread, hloop]
    exact ⟨rfl, hend⟩

end Seam

end Ips.Manifest
