import Ips.ManifestAppend

/-!
# Manifests that do not depend on what follows

A text composes with every text behind it exactly when no double quote is left
open in it and it was not read by looking past its end.  For the other texts
one single text behind them is enough to make `Manifest::parse_string` fail.
-/

namespace Ips.Manifest

open Peg

/-! ## Segments that depend on the text behind them -/

/-- The segment is read in another way when some other text follows. -/
def Dependent (p : Segment SegmentKind) : Prop :=
  (isValue p = true ∧ OpenQuote p.text) ∨ LooksAhead p

instance (p : Segment SegmentKind) : Decidable (Dependent p) :=
  inferInstanceAs (Decidable (_ ∨ _))

/-- No segment of the text depends on what follows the text. -/
def SelfContained (content : Text) : Prop :=
  ∀ p ∈ manifestSegments content, ¬ Dependent p

instance (content : Text) : Decidable (SelfContained content) :=
  inferInstanceAs (Decidable (∀ p ∈ manifestSegments content, ¬ Dependent p))

section Independent

variable {ps : List (Segment SegmentKind)} (h : ∀ p ∈ ps, ¬ Dependent p)

include h

theorem quotesApart_of_independent (B : List Char) : QuotesApart B ps :=
  fun p hp hvalue hopen => absurd (.inl ⟨hvalue, hopen⟩) (h p hp)

theorem endsApart_of_independent (C : List Char) : EndsApart C ps :=
  fun p hp hahead => absurd (.inr hahead) (h p hp)

end Independent

theorem IsPart.not_looksAhead {p : Segment SegmentKind} (h : IsPart p) :
    ¬ LooksAhead p := by
  rintro (⟨hkind, -⟩ | ⟨hkind, -⟩)
  · exact h.2.1 hkind
  · exact h.1 hkind

theorem IsGap.not_dependent {p : Segment SegmentKind} (h : IsGap p) :
    ¬ Dependent p := by
  intro hdep
  obtain ⟨hvalue, -⟩ := hdep.resolve_right h.isPart.not_looksAhead
  rcases h.1 with hkind | hkind
  · simp [isValue, hkind] at hvalue
  · simp [isValue, hkind] at hvalue

theorem not_dependent_word {p : Segment SegmentKind} (h : p.kind = .word) :
    ¬ Dependent p := by
  simp [Dependent, isValue, LooksAhead, h]

/-! ## A text that shows the dependence -/

/-- An action that no text before it can take over. -/
def strayText : Text := "dir x y=\"z\"\n".toList

/-- What is left of it behind its first double quote. -/
def quoteRest : Text := "z\"\n".toList

/-- What is left of it behind its first word. -/
def wordRest : Text := " x y=\"z\"\n".toList

/-- Neither a property nor the end of an action or of the properties of a
transform follows. -/
def Dead (t : List Char) : Prop :=
  readProperty (skip t) = none ∧ readTerminator (skip t) = none ∧
    readWords ["->"] (skip t) = none

theorem dead_texts : Dead strayText ∧ Dead quoteRest ∧ Dead wordRest ∧
    readPropertyValue strayText = some ("dir".toList, wordRest) := by
  unfold Dead
  decide +kernel

theorem dead_strayText : Dead strayText := dead_texts.1

theorem dead_quoteRest : Dead quoteRest := dead_texts.2.1

theorem dead_wordRest : Dead wordRest := dead_texts.2.2.1

theorem skip_strayText : skip strayText = strayText :=
  skip_eq_self_of_head _ (by decide)

theorem Dead.repeatAll_eq {t : List Char} (h : Dead t) :
    repeatAll skip readProperty t = ([], t) :=
  repeatAll_of_none skip_shrinking readProperty_consuming h.1

section Stray

variable {last : Char} {s : List Char}

theorem readNewline_strayText (hlast : isNewlineChar last = true) :
    readNewline (last :: strayText) = some strayText := by
  rcases (by simpa [isNewlineChar] using hlast : last = '\n' ∨ last = '\r') with
    rfl | rfl
  · rfl
  · rfl

/-- An open double quote is closed by the first one of the stray text. -/
theorem readPropertyValue_stray {value t : List Char}
    (h : readPropertyValue s = some (value, t)) (hopen : OpenQuote value) :
    ∃ w, readPropertyValue (s ++ strayText) = some (w, quoteRest) := by
  have hsplit := readPropertyValue_splits h
  obtain ⟨v, rfl⟩ := List.head?_eq_some_iff.mp hopen.1
  subst hsplit
  have hnot : '\"' ∉ v ++ t := by
    intro hmem
    rcases dropWhile_quote_cases (v ++ t) with ⟨-, hno⟩ | ⟨u, hdrop⟩
    · exact hno hmem
    · have hquoted : readQuoted ('\"' :: v ++ t) =
          some ('\"' :: ((v ++ t).takeWhile (· != '\"') ++ ['\"']), u) := by
        simp [readQuoted, hdrop]
      unfold readPropertyValue at h
      rw [hquoted] at h
      simp only [Option.some.injEq, Prod.mk.injEq, List.cons.injEq] at h
      apply hopen.2
      rw [List.tail_cons, ← h.1.2]
      simp
  have hdrop : ((v ++ t) ++ strayText).dropWhile (· != '\"') =
      '\"' :: quoteRest := by
    rw [List.dropWhile_append, dropWhile_quote_eq_nil hnot]
    rfl
  refine ⟨'\"' :: (((v ++ t) ++ strayText).takeWhile (· != '\"') ++ ['\"']), ?_⟩
  have hquoted : readQuoted ('\"' :: ((v ++ t) ++ strayText)) =
      some ('\"' :: (((v ++ t) ++ strayText).takeWhile (· != '\"') ++ ['\"']),
        quoteRest) := by
    simp only [readQuoted, hdrop]
  unfold readPropertyValue
  rw [show '\"' :: v ++ t ++ strayText = '\"' :: ((v ++ t) ++ strayText) from rfl,
    hquoted]

/-! ## Properties -/

theorem readProperty_stray (hs : s.getLast? = some last)
    (hlast : isNewlineChar last = true) {ps : List (Segment SegmentKind)}
    {t : List Char} (h : propertySegments s = some (ps, t))
    (hopen : ∃ p ∈ ps, Dependent p) :
    ∃ props, readProperty (s ++ strayText) = some (props, quoteRest) := by
  have hC := readNewline_strayText hlast
  have hpart := (cuts_propertySegments h).2
  obtain ⟨key, s₁, s₂, value, hname, hskip, hvalue, rfl⟩ :=
    propertySegments_eq_some h
  obtain ⟨p, hp, hdep⟩ := hopen
  obtain ⟨hkind, hquote⟩ := hdep.resolve_right (hpart p hp).not_looksAhead
  have hmem : p ∈ (propertyCut key s₁ s₂ value t).filter isValue :=
    List.mem_filter.mpr ⟨hp, hkind⟩
  rw [filter_propertyCut, List.mem_singleton] at hmem
  subst hmem
  obtain ⟨hname', hskip', hs₂⟩ := propertyName_joined hC hs hname hskip
  have hne := skip_ne_nil_of_value hvalue
  obtain ⟨w, hw⟩ := readPropertyValue_stray hvalue hquote
  have hvalue' : readPropertyValue (skip (s₂ ++ strayText)) =
      some (w, quoteRest) := by
    rw [skip_append_joined hC hs₂, joined_of_ne_nil _ _ hne]
    exact hw
  exact ⟨_, readProperty_of_some hname' hskip' hvalue'⟩

theorem properties_stray (hs : s.getLast? = some last)
    (hlast : isNewlineChar last = true)
    (hopen : ∃ p ∈ (propertiesCut s).1, Dependent p) :
    (repeatAll skip readProperty (s ++ strayText)).2 = quoteRest := by
  have hC := readNewline_strayText hlast
  revert hs hopen
  unfold propertiesCut
  apply repeatAll_induction shrinking_id gapped_consuming (fun s result =>
    s.getLast? = some last → (∃ p ∈ result.1, Dependent p) →
      (repeatAll skip readProperty (s ++ strayText)).2 = quoteRest)
  · rintro s - - ⟨p, hp, -⟩
    cases hp
  · intro s xs t hround ih hs hopen
    rw [id] at hround
    obtain ⟨ps, hps, rfl⟩ := gapped_eq_some hround
    have hne : skip s ≠ [] := by
      intro hnil
      rw [hnil] at hps
      cases hps
    have hskip : skip (s ++ strayText) = skip s ++ strayText := by
      rw [skip_append_joined hC hs, joined_of_ne_nil _ _ hne]
    by_cases hfirst : ∃ p ∈ ps, Dependent p
    · obtain ⟨props, hread⟩ :=
        readProperty_stray (getLast?_skip hs hne) hlast hps hfirst
      rw [← hskip] at hread
      rw [repeatAll_of_some skip_shrinking readProperty_consuming hread,
        dead_quoteRest.repeatAll_eq]
    · push Not at hfirst
      obtain ⟨props, -, hread, ht⟩ := readProperty_joined hC
        (getLast?_skip hs hne) hps (quotesApart_of_independent hfirst _)
      rw [← hskip] at hread
      rw [repeatAll_of_some skip_shrinking readProperty_consuming hread]
      apply ih ht
      obtain ⟨p, hp, hdep⟩ := hopen
      rcases List.mem_append.mp hp with hp | hp
      · rcases List.mem_append.mp hp with hp | hp
        · exact absurd hdep (isGap_of_mem hp).not_dependent
        · exact absurd hdep (hfirst p hp)
      · exact ⟨p, hp, hdep⟩

/-! ## Actions -/

theorem danglingEquals_cases (h : danglingEquals s = true) :
    ∃ key s₁ s₂, readPropertyName s = some (key, s₁) ∧
      skip s₁ = '=' :: s₂ ∧ skip s₂ = [] := by
  unfold danglingEquals at h
  split at h
  · cases h
  · next key s₁ hname =>
      split at h
      · next s₂ hskip =>
          exact ⟨key, s₁, s₂, hname, hskip, List.isEmpty_iff.mp h⟩
      · cases h

/-- A payload that is followed by a value becomes a property. -/
theorem readProperty_dangling (hs : s.getLast? = some last)
    (hlast : isNewlineChar last = true) (h : danglingEquals s = true) :
    ∃ props, readProperty (s ++ strayText) = some (props, wordRest) := by
  have hC := readNewline_strayText hlast
  obtain ⟨key, s₁, s₂, hname, hskip, hempty⟩ := danglingEquals_cases h
  obtain ⟨hname', hskip', hs₂⟩ := propertyName_joined hC hs hname hskip
  have hword := dead_texts.2.2.2
  have hvalue : readPropertyValue (skip (s₂ ++ strayText)) =
      some ("dir".toList, wordRest) := by
    rw [skip_append_joined hC hs₂, hempty, joined_nil, skip_strayText]
    exact hword
  exact ⟨_, readProperty_of_some hname' hskip' hvalue⟩

theorem readContent_stray (hs : s.getLast? = some last)
    (hlast : isNewlineChar last = true) {ps : List (Segment SegmentKind)}
    {t : List Char} (h : contentSegments s = some (ps, t))
    (hdep : ∃ p ∈ ps, Dependent p) :
    ∃ content rest, readContent (s ++ strayText) = some (content, rest) ∧
      Dead rest := by
  rcases orElse_eq_some h with hprop | ⟨-, hpayload⟩
  · obtain ⟨props, hread⟩ := readProperty_stray hs hlast hprop hdep
    exact ⟨([], props), quoteRest, readContent_of_property hread,
      dead_quoteRest⟩
  · obtain ⟨payload, hvalue, rfl⟩ := readSegment_eq_some hpayload
    have hsplit := readPropertyValue_splits hvalue
    obtain ⟨p, hp, hdep⟩ := hdep
    cases List.mem_singleton.mp hp
    rcases hdep with ⟨-, hopen⟩ | hahead
    · obtain ⟨w, hw⟩ := readPropertyValue_stray hvalue hopen
      have hnone : readProperty (s ++ strayText) = none := by
        obtain ⟨v, hv⟩ := List.head?_eq_some_iff.mp hopen.1
        dsimp only at hv
        apply readProperty_eq_none
        rw [hsplit, hv]
        rfl
      exact ⟨(w, []), quoteRest, readContent_of_payload hnone hw,
        dead_quoteRest⟩
    · have hdangling : danglingEquals s = true := by
        rcases hahead with ⟨hkind, -⟩ | ⟨-, hdangling⟩
        · cases hkind
        · rw [hsplit]
          exact hdangling
      obtain ⟨props, hread⟩ := readProperty_dangling hs hlast hdangling
      exact ⟨([], props), wordRest, readContent_of_property hread,
        dead_wordRest⟩

/-- An action whose content and properties do not depend on what follows and
that ends with its own line break. -/
theorem not_dependent_of_body {name s₁ s₂ w t : List Char}
    {cut : List (Segment SegmentKind)}
    (hcut : ∀ p ∈ cut, ¬ Dependent p)
    (hprops : ∀ p ∈ (propertiesCut s₂).1, ¬ Dependent p)
    (hne : skip (propertiesCut s₂).2 ≠ [])
    (hterm : readTerminator (skip (propertiesCut s₂).2) = some t)
    (hw : skip (propertiesCut s₂).2 = w ++ t) :
    ∀ p ∈ bodyCut name s₁ cut s₂ ++ [⟨.terminator, w, t⟩], ¬ Dependent p := by
  intro p hp
  simp only [bodyCut, List.cons_append, List.append_assoc, List.mem_cons,
    List.mem_append, List.not_mem_nil, or_false] at hp
  rcases hp with rfl | hp | hp | hp | hp | rfl
  · exact not_dependent_word rfl
  · exact (isGap_of_mem hp).not_dependent
  · exact hcut p hp
  · exact hprops p hp
  · exact (isGap_of_mem hp).not_dependent
  · rintro (⟨hvalue, -⟩ | ⟨-, hempty⟩ | ⟨hkind, -⟩)
    · cases hvalue
    · rcases readTerminator_cases hterm with hn | ⟨hnil, -⟩
      · have hlt := readNewline_length_lt hn
        rw [hw, show w = [] from hempty] at hlt
        simp at hlt
      · exact hne hnil
    · cases hkind

/-- An action with a segment that depends on what follows cannot be read in
front of the stray text. -/
theorem readAction_stray (hs : s.getLast? = some last)
    (hlast : isNewlineChar last = true) {ps : List (Segment SegmentKind)}
    {t : List Char} (h : actionSegments s = some (ps, t))
    (hdep : ∃ p ∈ ps, Dependent p) : readAction (s ++ strayText) = none := by
  have hC := readNewline_strayText hlast
  obtain ⟨name, s₁, cut, s₂, w, -, hname', hskip, hs₁, hcontent, hterm, hw, rfl⟩ :=
    readAction_head_joined hC hs h
  by_contra hsome
  obtain ⟨⟨act, t'⟩, hread⟩ := Option.ne_none_iff_exists'.mp hsome
  obtain ⟨_, _, content', s₂', hname'', hcontent', hterm', -⟩ :=
    readAction_eq_some hread
  rw [hname'] at hname''
  cases hname''
  rw [hskip] at hcontent'
  by_cases hfirst : ∃ p ∈ cut, Dependent p
  · obtain ⟨content, rest, hread', hdead⟩ :=
      readContent_stray hs₁ hlast hcontent hfirst
    rw [hread'] at hcontent'
    cases hcontent'
    rw [hdead.repeatAll_eq, hdead.2.1] at hterm'
    cases hterm'
  · push Not at hfirst
    obtain ⟨content, -, hread', hs₂⟩ := readContent_joined hC
      hs₁ hcontent (quotesApart_of_independent hfirst _)
      (endsApart_of_independent hfirst _) (by rw [skip_strayText]; decide)
    rw [hread'] at hcontent'
    cases hcontent'
    by_cases hprops : ∃ p ∈ (propertiesCut s₂).1, Dependent p
    · rw [properties_stray hs₂ hlast hprops, dead_quoteRest.2.1] at hterm'
      cases hterm'
    · push Not at hprops
      by_cases hempty : skip (propertiesCut s₂).2 = []
      · have hstop : readProperty (joined strayText (skip strayText)
            (skip (propertiesCut s₂).2)) = none := by
          rw [hempty]
          exact dead_strayText.1
        obtain ⟨hloop, hend⟩ := properties_joined hC hs₂
          (quotesApart_of_independent hprops _) hstop
        rw [hloop, skip_append_joined hC hend, hempty, joined_nil,
          dead_strayText.2.1] at hterm'
        cases hterm'
      · obtain ⟨p, hp, hdep⟩ := hdep
        exact not_dependent_of_body hfirst hprops hempty hterm hw p hp hdep

/-! ## Transforms -/

theorem readTransform_stray (hs : s.getLast? = some last)
    (hlast : isNewlineChar last = true) {t : List Char}
    (h : readTransform s = some t)
    (hdep : ∃ p ∈ transformProperties s, Dependent p) :
    readTransform (s ++ strayText) = none := by
  have hC := readNewline_strayText hlast
  obtain ⟨opening, s₁, name, s₂, ps, s₃, -, -, -, hopening, hname, hskip, hs₂,
    hps, hall, -⟩ := readTransform_head_joined hC hs h
  rw [hall] at hdep
  by_contra hsome
  obtain ⟨t', hread⟩ := Option.ne_none_iff_exists'.mp hsome
  obtain ⟨_, _, _, _, props', s₃', _, _, _, hopening', hname', hprops',
    harrow', -⟩ := readTransform_eq_some hread
  rw [hopening] at hopening'
  cases hopening'
  rw [hname] at hname'
  cases hname'
  rw [hskip] at hprops'
  by_cases hfirst : ∃ p ∈ ps, Dependent p
  · obtain ⟨more, hmore⟩ := readProperty_stray hs₂ hlast hps hfirst
    rw [hmore] at hprops'
    cases hprops'
    rw [dead_quoteRest.repeatAll_eq, dead_quoteRest.2.2] at harrow'
    cases harrow'
  · push Not at hfirst
    obtain ⟨more, -, hmore, hs₃⟩ := readProperty_joined hC hs₂ hps
      (quotesApart_of_independent hfirst _)
    rw [hmore] at hprops'
    cases hprops'
    obtain ⟨p, hp, hdep⟩ := hdep
    have hlater : ∃ p ∈ (propertiesCut s₃).1, Dependent p := by
      rcases List.mem_append.mp hp with hp | hp
      · exact absurd hdep (hfirst p hp)
      · exact ⟨p, hp, hdep⟩
    rw [properties_stray hs₃ hlast hlater, dead_quoteRest.2.2] at harrow'
    cases harrow'

/-! ## Items -/

theorem readItem_stray (hs : s.getLast? = some last)
    (hlast : isNewlineChar last = true) {items : List Item} {t : List Char}
    (h : readItem s = some (items, t))
    (hdep : ∃ p ∈ itemSegments s, Dependent p) :
    readItem (s ++ strayText) = none := by
  have hC := readNewline_strayText hlast
  have hnewline := readNewline_joined hC hs
  unfold itemSegments at hdep
  rcases readItem_cases h with ⟨hn, -⟩ | ⟨hn, htransform, -⟩ |
    ⟨hn, htransform, act, haction, -⟩
  · rw [hn] at hdep
    obtain ⟨p, hp, -⟩ := hdep
    cases hp
  · simp only [hn, htransform] at hdep
    have hread := readTransform_stray hs hlast htransform hdep
    have hname : readAction (s ++ strayText) = none := by
      obtain ⟨opening, s₁, _, _, _, _, _, _, _, hopening, -⟩ :=
        readTransform_eq_some htransform
      obtain ⟨word, hmem, rfl⟩ := readWords_mem hopening
      cases List.mem_singleton.mp hmem
      rw [readWords_splits _ hopening]
      simp [readAction, readActionName, readWords, keywords]
    unfold readItem
    rw [hnewline, hn, Option.map_none, hread, hname]
  · obtain ⟨ps, hps, -⟩ := actionSegments_simulates.exists_of_some haction
    have hsegments : segmentsOf s = ps := by
      unfold segmentsOf
      rw [hps]
      rfl
    simp only [hn, htransform, hsegments] at hdep
    obtain ⟨name, s₁, _, _, hname, -, -, -⟩ := readAction_eq_some haction
    obtain ⟨hname', -⟩ := readActionName_joined hC hs hname
    obtain ⟨hn', htransform'⟩ := readTransform_of_name hname'
    unfold readItem
    rw [hn', htransform', readAction_stray hs hlast hps hdep]

end Stray

/-! ## Whole texts -/

/-- Behind a text that depends on what follows, the stray text is not read. -/
theorem not_holdsActions_stray {last : Char}
    (hlast : isNewlineChar last = true) (s : List Char) :
    ∀ actions, (s ≠ [] → s.getLast? = some last) → HoldsActions s actions →
      (∃ p ∈ manifestSegments s, Dependent p) →
        ∀ others, ¬ HoldsActions (s ++ strayText) others := by
  have hC := readNewline_strayText hlast
  unfold manifestSegments
  apply repeatAll_induction skip_shrinking readItemSegments_consuming
    (fun s result => ∀ actions, (s ≠ [] → s.getLast? = some last) →
      HoldsActions s actions → (∃ p ∈ result.1, Dependent p) →
        ∀ others, ¬ HoldsActions (s ++ strayText) others)
  · rintro s - _ - - ⟨p, hp, -⟩
    cases hp
  · intro s ps t hround ih actions hs hholds hdep others hothers
    obtain ⟨⟨items, u⟩, hread, heq⟩ := Option.map_eq_some_iff.mp hround
    cases heq
    obtain ⟨hne, hs'⟩ := getLast?_of_readItem hs hread
    have hskip : skip (s ++ strayText) = skip s ++ strayText := by
      rw [skip_append_joined hC hs', joined_of_ne_nil _ _ hne]
    by_cases hfirst : ∃ p ∈ itemSegments (skip s), Dependent p
    · have hnone := readItem_stray (getLast?_skip hs' hne) hlast hread hfirst
      have hsome := hothers.readItem_isSome (by rw [hskip]; simp [hne])
      rw [hskip, hnone] at hsome
      cases hsome
    · push Not at hfirst
      obtain ⟨t', hread', ht'⟩ := readItem_joined hC (getLast?_skip hs' hne) hread
        (quotesApart_of_independent hfirst _)
        (endsApart_of_independent hfirst _) (by rw [skip_strayText]; decide)
      have hrest : t' = u ++ strayText := by
        rcases ht' with rfl | ⟨-, hterm⟩
        · by_cases hu : u = []
          · rw [hu]
            rfl
          · exact joined_of_ne_nil _ _ hu
        · rw [dead_strayText.2.1] at hterm
          cases hterm
      subst hrest
      rw [← hskip] at hread'
      have hu : u ≠ [] → u.getLast? = some last := by
        intro hune
        exact getLast?_of_suffix hs'
          ((readItem_suffix hread).trans (skip_suffix s)) hune
      unfold HoldsActions at hholds hothers
      rw [repeatAll_of_some skip_shrinking readItem_consuming hread] at hholds
      rw [repeatAll_of_some skip_shrinking readItem_consuming hread'] at hothers
      obtain ⟨p, hp, hdep⟩ := hdep
      have hlater : ∃ p ∈ (repeatAll skip readItemSegments u).1, Dependent p := by
        rcases List.mem_append.mp hp with hp | hp
        · exact absurd hdep (hfirst p hp)
        · exact ⟨p, hp, hdep⟩
      exact ih _ hu ⟨rfl, hholds.2⟩ hlater _ ⟨rfl, hothers.2⟩

theorem separable_of_selfContained {A : Text} (h : SelfContained A) (B : Text) :
    Separable A B :=
  ⟨quotesApart_of_independent h B, endsApart_of_independent h _⟩

theorem exists_last_break {A : Text}
    (h : A.getLast?.any isNewlineChar = true) :
    ∃ last, A.getLast? = some last ∧ isNewlineChar last = true := by
  cases hlast : A.getLast? with
  | none =>
      rw [hlast] at h
      cases h
  | some last =>
      rw [hlast] at h
      exact ⟨last, rfl, h⟩

/-- A text that ends with a line break composes with every text behind it
exactly when it is self-contained. -/
theorem composes_iff_selfContained {A : Text} {a : Manifest}
    (hbreak : A.getLast?.any isNewlineChar = true)
    (hA : parseString A = .ok a) :
    (∀ B b, parseString B = .ok b →
      parseString (A ++ B) = .ok (a.append b)) ↔ SelfContained A := by
  obtain ⟨last, hend, hline⟩ := exists_last_break hbreak
  constructor
  · intro hall
    by_contra hdep
    unfold SelfContained at hdep
    push Not at hdep
    have hstray : parseString strayText = .ok { directories := [{}] } := by
      decide +kernel
    obtain ⟨actions, hread, -⟩ := exists_actions hA
    obtain ⟨others, hread', -⟩ := exists_actions (hall _ _ hstray)
    have hholds :=
      (readActions_eq_some_iff (skip_ne_nil_of_read hread) actions).mp hread
    have hothers :=
      (readActions_eq_some_iff (skip_ne_nil_of_read hread') others).mp hread'
    exact not_holdsActions_stray hline A actions (fun _ => hend) hholds hdep
      others hothers
  · intro hself B b hB
    exact parseString_of_separable hend hline hA hB
      (separable_of_selfContained hself B)

/-- Behind a text that ends with a line break, a text that it is separable from
adds its manifest to the manifest of the first one. -/
theorem parseString_append {A B : Text} {a b : Manifest}
    (hbreak : A.getLast?.any isNewlineChar = true)
    (hA : parseString A = .ok a) (hB : parseString B = .ok b)
    (hsep : Separable A B) : parseString (A ++ B) = .ok (a.append b) := by
  obtain ⟨last, hend, hline⟩ := exists_last_break hbreak
  exact parseString_of_separable hend hline hA hB hsep

theorem parseString_append_lines :
    parseString ("dir path=a\n# x\n".toList ++ "dir path=b\n".toList) =
      .ok { directories :=
        [{ path := "a".toList }, { path := "b".toList }] } := by
  have hA : parseString "dir path=a\n# x\n".toList =
      .ok { directories := [{ path := "a".toList }] } := by decide +kernel
  have hB : parseString "dir path=b\n".toList =
      .ok { directories := [{ path := "b".toList }] } := by decide +kernel
  exact parseString_append (by decide) hA hB (by decide +kernel)

/-- The line break at the end of the first text continues its action. -/
theorem parseString_append_continued :
    ¬ ∀ A B a b, A.getLast?.any isNewlineChar = true →
        parseString A = .ok a → parseString B = .ok b →
          parseString (A ++ B) = .ok (a.append b) := by
  intro h
  have hjoined := h "dir path=a \\\n".toList "dir path=b\n".toList
    { directories := [{ path := "a".toList }] }
    { directories := [{ path := "b".toList }] } (by decide) (by decide +kernel)
    (by decide +kernel)
  revert hjoined
  decide +kernel

end Ips.Manifest
