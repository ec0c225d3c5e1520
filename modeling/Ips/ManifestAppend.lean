import Ips.ManifestSeam

/-!
# Manifests one behind the other

What `Manifest::parse_string` reads from a text that is followed by another
one.  The first text ends with a line break.  Reading it can still depend on
what follows: an action may have been ended by the end of the text, a property
may have had no value, and a double quote may have been left open.
-/

namespace Ips.Manifest

open Peg

section Seam

variable {last : Char} {B C s : List Char}

/-! ## Actions -/

/-- The segment was read by looking past the end of the text: a terminator that
is the end of the text, or a payload that would be a property with a value
behind it. -/
def LooksAhead (p : Segment SegmentKind) : Prop :=
  (p.kind = .terminator ∧ p.text = []) ∨
    (p.kind = .payload ∧ danglingEquals p.start = true)

instance (p : Segment SegmentKind) : Decidable (LooksAhead p) :=
  inferInstanceAs (Decidable (_ ∨ _))

/-- A line break, or the end of the text, follows where the segments looked
ahead. -/
def EndsApart (C : List Char) (ps : List (Segment SegmentKind)) : Prop :=
  ∀ p ∈ ps, LooksAhead p → readTerminator (skip C) ≠ none

theorem EndsApart.mono {ps qs : List (Segment SegmentKind)}
    (h : EndsApart C qs) (hsub : ∀ p ∈ ps, p ∈ qs) : EndsApart C ps :=
  fun p hp => h p (hsub p hp)

theorem headIs_of_terminator {v : List Char} (h : readTerminator v ≠ none) :
    v = [] ∨ headIs isNewlineChar v = true := by
  unfold readTerminator at h
  cases hn : readNewline v with
  | some t =>
      right
      rw [← Bool.not_eq_false, ← readNewline_eq_none_iff, hn]
      simp
  | none =>
      left
      by_contra hne
      simp [hn, hne] at h

theorem readProperty_of_terminator {v : List Char}
    (h : readTerminator v ≠ none) : readProperty v = none := by
  apply readProperty_eq_none
  rcases headIs_of_terminator h with rfl | hhead
  · rfl
  · cases v with
    | nil => rfl
    | cons c v =>
        rw [Bool.eq_false_iff]
        intro hname
        have hline := isNewlineChar_of_nameChar hname
        rw [show isNewlineChar c = true from hhead] at hline
        cases hline

theorem readPropertyValue_of_terminator {v : List Char}
    (h : readTerminator v ≠ none) : readPropertyValue v = none := by
  rcases headIs_of_terminator h with rfl | hhead
  · rfl
  · cases v with
    | nil => rfl
    | cons c v =>
        have hline : isNewlineChar c = true := hhead
        have hquote : (c :: v).head? ≠ some '\"' := by
          intro hc
          cases hc
          cases hline
        have hstart : isBareStart (c :: v) = false := by
          have hsome : (readNewline (c :: v)).isNone = false := by
            rw [readNewline_isNone, hhead]
            rfl
          unfold isBareStart
          rw [hsome]
          simp
        unfold readPropertyValue
        rw [readQuoted_eq_none hquote]
        simp [readBare, readRunOnce, takeTails, hstart]

theorem readContent_joined (hC : readNewline (last :: B) = some C)
    (hs : s.getLast? = some last) {ps : List (Segment SegmentKind)}
    {t : List Char} (h : contentSegments s = some (ps, t))
    (hquote : QuotesApart B ps) (hends : EndsApart C ps)
    (hequals : (skip C).head? ≠ some '=') :
    ∃ content, readContent s = some (content, t) ∧
      readContent (s ++ B) = some (content, t ++ B) ∧
      t.getLast? = some last := by
  rcases orElse_eq_some h with hprop | ⟨hnone, hpayload⟩
  · obtain ⟨props, hread, hread', ht⟩ := readProperty_joined hC hs hprop hquote
    refine ⟨([], props), ?_, ?_, ht⟩
    · exact readContent_of_property hread
    · exact readContent_of_property hread'
  · obtain ⟨payload, hvalue, rfl⟩ := readSegment_eq_some hpayload
    have hread := propertySegments_simulates.none_iff.mp hnone
    have hstart : s = (⟨.payload, payload, t⟩ : Segment SegmentKind).start :=
      readPropertyValue_splits hvalue
    have hread' : readProperty (s ++ B) = none := by
      apply readProperty_joined_none hC hs hread hequals
      intro hdangling
      rw [hstart] at hdangling
      exact readPropertyValue_of_terminator
        (hends _ List.mem_cons_self (.inr ⟨rfl, hdangling⟩))
    have hvalue' := readPropertyValue_joined hC hs hvalue
      (hquote _ List.mem_cons_self rfl)
    refine ⟨(payload, []), ?_, ?_, getLast?_value hC hs hvalue⟩
    · exact readContent_of_payload hread hvalue
    · exact readContent_of_payload hread' hvalue'

theorem readAction_of_some {s s₁ s₂ t name : List Char}
    {content : Text × List Property}
    (hname : readActionName s = some (name, s₁))
    (hcontent : readContent (skip s₁) = some (content, s₂))
    (hterm : readTerminator (skip (repeatAll skip readProperty s₂).2) =
      some t) :
    readAction s = some ({
      kind := getActionKind name
      payloadString := content.1
      properties := content.2 ++ (repeatAll skip readProperty s₂).1 }, t) := by
  unfold readAction
  simp [hname, hcontent, hterm]

theorem readTerminator_joined (hC : readNewline (last :: B) = some C)
    {u t : List Char} (hu : u ≠ [] → u.getLast? = some last)
    (hterm : readTerminator u = some t)
    (hends : u = [] → readTerminator (skip C) ≠ none) :
    ∃ t', readTerminator (joined B (skip C) u) = some t' ∧
      (t' = joined B C t ∨ t = [] ∧ readTerminator (skip C) = some t') := by
  by_cases hempty : u = []
  · obtain ⟨t', ht'⟩ := Option.ne_none_iff_exists'.mp (hends hempty)
    have ht : t = [] := by
      rcases readTerminator_cases hterm with hn | ⟨-, ht⟩
      · rw [hempty] at hn
        cases hn
      · exact ht
    rw [hempty]
    exact ⟨t', ht', .inr ⟨ht, ht'⟩⟩
  · have hn : readNewline u = some t := by
      refine (readTerminator_cases hterm).resolve_right ?_
      rintro ⟨hnil, -⟩
      exact hempty hnil
    refine ⟨joined B C t, ?_, .inl rfl⟩
    rw [joined_of_ne_nil _ _ hempty]
    unfold readTerminator
    rw [readNewline_joined hC (hu hempty), hn]
    rfl

theorem skip_ne_nil_of_content {s t : List Char}
    {ps : List (Segment SegmentKind)}
    (h : contentSegments (skip s) = some (ps, t)) : skip s ≠ [] := by
  intro hnil
  rw [hnil] at h
  cases h

/-- How an action starts, alone and with another text behind it. -/
theorem readAction_head_joined (hC : readNewline (last :: B) = some C)
    (hs : s.getLast? = some last) {ps : List (Segment SegmentKind)}
    {t : List Char} (h : actionSegments s = some (ps, t)) :
    ∃ name s₁ cut s₂ w,
      readActionName s = some (name, s₁) ∧
      readActionName (s ++ B) = some (name, s₁ ++ B) ∧
      skip (s₁ ++ B) = skip s₁ ++ B ∧
      (skip s₁).getLast? = some last ∧
      contentSegments (skip s₁) = some (cut, s₂) ∧
      readTerminator (skip (propertiesCut s₂).2) = some t ∧
      skip (propertiesCut s₂).2 = w ++ t ∧
      ps = bodyCut name s₁ cut s₂ ++ [⟨.terminator, w, t⟩] := by
  obtain ⟨body, u, w, hbody, hterm, hw, rfl⟩ := actionSegments_eq_some h
  obtain ⟨name, s₁, cut, s₂, hname, hcontent, rfl, rfl⟩ :=
    bodySegments_eq_some hbody
  obtain ⟨hname', hs₁⟩ := readActionName_joined hC hs hname
  have hne := skip_ne_nil_of_content hcontent
  have hskip : skip (s₁ ++ B) = skip s₁ ++ B := by
    rw [skip_append_joined hC hs₁, joined_of_ne_nil _ _ hne]
  exact ⟨name, s₁, cut, s₂, w, hname, hname', hskip, getLast?_skip hs₁ hne,
    hcontent, hterm, hw, rfl⟩

theorem readAction_joined (hC : readNewline (last :: B) = some C)
    (hs : s.getLast? = some last) {ps : List (Segment SegmentKind)}
    {t : List Char} (h : actionSegments s = some (ps, t))
    (hquote : QuotesApart B ps) (hends : EndsApart C ps)
    (hequals : (skip C).head? ≠ some '=') :
    ∃ act t', readAction s = some (act, t) ∧
      readAction (s ++ B) = some (act, t') ∧
      (t' = joined B C t ∨ t = [] ∧ readTerminator (skip C) = some t') := by
  obtain ⟨name, s₁, cut, s₂, w, hname, hname', hskip, hs₁, hcontent, hterm, hw,
    rfl⟩ := readAction_head_joined hC hs h
  obtain ⟨content, hread, hread', hs₂⟩ := readContent_joined hC hs₁ hcontent
    (hquote.mono fun p hp => by simp [bodyCut, hp])
    (hends.mono fun p hp => by simp [bodyCut, hp]) hequals
  rw [← hskip] at hread'
  have hopen : skip (propertiesCut s₂).2 = [] →
      readTerminator (skip C) ≠ none := by
    intro hnil
    refine hends ⟨.terminator, w, t⟩ (by simp) (.inl ⟨rfl, ?_⟩)
    rw [hnil] at hw
    exact (List.append_eq_nil_iff.mp hw.symm).1
  have hsuffix : skip (propertiesCut s₂).2 <:+ s₂ := by
    unfold propertiesCut
    rw [gapped_rest]
    exact (skip_suffix _).trans (readProperties_suffix s₂)
  obtain ⟨t', hterm', ht'⟩ := readTerminator_joined hC
    (fun hu => getLast?_of_suffix hs₂ hsuffix hu) hterm hopen
  obtain ⟨hloop, hend⟩ := properties_joined hC hs₂
    (hquote.mono fun p hp => by simp [bodyCut, hp])
    (readProperty_of_terminator (by rw [hterm']; simp))
  have hterm₁ : readTerminator (skip (repeatAll skip readProperty s₂).2) =
      some t := by
    rw [← gapped_rest]
    exact hterm
  have hterm₂ :
      readTerminator (skip (repeatAll skip readProperty (s₂ ++ B)).2) =
        some t' := by
    rw [hloop, skip_append_joined hC hend]
    exact hterm'
  refine ⟨_, t', readAction_of_some hname hread hterm₁, ?_, ht'⟩
  rw [readAction_of_some hname' hread' hterm₂, hloop]

/-! ## Transforms -/

/-- The segments of the properties of the transform at the start of a text. -/
def transformProperties (s : List Char) : List (Segment SegmentKind) :=
  match readWords ["<transform "] s with
  | none => []
  | some (_, s₁) =>
      match readActionName (skip s₁) with
      | none => []
      | some (_, s₂) =>
          match propertySegments (skip s₂) with
          | none => []
          | some (ps, s₃) => ps ++ (propertiesCut s₃).1

theorem readProperty_arrow (t : List Char) :
    readProperty ('-' :: '>' :: t) = none := by
  have hname : readPropertyName ('-' :: '>' :: t) = some (['-'], '>' :: t) := by
    unfold readPropertyName
    exact readRunOnce_append (w := ['-']) (by simp) (by simp [headIs, isNameChar])
      rfl
  have hskip : skip ('>' :: t) = '>' :: t := skip_eq_self_of_head t (by decide)
  unfold readProperty
  rw [hname]
  simp [hskip]

theorem readTransform_of_some {s s₁ s₂ s₃ s₄ t opening name arrow : List Char}
    {props : List Property} {c : Char}
    (hopening : readWords ["<transform "] s = some (opening, s₁))
    (hname : readActionName (skip s₁) = some (name, s₂))
    (hprops : readProperty (skip s₂) = some (props, s₃))
    (harrow : readWords ["->"] (skip (repeatAll skip readProperty s₃).2) =
      some (arrow, s₄))
    (hclose : (skip s₄).dropWhile (· != '>') = c :: t) :
    readTransform s = some t := by
  unfold readTransform
  simp [hopening, hname, hprops, harrow, hclose]

/-- How a transform starts, alone and with another text behind it. -/
theorem readTransform_head_joined (hC : readNewline (last :: B) = some C)
    (hs : s.getLast? = some last) {t : List Char}
    (h : readTransform s = some t) :
    ∃ opening s₁ name s₂ ps s₃ arrow s₄ c,
      readWords ["<transform "] (s ++ B) = some (opening, s₁ ++ B) ∧
      readActionName (skip (s₁ ++ B)) = some (name, s₂ ++ B) ∧
      skip (s₂ ++ B) = skip s₂ ++ B ∧
      (skip s₂).getLast? = some last ∧
      propertySegments (skip s₂) = some (ps, s₃) ∧
      transformProperties s = ps ++ (propertiesCut s₃).1 ∧
      readWords ["->"] (skip (propertiesCut s₃).2) = some (arrow, s₄) ∧
      (skip s₄).dropWhile (· != '>') = c :: t := by
  obtain ⟨opening, s₁, name, s₂, props, s₃, arrow, s₄, c, hopening, hname,
    hprops, harrow, hclose⟩ := readTransform_eq_some h
  obtain ⟨ps, hps, -⟩ := propertySegments_simulates.exists_of_some hprops
  have hall : transformProperties s = ps ++ (propertiesCut s₃).1 := by
    unfold transformProperties
    simp [hopening, hname, hps]
  have hs₁ := getLast?_words (by decide) hC hs hopening
  have hne₁ : skip s₁ ≠ [] := by
    intro hnil
    rw [hnil] at hname
    cases hname
  obtain ⟨hname', hs₂⟩ :=
    readActionName_joined hC (getLast?_skip hs₁ hne₁) hname
  have hne₂ : skip s₂ ≠ [] := by
    intro hnil
    rw [hnil] at hprops
    cases hprops
  have hopening' : readWords ["<transform "] (s ++ B) =
      some (opening, s₁ ++ B) := by
    rw [readWords_joined (by decide) hC hs, hopening]
    rfl
  have hskip₁ : skip (s₁ ++ B) = skip s₁ ++ B := by
    rw [skip_append_joined hC hs₁, joined_of_ne_nil _ _ hne₁]
  have hskip₂ : skip (s₂ ++ B) = skip s₂ ++ B := by
    rw [skip_append_joined hC hs₂, joined_of_ne_nil _ _ hne₂]
  rw [← hskip₁] at hname'
  rw [← gapped_rest] at harrow
  exact ⟨opening, s₁, name, s₂, ps, s₃, arrow, s₄, c, hopening', hname', hskip₂,
    getLast?_skip hs₂ hne₂, hps, hall, harrow, hclose⟩

theorem readTransform_joined (hC : readNewline (last :: B) = some C)
    (hs : s.getLast? = some last) {t : List Char}
    (h : readTransform s = some t)
    (hquote : QuotesApart B (transformProperties s)) :
    readTransform (s ++ B) = some (t ++ B) ∧ t.getLast? = some last := by
  obtain ⟨opening, s₁, name, s₂, ps, s₃, arrow, s₄, c, hopening, hname, hskip,
    hs₂, hps, hall, harrow, hclose⟩ := readTransform_head_joined hC hs h
  rw [hall] at hquote
  obtain ⟨props, -, hprops, hs₃⟩ := readProperty_joined hC hs₂ hps
    (hquote.mono fun p hp => by simp [hp])
  rw [← hskip] at hprops
  have hne₃ : skip (propertiesCut s₃).2 ≠ [] := by
    intro hnil
    rw [hnil] at harrow
    cases harrow
  have hstop : readProperty (joined B (skip C) (skip (propertiesCut s₃).2)) =
      none := by
    obtain ⟨word, hmem, rfl⟩ := readWords_mem harrow
    cases List.mem_singleton.mp hmem
    rw [joined_of_ne_nil _ _ hne₃, readWords_splits _ harrow]
    exact readProperty_arrow (s₄ ++ B)
  obtain ⟨hloop, hend⟩ := properties_joined hC hs₃
    (hquote.mono fun p hp => by simp [hp]) hstop
  have hend' := getLast?_skip hend hne₃
  have hs₄ := getLast?_words (by decide) hC hend' harrow
  have hne₄ : skip s₄ ≠ [] := by
    intro hnil
    rw [hnil] at hclose
    cases hclose
  have hc : isNewlineChar c = false := by
    have heq : c = '>' := by simpa using head_dropWhile hclose
    rw [heq]
    rfl
  constructor
  · have harrow' : readWords ["->"]
        (skip (repeatAll skip readProperty (s₃ ++ B)).2) =
          some (arrow, s₄ ++ B) := by
      rw [hloop, skip_append_joined hC hend, joined_of_ne_nil _ _ hne₃,
        readWords_joined (by decide) hC hend', harrow]
      rfl
    have hclose' : (skip (s₄ ++ B)).dropWhile (· != '>') = c :: (t ++ B) := by
      rw [skip_append_joined hC hs₄, joined_of_ne_nil _ _ hne₄,
        List.dropWhile_append, hclose]
      rfl
    exact readTransform_of_some hopening hname hprops harrow' hclose'
  · have hsuffix : c :: t <:+ skip s₄ := by
      rw [← hclose]
      exact List.dropWhile_suffix _
    exact getLast?_tail hC hc
      (getLast?_of_suffix (getLast?_skip hs₄ hne₄) hsuffix (by simp))

/-! ## Items -/

def itemSegments (s : List Char) : List (Segment SegmentKind) :=
  match readNewline s with
  | some _ => []
  | none =>
      match readTransform s with
      | some _ => transformProperties s
      | none => segmentsOf s

/-- A keyword starts no line break and no transform. -/
theorem readTransform_of_name {name t : List Char}
    (h : readActionName s = some (name, t)) :
    readNewline s = none ∧ readTransform s = none := by
  have hwords : ∀ word ∈ keywords,
      headIs (fun c => !isNewlineChar c && c != '<') word.toList = true := by
    decide
  obtain ⟨word, hmem, rfl⟩ := readWords_mem h
  have hhead := hwords word hmem
  have hsplit := readWords_splits _ h
  cases hword : word.toList with
  | nil =>
      rw [hword] at hhead
      cases hhead
  | cons c w =>
      rw [hword] at hhead hsplit
      obtain ⟨hline, hopen⟩ : isNewlineChar c = false ∧ c ≠ '<' := by
        simpa [headIs] using hhead
      rw [hsplit, readNewline_eq_none_iff]
      refine ⟨hline, ?_⟩
      unfold readTransform readWords readWords
      simp [Ne.symm hopen]

theorem readItem_of_action {act : Action} {t : List Char}
    (h : readAction s = some (act, t)) :
    readItem s = some ([.action act], t) := by
  obtain ⟨name, s₁, content, s₂, hname, -, -, -⟩ := readAction_eq_some h
  obtain ⟨hn, htransform⟩ := readTransform_of_name hname
  unfold readItem
  rw [hn, htransform, h]

theorem readItem_cases {items : List Item} {t : List Char}
    (h : readItem s = some (items, t)) :
    (readNewline s = some t ∧ items = [.newline]) ∨
      (readNewline s = none ∧ readTransform s = some t ∧
        items = [.transform]) ∨
      readNewline s = none ∧ readTransform s = none ∧
        ∃ act, readAction s = some (act, t) ∧ items = [.action act] := by
  unfold readItem at h
  split at h
  · next hn =>
      cases h
      exact .inl ⟨hn, rfl⟩
  · next hn =>
      split at h
      · next htransform =>
          cases h
          exact .inr (.inl ⟨hn, htransform, rfl⟩)
      · next htransform =>
          split at h
          · next act u haction =>
              cases h
              exact .inr (.inr ⟨hn, htransform, act, haction, rfl⟩)
          · cases h

theorem readItem_joined (hC : readNewline (last :: B) = some C)
    (hs : s.getLast? = some last) {items : List Item} {t : List Char}
    (h : readItem s = some (items, t))
    (hquote : QuotesApart B (itemSegments s))
    (hends : EndsApart C (itemSegments s))
    (hequals : (skip C).head? ≠ some '=') :
    ∃ t', readItem (s ++ B) = some (items, t') ∧
      (t' = joined B C t ∨ t = [] ∧ readTerminator (skip C) = some t') := by
  have hnewline := readNewline_joined hC hs
  unfold itemSegments at hquote hends
  rcases readItem_cases h with ⟨hn, rfl⟩ | ⟨hn, htransform, rfl⟩ |
    ⟨hn, htransform, act, haction, rfl⟩
  · refine ⟨joined B C t, ?_, .inl rfl⟩
    unfold readItem
    rw [hnewline, hn]
    rfl
  · simp only [hn, htransform] at hquote
    obtain ⟨hread, ht⟩ := readTransform_joined hC hs htransform hquote
    refine ⟨t ++ B, ?_, .inl ?_⟩
    · unfold readItem
      rw [hnewline, hn, Option.map_none, hread]
    · rw [joined_of_ne_nil _ _ (ne_nil_of_getLast? ht)]
  · obtain ⟨ps, hps, -⟩ := actionSegments_simulates.exists_of_some haction
    have hsegments : segmentsOf s = ps := by
      unfold segmentsOf
      rw [hps]
      rfl
    simp only [hn, htransform, hsegments] at hquote hends
    obtain ⟨act', t', hread, hread', ht'⟩ :=
      readAction_joined hC hs hps hquote hends hequals
    rw [haction, Option.some.injEq, Prod.mk.injEq] at hread
    obtain ⟨rfl, -⟩ := hread
    exact ⟨t', readItem_of_action hread', ht'⟩

end Seam

/-! ## Whole texts -/

def readItemSegments : Reader (List (Segment SegmentKind)) := fun s =>
  (readItem s).map fun x => (itemSegments s, x.2)

/-- The segments of the items of a text. -/
def manifestSegments (content : List Char) : List (Segment SegmentKind) :=
  (repeatAll skip readItemSegments content).1

theorem readItemSegments_consuming : Consuming readItemSegments := by
  intro s ps t h
  obtain ⟨x, hread, heq⟩ := Option.map_eq_some_iff.mp h
  cases heq
  exact readItem_consuming hread

theorem holdsActions_of_terminator {s t : List Char}
    (h : readTerminator (skip s) = some t) (actions : List Action) :
    HoldsActions s actions ↔ HoldsActions t actions := by
  rcases readTerminator_cases h with hn | ⟨hempty, rfl⟩
  · have hread : readItem (skip s) = some ([.newline], t) := by
      unfold readItem
      rw [hn]
    exact holdsActions_of_item hread actions
  · apply holdsActions_congr
    rw [hempty, skip_of_none rfl]

theorem HoldsActions.readItem_isSome {s : List Char} {actions : List Action}
    (h : HoldsActions s actions) (hne : skip s ≠ []) :
    (readItem (skip s)).isSome = true := by
  by_contra hnone
  rw [Bool.not_eq_true, Option.isSome_eq_false_iff,
    Option.isNone_iff_eq_none] at hnone
  apply hne
  unfold HoldsActions at h
  rw [repeatAll_of_none skip_shrinking readItem_consuming hnone] at h
  exact h.2

theorem HoldsActions.head_ne_equals {s : List Char} {actions : List Action}
    (h : HoldsActions s actions) : (skip s).head? ≠ some '=' := by
  intro hhead
  have hne : skip s ≠ [] := by
    rintro hnil
    rw [hnil] at hhead
    cases hhead
  obtain ⟨t, ht⟩ := List.head?_eq_some_iff.mp hhead
  have hsome := h.readItem_isSome hne
  rw [ht] at hsome
  have hnone : readItem ('=' :: t) = none := by
    simp [readItem, readNewline, readTransform, readAction, readActionName,
      readWords, keywords]
  rw [hnone] at hsome
  cases hsome

theorem getLast?_of_readItem {s t : List Char} {last : Char}
    {items : List Item} (hs : s ≠ [] → s.getLast? = some last)
    (hread : readItem (skip s) = some (items, t)) :
    skip s ≠ [] ∧ s.getLast? = some last := by
  have hne : skip s ≠ [] := by
    intro hnil
    rw [hnil] at hread
    cases hread
  refine ⟨hne, hs ?_⟩
  rintro rfl
  exact hne (skip_of_none rfl)

/-- Two texts one behind the other hold the actions of the first and then
those of the second. -/
theorem holdsActions_joined_iff {last : Char} {B C : List Char}
    (hC : readNewline (last :: B) = some C)
    (hequals : (skip C).head? ≠ some '=') (s : List Char) :
    ∀ actions, (s ≠ [] → s.getLast? = some last) → HoldsActions s actions →
      QuotesApart B (manifestSegments s) → EndsApart C (manifestSegments s) →
        ∀ all, HoldsActions (joined B C s) all ↔
          ∃ after, all = actions ++ after ∧ HoldsActions C after := by
  unfold manifestSegments
  apply repeatAll_induction skip_shrinking readItemSegments_consuming
    (fun s result => ∀ actions, (s ≠ [] → s.getLast? = some last) →
      HoldsActions s actions → QuotesApart B result.1 → EndsApart C result.1 →
        ∀ all, HoldsActions (joined B C s) all ↔
          ∃ after, all = actions ++ after ∧ HoldsActions C after)
  · intro s hnone actions hs hholds _ _ all
    have hread : readItem (skip s) = none := Option.map_eq_none_iff.mp hnone
    unfold HoldsActions at hholds
    rw [repeatAll_of_none skip_shrinking readItem_consuming hread] at hholds
    obtain ⟨rfl, hempty⟩ := hholds
    have hskip : skip (joined B C s) = skip C := by
      rw [skip_joined hC s hs, hempty, joined_nil]
    rw [holdsActions_congr hskip all]
    simp
  · intro s ps t hround ih actions hs hholds hquote hends all
    obtain ⟨⟨items, u⟩, hread, heq⟩ := Option.map_eq_some_iff.mp hround
    cases heq
    obtain ⟨hne, hs'⟩ := getLast?_of_readItem hs hread
    obtain ⟨t', hread', ht'⟩ := readItem_joined hC (getLast?_skip hs' hne) hread
      (hquote.mono fun p hp => by simp [hp])
      (hends.mono fun p hp => by simp [hp]) hequals
    obtain ⟨later, rfl, hrest⟩ := (holdsActions_item_iff hread actions).mp hholds
    have hu : u ≠ [] → u.getLast? = some last := by
      intro hune
      exact getLast?_of_suffix hs'
        ((readItem_suffix hread).trans (skip_suffix s)) hune
    have hlater := ih _ hu hrest
      (hquote.mono fun p hp => by simp [hp])
      (hends.mono fun p hp => by simp [hp])
    have hsame : ∀ all, HoldsActions t' all ↔
        ∃ after, all = later ++ after ∧ HoldsActions C after := by
      intro all
      rcases ht' with rfl | ⟨rfl, hterm⟩
      · exact hlater all
      · rw [← hlater all, joined_nil]
        exact (holdsActions_of_terminator hterm all).symm
    have hnext : readItem (skip (joined B C s)) = some (items, t') := by
      rw [skip_joined hC s hs, joined_of_ne_nil _ _ hne]
      exact hread'
    rw [holdsActions_item_iff hnext]
    constructor
    · rintro ⟨rest, rfl, hholds'⟩
      obtain ⟨after, rfl, hafter⟩ := (hsame rest).mp hholds'
      exact ⟨after, (List.append_assoc _ _ _).symm, hafter⟩
    · rintro ⟨after, rfl, hafter⟩
      exact ⟨later ++ after, List.append_assoc _ _ _,
        (hsame _).mpr ⟨after, rfl, hafter⟩⟩

/-- The second text without a line feed that belongs to the line break in front
of it. -/
def behindBreak (A B : Text) : Text :=
  if A.getLast? = some '\r' ∧ B.head? = some '\n' then B.tail else B

theorem readNewline_behindBreak {A B : Text} {last : Char}
    (hA : A.getLast? = some last) (hlast : isNewlineChar last = true) :
    readNewline (last :: B) = some (behindBreak A B) := by
  unfold behindBreak
  rw [hA]
  rcases (by simpa [isNewlineChar] using hlast : last = '\n' ∨ last = '\r') with
    rfl | rfl
  · rfl
  · cases B with
    | nil => rfl
    | cons c B =>
        by_cases hc : c = '\n'
        · subst c
          rfl
        · simp [readNewline, hc]

theorem holdsActions_behindBreak {A B : Text} {actions : List Action}
    (h : HoldsActions B actions) : HoldsActions (behindBreak A B) actions := by
  unfold behindBreak
  split_ifs with hsplit
  · obtain ⟨t, rfl⟩ := List.head?_eq_some_iff.mp hsplit.2
    have hread : readItem (skip ('\n' :: t)) = some ([.newline], t) := by
      rw [skip_eq_self_of_head t (by decide)]
      rfl
    exact (holdsActions_of_item hread actions).mp h
  · exact h

/-- Reading the first text does not depend on the second: no double quote that
is left open there is closed by the second text, and where it was read by
looking past its end the second text goes on with a line break. -/
structure Separable (A B : Text) : Prop where
  quotes : QuotesApart B (manifestSegments A)
  ends : EndsApart (behindBreak A B) (manifestSegments A)

instance (A B : Text) : Decidable (Separable A B) :=
  decidable_of_iff
    ((∀ p ∈ manifestSegments A, isValue p = true → OpenQuote p.text →
        '\"' ∉ B) ∧
      ∀ p ∈ manifestSegments A, LooksAhead p →
        readTerminator (skip (behindBreak A B)) ≠ none)
    ⟨fun h => ⟨h.1, h.2⟩, fun h => ⟨h.quotes, h.ends⟩⟩

theorem skip_ne_nil_of_read {content : Text} {actions : List Action}
    (h : readActions content = some actions) : skip content ≠ [] := by
  intro hnil
  have hnone : readItem (skip content) = none := by
    rw [hnil]
    rfl
  unfold readActions readManifest at h
  rw [repeatAll_of_none skip_shrinking readItem_consuming hnone] at h
  simp at h

theorem readActions_append {A B : Text} {last : Char}
    (hA : A.getLast? = some last) (hlast : isNewlineChar last = true)
    {actions after : List Action} (hreadA : readActions A = some actions)
    (hreadB : readActions B = some after) (hsep : Separable A B) :
    readActions (A ++ B) = some (actions ++ after) := by
  have hC := readNewline_behindBreak (B := B) hA hlast
  have hneA := skip_ne_nil_of_read hreadA
  have hneB := skip_ne_nil_of_read hreadB
  have hholdsA := (readActions_eq_some_iff hneA actions).mp hreadA
  have hholdsB := (readActions_eq_some_iff hneB after).mp hreadB
  have hne : skip (A ++ B) ≠ [] := by
    rw [skip_append_joined hC hA, joined_of_ne_nil _ _ hneA]
    simp [hneA]
  have hafter := holdsActions_behindBreak (A := A) hholdsB
  have hjoined := (holdsActions_joined_iff hC hafter.head_ne_equals A actions
    (fun _ => hA) hholdsA hsep.quotes hsep.ends _).mpr ⟨after, rfl, hafter⟩
  rw [joined_of_ne_nil _ _ (ne_nil_of_getLast? hA)] at hjoined
  exact (readActions_eq_some_iff hne _).mpr hjoined

/-- The lists of the one manifest behind those of the other. -/
def append (a b : Manifest) : Manifest where
  attributes := a.attributes ++ b.attributes
  directories := a.directories ++ b.directories
  files := a.files ++ b.files
  dependencies := a.dependencies ++ b.dependencies
  licenses := a.licenses ++ b.licenses
  links := a.links ++ b.links

theorem append_assoc (a b c : Manifest) :
    (a.append b).append c = a.append (b.append c) := by
  simp [append]

theorem append_new (a : Manifest) : a.append new = a := by
  simp [append, new]

/-- An action adds the same to every manifest. -/
theorem addAction_eq (m : Manifest) (act : Action) :
    m.addAction act = (new.addAction act >>= fun inc => .ok (m.append inc)) := by
  unfold addAction
  cases act.kind with
  | attr => cases Attr.fromAction act <;> simp [append, new]
  | dir => cases Dir.fromAction act <;> simp [append, new]
  | file => cases File.fromAction act <;> simp [append, new]
  | dependency => cases Dependency.fromAction act <;> simp [append, new]
  | license => cases License.fromAction act <;> simp [append, new]
  | link => cases Link.fromAction act <;> simp [append, new]
  | user => rfl
  | group => rfl
  | driver => rfl
  | legacy => rfl
  | transform => rfl
  | unknown name => rfl

theorem fold_addAction_append (a m : Manifest) (actions : List Action) :
    Outcome.fold addAction (a.append m) actions =
      (Outcome.fold addAction m actions >>= fun b => .ok (a.append b)) := by
  induction actions generalizing m with
  | nil => rfl
  | cons act actions ih =>
      rw [Outcome.fold_cons, Outcome.fold_cons, addAction_eq, addAction_eq m]
      cases new.addAction act with
      | ok inc =>
          simp only [Outcome.ok_bind]
          rw [append_assoc, ih]
      | err e => rfl
      | panic message => rfl

/-- Where reading the first text does not depend on the second, the manifest
of both is the manifest of the one followed by the manifest of the other. -/
theorem parseString_of_separable {A B : Text} {a b : Manifest} {last : Char}
    (hend : A.getLast? = some last) (hline : isNewlineChar last = true)
    (hA : parseString A = .ok a) (hB : parseString B = .ok b)
    (hsep : Separable A B) : parseString (A ++ B) = .ok (a.append b) := by
  obtain ⟨actions, hreadA, hfoldA⟩ := exists_actions hA
  obtain ⟨after, hreadB, hfoldB⟩ := exists_actions hB
  have hread := readActions_append hend hline hreadA hreadB hsep
  have hfold := fold_addAction_append a new after
  rw [append_new, hfoldB] at hfold
  rw [parseString_eq_actions, hread]
  dsimp only
  rw [Outcome.fold_append, hfoldA, Outcome.ok_bind, hfold]
  rfl

end Ips.Manifest
