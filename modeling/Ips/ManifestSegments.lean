import Ips.ManifestNodes
import Ips.PegSegments

/-!
# The segments of a manifest

How the grammar cuts a manifest: words, values and payloads, and between them
blanks, escaped line breaks and comments.  The value nodes of an action are the
value segments of its text.
-/

namespace Ips.Manifest

open Peg

inductive SegmentKind where
  | word
  | value
  | payload
  | blank
  | comment
  | terminator
  deriving DecidableEq, Repr

/-! ## Readers -/

def gapSegment : Reader (List (Segment SegmentKind)) :=
  orElse (readSegment .blank (readStep readWhitespace))
    (readSegment .comment (readStep readComment))

def gapSegments : Reader (List (Segment SegmentKind)) := readAll gapSegment

def propertySegments : Reader (List (Segment SegmentKind)) :=
  andThen (readSegment .word readPropertyName)
    (andThen gapSegments
      (andThen (readSegment .word (readWords ["="]))
        (andThen gapSegments (readSegment .value readPropertyValue))))

def contentSegments : Reader (List (Segment SegmentKind)) :=
  orElse propertySegments (readSegment .payload readPropertyValue)

/-- An action up to its terminator, with the gap in front of that. -/
def bodySegments : Reader (List (Segment SegmentKind)) :=
  andThen (readSegment .word readActionName)
    (andThen gapSegments
      (andThen contentSegments
        (andThen (readAll (andThen gapSegments propertySegments))
          gapSegments)))

def actionSegments : Reader (List (Segment SegmentKind)) :=
  andThen bodySegments (readSegment .terminator (readStep readTerminator))

/-- The segments of the action at the start of a text. -/
def segmentsOf (s : List Char) : List (Segment SegmentKind) :=
  ((actionSegments s).map Prod.fst).getD []

/-! ## What the segments hold -/

def OneLine (text : List Char) : Prop := ∀ c ∈ text, isNewlineChar c = false

/-- What the characters of a segment are. -/
def Shaped (p : Segment SegmentKind) : Prop :=
  match p.kind with
  | .word => OneLine p.text
  | .value => p.text.head? = some '\"' ∨ OneLine p.text
  | .payload => p.text.head? = some '\"' ∨ OneLine p.text
  | .blank => OneLine p.text ∨
      ∃ u, p.start = '\\' :: u ∧ readNewline u = some p.rest
  | .comment => ∃ w u, p.start = '#' :: (w ++ u) ∧ OneLine w ∧
      readNewline u = some p.rest
  | .terminator => readTerminator p.start = some p.rest

/-- A shaped segment in front of the terminator. -/
def Inner (p : Segment SegmentKind) : Prop := p.kind ≠ .terminator ∧ Shaped p

/-- A shaped segment of a property. -/
def IsPart (p : Segment SegmentKind) : Prop := p.kind ≠ .payload ∧ Inner p

def IsGap (p : Segment SegmentKind) : Prop :=
  (p.kind = .blank ∨ p.kind = .comment) ∧ Shaped p

theorem IsGap.isPart {p : Segment SegmentKind} (h : IsGap p) : IsPart p := by
  rcases h.1 with hkind | hkind
  · exact ⟨by simp [hkind], by simp [hkind], h.2⟩
  · exact ⟨by simp [hkind], by simp [hkind], h.2⟩

theorem readWhitespace_cases {s t : List Char}
    (h : readWhitespace s = some t) :
    (∃ c, s = c :: t ∧ isNewlineChar c = false) ∨
      ∃ u, s = '\\' :: u ∧ readNewline u = some t := by
  unfold readWhitespace at h
  split at h
  · exact .inr ⟨_, rfl, h⟩
  · rw [Option.some.injEq] at h
    subst h
    exact .inl ⟨_, rfl, rfl⟩
  · rw [Option.some.injEq] at h
    subst h
    exact .inl ⟨_, rfl, rfl⟩
  · cases h

theorem readComment_cases {s t : List Char} (h : readComment s = some t) :
    ∃ w u, s = '#' :: (w ++ u) ∧ OneLine w ∧ readNewline u = some t := by
  unfold readComment at h
  split at h
  · next v =>
      refine ⟨v.takeWhile fun c => !isNewlineChar c, _, ?_, ?_, h⟩
      · rw [List.takeWhile_append_dropWhile]
      · intro c hc
        simpa using List.mem_takeWhile_imp hc
  · cases h

theorem readTerminator_cases {u t : List Char}
    (h : readTerminator u = some t) :
    readNewline u = some t ∨ u = [] ∧ t = [] := by
  unfold readTerminator at h
  split at h
  · next hn => exact .inl (hn.trans h)
  · split_ifs at h with hempty
    cases h
    exact .inr ⟨hempty, rfl⟩

theorem cuts_gapSegment : Cuts IsGap gapSegment := by
  apply Cuts.orElse
  · apply cuts_readSegment
    · intro s w t hread
      exact (readStep_eq_some (fun _ _ => readWhitespace_suffix) hread).2
    · intro s w t hread
      obtain ⟨hstep, hs⟩ :=
        readStep_eq_some (fun _ _ => readWhitespace_suffix) hread
      refine ⟨.inl rfl, ?_⟩
      rcases readWhitespace_cases hstep with ⟨c, hc, hline⟩ | ⟨u, hu, hline⟩
      · left
        have hw : w = [c] := by
          rw [hs] at hc
          exact List.append_cancel_right (hc.trans (by simp))
        rw [hw]
        intro d hd
        rw [List.mem_singleton.mp hd]
        exact hline
      · right
        refine ⟨u, ?_, hline⟩
        rw [← hu, hs]
        rfl
  · apply cuts_readSegment
    · intro s w t hread
      exact (readStep_eq_some (fun _ _ => readComment_suffix) hread).2
    · intro s w t hread
      obtain ⟨hstep, hs⟩ :=
        readStep_eq_some (fun _ _ => readComment_suffix) hread
      obtain ⟨v, u, hv, hline, hu⟩ := readComment_cases hstep
      refine ⟨.inr rfl, v, u, ?_, hline, hu⟩
      rw [← hv, hs]
      rfl

theorem gapSegment_of_none {s : List Char} (h : readGap s = none) :
    gapSegment s = none := by
  unfold readGap at h
  split at h
  · cases h
  · next hw =>
      unfold gapSegment orElse readSegment readStep
      rw [hw, h]
      rfl

theorem gapSegment_of_some {s t : List Char} (h : readGap s = some t) :
    ∃ ps, gapSegment s = some (ps, t) := by
  unfold readGap at h
  unfold gapSegment orElse readSegment readStep
  split at h
  · next u hw =>
      cases h
      rw [hw]
      exact ⟨_, rfl⟩
  · next hw =>
      rw [hw, h]
      exact ⟨_, rfl⟩

theorem gapSegment_consuming : Consuming gapSegment := by
  intro s ps t hread
  cases hgap : readGap s with
  | none =>
      rw [gapSegment_of_none hgap] at hread
      cases hread
  | some u =>
      obtain ⟨qs, hqs⟩ := gapSegment_of_some hgap
      rw [hqs] at hread
      cases hread
      exact readGap_length_lt hgap

theorem cuts_gapSegments : Cuts IsPart gapSegments :=
  (cuts_gapSegment.readAll gapSegment_consuming).mono fun _ => IsGap.isPart

/-- The segments of the gap in front of a token. -/
def gapsOf (s : List Char) : List (Segment SegmentKind) :=
  (repeatAll id gapSegment s).1

theorem gapSegments_eq (s : List Char) :
    gapSegments s = some (gapsOf s, skip s) := by
  have hrest : (repeatAll id gapSegment s).2 = skip s := by
    apply skip_induction (fun s t => (repeatAll id gapSegment s).2 = t)
    · intro s h
      rw [repeatAll_of_none shrinking_id gapSegment_consuming
        (gapSegment_of_none h)]
    · intro s t h ih
      obtain ⟨ps, hps⟩ := gapSegment_of_some h
      rw [repeatAll_of_some shrinking_id gapSegment_consuming hps]
      exact ih
  unfold gapSegments readAll gapsOf
  rw [← hrest]

theorem isGap_of_mem {s : List Char} {p : Segment SegmentKind}
    (h : p ∈ gapsOf s) : IsGap p :=
  ((cuts_gapSegment.readAll gapSegment_consuming) (gapSegments_eq s)).2 p h

theorem isNewlineChar_of_nameChar {c : Char} (h : isNameChar c = true) :
    isNewlineChar c = false := by
  rw [Bool.eq_false_iff]
  intro hline
  rcases (by simpa [isNewlineChar] using hline : c = '\n' ∨ c = '\r') with
    rfl | rfl
  · exact absurd h (by decide)
  · exact absurd h (by decide)

theorem oneLine_readBare {s w t : List Char} (h : readBare s = some (w, t)) :
    OneLine w := by
  have htails : ∀ u, OneLine (takeTails isBareStart u) := by
    intro u
    induction u with
    | nil => simp [takeTails, OneLine]
    | cons c u ih =>
        unfold takeTails
        split_ifs with hstart
        · have hnone : readNewline (c :: u) = none := by
            unfold isBareStart at hstart
            simp only [Bool.and_eq_true, Option.isNone_iff_eq_none] at hstart
            exact hstart.2.2
          intro d hd
          rcases List.mem_cons.mp hd with rfl | hd
          · simpa [headIs] using readNewline_eq_none_iff.mp hnone
          · exact ih d hd
        · simp [OneLine]
  unfold readBare readRunOnce at h
  split_ifs at h
  simp only [Option.some.injEq, Prod.mk.injEq] at h
  rw [← h.1]
  exact htails s

theorem readQuoted_head {s w t : List Char} (h : readQuoted s = some (w, t)) :
    w.head? = some '\"' := by
  unfold readQuoted at h
  split at h
  · split at h
    · cases h
      rfl
    · cases h
  · cases h

theorem readPropertyValue_shaped {s w t : List Char}
    (h : readPropertyValue s = some (w, t)) :
    w.head? = some '\"' ∨ OneLine w := by
  unfold readPropertyValue at h
  split at h
  · next hquoted =>
      rw [h] at hquoted
      exact .inl (readQuoted_head hquoted)
  · exact .inr (oneLine_readBare h)

theorem oneLine_readWords {ws : List String} {s w t : List Char}
    (hws : ∀ word ∈ ws, word.toList.all (fun c => !isNewlineChar c) = true)
    (h : readWords ws s = some (w, t)) : OneLine w := by
  obtain ⟨word, hmem, rfl⟩ := readWords_mem h
  intro c hc
  simpa using List.all_eq_true.mp (hws word hmem) c hc

theorem cuts_propertyName :
    Cuts IsPart (readSegment .word readPropertyName) := by
  apply cuts_readSegment (readRunOnce_splits _)
  intro s w t hread
  refine ⟨by simp, by simp, ?_⟩
  intro c hc
  rw [(readPropertyName_eq_some hread).1] at hc
  exact isNewlineChar_of_nameChar (List.mem_takeWhile_imp hc)

theorem cuts_words {ws : List String}
    (hws : ∀ word ∈ ws, word.toList.all (fun c => !isNewlineChar c) = true) :
    Cuts IsPart (readSegment .word (readWords ws)) := by
  apply cuts_readSegment (readWords_splits ws)
  intro s w t hread
  exact ⟨by simp, by simp, oneLine_readWords hws hread⟩

theorem cuts_propertySegments : Cuts IsPart propertySegments := by
  have hvalue : Cuts IsPart (readSegment .value readPropertyValue) := by
    apply cuts_readSegment readPropertyValue_splits
    intro s w t hread
    exact ⟨by simp, by simp, readPropertyValue_shaped hread⟩
  exact cuts_propertyName.andThen (cuts_gapSegments.andThen
    ((cuts_words (by decide)).andThen (cuts_gapSegments.andThen hvalue)))

theorem cuts_contentSegments : Cuts Inner contentSegments := by
  apply (cuts_propertySegments.mono fun _ h => h.2).orElse
  apply cuts_readSegment readPropertyValue_splits
  intro s w t hread
  exact ⟨by simp, readPropertyValue_shaped hread⟩

/-! ## Properties -/

/-- The segments of a property: its name, the equals sign, its value and the
two gaps. -/
def propertyCut (key s₁ s₂ value t : List Char) : List (Segment SegmentKind) :=
  ⟨.word, key, s₁⟩ :: (gapsOf s₁ ++
    ⟨.word, ['='], s₂⟩ :: (gapsOf s₂ ++ [⟨.value, value, t⟩]))

theorem readWords_equals_iff {s w t : List Char} :
    readWords ["="] s = some (w, t) ↔ w = ['='] ∧ s = '=' :: t := by
  constructor
  · intro h
    obtain ⟨word, hmem, rfl⟩ := readWords_mem h
    cases List.mem_singleton.mp hmem
    exact ⟨rfl, readWords_splits _ h⟩
  · rintro ⟨rfl, rfl⟩
    simp [readWords]

section Property

variable {s s₁ s₂ t key value : List Char}

theorem propertySegments_of_some
    (hname : readPropertyName s = some (key, s₁)) (hskip : skip s₁ = '=' :: s₂)
    (hvalue : readPropertyValue (skip s₂) = some (value, t)) :
    propertySegments s = some (propertyCut key s₁ s₂ value t, t) := by
  have hequals : readWords ["="] (skip s₁) = some (['='], s₂) :=
    readWords_equals_iff.mpr ⟨rfl, hskip⟩
  unfold propertySegments andThen readSegment propertyCut
  simp [hname, gapSegments_eq, hequals, hvalue]

theorem readProperty_of_some
    (hname : readPropertyName s = some (key, s₁)) (hskip : skip s₁ = '=' :: s₂)
    (hvalue : readPropertyValue (skip s₂) = some (value, t)) :
    readProperty s = some ([{
      key := key, value := removeChars ['\"', '\\'] value }], t) := by
  unfold readProperty
  simp [hname, hskip, hvalue]

theorem propertySegments_eq_some {ps : List (Segment SegmentKind)}
    (hread : propertySegments s = some (ps, t)) :
    ∃ key s₁ s₂ value,
      readPropertyName s = some (key, s₁) ∧
      skip s₁ = '=' :: s₂ ∧
      readPropertyValue (skip s₂) = some (value, t) ∧
      ps = propertyCut key s₁ s₂ value t := by
  obtain ⟨_, s₁, _, hkey, h, -⟩ := andThen_eq_some hread
  obtain ⟨_, _, _, hgap, h, -⟩ := andThen_eq_some h
  obtain ⟨_, s₂, _, hword, h, -⟩ := andThen_eq_some h
  obtain ⟨_, _, _, hgap', h, -⟩ := andThen_eq_some h
  obtain ⟨key, hkey, -⟩ := readSegment_eq_some hkey
  obtain ⟨w, hword, -⟩ := readSegment_eq_some hword
  obtain ⟨value, hvalue, -⟩ := readSegment_eq_some h
  rw [gapSegments_eq, Option.some.injEq, Prod.mk.injEq] at hgap hgap'
  rw [← hgap.2] at hword
  rw [← hgap'.2] at hvalue
  have hskip := (readWords_equals_iff.mp hword).2
  rw [propertySegments_of_some hkey hskip hvalue] at hread
  cases hread
  exact ⟨key, s₁, s₂, value, hkey, hskip, hvalue, rfl⟩

end Property

theorem propertySegments_simulates :
    Simulates (fun _ _ => True) propertySegments readProperty := by
  intro s
  cases hread : readProperty s with
  | some result =>
      obtain ⟨props, t⟩ := result
      obtain ⟨key, s₁, s₂, value, hname, hskip, hvalue, -⟩ :=
        readProperty_eq_some hread
      rw [propertySegments_of_some hname hskip hvalue]
      exact Option.Rel.some ⟨trivial, rfl⟩
  | none =>
      cases hcut : propertySegments s with
      | none => exact Option.Rel.none
      | some result =>
          obtain ⟨ps, t⟩ := result
          obtain ⟨key, s₁, s₂, value, hname, hskip, hvalue, -⟩ :=
            propertySegments_eq_some hcut
          rw [readProperty_of_some hname hskip hvalue] at hread
          cases hread

theorem propertySegments_consuming : Consuming propertySegments :=
  propertySegments_simulates.consuming readProperty_consuming

theorem gapped_consuming :
    Consuming (andThen gapSegments propertySegments) := by
  apply Consuming.andThen_right ?_ propertySegments_consuming
  intro s ps t hread
  rw [gapSegments_eq] at hread
  cases hread
  exact skip_shrinking s

theorem cuts_properties :
    Cuts IsPart (readAll (andThen gapSegments propertySegments)) :=
  (cuts_gapSegments.andThen cuts_propertySegments).readAll gapped_consuming

theorem cuts_bodySegments : Cuts Inner bodySegments := by
  have hname : Cuts Inner (readSegment .word readActionName) :=
    (cuts_words (by decide)).mono fun _ h => h.2
  have hgap : Cuts Inner gapSegments := cuts_gapSegments.mono fun _ h => h.2
  have hprops : Cuts Inner (readAll (andThen gapSegments propertySegments)) :=
    cuts_properties.mono fun _ h => h.2
  exact hname.andThen (hgap.andThen
    (cuts_contentSegments.andThen (hprops.andThen hgap)))

/-! ## Value nodes -/

/-- The nodes of values and payloads among the nodes and their children. -/
def valuesIn (pairs : List (Pair Rule)) : List (Pair Rule) :=
  (pairs.flatMap fun child => child :: child.intoInner).filter fun node =>
    node.asRule = .payload ∨ node.asRule = .propertyValue

def valueNodes (node : Pair Rule) : List (Pair Rule) :=
  valuesIn node.intoInner

def isValue (p : Segment SegmentKind) : Bool :=
  p.kind = .value ∨ p.kind = .payload

def valueLeaf (size : ℕ) (p : Segment SegmentKind) : Pair Rule :=
  leaf (if p.kind = .payload then .payload else .propertyValue)
    (size - p.start.length) p.text

def ValuesOf (size : ℕ) (pairs : List (Pair Rule))
    (ps : List (Segment SegmentKind)) : Prop :=
  valuesIn pairs = (ps.filter isValue).map (valueLeaf size)

theorem ValuesOf.append (size : ℕ) (xs xs' : List (Pair Rule))
    (ys ys' : List (Segment SegmentKind))
    (h : ValuesOf size xs ys) (h' : ValuesOf size xs' ys') :
    ValuesOf size (xs ++ xs') (ys ++ ys') := by
  unfold ValuesOf valuesIn at *
  rw [List.flatMap_append, List.filter_append, List.filter_append,
    List.map_append, h, h']

theorem filter_gapsOf (s : List Char) : (gapsOf s).filter isValue = [] := by
  rw [List.filter_eq_nil_iff]
  intro p hp
  rcases (isGap_of_mem hp).1 with hkind | hkind <;> simp [isValue, hkind]

theorem filter_propertyCut (key s₁ s₂ value t : List Char) :
    (propertyCut key s₁ s₂ value t).filter isValue =
      [⟨.value, value, t⟩] := by
  simp [propertyCut, filter_gapsOf, isValue]

theorem property_values (size : ℕ) :
    Simulates (ValuesOf size) (Grammar.property (manifestContext size))
      propertySegments := by
  intro s
  rw [property_eq]
  cases hcut : propertySegments s with
  | some result =>
      obtain ⟨ps, t⟩ := result
      obtain ⟨key, s₁, s₂, value, hname, hskip, hvalue, rfl⟩ :=
        propertySegments_eq_some hcut
      rw [hname]
      simp only [hskip, hvalue]
      refine Option.Rel.some ⟨?_, rfl⟩
      have hsplit := readPropertyValue_splits hvalue
      unfold ValuesOf
      rw [filter_propertyCut]
      simp [valuesIn, propertyNode, leaf, valueLeaf, Segment.start, hsplit]
  | none =>
      have hread : readProperty s = none :=
        propertySegments_simulates.none_iff.mp hcut
      have hnone := (property_nodes size).none_iff.mpr hread
      rw [property_eq] at hnone
      rw [hnone]
      exact Option.Rel.none

theorem payload_values (size : ℕ) :
    Simulates (ValuesOf size) (Grammar.payload (manifestContext size))
      (readSegment .payload readPropertyValue) := by
  intro s
  rw [payload_eq]
  unfold readSegment
  cases hvalue : readPropertyValue s with
  | none => exact Option.Rel.none
  | some result =>
      refine Option.Rel.some ⟨?_, rfl⟩
      have hsplit := readPropertyValue_splits hvalue
      simp [ValuesOf, valuesIn, leaf, isValue, valueLeaf, Segment.start,
        hsplit]

theorem content_values (size : ℕ) :
    Simulates (ValuesOf size)
      (choice [Grammar.property, Grammar.payload] (manifestContext size))
      contentSegments :=
  (property_values size).choice_cons (payload_values size).choice_single

/-- The loop over the properties with the gaps in front of them. -/
theorem gapped_values (s : List Char) :
    (repeatAll skip propertySegments s).1.filter isValue =
        (repeatAll id (andThen gapSegments propertySegments) s).1.filter
          isValue ∧
      (repeatAll skip propertySegments s).2 =
        (repeatAll id (andThen gapSegments propertySegments) s).2 := by
  have hround : Simulates (fun xs ys => xs.filter isValue = ys.filter isValue)
      (fun s => propertySegments (skip s))
      (andThen gapSegments propertySegments) := by
    intro s
    rw [andThen_of_some (gapSegments_eq s)]
    dsimp only
    cases propertySegments (skip s) with
    | none => exact Option.Rel.none
    | some result =>
        refine Option.Rel.some ⟨?_, rfl⟩
        simp [filter_gapsOf]
  rw [repeatAll_gap]
  refine hround.repeatAll rfl ?_ s
  intro xs xs' ys ys' h h'
  rw [List.filter_append, List.filter_append, h, h']

theorem rep_values (size : ℕ) (s : List Char) :
    ∃ pairs u,
      rep Grammar.property (manifestContext size) (skip s) = some (pairs, u) ∧
      ValuesOf size pairs
        (repeatAll id (andThen gapSegments propertySegments) s).1 ∧
      skip u =
        skip (repeatAll id (andThen gapSegments propertySegments) s).2 := by
  obtain ⟨pairs, u, hrep, hvalues, hend⟩ := (property_values size).rep_gap rfl
    (ValuesOf.append size) skip_shrinking skip_skip propertySegments_consuming s
  rw [gap_manifestContext] at hrep hvalues hend
  obtain ⟨hfilter, hrest⟩ := gapped_values s
  refine ⟨pairs, u, hrep, ?_, ?_⟩
  · unfold ValuesOf at *
    rw [hvalues, hfilter]
  · rw [hend, hrest]

/-! ## Actions -/

/-- The segments of an action, part by part. -/
theorem actionSegments_eq_some {s t : List Char}
    {ps : List (Segment SegmentKind)}
    (h : actionSegments s = some (ps, t)) :
    ∃ body u w,
      bodySegments s = some (body, u) ∧ readTerminator u = some t ∧
      u = w ++ t ∧ ps = body ++ [⟨.terminator, w, t⟩] := by
  obtain ⟨body, u, last, hbody, hlast, rfl⟩ := andThen_eq_some h
  obtain ⟨w, hstep, rfl⟩ := readSegment_eq_some hlast
  obtain ⟨hterm, hsplit⟩ :=
    readStep_eq_some (fun _ _ => readTerminator_suffix) hstep
  exact ⟨body, u, w, hbody, hterm, hsplit, rfl⟩

theorem actionSegments_tiles {s t : List Char}
    {ps : List (Segment SegmentKind)}
    (h : actionSegments s = some (ps, t)) :
    Tiles s ps t ∧ ∀ p ∈ ps, Shaped p := by
  obtain ⟨body, u, w, hbody, hterm, hsplit, rfl⟩ := actionSegments_eq_some h
  obtain ⟨htiles, hinner⟩ := cuts_bodySegments hbody
  have hlast : Tiles u [⟨SegmentKind.terminator, w, t⟩] t := by
    have hu : u = (⟨SegmentKind.terminator, w, t⟩ :
      Segment SegmentKind).start := hsplit
    rw [hu]
    exact .cons _ (.nil t)
  refine ⟨htiles.append hlast, ?_⟩
  intro p hp
  rcases List.mem_append.mp hp with hp | hp
  · exact (hinner p hp).2
  · cases List.mem_singleton.mp hp
    change readTerminator (w ++ t) = some t
    rw [← hsplit]
    exact hterm

theorem contentSegments_simulates :
    Simulates (fun _ _ => True) contentSegments readContent := by
  intro s
  have hprop := propertySegments_simulates s
  unfold contentSegments orElse readContent
  cases hp : propertySegments s <;> cases hr : readProperty s <;>
    rw [hp, hr] at hprop
  · unfold readSegment
    cases readPropertyValue s with
    | none => exact Option.Rel.none
    | some result => exact Option.Rel.some ⟨trivial, rfl⟩
  · cases hprop
  · cases hprop
  · cases hprop with
    | some hrel => exact Option.Rel.some ⟨trivial, hrel.2⟩

theorem gapped_rest (s : List Char) :
    (repeatAll id (andThen gapSegments propertySegments) s).2 =
      (repeatAll skip readProperty s).2 := by
  rw [← (gapped_values s).2]
  exact (propertySegments_simulates.repeatAll trivial
    (fun _ _ _ _ _ _ => trivial) s).2

/-- The loop over the properties of an action behind its first token. -/
def propertiesCut (s : List Char) : List (Segment SegmentKind) × List Char :=
  repeatAll id (andThen gapSegments propertySegments) s

def bodyCut (name s₁ : List Char) (content : List (Segment SegmentKind))
    (s₂ : List Char) : List (Segment SegmentKind) :=
  ⟨.word, name, s₁⟩ :: (gapsOf s₁ ++ (content ++
    ((propertiesCut s₂).1 ++ gapsOf (propertiesCut s₂).2)))

theorem bodySegments_of_some {s s₁ s₂ name : List Char}
    {content : List (Segment SegmentKind)}
    (hname : readActionName s = some (name, s₁))
    (hcontent : contentSegments (skip s₁) = some (content, s₂)) :
    bodySegments s = some (bodyCut name s₁ content s₂,
      skip (propertiesCut s₂).2) := by
  have hloop : readAll (andThen gapSegments propertySegments) s₂ =
      some ((propertiesCut s₂).1, (propertiesCut s₂).2) := rfl
  have hword : readSegment .word readActionName s =
      some ([⟨SegmentKind.word, name, s₁⟩], s₁) := by
    unfold readSegment
    rw [hname]
    rfl
  unfold bodySegments
  rw [andThen_of_some hword, andThen_of_some (gapSegments_eq s₁),
    andThen_of_some hcontent, andThen_of_some hloop, gapSegments_eq]
  rfl

theorem bodySegments_eq_some {s u : List Char}
    {body : List (Segment SegmentKind)}
    (h : bodySegments s = some (body, u)) :
    ∃ name s₁ content s₂,
      readActionName s = some (name, s₁) ∧
      contentSegments (skip s₁) = some (content, s₂) ∧
      u = skip (propertiesCut s₂).2 ∧
      body = bodyCut name s₁ content s₂ := by
  obtain ⟨_, s₁, _, hword, htail, -⟩ := andThen_eq_some h
  obtain ⟨_, _, _, hgap, htail, -⟩ := andThen_eq_some htail
  obtain ⟨content, s₂, _, hcontent, -, -⟩ := andThen_eq_some htail
  obtain ⟨name, hname, -⟩ := readSegment_eq_some hword
  rw [gapSegments_eq, Option.some.injEq, Prod.mk.injEq] at hgap
  rw [← hgap.2] at hcontent
  rw [bodySegments_of_some hname hcontent] at h
  cases h
  exact ⟨name, s₁, content, s₂, hname, hcontent, rfl, rfl⟩

theorem actionSegments_of_some {s u t : List Char}
    {body : List (Segment SegmentKind)}
    (hbody : bodySegments s = some (body, u))
    (hterm : readTerminator u = some t) :
    ∃ w, actionSegments s = some (body ++ [⟨.terminator, w, t⟩], t) := by
  unfold actionSegments
  rw [andThen_of_some hbody]
  unfold readSegment readStep
  rw [hterm]
  exact ⟨_, rfl⟩

theorem actionSegments_simulates :
    Simulates (fun _ _ => True) actionSegments readAction := by
  intro s
  cases hread : readAction s with
  | some result =>
      obtain ⟨act, t⟩ := result
      obtain ⟨name, s₁, content, s₂, hname, hcontent, hterm, -⟩ :=
        readAction_eq_some hread
      obtain ⟨cut, hcut, -⟩ := contentSegments_simulates.exists_of_some hcontent
      rw [← gapped_rest] at hterm
      obtain ⟨w, hw⟩ :=
        actionSegments_of_some (bodySegments_of_some hname hcut) hterm
      rw [hw]
      exact Option.Rel.some ⟨trivial, rfl⟩
  | none =>
      cases hcut : actionSegments s with
      | none => exact Option.Rel.none
      | some result =>
          obtain ⟨ps, t⟩ := result
          obtain ⟨body, u, w, hbody, hterm, -, -⟩ := actionSegments_eq_some hcut
          obtain ⟨name, s₁, cut, s₂, hname, hcontent, rfl, -⟩ :=
            bodySegments_eq_some hbody
          have hsome := contentSegments_simulates (skip s₁)
          rw [hcontent] at hsome
          rw [propertiesCut, gapped_rest] at hterm
          unfold readAction at hread
          rw [hname] at hread
          cases hr : readContent (skip s₁) with
          | none =>
              rw [hr] at hsome
              cases hsome
          | some content =>
              rw [hr] at hsome
              cases hsome with
              | some hrel => simp [hr, ← hrel.2, hterm] at hread

theorem valuesIn_append (xs ys : List (Pair Rule)) :
    valuesIn (xs ++ ys) = valuesIn xs ++ valuesIn ys := by
  unfold valuesIn
  rw [List.flatMap_append, List.filter_append]

theorem valuesIn_body {size start : ℕ} {name s₁ s₂ : List Char}
    {content : List (Segment SegmentKind)} {pairs props last : List (Pair Rule)}
    {p : Segment SegmentKind} (hp : p.kind = .terminator)
    (hvalues : ValuesOf size pairs content)
    (hprops : ValuesOf size props (propertiesCut s₂).1)
    (hlast : last = [] ∨ ∃ start, last = [leaf .EOI start []]) :
    valuesIn ([leaf .actionName start name] ++ (pairs ++ (props ++ last))) =
      ((bodyCut name s₁ content s₂ ++ [p]).filter isValue).map
        (valueLeaf size) := by
  have hname : valuesIn [leaf .actionName start name] = [] := rfl
  have hend : valuesIn last = [] := by
    rcases hlast with rfl | ⟨start, rfl⟩
    · rfl
    · rfl
  unfold ValuesOf at hvalues hprops
  rw [valuesIn_append, valuesIn_append, valuesIn_append, hname, hend, hvalues,
    hprops]
  simp [bodyCut, filter_gapsOf, isValue, hp]

/-- The value nodes of an action are its value segments. -/
theorem action_values (size : ℕ) {s t : List Char} {node : Pair Rule}
    (h : Grammar.action (manifestContext size) s = some ([node], t)) :
    ∃ ps, actionSegments s = some (ps, t) ∧
      valueNodes node = (ps.filter isValue).map (valueLeaf size) := by
  unfold Grammar.action rule at h
  simp only [seq, actionName_eq, gap_manifestContext] at h
  cases hname : readActionName s with
  | none => simp [hname] at h
  | some name =>
      obtain ⟨name, s₁⟩ := name
      simp only [hname, Option.map_some] at h
      have hcontent := content_values size (skip s₁)
      cases hp : choice [Grammar.property, Grammar.payload]
          (manifestContext size) (skip s₁) with
      | none => simp [hp] at h
      | some parsed =>
          obtain ⟨pairs, s₂⟩ := parsed
          obtain ⟨props, u, hrep, hprops, hend⟩ := rep_values size s₂
          obtain ⟨last, hterm, hlast⟩ := terminator_nodes size
            (skip (propertiesCut s₂).2)
          cases hcut : contentSegments (skip s₁) with
          | none =>
              rw [hp, hcut] at hcontent
              cases hcontent
          | some cut =>
              obtain ⟨content, s₂'⟩ := cut
              rw [hp, hcut] at hcontent
              cases hcontent with
              | some hrel =>
                  obtain ⟨hvalues, rfl⟩ := hrel
                  have hend' : skip u = skip (propertiesCut s₂).2 := hend
                  simp only [hp, hrep, hend', hterm] at h
                  cases hdone : readTerminator (skip (propertiesCut s₂).2) with
                  | none => simp [hdone] at h
                  | some t' =>
                      simp only [hdone, Option.map_some, manifestContext,
                        Option.some.injEq, Prod.mk.injEq, List.cons.injEq,
                        and_true] at h
                      obtain ⟨rfl, rfl⟩ := h
                      obtain ⟨w, hw⟩ := actionSegments_of_some
                        (bodySegments_of_some hname hcut) hdone
                      exact ⟨_, hw, valuesIn_body rfl hvalues hprops hlast⟩


end Ips.Manifest
