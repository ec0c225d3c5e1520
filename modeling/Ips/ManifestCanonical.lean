import Ips.ActionConversions
import Ips.ManifestReader

/-!
# The canonical manifest format

Blank lines, comment lines and action lines, as a packager writes them.  The
invariants of the format are fields of the structures, so only texts of the
format can be built.  The module computes what `Manifest::parse_string` reads
on such a text, line by line.
-/

namespace Ips.Manifest

open Peg

/-! ## Lines -/

inductive Separator where
  | space
  | tab
  | continuation
  deriving DecidableEq

def Separator.render : Separator → Text
  | .space => [' ']
  | .tab => ['\t']
  | .continuation => ['\\', '\n']

/-- One or more separators. -/
structure Separators where
  first : Separator
  rest : List Separator

def Separators.render (seps : Separators) : Text :=
  seps.first.render ++ seps.rest.flatMap Separator.render

def isSeparating (c : Char) : Bool :=
  c == ' ' || (c == '\t' || (c == '\r' || c == '\n'))

structure CanonicalValue where
  text : Text
  quoted : Bool
  noQuote : '\"' ∉ text
  noBackslash : '\\' ∉ text
  bare : quoted = false → text ≠ [] ∧ (∀ c ∈ text, isSeparating c = false) ∧
    text.head? ≠ some '#'

def CanonicalValue.render (value : CanonicalValue) : Text :=
  if value.quoted then '\"' :: (value.text ++ ['\"']) else value.text

structure CanonicalProperty where
  name : Text
  value : CanonicalValue
  name_ne_nil : name ≠ []
  name_chars : ∀ c ∈ name, isNameChar c = true

def CanonicalProperty.render (prop : CanonicalProperty) : Text :=
  prop.name ++ '=' :: prop.value.render

def CanonicalProperty.property (prop : CanonicalProperty) : Property :=
  { key := prop.name, value := prop.value.text }

structure CanonicalPayload where
  text : Text
  ne_nil : text ≠ []
  separated : ∀ c ∈ text, isSeparating c = false
  noQuote : '\"' ∉ text
  noBackslash : '\\' ∉ text
  noEquals : '=' ∉ text
  noHash : text.head? ≠ some '#'

inductive Keyword where
  | set
  | depend
  | dir
  | file
  | license
  | link
  | hardlink
  deriving DecidableEq

def Keyword.word : Keyword → String
  | .set => "set"
  | .depend => "depend"
  | .dir => "dir"
  | .file => "file"
  | .license => "license"
  | .link => "link"
  | .hardlink => "hardlink"

def Keyword.render (keyword : Keyword) : Text := keyword.word.toList

def Keyword.kind : Keyword → ActionKind
  | .set => .attr
  | .depend => .dependency
  | .dir => .dir
  | .file => .file
  | .license => .license
  | .link => .link
  | .hardlink => .link

structure ActionLine where
  keyword : Keyword
  payload : Option (Separators × CanonicalPayload)
  properties : List (Separators × CanonicalProperty)
  payload_kind : payload.isSome → keyword = .file ∨ keyword = .license
  nonempty : payload.isSome ∨ properties ≠ []

def renderProperties (props : List (Separators × CanonicalProperty)) : Text :=
  props.flatMap fun x => x.1.render ++ x.2.render

def ActionLine.render (line : ActionLine) : Text :=
  line.keyword.render ++
    (match line.payload with
      | some x => x.1.render ++ x.2.text
      | none => []) ++
    renderProperties line.properties

def ActionLine.action (line : ActionLine) : Action where
  kind := line.keyword.kind
  payloadString :=
    match line.payload with
    | some x => x.2.text
    | none => []
  properties := line.properties.map fun x => x.2.property

inductive Line where
  | blank (blanks : Text) (h : ∀ c ∈ blanks, c = ' ' ∨ c = '\t')
  | comment (text : Text) (h : ∀ c ∈ text, isNewlineChar c = false)
  | action (line : ActionLine)

def Line.render : Line → Text
  | .blank blanks _ => blanks ++ ['\n']
  | .comment text _ => '#' :: (text ++ ['\n'])
  | .action line => line.render ++ ['\n']

def Line.isComment : Line → Bool
  | .comment _ _ => true
  | _ => false

/-- A text of the format: lines that end in a line break, and possibly a last
action line that does not. -/
structure CanonicalManifest where
  lines : List Line
  last : Option ActionLine
  nonempty : (∃ line ∈ lines, line.isComment = false) ∨ last.isSome

def renderLast : Option ActionLine → Text
  | some line => line.render
  | none => []

def CanonicalManifest.render (doc : CanonicalManifest) : Text :=
  doc.lines.flatMap Line.render ++ renderLast doc.last

def Line.actions : Line → List Action
  | .action line => [line.action]
  | _ => []

def lastActions : Option ActionLine → List Action
  | some line => [line.action]
  | none => []

def CanonicalManifest.actions (doc : CanonicalManifest) : List Action :=
  doc.lines.flatMap Line.actions ++ lastActions doc.last

/-! ## Reading the tokens of a line -/

theorem readPropertyName_append {name t : List Char}
    (hne : name ≠ []) (hname : ∀ c ∈ name, isNameChar c = true)
    (ht : headIs isNameChar t = false) :
    readPropertyName (name ++ t) = some (name, t) :=
  readRunOnce_append hne (fun c hc _ => hname c hc) ht

theorem readWhitespace_eq_none {c : Char} (t : List Char)
    (hslash : c ≠ '\\') (hspace : c ≠ ' ') (htab : c ≠ '\t') :
    readWhitespace (c :: t) = none := by
  unfold readWhitespace
  split <;> simp_all

theorem isBareStart_cons {c : Char} (t : List Char)
    (hslash : c ≠ '\\') (hc : isSeparating c = false) :
    isBareStart (c :: t) = true := by
  simp only [isSeparating, Bool.or_eq_false_iff, beq_eq_false_iff_ne] at hc
  obtain ⟨hspace, htab, hcr, hlf⟩ := hc
  have hn : readNewline (c :: t) = none := by
    rw [readNewline_eq_none_iff]
    simp [headIs, isNewlineChar, hcr, hlf]
  simp [isBareStart, readWhitespace_eq_none t hslash hspace htab, hn]

theorem readBare_append {w t : List Char}
    (hne : w ≠ []) (hslash : '\\' ∉ w) (hw : ∀ c ∈ w, isSeparating c = false)
    (ht : isBareStart t = false) : readBare (w ++ t) = some (w, t) := by
  apply readRunOnce_append hne ?_ ht
  intro c hc u
  apply isBareStart_cons u
  · intro h
    exact hslash (h ▸ hc)
  · exact hw c hc

theorem readQuoted_append {w : List Char} (hw : '\"' ∉ w) (t : List Char) :
    readQuoted ('\"' :: (w ++ '\"' :: t)) =
      some ('\"' :: (w ++ ['\"']), t) := by
  have hall := forall_bne_of_not_mem hw
  unfold readQuoted
  simp only
  rw [List.dropWhile_append_of_pos hall, List.takeWhile_append_of_pos hall]
  simp

theorem readQuoted_eq_none {w : List Char} (hw : w.head? ≠ some '\"') :
    readQuoted w = none := by
  unfold readQuoted
  split
  · simp at hw
  · rfl

theorem CanonicalValue.head_ne (value : CanonicalValue) :
    ∃ c w, value.render = c :: w ∧ c ≠ '\\' ∧ c ≠ ' ' ∧ c ≠ '\t' ∧ c ≠ '#' := by
  unfold CanonicalValue.render
  cases hq : value.quoted with
  | true => exact ⟨'\"', _, rfl, by decide⟩
  | false =>
      obtain ⟨hne, hsep, hhash⟩ := value.bare hq
      cases htext : value.text with
      | nil => exact absurd htext hne
      | cons c w =>
          have hc := hsep c (by simp [htext])
          simp only [isSeparating, Bool.or_eq_false_iff,
            beq_eq_false_iff_ne] at hc
          have hslash : c ≠ '\\' := by
            intro h
            exact value.noBackslash (by simp [htext, h])
          refine ⟨c, w, by simp, hslash, hc.1, hc.2.1, ?_⟩
          simpa [htext] using hhash

theorem readPropertyValue_render (value : CanonicalValue) {t : List Char}
    (ht : isBareStart t = false) :
    readPropertyValue (value.render ++ t) = some (value.render, t) := by
  unfold readPropertyValue CanonicalValue.render
  cases hq : value.quoted with
  | true => simp [readQuoted_append value.noQuote]
  | false =>
      obtain ⟨hne, hsep, _⟩ := value.bare hq
      have hhead : (value.text ++ t).head? ≠ some '\"' := by
        rw [List.head?_append_of_ne_nil _ hne]
        intro h
        exact value.noQuote (List.mem_of_mem_head? h)
      simp [readQuoted_eq_none hhead,
        readBare_append hne value.noBackslash hsep ht]

theorem removeChars_render (value : CanonicalValue) :
    removeChars ['\"', '\\'] value.render = value.text := by
  have hself : removeChars ['\"', '\\'] value.text = value.text := by
    apply removeChars_eq_self
    intro c hc
    rcases List.mem_pair.mp hc with rfl | rfl
    · exact value.noQuote
    · exact value.noBackslash
  unfold CanonicalValue.render
  cases value.quoted with
  | true =>
      calc
        removeChars ['\"', '\\'] ('\"' :: (value.text ++ ['\"'])) =
            removeChars ['\"', '\\'] ['\"'] ++
              (removeChars ['\"', '\\'] value.text ++
                removeChars ['\"', '\\'] ['\"']) := by
              rw [← removeChars_append, ← removeChars_append]
              rfl
        _ = value.text := by
              rw [hself]
              simp [removeChars]
  | false => simpa using hself

theorem readProperty_render (prop : CanonicalProperty) {t : List Char}
    (ht : isBareStart t = false) :
    readProperty (prop.render ++ t) = some ([prop.property], t) := by
  obtain ⟨c, w, hrender, hc⟩ := prop.value.head_ne
  have hname : readPropertyName (prop.render ++ t) =
      some (prop.name, '=' :: (prop.value.render ++ t)) := by
    unfold CanonicalProperty.render
    rw [List.append_assoc]
    exact readPropertyName_append prop.name_ne_nil prop.name_chars rfl
  have hequals : skip ('=' :: (prop.value.render ++ t)) =
      '=' :: (prop.value.render ++ t) :=
    skip_eq_self_of_head _ (by decide)
  have hvalue : skip (prop.value.render ++ t) = prop.value.render ++ t := by
    rw [hrender]
    exact skip_eq_self_of_head _ hc
  unfold readProperty
  simp only [hname, hequals, hvalue, readPropertyValue_render prop.value ht,
    removeChars_render]
  rfl

/-! ## Reading a line -/

theorem skip_separator (sep : Separator) (t : List Char) :
    skip (sep.render ++ t) = skip t := by
  apply skip_of_gap
  cases sep with
  | space => rfl
  | tab => rfl
  | continuation => rfl

theorem skip_separators (seps : Separators) (t : List Char) :
    skip (seps.render ++ t) = skip t := by
  unfold Separators.render
  rw [List.append_assoc, skip_separator]
  induction seps.rest with
  | nil => rfl
  | cons sep rest ih =>
      rw [List.flatMap_cons, List.append_assoc, skip_separator, ih]

theorem isBareStart_separators (seps : Separators) (t : List Char) :
    isBareStart (seps.render ++ t) = false := by
  unfold Separators.render
  cases seps.first with
  | space => rfl
  | tab => rfl
  | continuation => rfl

/-- A line ends at the end of the text or in a line feed. -/
def EndOfLine (t : List Char) : Prop := t = [] ∨ ∃ u, t = '\n' :: u

theorem EndOfLine.skip_eq {t : List Char} (h : EndOfLine t) : skip t = t := by
  rcases h with rfl | ⟨u, rfl⟩
  · exact skip_of_none rfl
  · exact skip_eq_self_of_head u (by decide)

theorem EndOfLine.isBareStart {t : List Char} (h : EndOfLine t) :
    isBareStart t = false := by
  rcases h with rfl | ⟨u, rfl⟩ <;> rfl

theorem isBareStart_renderProperties
    (props : List (Separators × CanonicalProperty)) {t : List Char}
    (ht : EndOfLine t) : isBareStart (renderProperties props ++ t) = false := by
  cases props with
  | nil => exact ht.isBareStart
  | cons x rest =>
      simp only [renderProperties, List.flatMap_cons, List.append_assoc]
      exact isBareStart_separators _ _

theorem nameChar_head {c : Char} (hc : isNameChar c = true) :
    c ≠ '\\' ∧ c ≠ ' ' ∧ c ≠ '\t' ∧ c ≠ '#' := by
  refine ⟨?_, ?_, ?_, ?_⟩ <;>
    · rintro rfl
      revert hc
      decide

theorem skip_property (prop : CanonicalProperty) (t : List Char) :
    skip (prop.render ++ t) = prop.render ++ t := by
  unfold CanonicalProperty.render
  cases hname : prop.name with
  | nil => exact absurd hname prop.name_ne_nil
  | cons c w =>
      have hc := prop.name_chars c (by simp [hname])
      exact skip_eq_self_of_head _ (nameChar_head hc)

theorem repeatAll_readProperty_render
    (props : List (Separators × CanonicalProperty)) {t : List Char}
    (ht : EndOfLine t) :
    repeatAll skip readProperty (renderProperties props ++ t) =
      (props.map fun x => x.2.property, t) := by
  induction props with
  | nil =>
      apply repeatAll_of_none skip_shrinking readProperty_consuming
      change readProperty (skip t) = none
      rw [ht.skip_eq]
      apply readProperty_eq_none
      rcases ht with rfl | ⟨u, rfl⟩
      · rfl
      · change isNameChar '\n' = false
        decide
  | cons x rest ih =>
      have hround : readProperty
          (skip (renderProperties (x :: rest) ++ t)) =
            some ([x.2.property], renderProperties rest ++ t) := by
        simp only [renderProperties, List.flatMap_cons, List.append_assoc]
        rw [skip_separators, skip_property]
        exact readProperty_render x.2 (isBareStart_renderProperties rest ht)
      rw [repeatAll_of_some skip_shrinking readProperty_consuming hround, ih]
      rfl

theorem readActionName_render (keyword : Keyword) (t : List Char) :
    readActionName (keyword.render ++ t) = some (keyword.render, t) := by
  have hmem : keyword.word ∈ keywords := by
    cases keyword <;> decide
  have hfree : ∀ word ∈ keywords, word ≠ keyword.word →
      ¬ word.toList <+: keyword.word.toList ∧
        ¬ keyword.word.toList <+: word.toList := by
    cases keyword <;> decide
  exact readWords_append hmem hfree t

theorem getActionKind_render (keyword : Keyword) :
    getActionKind keyword.render = keyword.kind := by
  cases keyword <;> decide

theorem skip_payload (payload : CanonicalPayload) (t : List Char) :
    skip (payload.text ++ t) = payload.text ++ t := by
  cases htext : payload.text with
  | nil => exact absurd htext payload.ne_nil
  | cons c w =>
      have hc := payload.separated c (by simp [htext])
      simp only [isSeparating, Bool.or_eq_false_iff,
        beq_eq_false_iff_ne] at hc
      have hslash : c ≠ '\\' := by
        intro h
        exact payload.noBackslash (by simp [htext, h])
      have hhash : c ≠ '#' := by
        simpa [htext] using payload.noHash
      exact skip_eq_self_of_head _ ⟨hslash, hc.1, hc.2.1, hhash⟩

theorem readPropertyValue_payload (payload : CanonicalPayload) {t : List Char}
    (ht : isBareStart t = false) :
    readPropertyValue (payload.text ++ t) = some (payload.text, t) := by
  have hhead : (payload.text ++ t).head? ≠ some '\"' := by
    rw [List.head?_append_of_ne_nil _ payload.ne_nil]
    intro h
    exact payload.noQuote (List.mem_of_mem_head? h)
  unfold readPropertyValue
  rw [readQuoted_eq_none hhead]
  exact readBare_append payload.ne_nil payload.noBackslash
    payload.separated ht

/-- The text from the payload of the line on, when it has one. -/
def ActionLine.fromPayload (line : ActionLine) (t : Text) : Option Text :=
  line.payload.map fun x => x.2.text ++ (renderProperties line.properties ++ t)

/-- The grammar tries the rule `property` before the rule `payload`, and
skips comments after the name.  So a payload `name#..` is taken for the name
of a property when an equals sign and a value come after that comment. -/
def ActionLine.Misread (line : ActionLine) (t : Text) : Prop :=
  ∃ s ∈ line.fromPayload t, ∃ name u v,
    readPropertyName s = some (name, '#' :: u) ∧
    skip ('#' :: u) = '=' :: v ∧
    readPropertyValue (skip v) ≠ none

theorem headIs_nameChar_renderProperties
    (props : List (Separators × CanonicalProperty)) {t : List Char}
    (ht : EndOfLine t) :
    headIs isNameChar (renderProperties props ++ t) = false := by
  cases props with
  | nil =>
      rcases ht with rfl | ⟨u, rfl⟩
      · rfl
      · change isNameChar '\n' = false
        decide
  | cons x rest =>
      simp only [renderProperties, List.flatMap_cons, List.append_assoc,
        Separators.render]
      cases x.1.first with
      | space =>
          change isNameChar ' ' = false
          decide
      | tab =>
          change isNameChar '\t' = false
          decide
      | continuation =>
          change isNameChar '\\' = false
          decide

theorem skip_renderProperties_ne_equals
    (props : List (Separators × CanonicalProperty)) {t : List Char}
    (ht : EndOfLine t) (v : List Char) :
    skip (renderProperties props ++ t) ≠ '=' :: v := by
  cases props with
  | nil =>
      change skip t ≠ '=' :: v
      rw [ht.skip_eq]
      rcases ht with rfl | ⟨u, rfl⟩ <;> simp
  | cons x rest =>
      simp only [renderProperties, List.flatMap_cons, List.append_assoc]
      rw [skip_separators, skip_property]
      unfold CanonicalProperty.render
      cases hname : x.2.name with
      | nil => exact absurd hname x.2.name_ne_nil
      | cons c w =>
          have hc := x.2.name_chars c (by simp [hname])
          intro h
          simp only [List.cons_append, List.cons.injEq] at h
          rw [h.1] at hc
          revert hc
          decide

theorem dropWhile_payload (payload : CanonicalPayload)
    (props : List (Separators × CanonicalProperty)) {t : List Char}
    (ht : EndOfLine t) {v : List Char}
    (hskip : skip ((payload.text ++ (renderProperties props ++ t)).dropWhile
      isNameChar) = '=' :: v) :
    ∃ u, (payload.text ++ (renderProperties props ++ t)).dropWhile isNameChar =
      '#' :: u := by
  have htail : (renderProperties props ++ t).dropWhile isNameChar =
      renderProperties props ++ t := by
    rw [← dropTails_headIs]
    exact dropTails_eq_self (headIs_nameChar_renderProperties props ht)
  rw [List.dropWhile_append, htail] at hskip ⊢
  cases hrest : payload.text.dropWhile isNameChar with
  | nil =>
      simp only [hrest, List.isEmpty_nil, if_true] at hskip
      exact absurd hskip (skip_renderProperties_ne_equals props ht v)
  | cons c w =>
      simp only [hrest, List.isEmpty_cons, Bool.false_eq_true, if_false,
        List.cons_append] at hskip ⊢
      have hmem : c ∈ payload.text :=
        (List.dropWhile_suffix isNameChar).subset (by simp [hrest])
      have hsep := payload.separated c hmem
      simp only [isSeparating, Bool.or_eq_false_iff,
        beq_eq_false_iff_ne] at hsep
      by_cases hhash : c = '#'
      · exact ⟨_, by rw [hhash]⟩
      · have hslash : c ≠ '\\' := by
          intro h
          exact payload.noBackslash (h ▸ hmem)
        rw [skip_eq_self_of_head _ ⟨hslash, hsep.1, hsep.2.1, hhash⟩] at hskip
        simp only [List.cons.injEq] at hskip
        exact absurd (hskip.1 ▸ hmem) payload.noEquals

theorem misread_iff (line : ActionLine) {t : List Char} (ht : EndOfLine t)
    {x : Separators × CanonicalPayload} (hx : line.payload = some x) :
    line.Misread t ↔
      readProperty (x.2.text ++ (renderProperties line.properties ++ t)) ≠
        none := by
  have hfrom : line.fromPayload t =
      some (x.2.text ++ (renderProperties line.properties ++ t)) := by
    simp [ActionLine.fromPayload, hx]
  constructor
  · rintro ⟨s, hs, name, u, v, hname, hskip, hvalue⟩
    rw [hfrom, Option.mem_some_iff] at hs
    subst s
    unfold readProperty
    simp only [hname, hskip]
    cases hread : readPropertyValue (skip v) with
    | none => exact absurd hread hvalue
    | some value => simp
  · intro hread
    obtain ⟨⟨props, w⟩, hprops⟩ := Option.ne_none_iff_exists'.mp hread
    obtain ⟨name, s₁, v, value, hname, hskip, hvalue, _⟩ :=
      readProperty_eq_some hprops
    have hdrop := (readPropertyName_eq_some hname).2
    -- The payload has no equals sign, so the one found stands after a comment.
    rw [hdrop] at hskip
    obtain ⟨u, hu⟩ := dropWhile_payload x.2 line.properties ht hskip
    rw [hu] at hskip
    rw [hdrop, hu] at hname
    exact ⟨_, hfrom, name, u, v, hname, hskip, by simp [hvalue]⟩

/-- A line whose payload is not misread is read as its action. -/
theorem readAction_render (line : ActionLine) {t u : List Char}
    (ht : EndOfLine t) (hterm : readTerminator t = some u)
    (hread : ¬ line.Misread t) :
    readAction (line.render ++ t) = some (line.action, u) := by
  have hloop := repeatAll_readProperty_render line.properties ht
  have hbare := isBareStart_renderProperties line.properties ht
  unfold readAction ActionLine.render ActionLine.action
  simp only [List.append_assoc, readActionName_render, getActionKind_render]
  cases hpayload : line.payload with
  | some x =>
      have hprop : readProperty
          (x.2.text ++ (renderProperties line.properties ++ t)) = none := by
        by_contra hne
        exact hread ((misread_iff line ht hpayload).mpr hne)
      have hcontent : readContent
          (x.2.text ++ (renderProperties line.properties ++ t)) =
            some ((x.2.text, []), renderProperties line.properties ++ t) :=
        readContent_of_payload hprop (readPropertyValue_payload x.2 hbare)
      simp only [List.append_assoc, skip_separators, skip_payload, hcontent,
        hloop, ht.skip_eq, hterm, List.nil_append]
  | none =>
      cases hprops : line.properties with
      | nil =>
          rcases line.nonempty with h | h
          · simp [hpayload] at h
          · exact absurd hprops h
      | cons x rest =>
          have hcontent : readContent
              (x.2.render ++ (renderProperties rest ++ t)) =
                some (([], [x.2.property]), renderProperties rest ++ t) :=
            readContent_of_property (readProperty_render x.2
              (isBareStart_renderProperties rest ht))
          have hcons : renderProperties (x :: rest) ++ t =
              x.1.render ++ (x.2.render ++ (renderProperties rest ++ t)) := by
            simp [renderProperties]
          simp only [List.nil_append, hcons, skip_separators, skip_property,
            hcontent, repeatAll_readProperty_render rest ht, ht.skip_eq, hterm]
          rfl

/-- A misread line never yields its payload. -/
theorem payloadString_of_misread (line : ActionLine) {t u : List Char}
    {act : Action} (ht : EndOfLine t) (hmisread : line.Misread t)
    (hread : readAction (line.render ++ t) = some (act, u)) :
    act ≠ line.action := by
  obtain ⟨s, hs, _⟩ := id hmisread
  cases hpayload : line.payload with
  | none => simp [ActionLine.fromPayload, hpayload] at hs
  | some x =>
      have hprop := (misread_iff line ht hpayload).mp hmisread
      obtain ⟨⟨props, v⟩, hprops⟩ := Option.ne_none_iff_exists'.mp hprop
      obtain ⟨name, s₁, content, s₂, hname, hcontent, _, hact⟩ :=
        readAction_eq_some hread
      unfold ActionLine.render at hname
      simp only [hpayload, List.append_assoc, readActionName_render,
        Option.some.injEq, Prod.mk.injEq] at hname
      rw [← hname.2, skip_separators, skip_payload] at hcontent
      rw [readContent_of_property hprops] at hcontent
      simp only [Option.some.injEq, Prod.mk.injEq] at hcontent
      intro heq
      have hstring : content.1 = x.2.text := by
        have h := congrArg Action.payloadString (hact.symm.trans heq)
        simpa [ActionLine.action, hpayload] using h
      rw [← hcontent.1] at hstring
      exact x.2.ne_nil hstring.symm

/-! ## Reading a text -/

theorem readItem_render (line : ActionLine) (t : List Char) :
    readItem (line.render ++ t) =
      match readAction (line.render ++ t) with
      | some (act, u) => some ([.action act], u)
      | none => none := by
  obtain ⟨c, w, hrender, hc⟩ : ∃ c w, line.render ++ t = c :: w ∧
      c ≠ '\n' ∧ c ≠ '\r' ∧ c ≠ '<' := by
    unfold ActionLine.render Keyword.render
    cases line.keyword <;> exact ⟨_, _, rfl, by decide⟩
  have hn : readNewline (c :: w) = none := by
    rw [readNewline_eq_none_iff]
    simp [headIs, isNewlineChar, hc.1, hc.2.1]
  have htransform : readTransform (c :: w) = none := by
    unfold readTransform readWords readWords
    simp [Ne.symm hc.2.2]
  rw [hrender]
  cases hread : readAction (c :: w) with
  | none => simp [readItem, hn, htransform, hread]
  | some out => simp [readItem, hn, htransform, hread]

theorem skip_render (line : ActionLine) (t : List Char) :
    skip (line.render ++ t) = line.render ++ t := by
  unfold ActionLine.render Keyword.render
  cases line.keyword <;> exact skip_eq_self_of_head _ (by decide)

theorem holdsActions_action (line : ActionLine) {t u : List Char}
    (ht : EndOfLine t) (hterm : readTerminator t = some u)
    (actions : List Action) :
    HoldsActions (line.render ++ t) (line.action :: actions) ↔
      ¬ line.Misread t ∧ HoldsActions u actions := by
  by_cases hmisread : line.Misread t
  · simp only [hmisread, not_true_eq_false, false_and, iff_false]
    intro hholds
    cases hread : readAction (line.render ++ t) with
    | none =>
        have hitem : readItem (skip (line.render ++ t)) = none := by
          rw [skip_render, readItem_render, hread]
        unfold HoldsActions at hholds
        rw [repeatAll_of_none skip_shrinking readItem_consuming hitem]
          at hholds
        simp at hholds
    | some result =>
        obtain ⟨act, v⟩ := result
        have hitem : readItem (skip (line.render ++ t)) =
            some ([.action act], v) := by
          rw [skip_render, readItem_render, hread]
        unfold HoldsActions at hholds
        rw [repeatAll_of_some skip_shrinking readItem_consuming hitem]
          at hholds
        have hact : act = line.action := by
          simpa [Item.action?] using congrArg List.head? hholds.1
        exact payloadString_of_misread line ht hmisread hread hact
  · have hitem : readItem (skip (line.render ++ t)) =
        some ([.action line.action], u) := by
      rw [skip_render, readItem_render,
        readAction_render line ht hterm hmisread]
    simpa [hmisread, Item.action?] using holdsActions_of_item hitem actions

theorem skip_blanks {blanks : Text} (h : ∀ c ∈ blanks, c = ' ' ∨ c = '\t')
    (t : List Char) : skip (blanks ++ '\n' :: t) = '\n' :: t := by
  induction blanks with
  | nil => exact skip_eq_self_of_head t (by decide)
  | cons c blanks ih =>
      have hgap : readGap (c :: (blanks ++ '\n' :: t)) =
          some (blanks ++ '\n' :: t) := by
        rcases h c List.mem_cons_self with rfl | rfl <;> rfl
      rw [List.cons_append, skip_of_gap hgap]
      exact ih fun d hd => h d (List.mem_cons_of_mem c hd)

theorem readGap_comment {text : Text}
    (h : ∀ c ∈ text, isNewlineChar c = false) (t : List Char) :
    readGap ('#' :: (text ++ '\n' :: t)) = some t := by
  have hall : ∀ c ∈ text, (!isNewlineChar c) = true := by
    intro c hc
    simp [h c hc]
  change readNewline
    ((text ++ '\n' :: t).dropWhile fun c => !isNewlineChar c) = some t
  rw [List.dropWhile_append_of_pos hall]
  rfl

/-- No payload of the text is taken for the name of a property. -/
def PayloadsKept : List Line → Option ActionLine → Prop
  | [], none => True
  | [], some line => ¬ line.Misread []
  | .blank _ _ :: rest, last => PayloadsKept rest last
  | .comment _ _ :: rest, last => PayloadsKept rest last
  | .action line :: rest, last =>
      ¬ line.Misread ('\n' :: (rest.flatMap Line.render ++ renderLast last)) ∧
        PayloadsKept rest last

theorem holdsActions_lines (lines : List Line) (last : Option ActionLine) :
    HoldsActions (lines.flatMap Line.render ++ renderLast last)
        (lines.flatMap Line.actions ++ lastActions last) ↔
      PayloadsKept lines last := by
  induction lines with
  | nil =>
      cases last with
      | none => simpa [PayloadsKept, renderLast, lastActions] using holdsActions_nil
      | some line =>
          have h := holdsActions_action line (.inl rfl) rfl []
          simpa [PayloadsKept, renderLast, lastActions, holdsActions_nil] using h
  | cons line rest ih =>
      cases line with
      | blank blanks hblanks =>
          have hitem : readItem (skip (blanks ++ '\n' ::
              (rest.flatMap Line.render ++ renderLast last))) =
                some ([.newline], rest.flatMap Line.render ++ renderLast last) := by
            rw [skip_blanks hblanks]
            rfl
          simp only [List.flatMap_cons, Line.render, List.append_assoc]
          exact (holdsActions_of_item hitem _).trans ih
      | comment text htext =>
          have h := holdsActions_of_gap
            (readGap_comment htext (rest.flatMap Line.render ++ renderLast last))
            (rest.flatMap Line.actions ++ lastActions last)
          simpa [PayloadsKept, Line.render, Line.actions, ih] using h
      | action line =>
          have h := holdsActions_action line
            (.inr ⟨rest.flatMap Line.render ++ renderLast last, rfl⟩) rfl
            (rest.flatMap Line.actions ++ lastActions last)
          simpa [PayloadsKept, Line.render, Line.actions, ih] using h

theorem skip_lines_ne_nil (lines : List Line) (last : Option ActionLine)
    (h : (∃ line ∈ lines, line.isComment = false) ∨ last.isSome) :
    skip (lines.flatMap Line.render ++ renderLast last) ≠ [] := by
  have hrender : ∀ (line : ActionLine) (t : List Char),
      line.render ++ t ≠ [] := by
    intro line t
    unfold ActionLine.render Keyword.render
    cases line.keyword <;> simp [Keyword.word]
  induction lines with
  | nil =>
      cases last with
      | none => simp at h
      | some line =>
          have hskip := skip_render line []
          rw [List.append_nil] at hskip
          have hne := hrender line []
          rw [List.append_nil] at hne
          simpa [renderLast, hskip] using hne
  | cons line rest ih =>
      cases line with
      | blank blanks hblanks =>
          simp only [List.flatMap_cons, Line.render, List.append_assoc]
          rw [List.singleton_append, skip_blanks hblanks]
          simp
      | comment text htext =>
          simp only [List.flatMap_cons, Line.render, List.cons_append,
            List.append_assoc, List.nil_append]
          rw [skip_of_gap (readGap_comment htext _)]
          exact ih (by simpa [Line.isComment] using h)
      | action line =>
          simp only [List.flatMap_cons, Line.render, List.append_assoc]
          rw [skip_render]
          exact hrender line _

theorem ActionLine.addAction_ok (line : ActionLine)
    (h : line.action.DigestsAccepted) (m : Manifest) :
    ∃ m', m.addAction line.action = .ok m' := by
  have hplain : line.keyword ≠ .file → line.keyword ≠ .license →
      line.action.payloadString = [] := by
    intro hfile hlicense
    cases hpayload : line.payload with
    | none => simp [ActionLine.action, hpayload]
    | some x =>
        rcases line.payload_kind (by simp [hpayload]) with hk | hk
        · exact absurd hk hfile
        · exact absurd hk hlicense
  have hequals : '=' ∉ line.action.payloadString := by
    cases hpayload : line.payload with
    | none => simp [ActionLine.action, hpayload]
    | some x => simpa [ActionLine.action, hpayload] using x.2.noEquals
  have hprops : line.keyword ≠ .file → line.keyword ≠ .license →
      line.action.propertiesWithPayload = .ok line.action.properties :=
    fun hfile hlicense => if_pos (hplain hfile hlicense)
  have hkind : line.action.kind = line.keyword.kind := rfl
  unfold Manifest.addAction
  rw [hkind]
  cases hk : line.keyword with
  | file =>
      obtain ⟨file, hfile⟩ := File.fromAction_ok line.action hequals
        (by rw [hkind, hk]; rfl) h
      simp only [Keyword.kind, hfile]
      exact ⟨_, rfl⟩
  | license => exact ⟨_, rfl⟩
  | set =>
      simp only [Keyword.kind, Attr.fromAction,
        hprops (by simp [hk]) (by simp [hk])]
      exact ⟨_, rfl⟩
  | depend =>
      simp only [Keyword.kind, Dependency.fromAction,
        hprops (by simp [hk]) (by simp [hk])]
      exact ⟨_, rfl⟩
  | dir =>
      simp only [Keyword.kind, Dir.fromAction,
        hprops (by simp [hk]) (by simp [hk])]
      exact ⟨_, rfl⟩
  | link =>
      simp only [Keyword.kind, Link.fromAction,
        hprops (by simp [hk]) (by simp [hk])]
      exact ⟨_, rfl⟩
  | hardlink =>
      simp only [Keyword.kind, Link.fromAction,
        hprops (by simp [hk]) (by simp [hk])]
      exact ⟨_, rfl⟩

theorem CanonicalManifest.exists_line (doc : CanonicalManifest) :
    ∀ act ∈ doc.actions, ∃ line : ActionLine, act = line.action := by
  intro act hact
  unfold CanonicalManifest.actions at hact
  rcases List.mem_append.mp hact with hmem | hmem
  · obtain ⟨line, _, hline⟩ := List.mem_flatMap.mp hmem
    cases line with
    | blank _ _ => simp [Line.actions] at hline
    | comment _ _ => simp [Line.actions] at hline
    | action line => exact ⟨line, by simpa [Line.actions] using hline⟩
  · cases hlast : doc.last with
    | none => simp [hlast, lastActions] at hmem
    | some line => exact ⟨line, by simpa [hlast, lastActions] using hmem⟩

/-- On the canonical format `Manifest::parse_string` adds exactly the actions
of the text, in order, unless a payload is misread as a property. -/
theorem parseString_canonical (doc : CanonicalManifest) :
    (readActions doc.render = some doc.actions ↔
      PayloadsKept doc.lines doc.last) ∧
    (PayloadsKept doc.lines doc.last →
      parseString doc.render = Outcome.fold addAction new doc.actions ∧
      ((∀ act ∈ doc.actions, act.DigestsAccepted) →
        ∃ m, parseString doc.render = .ok m)) := by
  have hread : readActions doc.render = some doc.actions ↔
      PayloadsKept doc.lines doc.last :=
    (readActions_eq_some_iff
      (skip_lines_ne_nil doc.lines doc.last doc.nonempty) _).trans
      (holdsActions_lines doc.lines doc.last)
  refine ⟨hread, fun hkept => ?_⟩
  have hparse : parseString doc.render =
      Outcome.fold addAction new doc.actions := by
    rw [parseString_eq_actions, hread.mpr hkept]
  refine ⟨hparse, fun hdigests => ?_⟩
  rw [hparse]
  apply Outcome.fold_ok
  intro m act hact
  obtain ⟨line, rfl⟩ := doc.exists_line act hact
  exact line.addAction_ok (hdigests _ hact) m

/-- The property `path=` with the given value. -/
def pathProperty (value : CanonicalValue) : CanonicalProperty where
  name := "path".toList
  value := value
  name_ne_nil := by decide
  name_chars := forall_mem_of_all (by decide)

/-- `file a#b path=` and a quoted value, with a line break in it. -/
def hashPayloadLine (value : CanonicalValue) : ActionLine where
  keyword := .file
  payload := some (⟨.space, []⟩, {
    text := "a#b".toList
    ne_nil := by decide
    separated := forall_mem_of_all (by decide)
    noQuote := by decide
    noBackslash := by decide
    noEquals := by decide
    noHash := by decide })
  properties := [(⟨.space, []⟩, pathProperty value)]
  payload_kind := by decide
  nonempty := .inl rfl

def brokenValue : CanonicalValue where
  text := "\n=c".toList
  quoted := true
  noQuote := by decide
  noBackslash := by decide
  bare := by decide

def plainValue : CanonicalValue where
  text := "\nc".toList
  quoted := true
  noQuote := by decide
  noBackslash := by decide
  bare := by decide

def hashPayloadManifest (value : CanonicalValue) : CanonicalManifest where
  lines := []
  last := some (hashPayloadLine value)
  nonempty := .inr rfl

/-- The comment that starts in the payload ends inside the quoted value, and
what follows is read as the value of a property `a`. -/
theorem parseString_canonical_misread :
    parseString (hashPayloadManifest brokenValue).render ≠
      Outcome.fold addAction new (hashPayloadManifest brokenValue).actions := by
  decide +kernel

theorem parseString_canonical_hashPayload :
    parseString (hashPayloadManifest plainValue).render =
      Outcome.fold addAction new (hashPayloadManifest plainValue).actions := by
  have hkept : PayloadsKept (hashPayloadManifest plainValue).lines
      (hashPayloadManifest plainValue).last := by
    change ¬ (hashPayloadLine plainValue).Misread []
    rw [misread_iff (hashPayloadLine plainValue) (.inl rfl) rfl]
    decide +kernel
  exact ((parseString_canonical (hashPayloadManifest plainValue)).2 hkept).1

end Ips.Manifest
