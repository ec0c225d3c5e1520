import Ips.ManifestSelfContained
import Ips.ActionFields

/-!
# Payloads in double quotes

The double quotes around the value of a property are taken off when the pairs
of the grammar are read.  The ones around a payload stay in the action, and
what becomes of them is left to its conversion: a file takes them off its
original path, but a digest and the payload of a license keep them.
-/

namespace Ips

open Manifest Peg

def quote (s : Text) : Text := '\"' :: (s ++ ['\"'])

theorem mem_quote_iff {c : Char} {s : Text} (hc : c ≠ '\"') :
    c ∈ quote s ↔ c ∈ s := by
  simp [quote, hc]

theorem quote_ne_self (s : Text) : quote s ≠ s := by
  intro heq
  have hlength := congrArg List.length heq
  simp only [quote, List.length_cons, List.length_append,
    List.length_nil] at hlength
  omega

/-! ## Digests -/

/-- The digest as a file keeps it: one with an empty hash is dropped. -/
def Digest.stored (digest : Digest) : Option Digest :=
  if digest.hash = [] then none else some digest

/-- The quotes around a digest only reach its source, which is unknown anyway
or not kept, and parts of it that are ignored. -/
def DigestKept (s : Text) : Prop :=
  ∃ source algorithm hash part rest,
    splitAt ':' s = source :: algorithm :: hash :: part :: rest ∧
      (hash = [] ∨ (DigestSource.ofText? source).getD .unknown = .unknown)

theorem not_digestKept_of_splitAt {s : Text} {parts : List Text}
    (h : splitAt ':' s = parts) (hlength : parts.length < 4) :
    ¬ DigestKept s := by
  rintro ⟨source, algorithm, hash, part, rest, hsplit, -⟩
  have heq := congrArg List.length (h.symm.trans hsplit)
  simp only [List.length_cons] at heq
  omega

/-- A source that starts with a double quote has no name. -/
theorem DigestSource.ofText?_quote (source : Text) :
    DigestSource.ofText? ('\"' :: source) = none := by
  unfold DigestSource.ofText?
  apply List.find?_eq_none.mpr
  intro named _ heq
  have htext : named.toText = '\"' :: source := of_decide_eq_true heq
  cases named <;> cases htext

theorem colon_mem_of_splitAt {s first second : Text} {rest : List Text}
    (h : splitAt ':' s = first :: second :: rest) : ':' ∈ s := by
  by_contra hcolon
  rw [splitAt_of_not_mem hcolon] at h
  cases h

section Parts

variable {s source algorithm hash : Text} {rest : List Text}

theorem Digest.fromStr_of_splitAt {algorithm' : DigestAlgorithm}
    (h : splitAt ':' s = source :: algorithm :: hash :: rest)
    (halgorithm : DigestAlgorithm.ofText? algorithm = some algorithm') :
    Digest.fromStr s = .ok {
      source := (DigestSource.ofText? source).getD .unknown
      algorithm := algorithm'
      hash := hash } := by
  have hcolon := colon_mem_of_splitAt h
  unfold Digest.fromStr
  simp only [hcolon, not_true_eq_false, if_false, h, halgorithm]

theorem not_isDigest_of_algorithm
    (h : splitAt ':' s = source :: algorithm :: hash :: rest)
    (halgorithm : DigestAlgorithm.ofText? algorithm = none) :
    ¬ IsDigest s := by
  have hcolon := colon_mem_of_splitAt h
  unfold IsDigest Digest.fromStr
  simp [hcolon, h, halgorithm]

theorem not_isDigest_of_splitAt (h : splitAt ':' s = [source, algorithm]) :
    ¬ IsDigest s := by
  have hcolon := colon_mem_of_splitAt h
  unfold IsDigest Digest.fromStr
  simp [hcolon, h]

end Parts

/-- Where a digest has its parts, the quotes stay at the first and at the last
of them. -/
theorem splitAt_quote {s : Text} (hcolon : ':' ∈ s) :
    ∃ source rest, splitAt ':' s = source :: splitAt ':' rest ∧
      splitAt ':' (quote s) =
        ('\"' :: source) :: splitAt ':' (rest ++ ['\"']) := by
  obtain ⟨source, rest, rfl, hsource⟩ := List.eq_append_cons_of_mem hcolon
  refine ⟨source, rest, splitAt_append_cons hsource rest, ?_⟩
  have htext : quote (source ++ ':' :: rest) =
      ('\"' :: source) ++ ':' :: (rest ++ ['\"']) := by
    simp [quote]
  rw [htext]
  exact splitAt_append_cons (by simp [hsource]) _

theorem splitAt_append_quote (s : Text) :
    (splitAt ':' s = [s] ∧ splitAt ':' (s ++ ['\"']) = [s ++ ['\"']]) ∨
    ∃ part rest, splitAt ':' s = part :: splitAt ':' rest ∧
      splitAt ':' (s ++ ['\"']) = part :: splitAt ':' (rest ++ ['\"']) := by
  by_cases hcolon : ':' ∈ s
  · right
    obtain ⟨part, rest, rfl, hpart⟩ := List.eq_append_cons_of_mem hcolon
    refine ⟨part, rest, splitAt_append_cons hpart rest, ?_⟩
    rw [List.append_assoc]
    exact splitAt_append_cons hpart _
  · left
    exact ⟨splitAt_of_not_mem hcolon, splitAt_of_not_mem (by simp [hcolon])⟩

/-- Two texts with the same algorithm are both digests or both none. -/
theorem Digest.fromStr_of_algorithm {s s' source source' algorithm hash hash' :
      Text} {rest rest' : List Text}
    (h : splitAt ':' s = source :: algorithm :: hash :: rest)
    (h' : splitAt ':' s' = source' :: algorithm :: hash' :: rest') :
    (∃ algorithm',
      Digest.fromStr s = .ok {
        source := (DigestSource.ofText? source).getD .unknown
        algorithm := algorithm'
        hash := hash } ∧
      Digest.fromStr s' = .ok {
        source := (DigestSource.ofText? source').getD .unknown
        algorithm := algorithm'
        hash := hash' }) ∨
    (¬ IsDigest s ∧ ¬ IsDigest s') := by
  cases halgorithm : DigestAlgorithm.ofText? algorithm with
  | some algorithm' =>
      exact .inl ⟨algorithm', Digest.fromStr_of_splitAt h halgorithm,
        Digest.fromStr_of_splitAt h' halgorithm⟩
  | none =>
      exact .inr ⟨not_isDigest_of_algorithm h halgorithm,
        not_isDigest_of_algorithm h' halgorithm⟩

/-- Quoting a text changes the digest it is read as, up to the cases where the
quotes are not kept. -/
theorem Digest.fromStr_quote {s : Text} (hs : s ≠ []) :
    (∃ d d', Digest.fromStr s = .ok d ∧ Digest.fromStr (quote s) = .ok d' ∧
      (d'.stored = d.stored ↔ DigestKept s)) ∨
    (¬ IsDigest s ∧ ¬ IsDigest (quote s)) := by
  by_cases hcolon : ':' ∈ s
  · obtain ⟨source, rest, hsource, hsource'⟩ := splitAt_quote hcolon
    rcases splitAt_append_quote rest with
      ⟨hsecond, hsecond'⟩ | ⟨algorithm, rest, halgorithm, halgorithm'⟩
    · rw [hsecond] at hsource
      rw [hsecond'] at hsource'
      exact .inr ⟨not_isDigest_of_splitAt hsource,
        not_isDigest_of_splitAt hsource'⟩
    · rw [halgorithm] at hsource
      rw [halgorithm'] at hsource'
      rcases splitAt_append_quote rest with
        ⟨hthird, hthird'⟩ | ⟨hash, rest, hhash, hhash'⟩
      · -- the closing quote belongs to the hash
        rw [hthird] at hsource
        rw [hthird'] at hsource'
        have hkept : ¬ DigestKept s :=
          not_digestKept_of_splitAt hsource (by simp)
        rcases Digest.fromStr_of_algorithm hsource hsource' with
          ⟨algorithm', hread, hread'⟩ | hnone
        · refine .inl ⟨_, _, hread, hread', ?_⟩
          by_cases hempty : rest = []
          · simp [Digest.stored, hempty, hkept]
          · simp [Digest.stored, hempty, hkept]
        · exact .inr hnone
      · -- the closing quote belongs to a part that is ignored
        rw [hhash] at hsource
        rw [hhash'] at hsource'
        obtain ⟨more, hmore⟩ := exists_splitAt_eq_cons ':' rest
        have hkept : DigestKept s ↔ hash = [] ∨
            (DigestSource.ofText? source).getD .unknown = .unknown := by
          rw [hmore] at hsource
          simp [DigestKept, hsource]
        rcases Digest.fromStr_of_algorithm hsource hsource' with
          ⟨algorithm', hread, hread'⟩ | hnone
        · refine .inl ⟨_, _, hread, hread', ?_⟩
          rw [hkept, DigestSource.ofText?_quote, Option.getD_none]
          by_cases hempty : hash = []
          · simp [Digest.stored, hempty]
          · simp [Digest.stored, hempty, eq_comm]
        · exact .inr hnone
  · left
    refine ⟨{ hash := s }, { hash := quote s }, if_pos hcolon,
      if_pos (fun h => hcolon ((mem_quote_iff (by decide)).mp h)), ?_⟩
    have hkept : ¬ DigestKept s :=
      not_digestKept_of_splitAt (splitAt_of_not_mem hcolon) (by simp)
    have hnil : quote s ≠ [] := by simp [quote]
    simp [Digest.stored, hs, hnil, quote_ne_self, hkept]

/-! ## Conversions -/

def File.withPrimary (digest : Digest) (state : File × Payload) :
    File × Payload :=
  (state.1, { state.2 with primaryIdentifier := digest })

/-- No property reads or writes the primary digest of a file. -/
theorem File.assign_withPrimary (digest : Digest) (state : File × Payload)
    (prop : Property) :
    File.assign (File.withPrimary digest state) prop =
      (File.assign state prop >>= fun state' =>
        .ok (File.withPrimary digest state')) := by
  have hdigest : File.addDigest (File.withPrimary digest state) prop.value =
      (File.addDigest state prop.value >>= fun state' =>
        .ok (File.withPrimary digest state')) := by
    unfold File.addDigest
    cases Digest.fromStr prop.value with
    | ok value => rfl
    | error e => rfl
  unfold File.assign
  cases ofText? FileKey.all FileKey.text prop.key with
  | none =>
      dsimp only
      split_ifs
      · rfl
      · rfl
  | some k =>
      cases k with
      | chash => exact hdigest
      | contentHash => exact hdigest
      | _ => rfl

theorem File.fold_withPrimary (digest : Digest) (state : File × Payload)
    (props : List Property) :
    Outcome.fold File.assign (File.withPrimary digest state) props =
      (Outcome.fold File.assign state props >>= fun state' =>
        .ok (File.withPrimary digest state')) := by
  induction props generalizing state with
  | nil => rfl
  | cons prop props ih =>
      rw [Outcome.fold_cons, Outcome.fold_cons, File.assign_withPrimary,
        Outcome.bind_assoc, Outcome.bind_assoc]
      congr 1
      funext state'
      exact ih state'

/-- The file with the payload that is left of its digests. -/
def File.withPayload (digest : Digest) (state : File × Payload) : File :=
  { state.1 with
    payload := digest.stored.map fun primary =>
      { state.2 with primaryIdentifier := primary } }

theorem File.withPayload_eq_iff (d d' : Digest) (state : File × Payload) :
    File.withPayload d' state = File.withPayload d state ↔
      d'.stored = d.stored := by
  constructor
  · intro h
    have hpayload := congrArg File.payload h
    exact Option.map_injective
      (fun _ _ heq => congrArg Payload.primaryIdentifier heq) hpayload
  · intro h
    unfold File.withPayload
    rw [h]

/-- The action of a keyword with a payload and properties behind it. -/
def spelledAction (keyword : Keyword) (payload : Text)
    (props : List Property) : Action where
  kind := keyword.kind
  payloadString := payload
  properties := props

theorem File.fromAction_digest {w : Text} {digest : Digest} (hw : w ≠ [])
    (hslash : '/' ∉ w) (hdigest : Digest.fromStr w = .ok digest)
    (props : List Property) :
    File.fromAction (spelledAction .file w props) =
      (Outcome.fold File.assign ({}, {}) props >>= fun state =>
        .ok (File.withPayload digest state)) := by
  have htake : File.takePayload (spelledAction .file w props) =
      .ok ({}, { primaryIdentifier := digest }, props) := by
    unfold File.takePayload spelledAction
    dsimp only
    rw [if_neg hw, if_neg hslash, hdigest]
    rfl
  have hfold := File.fold_withPrimary digest ({}, {}) props
  unfold File.fromAction
  rw [htake, Outcome.ok_bind]
  dsimp only [File.withPrimary] at hfold ⊢
  rw [hfold, Outcome.bind_assoc]
  congr 1
  funext state
  unfold File.withPayload Digest.stored
  by_cases hempty : digest.hash = []
  · simp [hempty]
  · simp [hempty]

theorem File.fromAction_panic {w : Text} (hw : w ≠ []) (hslash : '/' ∉ w)
    (hdigest : ¬ IsDigest w) (props : List Property) :
    File.fromAction (spelledAction .file w props) = .panic unwrapMessage := by
  rcases File.fromAction_ok_or_panic (spelledAction .file w props) with
    ⟨haccepted, -⟩ | ⟨-, hpanic⟩
  · exact absurd (haccepted.1 hw hslash) hdigest
  · exact hpanic

theorem removeChars_quote (s : Text) :
    removeChars ['\"', '\\'] (quote s) = removeChars ['\"', '\\'] s := by
  simp [removeChars, quote]

theorem File.fromAction_path {s : Text} (hslash : '/' ∈ s) (hequals : '=' ∉ s)
    (props : List Property) :
    File.fromAction (spelledAction .file (quote s) props) =
      File.fromAction (spelledAction .file s props) := by
  have hne : s ≠ [] := List.ne_nil_of_mem hslash
  have hne' : quote s ≠ [] := by simp [quote]
  have htake : File.takePayload (spelledAction .file (quote s) props) =
      File.takePayload (spelledAction .file s props) := by
    unfold File.takePayload spelledAction
    dsimp only
    rw [if_neg hne, if_neg hne', if_pos hslash,
      if_pos ((mem_quote_iff (by decide)).mpr hslash), if_neg hequals,
      if_neg (fun h => hequals ((mem_quote_iff (by decide)).mp h)),
      removeChars_quote]
  unfold File.fromAction
  rw [htake]

/-- The two spellings of the payload of a file. -/
theorem File.fromAction_quote {s : Text} (hs : s ≠ []) (hequals : '=' ∉ s)
    (props : List Property) :
    Outcome.SameIff ('/' ∈ s ∨ DigestKept s)
      (File.fromAction (spelledAction .file s props))
      (File.fromAction (spelledAction .file (quote s) props)) := by
  by_cases hslash : '/' ∈ s
  · exact .of_eq (File.fromAction_path hslash hequals props) (.inl hslash)
  · have hslash' : '/' ∉ quote s :=
      fun h => hslash ((mem_quote_iff (by decide)).mp h)
    have hs' : quote s ≠ [] := by simp [quote]
    rcases Digest.fromStr_quote hs with ⟨d, d', hd, hd', hkept⟩ | ⟨hnone, hnone'⟩
    · rw [File.fromAction_digest hs hslash hd,
        File.fromAction_digest hs' hslash' hd']
      apply Outcome.SameIff.of_bind
      intro state
      apply Outcome.SameIff.ok
      rw [File.withPayload_eq_iff, hkept]
      simp [hslash]
    · rw [File.fromAction_panic hs hslash hnone,
        File.fromAction_panic hs' hslash' hnone']
      exact .inr ⟨fun file h => (by cases h), rfl⟩

/-- A license keeps the payload as it is spelled. -/
theorem License.fromAction_payload (w : Text) (props : List Property) :
    ∃ license, License.fromAction (spelledAction .license w props) =
        .ok license ∧ license.payload = w :=
  ⟨_, rfl, (License.holds_foldl w props).payload⟩

namespace Manifest

/-- The condition under which the quotes around a payload are lost again. -/
def QuotesDropped (keyword : Keyword) (payload : Text) : Prop :=
  keyword = .file ∧ ('/' ∈ payload ∨ DigestKept payload)

theorem addAction_quote {keyword : Keyword} {s : Text} (hs : s ≠ [])
    (hequals : '=' ∉ s) (hkeyword : keyword = .file ∨ keyword = .license)
    (props : List Property) :
    Outcome.SameIff (QuotesDropped keyword s)
      (new.addAction (spelledAction keyword s props))
      (new.addAction (spelledAction keyword (quote s) props)) := by
  rcases hkeyword with rfl | rfl
  · have hfile := File.fromAction_quote hs hequals props
    have hadd : Outcome.SameIff ('/' ∈ s ∨ DigestKept s)
        (new.addAction (spelledAction .file s props))
        (new.addAction (spelledAction .file (quote s) props)) := by
      apply hfile.bind
      intro file file'
      apply Outcome.SameIff.ok
      simp [new]
    exact hadd.congr (by simp [QuotesDropped])
  · obtain ⟨license, hread, hpayload⟩ := License.fromAction_payload s props
    obtain ⟨license', hread', hpayload'⟩ :=
      License.fromAction_payload (quote s) props
    have hne : license' ≠ license := by
      rintro rfl
      exact quote_ne_self s (hpayload'.symm.trans hpayload)
    unfold addAction spelledAction
    dsimp only [Keyword.kind]
    unfold spelledAction at hread hread'
    dsimp only [Keyword.kind] at hread hread'
    rw [hread, hread']
    apply Outcome.SameIff.ok
    simp [new, hne, QuotesDropped]

/-- Adding an action in the middle of a run keeps different manifests apart. -/
theorem append_cancel {a b x y : Manifest} :
    (a.append y).append b = (a.append x).append b ↔ y = x := by
  constructor
  · intro h
    simp only [append, mk.injEq, List.append_cancel_right_eq,
      List.append_cancel_left_eq] at h
    cases x
    cases y
    simpa using h
  · rintro rfl
    rfl

theorem fold_addAction_middle (before after : List Action) (act : Action) :
    Outcome.fold addAction new (before ++ act :: after) =
      (Outcome.fold addAction new before >>= fun a =>
        new.addAction act >>= fun inc =>
          Outcome.fold addAction new after >>= fun b =>
            .ok ((a.append inc).append b)) := by
  rw [Outcome.fold_append]
  congr 1
  funext a
  rw [Outcome.fold_cons, addAction_eq, Outcome.bind_assoc]
  congr 1
  funext inc
  have hrest := fold_addAction_append (a.append inc) new after
  rw [append_new] at hrest
  exact hrest

theorem fold_addAction_quote {keyword : Keyword} {s : Text} (hs : s ≠ [])
    (hequals : '=' ∉ s) (hkeyword : keyword = .file ∨ keyword = .license)
    (before after : List Action) (props : List Property) :
    Outcome.SameIff (QuotesDropped keyword s)
      (Outcome.fold addAction new
        (before ++ spelledAction keyword s props :: after))
      (Outcome.fold addAction new
        (before ++ spelledAction keyword (quote s) props :: after)) := by
  rw [fold_addAction_middle, fold_addAction_middle]
  apply Outcome.SameIff.of_bind
  intro a
  apply (addAction_quote hs hequals hkeyword props).bind
  intro inc inc'
  apply Outcome.SameIff.of_bind
  intro b
  exact .ok append_cancel

/-! ## Reading the two spellings -/

/-- A text of whole items that is read in the same way whatever follows it. -/
structure Foregoing where
  text : Text
  actions : List Action
  ends : text.getLast?.all isNewlineChar = true
  holds : HoldsActions text actions
  selfContained : SelfContained text

theorem Foregoing.holdsActions_append_iff (before : Foregoing) {X : Text}
    (hline : headIs isNewlineChar X = false)
    (hequals : (skip X).head? ≠ some '=') (all : List Action) :
    HoldsActions (before.text ++ X) all ↔
      ∃ after, all = before.actions ++ after ∧ HoldsActions X after := by
  cases hlast : before.text.getLast? with
  | none =>
      have htext := List.getLast?_eq_none_iff.mp hlast
      have hactions : before.actions = [] := by
        have hnone := before.holds.1
        rw [htext, holdsActions_nil.1] at hnone
        exact hnone.symm
      rw [htext, hactions]
      simp
  | some last =>
      have hbreak : isNewlineChar last = true := by
        have hends := before.ends
        rw [hlast] at hends
        exact hends
      have hC : readNewline (last :: X) = some X := by
        rw [readNewline_behindBreak hlast hbreak]
        refine congrArg some (if_neg ?_)
        rintro ⟨-, hhead⟩
        obtain ⟨t, rfl⟩ := List.head?_eq_some_iff.mp hhead
        cases hline
      have hiff := holdsActions_joined_iff hC hequals before.text
        before.actions (fun _ => hlast) before.holds
        (quotesApart_of_independent before.selfContained X)
        (endsApart_of_independent before.selfContained X) all
      rw [joined_of_ne_nil _ _ (ne_nil_of_getLast? hlast)] at hiff
      exact hiff

/-- The payload with or without double quotes around it. -/
def CanonicalPayload.value (payload : CanonicalPayload) (quoted : Bool) :
    CanonicalValue where
  text := payload.text
  quoted := quoted
  noQuote := payload.noQuote
  noBackslash := payload.noBackslash
  bare := fun _ => ⟨payload.ne_nil, payload.separated, payload.noHash⟩

/-- A file or license action with a payload in a manifest.  What follows the
payload is any text that does not go on with the same word. -/
structure PayloadSite where
  before : Foregoing
  keyword : Keyword
  seps : Separators
  payload : CanonicalPayload
  tail : Text
  keyword_kind : keyword = .file ∨ keyword = .license
  word_ends : isBareStart tail = false

namespace PayloadSite

variable (site : PayloadSite)

def line (quoted : Bool) : Text :=
  site.keyword.render ++
    (site.seps.render ++ ((site.payload.value quoted).render ++ site.tail))

def text (quoted : Bool) : Text := site.before.text ++ site.line quoted

/-- The grammar tries the rule `property` before the rule `payload`, and that
rule matches at the bare payload. -/
def TakenForProperty : Prop :=
  readProperty (site.payload.text ++ site.tail) ≠ none

instance : Decidable site.TakenForProperty :=
  inferInstanceAs (Decidable (_ ≠ none))

/-- The properties behind the payload and the actions behind its line. -/
def Continues (props : List Property) (after : List Action) : Prop :=
  ∃ t, readTerminator (skip (repeatAll skip readProperty site.tail).2) = some t ∧
    (repeatAll skip readProperty site.tail).1 = props ∧ HoldsActions t after

variable {site}

/-! ### One item -/

theorem readContent_spelled (hprop : ¬ site.TakenForProperty)
    (quoted : Bool) :
    readContent ((site.payload.value quoted).render ++ site.tail) =
      some (((site.payload.value quoted).render, []), site.tail) := by
  have hnone : readProperty
      ((site.payload.value quoted).render ++ site.tail) = none := by
    cases quoted with
    | true => exact readProperty_eq_none rfl
    | false => exact not_not.mp hprop
  exact readContent_of_payload hnone
    (readPropertyValue_render _ site.word_ends)

theorem readAction_line (hprop : ¬ site.TakenForProperty) (quoted : Bool) :
    readAction (site.line quoted) =
      (readTerminator (skip (repeatAll skip readProperty site.tail).2)).map
        fun t => (spelledAction site.keyword (site.payload.value quoted).render
          (repeatAll skip readProperty site.tail).1, t) := by
  have hskip : skip ((site.payload.value quoted).render ++ site.tail) =
      (site.payload.value quoted).render ++ site.tail := by
    obtain ⟨c, w, hrender, hc⟩ := (site.payload.value quoted).head_ne
    rw [hrender]
    exact skip_eq_self_of_head _ hc
  unfold readAction line
  simp only [readActionName_render, skip_separators, hskip,
    readContent_spelled hprop, getActionKind_render]
  cases readTerminator (skip (repeatAll skip readProperty site.tail).2) with
  | none => rfl
  | some t => rfl

theorem line_eq_cons (quoted : Bool) :
    ∃ c w, site.line quoted = c :: w ∧ isNewlineChar c = false ∧ c ≠ '=' ∧
      c ≠ '\\' ∧ c ≠ ' ' ∧ c ≠ '\t' ∧ c ≠ '#' := by
  unfold line Keyword.render
  cases site.keyword <;> exact ⟨_, _, rfl, by decide⟩

theorem skip_line (quoted : Bool) :
    skip (site.line quoted) = site.line quoted := by
  obtain ⟨c, w, hline, -, -, hc⟩ := site.line_eq_cons quoted
  rw [hline]
  exact skip_eq_self_of_head w hc

theorem readItem_line (quoted : Bool) :
    readItem (site.line quoted) =
      (readAction (site.line quoted)).map fun x => ([.action x.1], x.2) := by
  obtain ⟨hn, htransform⟩ := readTransform_of_name
    (readActionName_render site.keyword
      (site.seps.render ++ ((site.payload.value quoted).render ++ site.tail)))
  unfold line readItem
  rw [hn, htransform]
  cases readAction _ with
  | none => rfl
  | some x => rfl

theorem holdsActions_line_iff (hprop : ¬ site.TakenForProperty)
    (quoted : Bool) (all : List Action) :
    HoldsActions (site.line quoted) all ↔
      ∃ props after, site.Continues props after ∧
        all = spelledAction site.keyword (site.payload.value quoted).render
          props :: after := by
  have hread := (readItem_line quoted).trans
    (congrArg _ (readAction_line hprop quoted))
  rw [← skip_line] at hread
  unfold Continues
  cases hterm : readTerminator
      (skip (repeatAll skip readProperty site.tail).2) with
  | none =>
      rw [hterm] at hread
      constructor
      · intro hholds
        obtain ⟨c, w, hline, -⟩ := site.line_eq_cons quoted
        have hsome := hholds.readItem_isSome (by rw [skip_line, hline]; simp)
        rw [hread] at hsome
        cases hsome
      · rintro ⟨props, after, ⟨t, ht, -⟩, -⟩
        cases ht
  | some t =>
      rw [hterm] at hread
      rw [holdsActions_item_iff hread]
      constructor
      · rintro ⟨after, rfl, hafter⟩
        exact ⟨_, after, ⟨t, rfl, rfl, hafter⟩, rfl⟩
      · rintro ⟨props, after, ⟨u, hu, rfl, hafter⟩, rfl⟩
        cases hu
        exact ⟨after, rfl, hafter⟩

/-! ### The whole text -/

theorem holdsActions_text_iff (hprop : ¬ site.TakenForProperty)
    (quoted : Bool) (all : List Action) :
    HoldsActions (site.text quoted) all ↔
      ∃ props after, site.Continues props after ∧
        all = site.before.actions ++
          spelledAction site.keyword (site.payload.value quoted).render
            props :: after := by
  obtain ⟨c, w, hline, hbreak, hequals, -⟩ := site.line_eq_cons quoted
  have hhead : headIs isNewlineChar (site.line quoted) = false := by
    rw [hline]
    exact hbreak
  have hfirst : (skip (site.line quoted)).head? ≠ some '=' := by
    rw [skip_line, hline]
    simpa using hequals
  unfold text
  rw [site.before.holdsActions_append_iff hhead hfirst]
  constructor
  · rintro ⟨rest, rfl, hrest⟩
    obtain ⟨props, after, hafter, rfl⟩ :=
      (holdsActions_line_iff hprop quoted rest).mp hrest
    exact ⟨props, after, hafter, rfl⟩
  · rintro ⟨props, after, hafter, rfl⟩
    exact ⟨_, rfl,
      (holdsActions_line_iff hprop quoted _).mpr ⟨props, after, hafter, rfl⟩⟩

theorem skip_text_ne_nil (hprop : ¬ site.TakenForProperty) (quoted : Bool) :
    skip (site.text quoted) ≠ [] := by
  intro hnil
  have hnone : HoldsActions (site.text quoted) [] := by
    rw [holdsActions_congr (t := []) (by rw [hnil, skip_of_none rfl])]
    exact holdsActions_nil
  obtain ⟨props, after, -, hempty⟩ :=
    (holdsActions_text_iff hprop quoted []).mp hnone
  simp at hempty

/-- Both spellings are read up to the same end, with the payload as it is
spelled in between. -/
theorem readActions_text (hprop : ¬ site.TakenForProperty) :
    (∃ props after, ∀ quoted, readActions (site.text quoted) =
      some (site.before.actions ++
        spelledAction site.keyword (site.payload.value quoted).render
          props :: after)) ∨
    ∀ quoted, readActions (site.text quoted) = none := by
  by_cases hend : ∃ props after, site.Continues props after
  · left
    obtain ⟨props, after, hafter⟩ := hend
    refine ⟨props, after, fun quoted => ?_⟩
    rw [readActions_eq_some_iff (skip_text_ne_nil hprop quoted)]
    exact (holdsActions_text_iff hprop quoted _).mpr ⟨props, after, hafter, rfl⟩
  · right
    intro quoted
    apply Option.eq_none_iff_forall_ne_some.mpr
    intro all hall
    rw [readActions_eq_some_iff (skip_text_ne_nil hprop quoted)] at hall
    obtain ⟨props, after, hafter, -⟩ :=
      (holdsActions_text_iff hprop quoted all).mp hall
    exact hend ⟨props, after, hafter⟩

theorem sameIff_parseString (hprop : ¬ site.TakenForProperty) :
    Outcome.SameIff (QuotesDropped site.keyword site.payload.text)
      (parseString (site.text false)) (parseString (site.text true)) := by
  rw [parseString_eq_actions, parseString_eq_actions]
  rcases readActions_text hprop with ⟨props, after, hread⟩ | hnone
  · rw [hread, hread]
    exact fold_addAction_quote site.payload.ne_nil site.payload.noEquals
      site.keyword_kind site.before.actions after props
  · rw [hnone, hnone]
    exact .inr ⟨fun m h => (by cases h), rfl⟩

end PayloadSite

/-- Where the bare payload is not taken for the name of a property, quoting it
keeps the manifest exactly when the quotes are lost again on the way to the
typed action, and it never changes whether there is one. -/
theorem parseString_quoted_iff (site : PayloadSite)
    (hprop : ¬ site.TakenForProperty) :
    (∀ m, parseString (site.text false) = .ok m →
      (parseString (site.text true) = parseString (site.text false) ↔
        QuotesDropped site.keyword site.payload.text)) ∧
    ((∀ m, parseString (site.text false) ≠ .ok m) →
      parseString (site.text true) = parseString (site.text false)) := by
  rcases PayloadSite.sameIff_parseString hprop with
    ⟨m, m', hbare, hquoted, hsame⟩ | ⟨hstop, heq⟩
  · constructor
    · intro _ _
      rw [hbare, hquoted, ← hsame]
      exact Outcome.ok.injEq m' m ▸ Iff.rfl
    · intro hnone
      exact absurd hbare (hnone m)
  · constructor
    · intro m hm
      exact absurd hm (hstop m)
    · intro _
      exact heq

/-- One line that stands before another action. -/
def Foregoing.dirLine : Foregoing where
  text := "dir path=a\n".toList
  actions := [{ kind := .dir, properties := [⟨"path".toList, "a".toList⟩] }]
  ends := rfl
  holds := by
    unfold HoldsActions
    decide +kernel
  selfContained := by decide +kernel

theorem parseString_quoted_iff_path :
    parseString "dir path=a\nfile \"usr/bin/x\" path=b\n".toList =
      parseString "dir path=a\nfile usr/bin/x path=b\n".toList := by
  obtain ⟨site, hprop, hkeyword, hpayload, hbare, hquoted⟩ :
      ∃ site : PayloadSite, ¬ site.TakenForProperty ∧ site.keyword = .file ∧
        site.payload.text = "usr/bin/x".toList ∧
        site.text false = "dir path=a\nfile usr/bin/x path=b\n".toList ∧
        site.text true =
          "dir path=a\nfile \"usr/bin/x\" path=b\n".toList := by
    refine ⟨{
      before := .dirLine
      keyword := .file
      seps := ⟨.space, []⟩
      payload := {
        text := "usr/bin/x".toList
        ne_nil := by decide
        separated := forall_mem_of_all (by decide)
        noQuote := by decide
        noBackslash := by decide
        noEquals := by decide
        noHash := by decide }
      tail := " path=b\n".toList
      keyword_kind := .inl rfl
      word_ends := by decide +kernel }, by decide +kernel, rfl, rfl,
        by decide +kernel, by decide +kernel⟩
  have hparse : parseString "dir path=a\nfile usr/bin/x path=b\n".toList =
      .ok {
        directories := [{ path := "a".toList }]
        files := [{
          path := "b".toList
          properties := [⟨"original-path".toList, "usr/bin/x".toList⟩] }] } := by
    decide +kernel
  rw [← hbare] at hparse
  rw [← hquoted, ← hbare]
  refine ((parseString_quoted_iff site hprop).1 _ hparse).mpr ⟨hkeyword, .inl ?_⟩
  rw [hpayload]
  decide

/-- The payload of a license keeps its quotes. -/
theorem parseString_quoted_license :
    ¬ ∀ site : PayloadSite,
      (site.keyword = .file → '/' ∉ site.payload.text →
        IsDigest site.payload.text) →
      parseString (site.text true) = parseString (site.text false) := by
  intro h
  obtain ⟨site, hkeyword, hbare, hquoted⟩ :
      ∃ site : PayloadSite, site.keyword = .license ∧
        site.text false = "dir path=a\nlicense cddl license=CDDL\n".toList ∧
        site.text true =
          "dir path=a\nlicense \"cddl\" license=CDDL\n".toList := by
    refine ⟨{
      before := .dirLine
      keyword := .license
      seps := ⟨.space, []⟩
      payload := {
        text := "cddl".toList
        ne_nil := by decide
        separated := forall_mem_of_all (by decide)
        noQuote := by decide
        noBackslash := by decide
        noEquals := by decide
        noHash := by decide }
      tail := " license=CDDL\n".toList
      keyword_kind := .inr rfl
      word_ends := by decide +kernel }, rfl, by decide +kernel,
        by decide +kernel⟩
  have heq := h site (by rw [hkeyword]; intro hfile; cases hfile)
  rw [hbare, hquoted] at heq
  revert heq
  decide +kernel

end Manifest

end Ips
