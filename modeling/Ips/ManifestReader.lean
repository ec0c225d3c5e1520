import Ips.ManifestParse
import Ips.PegReaders

/-!
# Reading a manifest without a parse tree

The grammar and the walk over its pairs are replaced by readers that return
what a piece of the text means: the gaps between the tokens, the tokens, one
property, one action, one item of the manifest.  The last theorem says that
`Manifest::parse_string` adds the items of the text in order.
-/

namespace Ips.Manifest

open Peg

/-! ## Gaps -/

def readWhitespace : List Char → Option (List Char)
  | '\\' :: t => readNewline t
  | ' ' :: t => some t
  | '\t' :: t => some t
  | _ => none

def readComment : List Char → Option (List Char)
  | '#' :: t => readNewline (t.dropWhile fun c => !isNewlineChar c)
  | _ => none

/-- One implicit token: a blank, an escaped line break or a comment. -/
def readGap (s : List Char) : Option (List Char) :=
  match readWhitespace s with
  | some t => some t
  | none => readComment s

theorem whitespace_eq (ctx : Context) (s : List Char) :
    Grammar.whitespace ctx s = (readWhitespace s).map fun t => ([], t) := by
  unfold Grammar.whitespace atomic
  cases s with
  | nil => simp [choice, seq, str, readWhitespace]
  | cons c t =>
      by_cases hslash : c = '\\'
      · subst c
        cases hn : readNewline t <;>
          simp [choice, seq, str, readWhitespace, newline_eq, hn]
      · by_cases hspace : c = ' '
        · subst c
          simp [choice, seq, str, readWhitespace]
        · by_cases htab : c = '\t'
          · subst c
            simp [choice, seq, str, readWhitespace]
          · have hread : readWhitespace (c :: t) = none := by
              unfold readWhitespace
              split <;> simp_all
            simp [choice, seq, str, hread, Ne.symm hslash, Ne.symm hspace,
              Ne.symm htab]

theorem readsOne_commentCharacter :
    ReadsOne Grammar.commentCharacter (headIs fun c => !isNewlineChar c) :=
  readsOne_notNewline.rule _

theorem comment_eq (ctx : Context) (s : List Char) :
    Grammar.comment ctx s = (readComment s).map fun t => ([], t) := by
  unfold Grammar.comment atomic
  cases s with
  | nil => simp [seq, str, readComment]
  | cons c t =>
      by_cases hc : c = '#'
      · subst c
        have hrun := readsOne_commentCharacter.rep ctx t
        simp only [readRun, Option.map_some, takeTails_headIs,
          dropTails_headIs] at hrun
        cases hn : readNewline (t.dropWhile fun c => !isNewlineChar c) <;>
          simp [seq, str, readComment, hrun, newline_eq, hn]
      · have hread : readComment (c :: t) = none := by
          unfold readComment
          split <;> simp_all
        simp [seq, str, hread, Ne.symm hc]

theorem readWhitespace_length_lt {s t : List Char}
    (h : readWhitespace s = some t) : t.length < s.length := by
  unfold readWhitespace at h
  split at h
  · have hlt := readNewline_length_lt h
    simp only [List.length_cons]
    omega
  · simp only [Option.some.injEq] at h
    simp [h]
  · simp only [Option.some.injEq] at h
    simp [h]
  · cases h

theorem readComment_length_lt {s t : List Char}
    (h : readComment s = some t) : t.length < s.length := by
  unfold readComment at h
  split at h
  · next u =>
      have hlt := readNewline_length_lt h
      have hle : (u.dropWhile fun c => !isNewlineChar c).length ≤ u.length :=
        (List.dropWhile_suffix _).length_le
      simp only [List.length_cons]
      omega
  · cases h

theorem readGap_length_lt {s t : List Char}
    (h : readGap s = some t) : t.length < s.length := by
  unfold readGap at h
  split at h
  · next hw =>
      rw [Option.some.injEq] at h
      subst h
      exact readWhitespace_length_lt hw
  · exact readComment_length_lt h

theorem whitespace_consuming :
    Consuming (Grammar.whitespace implicitContext) := by
  intro s a t hread
  rw [whitespace_eq] at hread
  simp only [Option.map_eq_some_iff, Prod.mk.injEq] at hread
  obtain ⟨u, hu, _, rfl⟩ := hread
  exact readWhitespace_length_lt hu

theorem skipWhitespace_of_some {s t : List Char}
    (h : readWhitespace s = some t) :
    skipWhitespace Grammar.whitespace s =
      skipWhitespace Grammar.whitespace t := by
  have hround : Grammar.whitespace implicitContext (id s) =
      some ([], t) := by
    simp [whitespace_eq, h]
  unfold skipWhitespace
  rw [repeatAll_of_some shrinking_id whitespace_consuming hround]

theorem skipWhitespace_of_none {s : List Char}
    (h : readWhitespace s = none) :
    skipWhitespace Grammar.whitespace s = s := by
  unfold skipWhitespace
  rw [repeatAll_of_none shrinking_id whitespace_consuming
    (by simp [whitespace_eq, h])]

theorem commentRound_eq (s : List Char) :
    commentRound Grammar.whitespace Grammar.comment s =
      (readComment s).map fun t =>
        ([], skipWhitespace Grammar.whitespace t) := by
  unfold commentRound
  rw [comment_eq]
  cases readComment s with
  | none => rfl
  | some t => rfl

theorem commentRound_consuming :
    Consuming (commentRound Grammar.whitespace Grammar.comment) := by
  intro s a t hread
  rw [commentRound_eq] at hread
  simp only [Option.map_eq_some_iff, Prod.mk.injEq] at hread
  obtain ⟨u, hu, _, rfl⟩ := hread
  have hlt := readComment_length_lt hu
  have hle := repeatAll_length_le shrinking_id whitespace_consuming u
  unfold skipWhitespace
  omega

/-- Skipping goes on after every implicit token. -/
theorem skip_of_gap {s t : List Char} (h : readGap s = some t) :
    skip s = skip t := by
  unfold readGap at h
  unfold skip skipWhitespaceAndComments
  split at h
  · next hw =>
      rw [Option.some.injEq] at h
      subst h
      rw [skipWhitespace_of_some hw]
  · next hw =>
      have hround :
          commentRound Grammar.whitespace Grammar.comment (id s) =
            some ([], skipWhitespace Grammar.whitespace t) := by
        simp [commentRound_eq, h]
      rw [skipWhitespace_of_none hw,
        repeatAll_of_some shrinking_id commentRound_consuming hround]

theorem skip_of_none {s : List Char} (h : readGap s = none) : skip s = s := by
  unfold readGap at h
  unfold skip skipWhitespaceAndComments
  split at h
  · cases h
  · next hw =>
      rw [skipWhitespace_of_none hw,
        repeatAll_of_none shrinking_id commentRound_consuming
          (by simp [commentRound_eq, h])]

/-- The rule for skipping: what holds where it stops and is carried backwards
over every implicit token holds where it starts. -/
theorem skip_induction (P : List Char → List Char → Prop)
    (hstop : ∀ s, readGap s = none → P s s)
    (hgap : ∀ s t, readGap s = some t → P t (skip t) → P s (skip t))
    (s : List Char) : P s (skip s) := by
  induction hlen : s.length using Nat.strong_induction_on generalizing s with
  | _ n ih =>
      cases hread : readGap s with
      | none =>
          rw [skip_of_none hread]
          exact hstop s hread
      | some t =>
          have hlt := readGap_length_lt hread
          rw [skip_of_gap hread]
          exact hgap s t hread (ih t.length (by omega) t rfl)

theorem readGap_skip (s : List Char) : readGap (skip s) = none := by
  apply skip_induction (fun _ t => readGap t = none)
  · intro s h
    exact h
  · intro s t _ h
    exact h

@[simp] theorem skip_skip (s : List Char) : skip (skip s) = skip s :=
  skip_of_none (readGap_skip s)

theorem skip_shrinking : Shrinking skip := by
  apply skip_induction (fun s t => t.length ≤ s.length)
  · intro s _
    exact le_rfl
  · intro s t hread h
    have hlt := readGap_length_lt hread
    omega

/-! ## Tokens -/

def keywords : List String :=
  ["set", "depend", "dir", "file", "license", "hardlink", "link", "driver",
    "group", "user", "legacy"]

def readActionName : Reader Text := readWords keywords

def isNameChar (c : Char) : Bool :=
  (('a' ≤ c && c ≤ 'z') || (('A' ≤ c && c ≤ 'Z') || ('0' ≤ c && c ≤ '9'))) ||
    (c == '.' || (c == '_' || (c == '-' || c == '/')))

def readPropertyName : Reader Text := readRunOnce (headIs isNameChar)

def readQuoted : Reader Text
  | '\"' :: t =>
      match t.dropWhile (· != '\"') with
      | '\"' :: u => some ('\"' :: (t.takeWhile (· != '\"') ++ ['\"']), u)
      | _ => none
  | _ => none

/-- A bare word goes on up to a blank, a line break or an escaped one. -/
def isBareStart (s : List Char) : Bool :=
  !s.isEmpty && ((readWhitespace s).isNone && (readNewline s).isNone)

def readBare : Reader Text := readRunOnce isBareStart

def readPropertyValue : Reader Text := fun s =>
  match readQuoted s with
  | some result => some result
  | none => readBare s

theorem lexes_actionName_body :
    Lexes (choice [Grammar.actionSet, Grammar.actionDepend, Grammar.actionDir,
      Grammar.actionFile, Grammar.actionLicense, Grammar.actionHardlink,
      Grammar.actionLink, Grammar.actionDriver, Grammar.actionGroup,
      Grammar.actionUser, Grammar.actionLegacy]) readActionName := by
  unfold readActionName keywords
  repeat
    refine Lexes.choice_cons (fun ctx => atomicRule_atomically _ _ ctx) ?_
  exact lexes_choice_nil

theorem readsOne_nameCharacter :
    ReadsOne (choice [asciiAlphanumeric, str ".", str "_", str "-", str "/"] :
      Parser Rule) (headIs isNameChar) := by
  have halnum : ReadsOne (asciiAlphanumeric : Parser Rule)
      (headIs fun c => ('a' ≤ c && c ≤ 'z') ||
        (('A' ≤ c && c ≤ 'Z') || ('0' ≤ c && c ≤ '9'))) :=
    (readsOne_charIf _).choice_cons
      ((readsOne_charIf _).choice_cons
        (readsOne_choice_single (readsOne_charIf _)))
  exact halnum.choice_cons
    ((readsOne_str (by decide)).choice_cons
      ((readsOne_str (by decide)).choice_cons
        ((readsOne_str (by decide)).choice_cons
          (readsOne_choice_single (readsOne_str (by decide))))))

theorem readsOne_quotedCharacter :
    ReadsOne Grammar.quotedCharacter (headIs (· != '\"')) := by
  have hbody := readsOne_negPred_any (p := str "\"") (R := Rule)
    (fun s => !headIs (· == '\"') s)
    (by
      intro ctx s
      rw [(readsOne_str (c := '\"') (by decide)).2]
      cases hhead : headIs (· == '\"') s <;> simp)
  refine ⟨rfl, ?_⟩
  intro ctx s
  unfold Grammar.quotedCharacter
  rw [rule_atomically, hbody.2]
  cases s with
  | nil => rfl
  | cons c t => rfl

theorem readsOne_unicodeCharacter :
    ReadsOne Grammar.unicodeCharacter isBareStart := by
  have hbody := readsOne_negPred_any (R := Rule)
    (p := choice [Grammar.whitespace, newline])
    (fun s => (readWhitespace s).isNone && (readNewline s).isNone)
    (by
      intro ctx s
      unfold choice choice choice
      rw [whitespace_eq, newline_eq]
      cases readWhitespace s <;> cases readNewline s <;> rfl)
  refine ⟨rfl, ?_⟩
  intro ctx s
  unfold Grammar.unicodeCharacter
  rw [rule_atomically, hbody.2]
  rfl

theorem lexes_quotedString : Lexes Grammar.quotedString readQuoted := by
  apply Lexes.atomicRule
  intro ctx s
  cases s with
  | nil => simp [seq, str, readQuoted]
  | cons c t =>
      by_cases hc : c = '\"'
      · subst c
        have hrun := readsOne_quotedCharacter.rep ctx t
        simp only [readRun, Option.map_some, takeTails_headIs,
          dropTails_headIs] at hrun
        cases hrest : t.dropWhile (· != '\"') with
        | nil => simp [seq, str, readQuoted, hrun, hrest]
        | cons d u =>
            have hd : d = '\"' := by
              have hhead := List.head_dropWhile_not (· != '\"') (l := t)
                (by simp [hrest])
              simpa [hrest] using hhead
            subst d
            simp [seq, str, readQuoted, hrun, hrest]
      · have hread : readQuoted (c :: t) = none := by
          unfold readQuoted
          split <;> simp_all
        simp [seq, str, hread, Ne.symm hc]

theorem lexes_propertyValue :
    Lexes Grammar.propertyValue readPropertyValue := by
  apply Lexes.atomicRule
  intro ctx s
  unfold choice choice choice readPropertyValue
  rw [lexes_quotedString ctx s, readsOne_unicodeCharacter.repOnce ctx s]
  unfold readBare
  cases readQuoted s with
  | some result => rfl
  | none => cases readRunOnce isBareStart s <;> rfl

theorem readQuoted_splits : Splits readQuoted := by
  intro s w t hread
  unfold readQuoted at hread
  split at hread
  · next u =>
      split at hread
      · next v hv =>
          simp only [Option.some.injEq, Prod.mk.injEq] at hread
          obtain ⟨rfl, rfl⟩ := hread
          have hsplit := List.takeWhile_append_dropWhile (p := (· != '\"'))
            (l := u)
          rw [hv] at hsplit
          simp [hsplit]
      · cases hread
  · cases hread

theorem readPropertyValue_splits : Splits readPropertyValue := by
  intro s w t hread
  unfold readPropertyValue at hread
  split at hread
  · next hquoted =>
      rw [hread] at hquoted
      exact readQuoted_splits hquoted
  · exact readRunOnce_splits _ hread

/-! ## Properties -/

def manifestContext (size : ℕ) : Context := ⟨.nonAtomic, size, skip⟩

@[simp] theorem gap_manifestContext (size : ℕ) :
    (manifestContext size).gap = skip := rfl

def readProperty : Reader (List Property) := fun s =>
  match readPropertyName s with
  | none => none
  | some (key, s₁) =>
      match skip s₁ with
      | '=' :: s₂ =>
          match readPropertyValue (skip s₂) with
          | none => none
          | some (value, t) =>
              some ([{
                key := key
                value := removeChars ['\"', '\\'] value }], t)
      | _ => none

theorem propertyName_eq (size : ℕ) (s : List Char) :
    Grammar.propertyName (manifestContext size) s =
      (readPropertyName s).map fun x =>
        ([leaf .propertyName (size - s.length) x.1], x.2) :=
  readsOne_nameCharacter.repOnce.atomicRule_eq
    (readRunOnce_splits _) _ rfl s

theorem propertyValue_eq (size : ℕ) (s : List Char) :
    Grammar.propertyValue (manifestContext size) s =
      (readPropertyValue s).map fun x =>
        ([leaf .propertyValue (size - s.length) x.1], x.2) := by
  have hbody : Lexes
      (choice [Grammar.quotedString, repOnce Grammar.unicodeCharacter])
      readPropertyValue := by
    intro ctx s
    have h := lexes_propertyValue ctx s
    unfold Grammar.propertyValue at h
    rwa [atomicRule_atomically] at h
  exact hbody.atomicRule_eq readPropertyValue_splits _ rfl s

theorem payload_eq (size : ℕ) (s : List Char) :
    Grammar.payload (manifestContext size) s =
      (readPropertyValue s).map fun x =>
        ([leaf .payload (size - s.length) x.1], x.2) :=
  lexes_propertyValue.atomicRule_eq readPropertyValue_splits _ rfl s

theorem actionName_eq (size : ℕ) (s : List Char) :
    Grammar.actionName (manifestContext size) s =
      (readActionName s).map fun x =>
        ([leaf .actionName (size - s.length) x.1], x.2) :=
  lexes_actionName_body.atomicRule_eq (readWords_splits _) _ rfl s

/-- The node of a property whose value starts at `u` and ends before `t`. -/
def propertyNode (size : ℕ) (s u t key value : List Char) : Pair Rule :=
  ⟨.property, size - s.length, s.take (s.length - t.length),
    [leaf .propertyName (size - s.length) key,
      leaf .propertyValue (size - u.length) value]⟩

theorem property_eq (size : ℕ) (s : List Char) :
    Grammar.property (manifestContext size) s =
      match readPropertyName s with
      | none => none
      | some (key, s₁) =>
          match skip s₁ with
          | '=' :: s₂ =>
              match readPropertyValue (skip s₂) with
              | none => none
              | some (value, t) =>
                  some ([propertyNode size s (skip s₂) t key value], t)
          | _ => none := by
  unfold Grammar.property rule
  simp only [seq, propertyName_eq]
  cases hname : readPropertyName s with
  | none => rfl
  | some name =>
      obtain ⟨key, s₁⟩ := name
      simp only [Option.map_some, gap_manifestContext]
      cases hskip : skip s₁ with
      | nil => simp [str]
      | cons c s₂ =>
          by_cases hc : c = '='
          · subst c
            simp only [str, propertyValue_eq]
            cases hvalue : readPropertyValue (skip s₂) with
            | none => simp [hvalue]
            | some value =>
                simp [hvalue, manifestContext, propertyNode]
          · simp [str, Ne.symm hc]
            split <;> simp_all

def IsPropertyNode (size : ℕ) (node : Pair Rule) (prop : Property) : Prop :=
  ∃ s u t key value, node = propertyNode size s u t key value ∧
    prop = { key := key, value := removeChars ['\"', '\\'] value }

theorem property_nodes (size : ℕ) :
    Simulates (List.Forall₂ (IsPropertyNode size))
      (Grammar.property (manifestContext size)) readProperty := by
  intro s
  rw [property_eq]
  unfold readProperty
  split
  · exact Option.Rel.none
  · split
    · split
      · exact Option.Rel.none
      · exact Option.Rel.some
          ⟨.cons ⟨_, _, _, _, _, rfl, rfl⟩ .nil, rfl⟩
    · exact Option.Rel.none

theorem readRunOnce_consuming (ok : List Char → Bool) :
    Consuming (readRunOnce ok) := by
  intro s w t hread
  have hsplit := readRunOnce_splits ok hread
  unfold readRunOnce at hread
  split_ifs at hread with hempty
  simp only [Option.some.injEq, Prod.mk.injEq] at hread
  have hpos : 0 < w.length := by
    rw [← hread.1]
    exact List.length_pos_iff.mpr hempty
  rw [hsplit, List.length_append]
  omega

theorem readQuoted_consuming : Consuming readQuoted := by
  intro s w t hread
  have hsplit := readQuoted_splits hread
  have hpos : w ≠ [] := by
    intro hw
    unfold readQuoted at hread
    split at hread
    · split at hread
      · simp [hw] at hread
      · cases hread
    · cases hread
  have hlen := List.length_pos_iff.mpr hpos
  rw [hsplit, List.length_append]
  omega

theorem readPropertyValue_consuming : Consuming readPropertyValue := by
  intro s w t hread
  unfold readPropertyValue at hread
  split at hread
  · next hquoted =>
      rw [hread] at hquoted
      exact readQuoted_consuming hquoted
  · exact readRunOnce_consuming _ hread

/-- Everything that reading a property does. -/
theorem readProperty_eq_some {s t : List Char} {props : List Property}
    (h : readProperty s = some (props, t)) :
    ∃ key s₁ s₂ value,
      readPropertyName s = some (key, s₁) ∧
      skip s₁ = '=' :: s₂ ∧
      readPropertyValue (skip s₂) = some (value, t) ∧
      props = [{ key := key, value := removeChars ['\"', '\\'] value }] := by
  unfold readProperty at h
  split at h
  · cases h
  · next key s₁ hname =>
      split at h
      · next s₂ hskip =>
          split at h
          · cases h
          · next value u hvalue =>
              simp only [Option.some.injEq, Prod.mk.injEq] at h
              obtain ⟨rfl, rfl⟩ := h
              exact ⟨key, s₁, s₂, value, hname, hskip, hvalue, rfl⟩
      · cases h

theorem readPropertyName_eq_some {s name t : List Char}
    (h : readPropertyName s = some (name, t)) :
    name = s.takeWhile isNameChar ∧ t = s.dropWhile isNameChar := by
  unfold readPropertyName readRunOnce at h
  split_ifs at h
  simp only [takeTails_headIs, dropTails_headIs, Option.some.injEq,
    Prod.mk.injEq] at h
  exact ⟨h.1.symm, h.2.symm⟩

theorem readProperty_eq_none {s : List Char}
    (h : headIs isNameChar s = false) : readProperty s = none := by
  have hname : readPropertyName s = none := by
    unfold readPropertyName readRunOnce
    rw [takeTails_eq_nil h, if_pos rfl]
  unfold readProperty
  rw [hname]

theorem readProperty_consuming : Consuming readProperty := by
  intro s props t hread
  obtain ⟨key, s₁, s₂, value, hname, hskip, hvalue, _⟩ :=
    readProperty_eq_some hread
  have h₁ := readRunOnce_consuming _ hname
  have h₂ := skip_shrinking s₁
  have h₃ := skip_shrinking s₂
  have h₄ := readPropertyValue_consuming hvalue
  rw [hskip, List.length_cons] at h₂
  omega

/-! ## Actions -/

/-- The first token after the keyword: a property, or else a payload. -/
def readContent : Reader (Text × List Property) := fun s =>
  match readProperty s with
  | some (props, t) => some (([], props), t)
  | none =>
      match readPropertyValue s with
      | some (payload, t) => some ((payload, []), t)
      | none => none

def readTerminator (s : List Char) : Option (List Char) :=
  match readNewline s with
  | some t => some t
  | none => if s = [] then some [] else none

def readAction : Reader Action := fun s =>
  match readActionName s with
  | none => none
  | some (name, s₁) =>
      match readContent (skip s₁) with
      | none => none
      | some (content, s₂) =>
          let rest := repeatAll skip readProperty s₂
          match readTerminator (skip rest.2) with
          | none => none
          | some t =>
              some ({
                kind := getActionKind name
                payloadString := content.1
                properties := content.2 ++ rest.1 }, t)

theorem readContent_of_property {s t : List Char} {props : List Property}
    (h : readProperty s = some (props, t)) :
    readContent s = some (([], props), t) := by
  unfold readContent
  rw [h]

theorem readContent_of_payload {s t : List Char} {payload : Text}
    (hnone : readProperty s = none)
    (h : readPropertyValue s = some (payload, t)) :
    readContent s = some ((payload, []), t) := by
  unfold readContent
  rw [hnone, h]

theorem readContent_eq_some {s t : List Char}
    {content : Text × List Property} (h : readContent s = some (content, t)) :
    (∃ props, readProperty s = some (props, t) ∧ content = ([], props)) ∨
      ∃ payload, readPropertyValue s = some (payload, t) ∧
        content = (payload, []) := by
  unfold readContent at h
  split at h
  · next hprops =>
      cases h
      exact .inl ⟨_, hprops, rfl⟩
  · split at h
    · next hvalue =>
        cases h
        exact .inr ⟨_, hvalue, rfl⟩
    · cases h

/-- Everything that reading an action does. -/
theorem readAction_eq_some {s t : List Char} {act : Action}
    (h : readAction s = some (act, t)) :
    ∃ name s₁ content s₂,
      readActionName s = some (name, s₁) ∧
      readContent (skip s₁) = some (content, s₂) ∧
      readTerminator (skip (repeatAll skip readProperty s₂).2) = some t ∧
      act = {
        kind := getActionKind name
        payloadString := content.1
        properties := content.2 ++ (repeatAll skip readProperty s₂).1 } := by
  unfold readAction at h
  split at h
  · cases h
  · next name s₁ hname =>
      split at h
      · cases h
      · next content s₂ hcontent =>
          dsimp only at h
          split at h
          · cases h
          · next u hterm =>
              simp only [Option.some.injEq, Prod.mk.injEq] at h
              obtain ⟨rfl, rfl⟩ := h
              exact ⟨name, s₁, content, s₂, hname, hcontent, hterm, rfl⟩

theorem rep_property_nodes (size : ℕ) (s : List Char) :
    ∃ pairs u,
      rep Grammar.property (manifestContext size) (skip s) = some (pairs, u) ∧
      List.Forall₂ (IsPropertyNode size) pairs
        (repeatAll skip readProperty s).1 ∧
      skip u = skip (repeatAll skip readProperty s).2 :=
  (property_nodes size).rep_gap .nil
    (fun _ _ _ _ h h' => List.rel_append h h') skip_shrinking skip_skip
    readProperty_consuming s

/-- The children for the text behind the keyword up to the first gap: a
property, or a payload. -/
def IsContent (size : ℕ) (pairs : List (Pair Rule))
    (content : Text × List Property) : Prop :=
  (content.1 = [] ∧ List.Forall₂ (IsPropertyNode size) pairs content.2) ∨
    ∃ start, pairs = [leaf .payload start content.1] ∧ content.2 = []

theorem content_nodes (size : ℕ) :
    Simulates (IsContent size)
      (choice [Grammar.property, Grammar.payload] (manifestContext size))
      readContent := by
  intro s
  have hprop := property_nodes size s
  unfold choice choice choice readContent
  rw [payload_eq]
  cases hp : Grammar.property (manifestContext size) s <;>
    cases hr : readProperty s <;> rw [hp, hr] at hprop
  · cases readPropertyValue s with
    | none => exact Option.Rel.none
    | some value => exact Option.Rel.some ⟨.inr ⟨_, rfl, rfl⟩, rfl⟩
  · cases hprop
  · cases hprop
  · cases hprop with
    | some hrel => exact Option.Rel.some ⟨.inl ⟨rfl, hrel.1⟩, hrel.2⟩

theorem terminator_nodes (size : ℕ) (s : List Char) :
    ∃ pairs,
      choice [newline, Grammar.eoi] (manifestContext size) s =
        (readTerminator s).map (fun t => (pairs, t)) ∧
      (pairs = [] ∨ ∃ start, pairs = [leaf .EOI start []]) := by
  unfold choice choice choice readTerminator
  rw [newline_eq]
  cases hn : readNewline s with
  | some t => exact ⟨[], rfl, .inl rfl⟩
  | none =>
      cases s with
      | nil => exact ⟨[leaf .EOI (size - 0) []], rfl, .inr ⟨_, rfl⟩⟩
      | cons c t =>
          refine ⟨[], ?_, .inl rfl⟩
          simp [Grammar.eoi, rule, endOfInput]

/-- The node of an action between two places of the text. -/
structure IsActionNode (size : ℕ) (s t : List Char) (act : Action)
    (node : Pair Rule) : Prop where
  asRule : node.asRule = .action
  start : node.start = size - s.length
  asStr : node.asStr = s.take (s.length - t.length)
  children : ∃ name content props last more,
    node.intoInner = leaf .actionName (size - s.length) name ::
      (content ++ (props ++ last)) ∧
    readActionName s = some (name, more) ∧
    act.kind = getActionKind name ∧
    (∃ first rest, IsContent size content (act.payloadString, first) ∧
      List.Forall₂ (IsPropertyNode size) props rest ∧
      act.properties = first ++ rest) ∧
    (last = [] ∨ ∃ start, last = [leaf .EOI start []])

theorem action_nodes (size : ℕ) (s : List Char) :
    Option.Rel (fun x y => (∃ node, x.1 = [node] ∧
        IsActionNode size s y.2 y.1 node) ∧ x.2 = y.2)
      (Grammar.action (manifestContext size) s) (readAction s) := by
  unfold Grammar.action rule readAction
  simp only [seq, actionName_eq, gap_manifestContext]
  cases hname : readActionName s with
  | none => exact Option.Rel.none
  | some name =>
      obtain ⟨name, s₁⟩ := name
      simp only [Option.map_some]
      have hcontent := content_nodes size (skip s₁)
      cases hp : choice [Grammar.property, Grammar.payload]
          (manifestContext size) (skip s₁) <;>
        cases hr : readContent (skip s₁) <;> rw [hp, hr] at hcontent
      · exact Option.Rel.none
      · cases hcontent
      · cases hcontent
      · next parsed content =>
          obtain ⟨pairs, s₂⟩ := parsed
          obtain ⟨content, s₂'⟩ := content
          cases hcontent with
          | some hrel =>
              obtain ⟨hmeans, rfl⟩ := hrel
              obtain ⟨props, u, hrep, hprops, hend⟩ :=
                rep_property_nodes size s₂
              obtain ⟨last, hterm, hlast⟩ := terminator_nodes size
                (skip (repeatAll skip readProperty s₂).2)
              simp only [hrep, hend, hterm]
              cases hdone : readTerminator
                  (skip (repeatAll skip readProperty s₂).2) with
              | none => exact Option.Rel.none
              | some t =>
                  refine Option.Rel.some ⟨⟨_, rfl, ⟨rfl, rfl, rfl, ?_⟩⟩, rfl⟩
                  exact ⟨name, pairs, props, last, s₁, rfl, hname, rfl,
                    ⟨content.2, _, hmeans, hprops, rfl⟩, hlast⟩

/-! ### The walk over the pairs of an action -/

/-- The pairs are property nodes that are read as the properties. -/
def MeansProperties (pairs : List (Pair Rule)) (props : List Property) :
    Prop :=
  ∀ act : Action, Outcome.fold readActionPair act pairs =
    .ok { act with properties := act.properties ++ props }

theorem meansProperties_of_nodes {size : ℕ} {pairs : List (Pair Rule)}
    {props : List Property}
    (h : List.Forall₂ (IsPropertyNode size) pairs props) :
    MeansProperties pairs props := by
  induction h with
  | nil =>
      intro act
      simp
  | cons hfirst _ ih =>
      intro act
      obtain ⟨s, u, t, key, value, rfl, rfl⟩ := hfirst
      have hread : readActionPair act (propertyNode size s u t key value) =
          .ok { act with properties := act.properties ++
            [{ key := key, value := removeChars ['\"', '\\'] value }] } := by
        simp [propertyNode, readActionPair, leaf, readPropertyPair]
      rw [Outcome.fold_cons, hread, Outcome.ok_bind, ih]
      simp

theorem IsContent.fold_eq {size : ℕ} {pairs : List (Pair Rule)}
    {content : Text × List Property} (h : IsContent size pairs content)
    {act : Action} (hpayload : act.payloadString = [])
    (hprops : act.properties = []) :
    Outcome.fold readActionPair act pairs =
      .ok { act with
        payloadString := content.1, properties := content.2 } := by
  rcases h with ⟨hempty, hnodes⟩ | ⟨start, rfl, hnone⟩
  · rw [meansProperties_of_nodes hnodes act, hempty]
    simp [hpayload, hprops]
  · rw [hnone]
    simp [readActionPair, leaf, hprops]

/-- The pair is an action node that is collected into the action. -/
def MeansAction (pairs : List (Pair Rule)) (act : Action) : Prop :=
  ∃ start text inner,
    pairs = [⟨.action, start, text, inner⟩] ∧
    Outcome.fold readActionPair {} inner = .ok act

theorem IsActionNode.meansAction {size : ℕ} {s t : List Char} {act : Action}
    {node : Pair Rule} (h : IsActionNode size s t act node)
    (hread : readAction s = some (act, t)) : MeansAction [node] act := by
  obtain ⟨_, _, _, _, -, -, -, hact⟩ := readAction_eq_some hread
  obtain ⟨name, content, props, last, more, hinner, -, hkind,
    ⟨first, rest, hcontent, hrest, hprops⟩, hlast⟩ := h.children
  have hend : ∀ act, Outcome.fold readActionPair act last = .ok act := by
    rcases hlast with rfl | ⟨start, rfl⟩
    · exact fun act => rfl
    · exact fun act => rfl
  have hrule := h.asRule
  obtain ⟨kind, start, text, inner⟩ := node
  dsimp only at hrule hinner
  subst hrule
  refine ⟨start, text, inner, rfl, ?_⟩
  rw [hinner, Outcome.fold_cons]
  simp only [leaf, readActionPair, Outcome.ok_bind]
  rw [Outcome.fold_append, hcontent.fold_eq rfl rfl, Outcome.ok_bind,
    Outcome.fold_append, meansProperties_of_nodes hrest, Outcome.ok_bind,
    hend, ← hkind]
  dsimp only
  rw [← hprops, hact]

theorem action_simulates (size : ℕ) :
    Simulates MeansAction (Grammar.action (manifestContext size))
      readAction := by
  intro s
  have hnodes := action_nodes size s
  cases hp : Grammar.action (manifestContext size) s <;>
    cases hr : readAction s <;> rw [hp, hr] at hnodes
  · exact Option.Rel.none
  · cases hnodes
  · cases hnodes
  · next parsed read =>
      obtain ⟨pairs, t⟩ := parsed
      obtain ⟨act, t'⟩ := read
      cases hnodes with
      | some hrel =>
          obtain ⟨⟨node, rfl, hnode⟩, rfl⟩ := hrel
          exact Option.Rel.some ⟨hnode.meansAction hr, rfl⟩

/-! ## Transforms -/

def readTransform (s : List Char) : Option (List Char) :=
  match readWords ["<transform "] s with
  | none => none
  | some (_, s₁) =>
      match readActionName (skip s₁) with
      | none => none
      | some (_, s₂) =>
          match readProperty (skip s₂) with
          | none => none
          | some (_, s₃) =>
              match readWords ["->"]
                  (skip (repeatAll skip readProperty s₃).2) with
              | none => none
              | some (_, s₄) =>
                  match (skip s₄).dropWhile (· != '>') with
                  | _ :: t => some t
                  | [] => none

theorem readsOne_transformCharacter :
    ReadsOne Grammar.transformCharacter (headIs (· != '>')) := by
  have hbody := readsOne_negPred_any (p := str ">") (R := Rule)
    (fun s => !headIs (· == '>') s)
    (by
      intro ctx s
      rw [(readsOne_str (c := '>') (by decide)).2]
      cases hhead : headIs (· == '>') s <;> simp)
  refine ⟨rfl, ?_⟩
  intro ctx s
  unfold Grammar.transformCharacter
  rw [rule_atomically, hbody.2]
  cases s with
  | nil => rfl
  | cons c t => rfl

theorem transformAction_eq (size : ℕ) (s : List Char) :
    Grammar.transformAction (manifestContext size) s =
      some ([leaf .transformAction (size - s.length)
        (s.takeWhile (· != '>'))], s.dropWhile (· != '>')) := by
  have h : Grammar.transformAction (manifestContext size) s = _ :=
    readsOne_transformCharacter.rep.atomicRule_eq (readRun_splits _) _ rfl s
  rw [h]
  simp [readRun, manifestContext]

theorem skip_eq_self_of_head {c : Char} (t : List Char)
    (hc : c ≠ '\\' ∧ c ≠ ' ' ∧ c ≠ '\t' ∧ c ≠ '#') :
    skip (c :: t) = c :: t := by
  obtain ⟨hslash, hspace, htab, hhash⟩ := hc
  apply skip_of_none
  unfold readGap readWhitespace readComment
  split <;> simp_all

theorem head_dropWhile {test : Char → Bool} {s t : List Char} {c : Char}
    (h : s.dropWhile test = c :: t) : test c = false := by
  have hhead := List.head_dropWhile_not test (l := s) (by simp [h])
  simpa [h] using hhead

theorem closing_eq (size : ℕ) (s : List Char) :
    (str ">" : Parser Rule) (manifestContext size)
        (skip (s.dropWhile (· != '>'))) =
      (match s.dropWhile (· != '>') with
        | _ :: t => some t
        | [] => none).map fun t => ([], t) := by
  cases hrest : s.dropWhile (· != '>') with
  | nil =>
      rw [skip_of_none rfl]
      rfl
  | cons c t =>
      have hc : c = '>' := by
        simpa using head_dropWhile hrest
      subst c
      rw [skip_eq_self_of_head t (by decide)]
      rfl

theorem transform_simulates (size : ℕ) (s : List Char) :
    ∃ pairs,
      Grammar.transform (manifestContext size) s =
        (readTransform s).map (fun t => (pairs, t)) ∧
      ∀ m, Outcome.fold readManifestPair m pairs = .ok m := by
  unfold Grammar.transform rule readTransform
  simp only [seq, repOnce, str_eq "<transform ", str_eq "->", actionName_eq,
    transformAction_eq, gap_manifestContext, closing_eq]
  cases readWords ["<transform "] s with
  | none => exact ⟨[], rfl, fun m => rfl⟩
  | some opening =>
      obtain ⟨_, s₁⟩ := opening
      simp only [Option.map_some]
      cases readActionName (skip s₁) with
      | none => exact ⟨[], rfl, fun m => rfl⟩
      | some name =>
          obtain ⟨name, s₂⟩ := name
          simp only [Option.map_some]
          have hprop := property_nodes size (skip s₂)
          cases hp : Grammar.property (manifestContext size) (skip s₂) <;>
            cases hr : readProperty (skip s₂) <;> rw [hp, hr] at hprop
          · exact ⟨[], rfl, fun m => rfl⟩
          · cases hprop
          · cases hprop
          · next parsed read =>
              obtain ⟨pairs, s₃⟩ := parsed
              obtain ⟨props, s₃'⟩ := read
              cases hprop with
              | some hrel =>
                  obtain ⟨_, rfl⟩ := hrel
                  obtain ⟨more, u, hrep, _, hend⟩ := rep_property_nodes size s₃
                  simp only [hrep, hend]
                  cases readWords ["->"]
                      (skip (repeatAll skip readProperty s₃).2) with
                  | none => exact ⟨[], rfl, fun m => rfl⟩
                  | some arrow =>
                      obtain ⟨_, s₄⟩ := arrow
                      simp only [Option.map_some]
                      cases (skip s₄).dropWhile (· != '>') with
                      | nil => exact ⟨[], rfl, fun m => rfl⟩
                      | cons c t => exact ⟨_, rfl, fun m => rfl⟩

/-! ## Items of a manifest -/

inductive Item where
  | newline
  | transform
  | action (act : Action)

def addItem (m : Manifest) : Item → Outcome ActionError Manifest
  | .newline => .ok m
  | .transform => .ok m
  | .action act => m.addAction act

def readItem : Reader (List Item) := fun s =>
  match readNewline s with
  | some t => some ([.newline], t)
  | none =>
      match readTransform s with
      | some t => some ([.transform], t)
      | none =>
          match readAction s with
          | some (act, t) => some ([.action act], t)
          | none => none

/-- Items from the start of the text to its end, at least one. -/
def readManifest (content : List Char) : Option (List Item) :=
  let loop := repeatAll skip readItem content
  if loop.1 ≠ [] ∧ skip loop.2 = [] then some loop.1 else none

def MeansItems (pairs : List (Pair Rule)) (items : List Item) : Prop :=
  ∀ m, Outcome.fold readManifestPair m pairs = Outcome.fold addItem m items

theorem MeansItems.append
    (xs xs' : List (Pair Rule)) (ys ys' : List Item)
    (h : MeansItems xs ys) (h' : MeansItems xs' ys') :
    MeansItems (xs ++ xs') (ys ++ ys') := by
  intro m
  rw [Outcome.fold_append, Outcome.fold_append, h m]
  congr 1
  funext m'
  exact h' m'

theorem item_simulates (size : ℕ) :
    Simulates MeansItems
      (choice [newline, Grammar.transform, Grammar.action]
        (manifestContext size)) readItem := by
  intro s
  unfold choice choice choice choice readItem
  rw [newline_eq]
  obtain ⟨pairs, htransform, hmeans⟩ := transform_simulates size s
  rw [htransform]
  cases readNewline s with
  | some t => exact Option.Rel.some ⟨fun m => rfl, rfl⟩
  | none =>
      cases readTransform s with
      | some t =>
          refine Option.Rel.some ⟨?_, rfl⟩
          intro m
          simpa [addItem] using hmeans m
      | none =>
          have haction := action_simulates size s
          cases hp : Grammar.action (manifestContext size) s <;>
            cases hr : readAction s <;> rw [hp, hr] at haction
          · exact Option.Rel.none
          · cases haction
          · cases haction
          · cases haction with
            | some hrel =>
                obtain ⟨⟨start, text, inner, hpairs, hinner⟩, hrest⟩ := hrel
                refine Option.Rel.some ⟨?_, hrest⟩
                intro m
                rw [hpairs]
                simp [readManifestPair, hinner, addItem]

theorem readActionName_consuming : Consuming readActionName := by
  intro s w t hread
  have hsplit := readWords_splits _ hread
  have hwords : ∀ word ∈ keywords, 0 < word.toList.length := by
    decide
  rcases readWords_mem hread with ⟨word, hmem, hw⟩
  have hpos : 0 < w.length := by
    rw [hw]
    exact hwords word hmem
  rw [hsplit, List.length_append]
  omega

theorem readContent_consuming : Consuming readContent := by
  intro s content t hread
  rcases readContent_eq_some hread with ⟨props, hprops, -⟩ | ⟨payload, hvalue, -⟩
  · exact readProperty_consuming hprops
  · exact readPropertyValue_consuming hvalue

theorem readTerminator_length_le {s t : List Char}
    (h : readTerminator s = some t) : t.length ≤ s.length := by
  unfold readTerminator at h
  split at h
  · next hn =>
      simp only [Option.some.injEq] at h
      subst h
      exact (readNewline_length_lt hn).le
  · split_ifs at h
    simp only [Option.some.injEq] at h
    simp [← h]

theorem readAction_consuming : Consuming readAction := by
  intro s act t hread
  obtain ⟨name, s₁, content, s₂, hname, hcontent, hterm, _⟩ :=
    readAction_eq_some hread
  have h₁ := readActionName_consuming hname
  have h₂ := skip_shrinking s₁
  have h₃ := readContent_consuming hcontent
  have h₄ := repeatAll_length_le skip_shrinking readProperty_consuming s₂
  have h₅ := skip_shrinking (repeatAll skip readProperty s₂).2
  have h₆ := readTerminator_length_le hterm
  omega

/-- Everything that reading a transform does. -/
theorem readTransform_eq_some {s t : List Char}
    (h : readTransform s = some t) :
    ∃ opening s₁ name s₂ props s₃ arrow s₄ c,
      readWords ["<transform "] s = some (opening, s₁) ∧
      readActionName (skip s₁) = some (name, s₂) ∧
      readProperty (skip s₂) = some (props, s₃) ∧
      readWords ["->"] (skip (repeatAll skip readProperty s₃).2) =
        some (arrow, s₄) ∧
      (skip s₄).dropWhile (· != '>') = c :: t := by
  unfold readTransform at h
  split at h
  · cases h
  · next opening s₁ hopening =>
      split at h
      · cases h
      · next name s₂ hname =>
          split at h
          · cases h
          · next props s₃ hprops =>
              split at h
              · cases h
              · next arrow s₄ harrow =>
                  split at h
                  · next c u hclose =>
                      rw [Option.some.injEq] at h
                      subst h
                      exact ⟨opening, s₁, name, s₂, props, s₃, arrow, s₄, c,
                        hopening, hname, hprops, harrow, hclose⟩
                  · cases h

theorem readTransform_length_lt {s t : List Char}
    (h : readTransform s = some t) : t.length < s.length := by
  obtain ⟨opening, s₁, name, s₂, props, s₃, arrow, s₄, c,
    hopening, hname, hprops, harrow, hclose⟩ := readTransform_eq_some h
  have h₁ := congrArg List.length (readWords_splits _ hopening)
  have h₂ := skip_shrinking s₁
  have h₃ := readActionName_consuming hname
  have h₄ := skip_shrinking s₂
  have h₅ := readProperty_consuming hprops
  have h₆ := repeatAll_length_le skip_shrinking readProperty_consuming s₃
  have h₇ := skip_shrinking (repeatAll skip readProperty s₃).2
  have h₈ := congrArg List.length (readWords_splits _ harrow)
  have h₉ := skip_shrinking s₄
  have h₁₀ : (c :: t).length ≤ (skip s₄).length := by
    rw [← hclose]
    exact (List.dropWhile_suffix _).length_le
  simp only [List.length_append, List.length_cons] at h₁ h₈ h₁₀
  omega

theorem readItem_consuming : Consuming readItem := by
  intro s items t hread
  unfold readItem at hread
  split at hread
  · next hn =>
      simp only [Option.some.injEq, Prod.mk.injEq] at hread
      rw [← hread.2]
      exact readNewline_length_lt hn
  · split at hread
    · next htransform =>
        simp only [Option.some.injEq, Prod.mk.injEq] at hread
        rw [← hread.2]
        exact readTransform_length_lt htransform
    · split at hread
      · next haction =>
          simp only [Option.some.injEq, Prod.mk.injEq] at hread
          rw [← hread.2]
          exact readAction_consuming haction
      · cases hread

theorem readItem_ne_nil {s t : List Char} {items : List Item}
    (h : readItem s = some (items, t)) : items ≠ [] := by
  unfold readItem at h
  split at h
  · simp only [Option.some.injEq, Prod.mk.injEq] at h
    simp [← h.1]
  · split at h
    · simp only [Option.some.injEq, Prod.mk.injEq] at h
      simp [← h.1]
    · split at h
      · simp only [Option.some.injEq, Prod.mk.injEq] at h
        simp [← h.1]
      · cases h

/-- The nodes of an accepted text mean its items. -/
theorem parse_manifest (content : List Char) :
    (readManifest content = none ∧
      parse skip Grammar.manifest content = none) ∨
    ∃ items inner,
      readManifest content = some items ∧
      parse skip Grammar.manifest content =
        some [⟨.manifest, 0, content, inner⟩] ∧
      MeansItems inner items := by
  have hdocument : readManifest content =
      readDocument skip readItem content := rfl
  rw [hdocument]
  unfold parse Grammar.manifest Grammar.eoi
  rcases (item_simulates content.length).document content .EOI (fun m => rfl)
      MeansItems.append skip_shrinking skip_skip readItem_consuming
      (fun _ _ _ => readItem_ne_nil) with
    ⟨hnone, hparse⟩ | ⟨items, pairs, hitems, hparse, hmeans⟩
  · left
    rw [rule_of_none hparse]
    exact ⟨hnone, rfl⟩
  · right
    refine ⟨items, pairs ++ [leaf .EOI content.length []], hitems, ?_, ?_⟩
    · rw [rule_of_some rfl hparse]
      simp
    · intro m
      rw [Outcome.fold_append, hmeans m]
      cases Outcome.fold addItem m items <;> rfl

/-- `Manifest::parse_string` rejects what has no items and otherwise adds the
items of the text in order. -/
theorem parseString_eq (content : Text) :
    parseString content =
      match readManifest content with
      | none => .err .parserError
      | some items => Outcome.fold addItem new items := by
  unfold parseString
  rcases parse_manifest content with ⟨hread, hparse⟩ |
    ⟨items, inner, hread, hparse, hmeans⟩
  · rw [hread, hparse]
  · rw [hread, hparse]
    simp only [Outcome.fold_cons, Outcome.fold_nil, readPair, hmeans new]
    cases Outcome.fold addItem new items <;> rfl

/-! ## The actions of a text -/

def Item.action? : Item → Option Action
  | .action act => some act
  | _ => none

/-- The actions that `Manifest::parse_string` hands to `add_action`. -/
def readActions (content : List Char) : Option (List Action) :=
  (readManifest content).map (List.filterMap Item.action?)

theorem fold_addItem (m : Manifest) (items : List Item) :
    Outcome.fold addItem m items =
      Outcome.fold addAction m (items.filterMap Item.action?) := by
  induction items generalizing m with
  | nil => rfl
  | cons item items ih =>
      cases item with
      | newline => exact ih m
      | transform => exact ih m
      | action act =>
          rw [Outcome.fold_cons, List.filterMap_cons]
          simp [addItem, Item.action?, ih]

theorem parseString_eq_actions (content : Text) :
    parseString content =
      match readActions content with
      | none => .err .parserError
      | some actions => Outcome.fold addAction new actions := by
  rw [parseString_eq]
  unfold readActions
  cases readManifest content with
  | none => rfl
  | some items => exact fold_addItem new items

theorem exists_actions {content : Text} {m : Manifest}
    (h : parseString content = .ok m) :
    ∃ actions, readActions content = some actions ∧
      Outcome.fold addAction new actions = .ok m := by
  rw [parseString_eq_actions] at h
  split at h
  · cases h
  · next actions hread => exact ⟨actions, hread, h⟩

/-- The text holds exactly these actions, up to its end. -/
def HoldsActions (s : List Char) (actions : List Action) : Prop :=
  (repeatAll skip readItem s).1.filterMap Item.action? = actions ∧
    skip (repeatAll skip readItem s).2 = []

theorem holdsActions_congr {s t : List Char} (hskip : skip s = skip t)
    (actions : List Action) : HoldsActions s actions ↔ HoldsActions t actions := by
  cases hread : readItem (skip t) with
  | none =>
      unfold HoldsActions
      rw [repeatAll_of_none skip_shrinking readItem_consuming hread,
        repeatAll_of_none skip_shrinking readItem_consuming
          (by rw [hskip]; exact hread)]
      simp [hskip]
  | some result =>
      unfold HoldsActions
      rw [repeatAll_of_some skip_shrinking readItem_consuming hread,
        repeatAll_of_some skip_shrinking readItem_consuming
          (by rw [hskip]; exact hread)]

theorem holdsActions_of_gap {s t : List Char} (h : readGap s = some t)
    (actions : List Action) : HoldsActions s actions ↔ HoldsActions t actions :=
  holdsActions_congr (skip_of_gap h) actions

theorem holdsActions_of_item {s t : List Char} {items : List Item}
    (h : readItem (skip s) = some (items, t)) (actions : List Action) :
    HoldsActions s (items.filterMap Item.action? ++ actions) ↔
      HoldsActions t actions := by
  unfold HoldsActions
  rw [repeatAll_of_some skip_shrinking readItem_consuming h]
  simp

theorem holdsActions_item_iff {s t : List Char} {items : List Item}
    (h : readItem (skip s) = some (items, t)) (actions : List Action) :
    HoldsActions s actions ↔
      ∃ later, actions = items.filterMap Item.action? ++ later ∧
        HoldsActions t later := by
  constructor
  · intro hholds
    have hfirst := hholds.1
    rw [repeatAll_of_some skip_shrinking readItem_consuming h,
      List.filterMap_append] at hfirst
    refine ⟨_, hfirst.symm, ?_⟩
    rw [← holdsActions_of_item h, hfirst]
    exact hholds
  · rintro ⟨later, rfl, hlater⟩
    exact (holdsActions_of_item h later).mpr hlater

theorem holdsActions_nil : HoldsActions [] [] := by
  unfold HoldsActions
  rw [repeatAll_of_none skip_shrinking readItem_consuming
    (by rw [skip_of_none rfl]; rfl)]
  simp [skip_of_none (s := []) rfl]

theorem readActions_eq_some_iff {content : List Char}
    (hcontent : skip content ≠ []) (actions : List Action) :
    readActions content = some actions ↔ HoldsActions content actions := by
  unfold readActions readManifest HoldsActions
  have hne : skip (repeatAll skip readItem content).2 = [] →
      (repeatAll skip readItem content).1 ≠ [] := by
    intro hdone hnil
    cases hread : readItem (skip content) with
    | none =>
        rw [repeatAll_of_none skip_shrinking readItem_consuming hread] at hdone
        exact hcontent hdone
    | some result =>
        rw [repeatAll_of_some skip_shrinking readItem_consuming hread] at hnil
        simp [readItem_ne_nil hread] at hnil
  by_cases hdone : skip (repeatAll skip readItem content).2 = []
  · simp [hdone, hne hdone]
  · simp [hdone]

end Ips.Manifest
