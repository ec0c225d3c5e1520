import Ips.ManifestNodes

/-!
# When reading a manifest fails

`Manifest::parse_string` returns an error for what the grammar rejects.  For
what it accepts, the walk panics at action kinds without a typed form and at
digests that cannot be read, and at nothing else.
-/

namespace Ips

/-! ## Conversions -/

def unwrapMessage : String := "called `Result::unwrap()` on an `Err` value"

def IsDigest (value : Text) : Prop :=
  ∃ digest, Digest.fromStr value = .ok digest

instance (value : Text) : Decidable (IsDigest value) :=
  match h : Digest.fromStr value with
  | .ok digest => isTrue ⟨digest, h⟩
  | .error _ => isFalse fun ⟨digest, hok⟩ => by
      rw [h] at hok
      cases hok

theorem unwrap_ok_or_panic (ε : Type) {α δ : Type} (x : Except δ α) :
    (∃ a, x = .ok a ∧ (Outcome.unwrap x : Outcome ε α) = .ok a) ∨
      ((¬ ∃ a, x = .ok a) ∧
        (Outcome.unwrap x : Outcome ε α) = .panic unwrapMessage) := by
  cases x with
  | ok a => exact .inl ⟨a, rfl, rfl⟩
  | error e =>
      refine .inr ⟨?_, rfl⟩
      rintro ⟨a, ha⟩
      cases ha

theorem Action.propertiesWithPayload_ok (act : Action) :
    ∃ props, act.propertiesWithPayload = .ok props := by
  unfold Action.propertiesWithPayload
  split_ifs
  · exact ⟨_, rfl⟩
  · rw [splitProperty_eq]
    exact ⟨_, rfl⟩

/-- The property that a file action takes from its payload. -/
def payloadProperties (payload : Text) : List Property :=
  if '/' ∈ payload ∧ '=' ∈ payload then
    match splitProperty payload with
    | .ok (key, value) => [{ key := key, value := value }]
    | _ => []
  else []

/-- The payload of a file action is not to be read as a digest, or is one. -/
def PayloadAccepted (payload : Text) : Prop :=
  payload ≠ [] → '/' ∉ payload → IsDigest payload

def PropertyAccepted (prop : Property) : Prop :=
  isDigestKey prop.key → IsDigest prop.value

theorem File.takePayload_ok_or_panic (act : Action) :
    (PayloadAccepted act.payloadString ∧ ∃ file p,
      File.takePayload act =
        .ok (file, p, act.properties ++ payloadProperties act.payloadString)) ∨
    (¬ PayloadAccepted act.payloadString ∧
      File.takePayload act = .panic unwrapMessage) := by
  unfold File.takePayload PayloadAccepted payloadProperties
  by_cases hempty : act.payloadString = []
  · left
    simp [hempty]
  · by_cases hslash : '/' ∈ act.payloadString
    · left
      refine ⟨fun _ hnot => absurd hslash hnot, ?_⟩
      rw [if_neg hempty, if_pos hslash]
      by_cases hequals : '=' ∈ act.payloadString
      · rw [if_pos hequals, if_pos ⟨hslash, hequals⟩, splitProperty_eq]
        exact ⟨_, _, rfl⟩
      · rw [if_neg hequals, if_neg (fun h => hequals h.2), List.append_nil]
        exact ⟨_, _, rfl⟩
    · rw [if_neg hempty, if_neg hslash, if_neg (fun h => hslash h.1),
        List.append_nil]
      rcases unwrap_ok_or_panic ActionError
          (Digest.fromStr act.payloadString) with
        ⟨digest, hdigest, hok⟩ | ⟨hnone, hpanic⟩
      · left
        rw [hok]
        exact ⟨fun _ _ => ⟨digest, hdigest⟩, _, _, rfl⟩
      · right
        rw [hpanic]
        exact ⟨fun h => hnone (h hempty hslash), rfl⟩

theorem File.addDigest_ok_or_panic (state : File × Payload) (value : Text) :
    (IsDigest value ∧ ∃ state', File.addDigest state value = .ok state') ∨
      (¬ IsDigest value ∧
        File.addDigest state value = .panic unwrapMessage) := by
  unfold File.addDigest
  rcases unwrap_ok_or_panic ActionError (Digest.fromStr value) with
    ⟨digest, hdigest, hok⟩ | ⟨hnone, hpanic⟩
  · left
    rw [hok]
    exact ⟨⟨digest, hdigest⟩, _, rfl⟩
  · right
    rw [hpanic]
    exact ⟨hnone, rfl⟩

theorem File.assign_ok_or_panic (state : File × Payload) (prop : Property) :
    (PropertyAccepted prop ∧ ∃ state', File.assign state prop = .ok state') ∨
      (¬ PropertyAccepted prop ∧
        File.assign state prop = .panic unwrapMessage) := by
  by_cases hkey : isDigestKey prop.key
  · -- both digest keys run the same arm
    have harm : File.assign state prop = File.addDigest state prop.value := by
      rcases hkey with hkey | hkey
      · unfold File.assign
        rw [hkey, (ofText?_eq_some_iff FileKey.mem_all
          FileKey.text_injective).mpr rfl]
      · unfold File.assign
        rw [hkey, (ofText?_eq_some_iff FileKey.mem_all
          FileKey.text_injective).mpr rfl]
    rw [harm]
    rcases File.addDigest_ok_or_panic state prop.value with
      ⟨hdigest, hok⟩ | ⟨hnot, hpanic⟩
    · exact .inl ⟨fun _ => hdigest, hok⟩
    · exact .inr ⟨fun h => hnot (h hkey), hpanic⟩
  · left
    refine ⟨fun h => absurd h hkey, ?_⟩
    exact File.assign_ok state prop fun h => absurd h hkey

/-- A file action is converted unless one of its digests cannot be read. -/
def Action.FileAccepted (act : Action) : Prop :=
  PayloadAccepted act.payloadString ∧
    ∀ prop ∈ act.properties ++ payloadProperties act.payloadString,
      PropertyAccepted prop

theorem File.fromAction_ok_or_panic (act : Action) :
    (act.FileAccepted ∧ ∃ file, File.fromAction act = .ok file) ∨
      (¬ act.FileAccepted ∧
        File.fromAction act = .panic unwrapMessage) := by
  unfold File.fromAction
  rcases File.takePayload_ok_or_panic act with
    ⟨hpayload, file, p, htake⟩ | ⟨hpayload, hpanic⟩
  · rw [htake, Outcome.ok_bind]
    dsimp only
    have hone : ∀ state prop, (∃ state', File.assign state prop = .ok state') ↔
        PropertyAccepted prop := by
      intro state prop
      rcases File.assign_ok_or_panic state prop with
        ⟨haccepted, hok⟩ | ⟨hnot, hpanic⟩
      · exact iff_of_true hok haccepted
      · rw [hpanic]
        exact iff_of_false (fun ⟨x, hx⟩ => by cases hx) hnot
    have hstep : ∀ state, ∀ prop ∈
        act.properties ++ payloadProperties act.payloadString,
        (∃ state', File.assign state prop = .ok state') ∨
          ∃ message, message = unwrapMessage ∧
            File.assign state prop = .panic message := by
      intro state prop _
      rcases File.assign_ok_or_panic state prop with ⟨-, hok⟩ | ⟨-, hpanic⟩
      · exact .inl hok
      · exact .inr ⟨_, rfl, hpanic⟩
    have hiff : (∃ state', Outcome.fold File.assign (file, p)
        (act.properties ++ payloadProperties act.payloadString) =
          .ok state') ↔ _ :=
      Outcome.fold_ok_iff File.assign (fun state prop _ => hone state prop) _
    have hrun := Outcome.fold_ok_or_panic File.assign hstep (file, p)
    rcases hrun with ⟨state, hok⟩ | ⟨message, rfl, hpanic⟩
    · left
      refine ⟨⟨hpayload, hiff.mp ⟨state, hok⟩⟩, ?_⟩
      rw [hok]
      exact ⟨_, rfl⟩
    · right
      rw [hpanic] at hiff ⊢
      refine ⟨fun h => ?_, rfl⟩
      obtain ⟨state, hstate⟩ := hiff.mpr h.2
      cases hstate
  · right
    rw [hpanic]
    exact ⟨fun h => hpayload h.1, rfl⟩

namespace Manifest

open Peg

/-! ## Actions -/

def todoMessage : String := "not yet implemented"

/-- The kinds that have no typed form. -/
def unsupportedKinds : List ActionKind := [.user, .group, .driver, .legacy]

/-- The walk panics when it adds the action. -/
def StopsAt (act : Action) : Prop :=
  act.kind ∈ unsupportedKinds ∨ (act.kind = .file ∧ ¬ act.FileAccepted)

theorem addAction_ok_or_panic {act : Action} {name : Text}
    (hname : name ∈ keywords.map String.toList)
    (hkind : act.kind = getActionKind name) (m : Manifest) :
    (¬ StopsAt act ∧ ∃ m', m.addAction act = .ok m') ∨
      (StopsAt act ∧ ∃ message,
        (message = todoMessage ∨ message = unwrapMessage) ∧
        m.addAction act = .panic message) := by
  have hkinds : ∀ name ∈ keywords.map String.toList, getActionKind name ∈
      [ActionKind.attr, .dependency, .dir, .file, .license, .link, .driver,
        .group, .user, .legacy] := by
    decide
  have hmem := hkinds name hname
  rw [← hkind] at hmem
  obtain ⟨props, hprops⟩ := act.propertiesWithPayload_ok
  simp only [List.mem_cons, List.not_mem_nil, or_false] at hmem
  unfold StopsAt addAction
  rcases hmem with h | h | h | h | h | h | h | h | h | h <;> rw [h]
  · left
    simp [Attr.fromAction, hprops, unsupportedKinds]
  · left
    simp [Dependency.fromAction, hprops, unsupportedKinds]
  · left
    simp [Dir.fromAction, hprops, unsupportedKinds]
  · rcases File.fromAction_ok_or_panic act with
      ⟨haccepted, file, hok⟩ | ⟨hnot, hpanic⟩
    · left
      simp [hok, haccepted, unsupportedKinds]
    · right
      simp [hpanic, hnot]
  · left
    simp [License.fromAction, unsupportedKinds]
  · left
    simp [Link.fromAction, hprops, unsupportedKinds]
  · right
    simp [unsupportedKinds, todoMessage]
  · right
    simp [unsupportedKinds, todoMessage]
  · right
    simp [unsupportedKinds, todoMessage]
  · right
    simp [unsupportedKinds, todoMessage]

/-! ## Texts -/

def unsupportedNames : List Text :=
  ["user".toList, "group".toList, "driver".toList, "legacy".toList]

/-- The node is an action without a typed form, or a file action with a digest
that cannot be read: its payload, or a value of a digest property, also of the
one that is written as the payload. -/
def StopsAtNode (node : Pair Rule) : Prop :=
  childText .actionName node ∈ unsupportedNames ∨
    (childText .actionName node = "file".toList ∧
      ((childText .payload node ≠ [] ∧ '/' ∉ childText .payload node ∧
          ¬ IsDigest (childText .payload node)) ∨
        ∃ prop ∈ nodeProperties node ++
            payloadProperties (childText .payload node),
          isDigestKey prop.key ∧ ¬ IsDigest prop.value))

instance (node : Pair Rule) : Decidable (StopsAtNode node) :=
  inferInstanceAs (Decidable (_ ∨ _))

theorem stopsAtNode_iff {size : ℕ} {s t : List Char} {act : Action}
    {node : Pair Rule} (h : IsActionNode size s t act node) :
    StopsAtNode node ↔ StopsAt act := by
  obtain ⟨more, hread, hkind⟩ := h.actionName
  have hnames : ∀ name ∈ keywords.map String.toList,
      (getActionKind name ∈ unsupportedKinds ↔ name ∈ unsupportedNames) ∧
        (getActionKind name = .file ↔ name = "file".toList) := by
    decide
  obtain ⟨hunsupported, hfile⟩ := hnames _ (keyword_of_read hread)
  unfold StopsAtNode StopsAt
  rw [hkind, hunsupported, hfile, h.payload, h.properties]
  simp only [Action.FileAccepted, PayloadAccepted, PropertyAccepted, not_and_or,
    not_forall, exists_prop, ne_eq]

theorem readAction_keyword {s t : List Char} {act : Action}
    (h : readAction s = some (act, t)) :
    ∃ name ∈ keywords.map String.toList, act.kind = getActionKind name := by
  obtain ⟨name, s₁, content, s₂, hname, -, -, rfl⟩ := readAction_eq_some h
  exact ⟨name, keyword_of_read hname, rfl⟩

theorem fold_addAction_ok_or_panic {places : List Place}
    (h : ∀ place ∈ places,
      readAction place.start = some (place.act, place.stop)) (m : Manifest) :
    (∃ m', Outcome.fold addAction m (places.map Place.act) = .ok m') ∨
      ∃ message, (message = todoMessage ∨ message = unwrapMessage) ∧
        Outcome.fold addAction m (places.map Place.act) = .panic message := by
  apply Outcome.fold_ok_or_panic
  intro m act hact
  obtain ⟨place, hplace, rfl⟩ := List.mem_map.mp hact
  obtain ⟨name, hname, hkind⟩ := readAction_keyword (h place hplace)
  rcases addAction_ok_or_panic hname hkind m with ⟨-, hok⟩ | ⟨-, hpanic⟩
  · exact .inl hok
  · exact .inr hpanic

theorem fold_addAction_ok_iff {places : List Place}
    (h : ∀ place ∈ places,
      readAction place.start = some (place.act, place.stop)) (m : Manifest) :
    (∃ m', Outcome.fold addAction m (places.map Place.act) = .ok m') ↔
      ∀ place ∈ places, ¬ StopsAt place.act := by
  rw [Outcome.fold_ok_iff addAction (Q := fun act => ¬ StopsAt act),
    List.forall_mem_map]
  intro m act hact
  obtain ⟨place, hplace, rfl⟩ := List.mem_map.mp hact
  obtain ⟨name, hname, hkind⟩ := readAction_keyword (h place hplace)
  rcases addAction_ok_or_panic hname hkind m with
    ⟨hnot, hok⟩ | ⟨hstops, message, -, hpanic⟩
  · exact iff_of_true hok hnot
  · rw [hpanic]
    exact iff_of_false (fun ⟨m', hm⟩ => by cases hm) fun hnot => hnot hstops

theorem forall_nodes_iff {size : ℕ} {nodes : List (Pair Rule)}
    {places : List Place} (h : List.Forall₂ (AtPlace size) nodes places) :
    (∀ node ∈ nodes, ¬ StopsAtNode node) ↔
      ∀ place ∈ places, ¬ StopsAt place.act := by
  induction h with
  | nil => simp
  | cons hfirst _ ih =>
      rw [List.forall_mem_cons, List.forall_mem_cons, ih,
        stopsAtNode_iff hfirst.isNode]

/-- `Manifest::parse_string` returns an error exactly for a text that the
grammar rejects; for other texts it panics exactly when it stops at an action
node, and then because of a missing conversion or a digest. -/
theorem parseString_outcome (content : Text) :
    ((∃ error, parseString content = .err error) ↔
      parse skip Grammar.manifest content = none) ∧
    (∀ pairs, parse skip Grammar.manifest content = some pairs →
      ((∃ message, parseString content = .panic message) ↔
        ∃ node ∈ actionNodes pairs, StopsAtNode node) ∧
      ((∃ m, parseString content = .ok m) ↔
        ∀ node ∈ actionNodes pairs, ¬ StopsAtNode node)) ∧
    ∀ message, parseString content = .panic message →
      message = todoMessage ∨ message = unwrapMessage := by
  rw [parseString_eq_actions]
  rcases parse_places content with ⟨hactions, hnone⟩ |
    ⟨pairs, places, hsome, hactions, hnodes, hplaces⟩
  · rw [hactions, hnone]
    simp
  · have hread : ∀ place ∈ places,
        readAction place.start = some (place.act, place.stop) :=
      fun place hplace => (hplaces place hplace).2
    have hok := fold_addAction_ok_iff hread new
    rw [← forall_nodes_iff hnodes] at hok
    rw [hactions, hsome]
    dsimp only
    rcases fold_addAction_ok_or_panic hread new with
      ⟨m, hrun⟩ | ⟨message, hmessage, hrun⟩
    · rw [hrun] at hok ⊢
      have hall := hok.mp ⟨m, rfl⟩
      refine ⟨by simp, ?_, by simp⟩
      intro pairs' heq
      cases heq
      refine ⟨?_, hok⟩
      constructor
      · rintro ⟨message, hpanic⟩
        cases hpanic
      · rintro ⟨node, hnode, hstops⟩
        exact absurd hstops (hall node hnode)
    · rw [hrun] at hok ⊢
      have hstops : ∃ node ∈ actionNodes pairs, StopsAtNode node := by
        by_contra hnone
        push Not at hnone
        obtain ⟨m, hm⟩ := hok.mpr hnone
        cases hm
      refine ⟨by simp, ?_, ?_⟩
      · intro pairs' heq
        cases heq
        exact ⟨iff_of_true ⟨message, rfl⟩ hstops, hok⟩
      · intro message' heq
        cases heq
        exact hmessage

/-- A digest with an algorithm that has no name stops the walk. -/
theorem parseString_outcome_digest :
    ∃ message, parseString "file path=bin/sh chash=gzip:md5:0\n".toList =
      .panic message := by
  have hstops : ∃ node ∈ actionNodes ((parse skip Grammar.manifest
      "file path=bin/sh chash=gzip:md5:0\n".toList).getD []),
      StopsAtNode node := by decide +kernel
  cases hparse : parse skip Grammar.manifest
      "file path=bin/sh chash=gzip:md5:0\n".toList with
  | none =>
      rw [hparse] at hstops
      obtain ⟨node, hnode, -⟩ := hstops
      cases hnode
  | some pairs =>
      rw [hparse] at hstops
      exact ((parseString_outcome _).2.1 pairs hparse).1.mpr hstops

end Manifest

end Ips
