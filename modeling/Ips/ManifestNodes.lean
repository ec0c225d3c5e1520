import Ips.ManifestText

/-!
# The nodes of a manifest

The action nodes of an accepted text, with the places in the text where they
start and end, their children, and the actions that they are collected into.
-/

namespace Ips.Manifest

open Peg

/-! ## Reading a node -/

/-- The text of the first child of a kind. -/
def childText (r : Rule) (node : Pair Rule) : Text :=
  ((node.intoInner.find? fun child => child.asRule = r).map Pair.asStr).getD []

def nodeProperty (node : Pair Rule) : Property where
  key := childText .propertyName node
  value := removeChars ['\"', '\\'] (childText .propertyValue node)

def nodeProperties (node : Pair Rule) : List Property :=
  (node.intoInner.filter fun child => child.asRule = .property).map nodeProperty

def actionNodes (pairs : List (Pair Rule)) : List (Pair Rule) :=
  (pairs.flatMap Pair.intoInner).filter fun node => node.asRule = .action

theorem IsPropertyNode.asRule {size : ℕ} {node : Pair Rule} {prop : Property}
    (h : IsPropertyNode size node prop) : node.asRule = .property := by
  obtain ⟨s, u, t, key, value, rfl, -⟩ := h
  rfl

theorem IsPropertyNode.nodeProperty_eq {size : ℕ} {node : Pair Rule}
    {prop : Property} (h : IsPropertyNode size node prop) :
    nodeProperty node = prop := by
  obtain ⟨s, u, t, key, value, rfl, rfl⟩ := h
  rfl

theorem keyword_of_read {s t : List Char} {name : Text}
    (h : readActionName s = some (name, t)) :
    name ∈ keywords.map String.toList := by
  obtain ⟨word, hmem, rfl⟩ := readWords_mem h
  exact List.mem_map_of_mem hmem

/-! ## What the nodes say -/

section Nodes

variable {size : ℕ} {s t : List Char} {act : Action} {node : Pair Rule}

theorem find?_properties {r : Rule} (hr : r ≠ .property)
    {pairs : List (Pair Rule)} {props : List Property}
    (h : List.Forall₂ (IsPropertyNode size) pairs props) :
    pairs.find? (fun child => child.asRule = r) = none := by
  rw [List.find?_eq_none]
  intro child hchild
  obtain ⟨prop, -, hprop⟩ := exists_of_forall₂ h child hchild
  rw [hprop.asRule, decide_eq_true_eq]
  exact hr.symm

theorem map_nodeProperty {pairs : List (Pair Rule)} {props : List Property}
    (h : List.Forall₂ (IsPropertyNode size) pairs props) :
    (pairs.filter fun child => child.asRule = .property).map nodeProperty =
      props := by
  induction h with
  | nil => rfl
  | cons hfirst _ ih =>
      rw [List.filter_cons, if_pos (by simp [hfirst.asRule]), List.map_cons,
        ih, hfirst.nodeProperty_eq]

theorem IsActionNode.actionName (h : IsActionNode size s t act node) :
    ∃ more, readActionName s = some (childText .actionName node, more) ∧
      act.kind = getActionKind (childText .actionName node) := by
  obtain ⟨name, content, props, last, more, hinner, hname, hkind, -, -⟩ :=
    h.children
  have htext : childText .actionName node = name := by
    simp [childText, hinner, leaf]
  rw [htext]
  exact ⟨more, hname, hkind⟩

theorem IsActionNode.payload (h : IsActionNode size s t act node) :
    childText .payload node = act.payloadString := by
  obtain ⟨name, content, props, last, more, hinner, -, -,
    ⟨first, rest, hcontent, hrest, -⟩, hlast⟩ := h.children
  have hnone := find?_properties (r := .payload) (by decide) hrest
  have hend : last.find? (fun child => child.asRule = .payload) = none := by
    rcases hlast with rfl | ⟨start, rfl⟩
    · rfl
    · rfl
  unfold childText
  rw [hinner, List.find?_cons_of_neg (by simp [leaf]), List.find?_append,
    List.find?_append, hnone, hend]
  rcases hcontent with ⟨hempty, hprops⟩ | ⟨start, rfl, -⟩
  · rw [find?_properties (by decide) hprops]
    exact hempty.symm
  · simp [leaf]

theorem IsActionNode.properties (h : IsActionNode size s t act node) :
    nodeProperties node = act.properties := by
  obtain ⟨name, content, props, last, more, hinner, -, -,
    ⟨first, rest, hcontent, hrest, hprops⟩, hlast⟩ := h.children
  have hend : last.filter (fun child => child.asRule = .property) = [] := by
    rcases hlast with rfl | ⟨start, rfl⟩
    · rfl
    · rfl
  have hfirst : (content.filter fun child =>
      child.asRule = .property).map nodeProperty = first := by
    rcases hcontent with ⟨-, hfirst⟩ | ⟨start, rfl, hempty⟩
    · exact map_nodeProperty hfirst
    · exact hempty.symm
  unfold nodeProperties
  rw [hinner, List.filter_cons, if_neg (by simp [leaf]), List.filter_append,
    List.filter_append, hend, List.append_nil, List.map_append, hfirst,
    map_nodeProperty hrest, hprops]

end Nodes

/-! ## Places -/

/-- An action with the text from its first character on and the text behind
it. -/
structure Place where
  start : List Char
  stop : List Char
  act : Action

def Item.place (s t : List Char) : Item → Option Place
  | .action act => some ⟨s, t, act⟩
  | _ => none

def readPlaces : Reader (List (Option Place)) := fun s =>
  (readItem s).map fun x => (x.1.map (Item.place s x.2), x.2)

structure AtPlace (size : ℕ) (node : Pair Rule) (place : Place) : Prop where
  parsed : Grammar.action (manifestContext size) place.start =
    some ([node], place.stop)
  isNode : IsActionNode size place.start place.stop place.act node

def PlacesOf (size : ℕ) (pairs : List (Pair Rule))
    (places : List (Option Place)) : Prop :=
  List.Forall₂ (AtPlace size)
    (pairs.filter fun node => node.asRule = .action) (places.filterMap id)

theorem PlacesOf.append (size : ℕ)
    (xs xs' : List (Pair Rule)) (ys ys' : List (Option Place))
    (h : PlacesOf size xs ys) (h' : PlacesOf size xs' ys') :
    PlacesOf size (xs ++ xs') (ys ++ ys') := by
  unfold PlacesOf
  rw [List.filter_append, List.filterMap_append]
  exact List.rel_append h h'

theorem transform_asRule {size : ℕ} {s t : List Char}
    {pairs : List (Pair Rule)}
    (h : Grammar.transform (manifestContext size) s = some (pairs, t)) :
    ∀ node ∈ pairs, node.asRule = .transform := by
  unfold Grammar.transform rule at h
  split at h
  · cases h
  · cases h
    simp

theorem places_simulates (size : ℕ) :
    Simulates (PlacesOf size)
      (choice [newline, Grammar.transform, Grammar.action]
        (manifestContext size)) readPlaces := by
  intro s
  unfold choice choice choice choice readPlaces readItem
  rw [newline_eq]
  obtain ⟨pairs, htransform, -⟩ := transform_simulates size s
  cases readNewline s with
  | some t => exact Option.Rel.some ⟨.nil, rfl⟩
  | none =>
      cases hread : readTransform s with
      | some t =>
          rw [hread] at htransform
          rw [htransform]
          refine Option.Rel.some ⟨?_, rfl⟩
          have hrule := transform_asRule htransform
          have hnone : pairs.filter (fun node => node.asRule = .action) = [] := by
            rw [List.filter_eq_nil_iff]
            intro node hnode
            rw [hrule node hnode]
            decide
          unfold PlacesOf
          simp only [hnone]
          exact .nil
      | none =>
          rw [hread] at htransform
          rw [htransform]
          have haction := action_nodes size s
          cases hp : Grammar.action (manifestContext size) s <;>
            cases hr : readAction s <;> rw [hp, hr] at haction
          · exact Option.Rel.none
          · cases haction
          · cases haction
          · next parsed read =>
              obtain ⟨pairs, t⟩ := parsed
              obtain ⟨act, t'⟩ := read
              cases haction with
              | some hrel =>
                  obtain ⟨⟨node, rfl, hnode⟩, rfl⟩ := hrel
                  refine Option.Rel.some ⟨?_, rfl⟩
                  have hone : [node].filter (fun node =>
                      node.asRule = .action) = [node] := by
                    simp [hnode.asRule]
                  unfold PlacesOf
                  rw [hone]
                  exact .cons ⟨hp, hnode⟩ .nil

theorem readPlaces_consuming : Consuming readPlaces := by
  intro s places t h
  obtain ⟨x, hread, heq⟩ := Option.map_eq_some_iff.mp h
  cases heq
  exact readItem_consuming hread

theorem readPlaces_ne_nil {s t : List Char} {places : List (Option Place)}
    (h : readPlaces s = some (places, t)) : places ≠ [] := by
  obtain ⟨x, hread, heq⟩ := Option.map_eq_some_iff.mp h
  cases heq
  have hne := readItem_ne_nil hread
  simpa using hne

theorem readPlaces_suffix : Suffixing readPlaces := by
  intro s places t h
  obtain ⟨x, hread, heq⟩ := Option.map_eq_some_iff.mp h
  cases heq
  exact readItem_suffix hread

theorem places_items :
    Simulates (fun places items =>
        places.map (Option.map Place.act) = items.map Item.action?)
      readPlaces readItem := by
  intro s
  unfold readPlaces
  cases readItem s with
  | none => exact Option.Rel.none
  | some result =>
      refine Option.Rel.some ⟨?_, rfl⟩
      dsimp only
      rw [List.map_map]
      apply List.map_congr_left
      intro item _
      cases item <;> rfl

/-- The actions that a text holds, and where. -/
theorem readPlaces_action {s t : List Char} {places : List (Option Place)}
    (h : readPlaces s = some (places, t)) {place : Place}
    (hplace : some place ∈ places) :
    place.start = s ∧ readAction s = some (place.act, place.stop) := by
  obtain ⟨⟨items, u⟩, hread, heq⟩ := Option.map_eq_some_iff.mp h
  cases heq
  obtain ⟨item, hitem, hsome⟩ := List.mem_map.mp hplace
  cases item with
  | newline => cases hsome
  | transform => cases hsome
  | action act =>
      cases hsome
      refine ⟨rfl, ?_⟩
      unfold readItem at hread
      split at hread
      · cases hread
        simp at hitem
      · split at hread
        · cases hread
          simp at hitem
        · split at hread
          · next haction =>
              cases hread
              rw [List.mem_singleton] at hitem
              cases hitem
              exact haction
          · cases hread

theorem readActions_places (content : List Char) :
    readActions content =
      (readDocument skip readPlaces content).map fun places =>
        (places.filterMap id).map Place.act := by
  have hloop : (repeatAll skip readPlaces content).1.map (Option.map Place.act) =
        (repeatAll skip readItem content).1.map Item.action? ∧
      (repeatAll skip readPlaces content).2 =
        (repeatAll skip readItem content).2 :=
    places_items.repeatAll rfl (by
      intro xs xs' ys ys' h h'
      rw [List.map_append, List.map_append, h, h']) content
  obtain ⟨hmap, hrest⟩ := hloop
  have hnil : (repeatAll skip readPlaces content).1 = [] ↔
      (repeatAll skip readItem content).1 = [] := by
    rw [← List.map_eq_nil_iff (f := Option.map Place.act), hmap,
      List.map_eq_nil_iff]
  have hacts : (repeatAll skip readItem content).1.filterMap Item.action? =
      ((repeatAll skip readPlaces content).1.filterMap id).map Place.act := by
    calc (repeatAll skip readItem content).1.filterMap Item.action?
        = ((repeatAll skip readItem content).1.map Item.action?).filterMap id := by
          rw [List.filterMap_map]
          rfl
      _ = ((repeatAll skip readPlaces content).1.map
            (Option.map Place.act)).filterMap id := by rw [hmap]
      _ = ((repeatAll skip readPlaces content).1.filterMap id).map Place.act := by
          rw [List.filterMap_map, List.map_filterMap]
          rfl
  unfold readActions readManifest readDocument
  dsimp only
  simp only [hrest, ne_eq, hnil]
  split_ifs
  · rw [Option.map_some, Option.map_some, hacts]
  · rfl

/-- The action nodes of a text, in order, with their places. -/
theorem parse_places (content : List Char) :
    (readActions content = none ∧
      parse skip Grammar.manifest content = none) ∨
    ∃ pairs places,
      parse skip Grammar.manifest content = some pairs ∧
      readActions content = some (places.map Place.act) ∧
      List.Forall₂ (AtPlace content.length) (actionNodes pairs) places ∧
      ∀ place ∈ places, place.start <:+ content ∧
        readAction place.start = some (place.act, place.stop) := by
  have hplaces : ∀ place, some place ∈ (repeatAll skip readPlaces content).1 →
      place.start <:+ content ∧
        readAction place.start = some (place.act, place.stop) := by
    intro place hplace
    refine repeatAll_forall (P := fun x => ∀ place, x = some place →
        place.start <:+ content ∧
          readAction place.start = some (place.act, place.stop))
      skip_shrinking readPlaces_consuming skip_suffix readPlaces_suffix ?_
      _ hplace place rfl
    rintro u xs t hu hread x hx place rfl
    obtain ⟨rfl, haction⟩ := readPlaces_action hread hx
    exact ⟨hu, haction⟩
  rw [readActions_places]
  unfold parse Grammar.manifest Grammar.eoi
  rcases (places_simulates content.length).document content .EOI .nil
      (PlacesOf.append _) skip_shrinking skip_skip readPlaces_consuming
      (fun _ _ _ => readPlaces_ne_nil) with
    ⟨hnone, hparse⟩ | ⟨places, pairs, hsome, hparse, hmeans⟩
  · left
    rw [rule_of_none hparse, hnone]
    exact ⟨rfl, rfl⟩
  · right
    refine ⟨[⟨.manifest, 0, content, pairs ++ [leaf .EOI content.length []]⟩],
      places.filterMap id, ?_, ?_, ?_, ?_⟩
    · rw [rule_of_some rfl hparse]
      simp
    · rw [hsome]
      rfl
    · have hnodes : actionNodes [⟨.manifest, 0, content,
          pairs ++ [leaf .EOI content.length []]⟩] =
            pairs.filter fun node => node.asRule = .action := by
        simp [actionNodes, leaf]
      rw [hnodes]
      exact hmeans
    · intro place hplace
      apply hplaces
      unfold readDocument at hsome
      dsimp only at hsome
      split_ifs at hsome
      rw [Option.some.injEq] at hsome
      rw [hsome]
      obtain ⟨x, hx, hid⟩ := List.mem_filterMap.mp hplace
      rw [id] at hid
      rwa [hid] at hx

end Ips.Manifest
