import Ips.ActionFields

/-!
# Properties written as payload

An action can carry one property as its payload.  The grammar ends the name of
a property at the first equals sign and keeps the rest as its value, while
`split_property` splits a payload at all of them and drops what follows the
second one.  The two spellings of a property are therefore converted alike
exactly when its value has no equals sign.
-/

namespace Ips

def Action.withPayload (act : Action) (key value : Text) : Action :=
  { act with payloadString := key ++ '=' :: value }

def Action.withProperty (act : Action) (key value : Text) : Action :=
  { act with
    payloadString := []
    properties := act.properties ++ [⟨key, value⟩] }

/-- Every conversion that reads the payload as a property gives the same as if
the property stood at the end of the list. -/
structure PayloadAsProperty (act : Action) (key value : Text) : Prop where
  dir : Dir.fromAction (act.withPayload key value) =
    Dir.fromAction (act.withProperty key value)
  dependency : Dependency.fromAction (act.withPayload key value) =
    Dependency.fromAction (act.withProperty key value)
  attr : Attr.fromAction (act.withPayload key value) =
    Attr.fromAction (act.withProperty key value)
  link : Link.fromAction (act.withPayload key value) =
    Link.fromAction (act.withProperty key value)
  file : '/' ∈ key ++ '=' :: value →
    File.fromAction (act.withPayload key value) =
      File.fromAction (act.withProperty key value)

/-! ## The property that is split off -/

section Payload

variable (act : Action) {key value : Text}

theorem splitOff_keyValue (hkey : '=' ∉ key)
    (hvalue : ∀ c ∈ ['\"', '\\'], c ∉ value) :
    splitOff (key ++ '=' :: value) =
      ⟨key, value.takeWhile (· != '=')⟩ := by
  have hne := forall_bne_of_not_mem hkey
  have hclean : ∀ c ∈ ['\"', '\\'], c ∉ value.takeWhile (· != '=') := by
    intro c hc hmem
    exact hvalue c hc ((List.takeWhile_prefix _).mem hmem)
  unfold splitOff
  rw [List.takeWhile_append_of_pos hne, List.dropWhile_append_of_pos hne]
  simp [removeChars_eq_self hclean]

theorem Action.entries_withPayload (hkey : '=' ∉ key)
    (hvalue : ∀ c ∈ ['\"', '\\'], c ∉ value) :
    (act.withPayload key value).entries =
      act.properties ++ [⟨key, value.takeWhile (· != '=')⟩] := by
  have hne : (act.withPayload key value).payloadString ≠ [] := by
    simp [Action.withPayload]
  unfold Action.entries
  rw [if_neg hne]
  exact congrArg (fun p => act.properties ++ [p])
    (splitOff_keyValue hkey hvalue)

theorem Action.entries_withProperty :
    (act.withProperty key value).entries =
      act.properties ++ [⟨key, value⟩] := rfl

/-- The loops differ in their last round only. -/
theorem foldl_payload_iff {T : Type} (assign : T → Property → T) (start : T)
    (hkey : '=' ∉ key) (hvalue : ∀ c ∈ ['\"', '\\'], c ∉ value)
    (hassign : ∀ t v w, assign t ⟨key, v⟩ = assign t ⟨key, w⟩ → v = w) :
    (act.withPayload key value).entries.foldl assign start =
        (act.withProperty key value).entries.foldl assign start ↔
      '=' ∉ value := by
  rw [act.entries_withPayload hkey hvalue, act.entries_withProperty,
    List.foldl_append, List.foldl_append, ← takeWhile_bne_eq_self_iff]
  constructor
  · intro h
    exact hassign _ _ _ h
  · intro h
    rw [h]

/-! ## One conversion at a time -/

theorem insert_value_injective {V : Type} {map : HashMap V} {key : Text}
    {a b : V} (h : map.insert key a = map.insert key b) : a = b := by
  have hlookup := congrArg (Finmap.lookup key) h
  rw [Finmap.lookup_insert, Finmap.lookup_insert] at hlookup
  exact Option.some.inj hlookup

theorem addFacet_value_injective {facets : HashMap Facet} {key v w : Text}
    (h : (addFacet facets (Facet.fromKeyValue key v)).2 =
      (addFacet facets (Facet.fromKeyValue key w)).2) : v = w :=
  congrArg Facet.value (insert_value_injective h)

theorem Dependency.assign_value_injective (dep : Dependency) {key v w : Text}
    (h : dep.assign ⟨key, v⟩ = dep.assign ⟨key, w⟩) : v = w := by
  cases hk : ofText? DependencyKey.all DependencyKey.text key with
  | some k =>
      have hfield := congrArg (Dependency.field · k) h
      rwa [(Dependency.assign_of_key hk).2.2, if_pos rfl,
        (Dependency.assign_of_key hk).2.2, if_pos rfl] at hfield
  | none =>
      by_cases hfacet : isFacet key = true
      · have hfacets := congrArg Dependency.facets h
        rw [(Dependency.assign_of_none hk).2.1, if_pos hfacet,
          (Dependency.assign_of_none hk).2.1, if_pos hfacet] at hfacets
        exact addFacet_value_injective hfacets
      · have hoptional := congrArg Dependency.optional h
        rw [(Dependency.assign_of_none hk).2.2, if_neg hfacet,
          (Dependency.assign_of_none hk).2.2, if_neg hfacet] at hoptional
        simpa using hoptional

theorem Attr.assign_value_injective (attr : Attr) {key v w : Text}
    (h : attr.assign ⟨key, v⟩ = attr.assign ⟨key, w⟩) : v = w := by
  unfold Attr.assign at h
  cases hk : ofText? AttrKey.all AttrKey.text key with
  | some k =>
      rw [hk] at h
      cases k with
      | name => exact congrArg Attr.key h
      | value => simpa using congrArg Attr.values h
  | none =>
      rw [hk] at h
      exact congrArg Property.value
        (insert_value_injective (congrArg Attr.properties h))

theorem Link.assign_value_injective (link : Link) {key v w : Text}
    (h : link.assign ⟨key, v⟩ = link.assign ⟨key, w⟩) : v = w := by
  unfold Link.assign at h
  cases hk : ofText? LinkKey.all LinkKey.text key with
  | some k =>
      rw [hk] at h
      cases k with
      | path => exact congrArg Link.path h
      | target => exact congrArg Link.target h
  | none =>
      rw [hk] at h
      exact congrArg Property.value
        (insert_value_injective (congrArg Link.properties h))

theorem Dir.assign_value_injective (dir : Dir) {key v w : Text}
    (hkeeps : Dir.keeps key = true)
    (h : dir.assign ⟨key, v⟩ = dir.assign ⟨key, w⟩) : v = w := by
  cases hk : ofText? DirKey.all DirKey.text key with
  | some k =>
      have hfield := congrArg (Dir.field · k) h
      rwa [(Dir.assign_of_key hk).2, if_pos rfl, (Dir.assign_of_key hk).2,
        if_pos rfl] at hfield
  | none =>
      have hfacet : isFacet key = true := by
        simpa [Dir.keeps, hk] using hkeeps
      have hfacets := congrArg Dir.facets h
      rw [(Dir.assign_of_none hk).2, if_pos hfacet,
        (Dir.assign_of_none hk).2, if_pos hfacet] at hfacets
      exact addFacet_value_injective hfacets

theorem Dir.assign_of_not_keeps (dir : Dir) {key : Text}
    (hkeeps : ¬Dir.keeps key = true) (value : Text) :
    dir.assign ⟨key, value⟩ = dir := by
  have hnot : ofText? DirKey.all DirKey.text key = none ∧
      isFacet key = false := by
    simpa [Dir.keeps] using hkeeps
  unfold Dir.assign
  rw [hnot.1]
  simp [hnot.2]

theorem Dir.fromAction_payload_iff (hkey : '=' ∉ key)
    (hvalue : ∀ c ∈ ['\"', '\\'], c ∉ value) :
    Dir.fromAction (act.withPayload key value) =
        Dir.fromAction (act.withProperty key value) ↔
      '=' ∉ value ∨ ¬Dir.keeps key = true := by
  rw [Dir.fromAction_eq, Dir.fromAction_eq, Outcome.ok.injEq]
  by_cases hkeeps : Dir.keeps key = true
  · have hiff := foldl_payload_iff act Dir.assign {} hkey hvalue
      fun dir _ _ => Dir.assign_value_injective dir hkeeps
    simp [hiff, hkeeps]
  · have hignored : ∀ v,
        (act.properties ++ [Property.mk key v]).foldl Dir.assign {} =
          act.properties.foldl Dir.assign {} := by
      intro v
      rw [List.foldl_append]
      exact Dir.assign_of_not_keeps _ hkeeps v
    rw [act.entries_withPayload hkey hvalue, act.entries_withProperty,
      hignored, hignored]
    simp [hkeeps]

theorem Dependency.fromAction_payload_iff (hkey : '=' ∉ key)
    (hvalue : ∀ c ∈ ['\"', '\\'], c ∉ value) :
    Dependency.fromAction (act.withPayload key value) =
        Dependency.fromAction (act.withProperty key value) ↔
      '=' ∉ value := by
  rw [Dependency.fromAction_eq, Dependency.fromAction_eq, Outcome.ok.injEq]
  exact foldl_payload_iff act Dependency.assign {} hkey hvalue
    fun dep _ _ => Dependency.assign_value_injective dep

theorem Attr.fromAction_payload_iff (hkey : '=' ∉ key)
    (hvalue : ∀ c ∈ ['\"', '\\'], c ∉ value) :
    Attr.fromAction (act.withPayload key value) =
        Attr.fromAction (act.withProperty key value) ↔
      '=' ∉ value := by
  rw [Attr.fromAction_eq, Attr.fromAction_eq, Outcome.ok.injEq]
  exact foldl_payload_iff act Attr.assign {} hkey hvalue
    fun attr _ _ => Attr.assign_value_injective attr

theorem Link.fromAction_payload_iff (hkey : '=' ∉ key)
    (hvalue : ∀ c ∈ ['\"', '\\'], c ∉ value) :
    Link.fromAction (act.withPayload key value) =
        Link.fromAction (act.withProperty key value) ↔
      '=' ∉ value := by
  rw [Link.fromAction_eq, Link.fromAction_eq, Outcome.ok.injEq]
  exact foldl_payload_iff act Link.assign {} hkey hvalue
    fun link _ _ => Link.assign_value_injective link

theorem File.fromAction_payload (hkey : '=' ∉ key)
    (hvalue : ∀ c ∈ ['\"', '\\'], c ∉ value) (hequals : '=' ∉ value)
    (hslash : '/' ∈ key ++ '=' :: value) :
    File.fromAction (act.withPayload key value) =
      File.fromAction (act.withProperty key value) := by
  have htake : File.takePayload (act.withPayload key value) =
      File.takePayload (act.withProperty key value) := by
    unfold File.takePayload Action.withPayload Action.withProperty
    dsimp only
    rw [if_neg (by simp), if_pos hslash, if_pos (by simp), if_pos rfl,
      splitProperty_eq, splitOff_keyValue hkey hvalue,
      takeWhile_bne_eq_self_iff.mpr hequals]
    rfl
  unfold File.fromAction
  rw [htake]

/-- The payload is converted like a property of the list exactly when the value
has no equals sign. -/
theorem payloadAsProperty_iff (hkey : '=' ∉ key)
    (hvalue : ∀ c ∈ ['\"', '\\'], c ∉ value) :
    PayloadAsProperty act key value ↔ '=' ∉ value := by
  constructor
  · intro h
    exact (Attr.fromAction_payload_iff act hkey hvalue).mp h.attr
  · intro hequals
    constructor
    · exact (Dir.fromAction_payload_iff act hkey hvalue).mpr (.inl hequals)
    · exact (Dependency.fromAction_payload_iff act hkey hvalue).mpr hequals
    · exact (Attr.fromAction_payload_iff act hkey hvalue).mpr hequals
    · exact (Link.fromAction_payload_iff act hkey hvalue).mpr hequals
    · exact File.fromAction_payload act hkey hvalue hequals

end Payload

theorem payloadAsProperty_target :
    PayloadAsProperty { kind := .link } "target".toList "../lib".toList :=
  (payloadAsProperty_iff _ (by decide)
    (forall_mem_of_all (by decide))).mpr (by decide)

/-- An attribute with one property of its own. -/
def optsAttr (value : Text) : Attr where
  properties := Finmap.singleton "info:opts".toList
    ⟨"info:opts".toList, value⟩

/-- A colon cannot stand in the name of a property, so the first word of the
line is read as its payload. -/
theorem payloadAsProperty_cut :
    Manifest.parseString "set info:opts=a=b".toList =
        .ok { attributes := [optsAttr "a".toList] } ∧
      Attr.fromAction (Action.withPayload { kind := .attr }
        "info:opts".toList "a=b".toList) = .ok (optsAttr "a".toList) ∧
      Attr.fromAction (Action.withProperty { kind := .attr }
        "info:opts".toList "a=b".toList) = .ok (optsAttr "a=b".toList) ∧
      ¬∀ (act : Action) (key value : Text), '=' ∉ key →
        (∀ c ∈ ['\"', '\\'], c ∉ value) →
          PayloadAsProperty act key value := by
  have hpayload : Attr.fromAction (Action.withPayload { kind := .attr }
      "info:opts".toList "a=b".toList) = .ok (optsAttr "a".toList) := by
    decide +kernel
  have hproperty : Attr.fromAction (Action.withProperty { kind := .attr }
      "info:opts".toList "a=b".toList) = .ok (optsAttr "a=b".toList) := by
    decide +kernel
  refine ⟨by decide +kernel, hpayload, hproperty, ?_⟩
  intro h
  have hattr := (h { kind := .attr } "info:opts".toList "a=b".toList
    (by decide) (forall_mem_of_all (by decide))).attr
  rw [hpayload, hproperty] at hattr
  exact absurd hattr (by decide +kernel)

end Ips
