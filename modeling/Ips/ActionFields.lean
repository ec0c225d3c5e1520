import Ips.ActionRecovery
import Ips.ManifestFailures

/-!
# What the typed actions hold

Every conversion runs over the properties of an action, and behind them over
the property that is written as its payload.  A field of text and an entry of a
map keep the value of the last property that goes there; a list keeps all of
them in order.
-/

namespace Ips

/-! ## The properties that a conversion reads -/

/-- Directories, dependencies, attributes and links read every payload as a
property. -/
def Action.entries (act : Action) : List Property :=
  if act.payloadString = [] then act.properties
  else act.properties ++ [splitOff act.payloadString]

/-- A file reads its payload as a property when it has a slash and an equals
sign. -/
def Action.fileEntries (act : Action) : List Property :=
  if '/' ∈ act.payloadString ∧ '=' ∈ act.payloadString then
    act.properties ++ [splitOff act.payloadString]
  else act.properties

theorem Action.propertiesWithPayload_eq (act : Action) :
    act.propertiesWithPayload = .ok act.entries := by
  unfold Action.propertiesWithPayload Action.entries
  split_ifs
  · rfl
  · rw [splitProperty_eq]
    rfl

theorem Dir.fromAction_eq (act : Action) :
    Dir.fromAction act = .ok (act.entries.foldl Dir.assign {}) := by
  unfold Dir.fromAction
  rw [act.propertiesWithPayload_eq]
  rfl

theorem Dependency.fromAction_eq (act : Action) :
    Dependency.fromAction act = .ok (act.entries.foldl Dependency.assign {}) := by
  unfold Dependency.fromAction
  rw [act.propertiesWithPayload_eq]
  rfl

theorem Attr.fromAction_eq (act : Action) :
    Attr.fromAction act = .ok (act.entries.foldl Attr.assign {}) := by
  unfold Attr.fromAction
  rw [act.propertiesWithPayload_eq]
  rfl

theorem Link.fromAction_eq (act : Action) :
    Link.fromAction act = .ok (act.entries.foldl Link.assign {}) := by
  unfold Link.fromAction
  rw [act.propertiesWithPayload_eq]
  rfl

/-! ## Values under a key -/

def lastValue (props : List Property) (key : Text) : Option Text :=
  (valuesOf props key).getLast?

theorem foldl_last {V : Type} (f : Text → V) (start : V) (values : List Text) :
    values.foldl (fun _ v => f v) start =
      (values.getLast?.map f).getD start := by
  induction values using List.reverseRecOn with
  | nil => rfl
  | append_singleton values v _ =>
      rw [List.foldl_append, List.getLast?_append_of_ne_nil _ (by simp)]
      rfl

section Loops

variable {T V : Type} {assign : T → Property → Outcome ActionError T}
  {key : Text} {props : List Property} {t t' : T}

theorem Tracks.fold_last {get : T → Text}
    (htracks : Tracks assign key get fun _ v => v)
    (hfold : Outcome.fold assign t props = .ok t') (hstart : get t = []) :
    get t' = (lastValue props key).getD [] := by
  have hlast := foldl_last id [] (valuesOf props key)
  rw [Option.map_id] at hlast
  rw [htracks.fold_values hfold, hstart]
  exact hlast

theorem Tracks.fold_entry {get : T → Option V} {entry : Text → V}
    (htracks : Tracks assign key get fun _ v => some (entry v))
    (hfold : Outcome.fold assign t props = .ok t') (hstart : get t = none) :
    get t' = (lastValue props key).map entry := by
  rw [htracks.fold_values hfold, hstart, foldl_last fun v => some (entry v)]
  unfold lastValue
  cases (valuesOf props key).getLast? with
  | none => rfl
  | some v => rfl

/-- A loop that puts the properties with some keys into a list. -/
def Collects (assign : T → Property → Outcome ActionError T)
    (test : Text → Bool) (get : T → List V) (item : Property → V) : Prop :=
  ∀ t p t', assign t p = .ok t' →
    get t' = get t ++ if test p.key then [item p] else []

theorem Collects.fold {test : Text → Bool} {get : T → List V}
    {item : Property → V} (hcollects : Collects assign test get item)
    (hfold : Outcome.fold assign t props = .ok t') :
    get t' = get t ++ (props.filter fun p => test p.key).map item := by
  induction props generalizing t with
  | nil =>
      cases hfold
      exact (List.append_nil _).symm
  | cons p props ih =>
      rw [Outcome.fold_cons, Outcome.bind_eq_ok_iff] at hfold
      obtain ⟨t₁, hstep, hrest⟩ := hfold
      rw [ih hrest, hcollects t p t₁ hstep, List.filter_cons,
        List.append_assoc]
      split_ifs
      · rfl
      · rfl

end Loops

/-! ## Facets -/

/-- Every facet is stored under its own name, with the last value given. -/
def HoldsFacets (facets : HashMap Facet) (props : List Property) : Prop :=
  ∀ name, facets.lookup name =
    (lastValue props (facetKey name)).map fun value => ⟨name, value⟩

/-- Every remaining key leads to the last property with it. -/
def HoldsProperties {K : Type} (all : List K) (text : K → Text)
    (properties : HashMap Property) (props : List Property) : Prop :=
  ∀ key, properties.lookup key =
    if ofText? all text key = none then
      (lastValue props key).map fun value => ⟨key, value⟩
    else none

theorem ofText?_facetKey {K : Type} {all : List K} {text : K → Text}
    (h : ∀ k ∈ all, isFacet (text k) = false) (name : Text) :
    ofText? all text (facetKey name) = none := by
  apply List.find?_eq_none.mpr
  intro k hk heq
  have hfacet := h k hk
  rw [of_decide_eq_true heq, isFacet_facetKey] at hfacet
  cases hfacet

/-! ## Directories and dependencies -/

structure Dir.Holds (dir : Dir) (props : List Property) : Prop where
  fields : ∀ k : DirKey, dir.field k = (lastValue props k.text).getD []
  facets : HoldsFacets dir.facets props

theorem Dir.tracks_lookup (name : Text) :
    Tracks (fun dir p => .ok (Dir.assign dir p)) (facetKey name)
      (fun dir => dir.facets.lookup name)
      (fun _ v => some ⟨name, v⟩) := by
  have hkey : ofText? DirKey.all DirKey.text (facetKey name) = none :=
    ofText?_facetKey (forall_mem_of_all (by decide)) name
  apply tracks_rest hkey
  · rintro dir p _ k ⟨⟩ hk
    rw [(Dir.assign_of_key hk).1]
  · rintro dir p _ ⟨⟩ hk
    rw [(Dir.assign_of_none hk).2]
    exact lookup_addFacetIf dir.facets p name

theorem Dir.holds_foldl (props : List Property) :
    (props.foldl Dir.assign {}).Holds props := by
  have hfold := Outcome.fold_pure (ε := ActionError) Dir.assign {} props
  constructor
  · intro k
    exact (Dir.tracks_field k).fold_last hfold (by cases k <;> rfl)
  · intro name
    exact (Dir.tracks_lookup name).fold_entry hfold rfl

/-- The key has no field of its own and is no facet. -/
def isOther {K : Type} (all : List K) (text : K → Text) (key : Text) : Bool :=
  (ofText? all text key).isNone && !isFacet key

structure Dependency.Holds (dep : Dependency) (props : List Property) :
    Prop where
  fields : ∀ k : DependencyKey,
    dep.field k = (lastValue props k.text).getD []
  facets : HoldsFacets dep.facets props
  optional : dep.optional = props.filter fun p =>
    isOther DependencyKey.all DependencyKey.text p.key

theorem Dependency.tracks_lookup (name : Text) :
    Tracks (fun dep p => .ok (Dependency.assign dep p)) (facetKey name)
      (fun dep => dep.facets.lookup name)
      (fun _ v => some ⟨name, v⟩) := by
  have hkey : ofText? DependencyKey.all DependencyKey.text (facetKey name) =
      none :=
    ofText?_facetKey (forall_mem_of_all (by decide)) name
  apply tracks_rest hkey
  · rintro dep p _ k ⟨⟩ hk
    rw [(Dependency.assign_of_key hk).1]
  · rintro dep p _ ⟨⟩ hk
    rw [(Dependency.assign_of_none hk).2.1]
    exact lookup_addFacetIf dep.facets p name

theorem Dependency.collects_optional :
    Collects (fun dep p => .ok (Dependency.assign dep p))
      (isOther DependencyKey.all DependencyKey.text) Dependency.optional id := by
  rintro dep p _ ⟨⟩
  unfold isOther
  cases hk : ofText? DependencyKey.all DependencyKey.text p.key with
  | some k =>
      rw [(Dependency.assign_of_key hk).2.1]
      simp
  | none =>
      rw [(Dependency.assign_of_none hk).2.2]
      cases isFacet p.key <;> simp

theorem Dependency.holds_foldl (props : List Property) :
    (props.foldl Dependency.assign {}).Holds props := by
  have hfold := Outcome.fold_pure (ε := ActionError) Dependency.assign {} props
  refine ⟨?_, ?_, ?_⟩
  · intro k
    exact (Dependency.tracks_field k).fold_last hfold (by cases k <;> rfl)
  · intro name
    exact (Dependency.tracks_lookup name).fold_entry hfold rfl
  · have hoptional := Dependency.collects_optional.fold hfold
    rwa [List.map_id] at hoptional

/-! ## Attributes, licenses and links -/

theorem lookup_insert_property (properties : HashMap Property) (p : Property)
    (key : Text) :
    (properties.insert p.key p).lookup key =
      if p.key = key then some ⟨key, p.value⟩ else properties.lookup key := by
  by_cases h : p.key = key
  · rw [if_pos h, ← h, Finmap.lookup_insert]
  · rw [if_neg h, Finmap.lookup_insert_of_ne _ (fun heq => h heq.symm)]

section Maps

variable {K T : Type} {all : List K} {text : K → Text}
  {assign : T → Property → Outcome ActionError T}
  {properties : T → HashMap Property}

/-- Keys with a field of their own do not get into the map. -/
theorem holdsProperties_fold [DecidableEq K] (hall : ∀ k, k ∈ all)
    (hinj : Function.Injective text)
    (hnamed : ∀ t p t' k, assign t p = .ok t' →
      ofText? all text p.key = some k → properties t' = properties t)
    (hrest : ∀ t p t', assign t p = .ok t' → ofText? all text p.key = none →
      properties t' = (properties t).insert p.key p)
    {props : List Property} {t t' : T} (hstart : properties t = ∅)
    (hfold : Outcome.fold assign t props = .ok t') :
    HoldsProperties all text (properties t') props := by
  intro key
  have hempty : (properties t).lookup key = none := by
    rw [hstart]
    exact Finmap.lookup_empty key
  cases hkey : ofText? all text key with
  | none =>
      have htracks : Tracks assign key (fun t => (properties t).lookup key)
          (fun _ v => some ⟨key, v⟩) := by
        apply tracks_rest hkey
        · intro t p t' k hstep hk
          rw [hnamed t p t' k hstep hk]
        · intro t p t' hstep hk
          rw [hrest t p t' hstep hk]
          exact lookup_insert_property (properties t) p key
      rw [if_pos rfl]
      exact htracks.fold_entry hfold hempty
  | some k =>
      have htracks : Tracks assign key (fun t => (properties t).lookup key)
          (fun old _ => old) := by
        rw [← (ofText?_eq_some_iff hall hinj).mp hkey]
        apply tracks_key hall hinj k
        · intro t p t' k' hstep hk
          rw [hnamed t p t' k' hstep hk]
          simp
        · intro t p t' hstep hk
          rw [hrest t p t' hstep hk, lookup_insert_property, if_neg]
          intro heq
          rw [heq, (ofText?_eq_some_iff hall hinj).mpr rfl] at hk
          cases hk
      rw [if_neg (by simp), htracks.fold_values hfold, hempty]
      exact List.foldl_fixed _

end Maps

structure Attr.Holds (attr : Attr) (props : List Property) : Prop where
  key : attr.key = (lastValue props AttrKey.name.text).getD []
  values : attr.values = valuesOf props AttrKey.value.text
  properties : HoldsProperties AttrKey.all AttrKey.text attr.properties props

theorem Attr.collects_values :
    Collects (fun attr p => .ok (Attr.assign attr p))
      (fun key => key = AttrKey.value.text) Attr.values Property.value := by
  intro attr p attr' hstep
  have htracks := Attr.tracks_value attr p attr' hstep
  rw [htracks]
  simp only [decide_eq_true_eq]
  split_ifs
  · rfl
  · exact (List.append_nil _).symm

theorem Attr.holds_foldl (props : List Property) :
    (props.foldl Attr.assign {}).Holds props := by
  have hfold := Outcome.fold_pure (ε := ActionError) Attr.assign {} props
  refine ⟨Attr.tracks_name.fold_last hfold rfl,
    Attr.collects_values.fold hfold, ?_⟩
  refine holdsProperties_fold AttrKey.mem_all AttrKey.text_injective
    ?_ ?_ rfl hfold
  · rintro attr p _ k ⟨⟩ hk
    unfold Attr.assign
    rw [hk]
    cases k <;> rfl
  · rintro attr p _ ⟨⟩ hk
    unfold Attr.assign
    rw [hk]

structure Link.Holds (link : Link) (props : List Property) : Prop where
  fields : ∀ k : LinkKey, link.field k = (lastValue props k.text).getD []
  properties : HoldsProperties LinkKey.all LinkKey.text link.properties props

theorem Link.holds_foldl (props : List Property) :
    (props.foldl Link.assign {}).Holds props := by
  have hfold := Outcome.fold_pure (ε := ActionError) Link.assign {} props
  constructor
  · intro k
    exact (Link.tracks_field k).fold_last hfold (by cases k <;> rfl)
  · refine holdsProperties_fold LinkKey.mem_all LinkKey.text_injective
      ?_ ?_ rfl hfold
    · rintro link p _ k ⟨⟩ hk
      unfold Link.assign
      rw [hk]
      cases k <;> rfl
    · rintro link p _ ⟨⟩ hk
      unfold Link.assign
      rw [hk]

/-- A license keeps its payload as it is written, and all of its properties. -/
structure License.Holds (license : License) (payload : Text)
    (props : List Property) : Prop where
  payload : license.payload = payload
  properties : ∀ key, license.properties.lookup key =
    (lastValue props key).map fun value => ⟨key, value⟩

theorem License.holds_foldl (payload : Text) (props : List Property) :
    (props.foldl License.assign { payload := payload }).Holds payload
      props := by
  have hfold := Outcome.fold_pure (ε := ActionError) License.assign
    { payload := payload } props
  constructor
  · have htracks : Tracks (fun license p => .ok (License.assign license p)) []
        License.payload (fun old _ => old) := by
      rintro license p _ ⟨⟩
      exact (ite_self _).symm
    rw [htracks.fold_values hfold]
    exact List.foldl_fixed _
  · intro key
    have htracks : Tracks (fun license p => .ok (License.assign license p)) key
        (fun license => license.properties.lookup key)
        (fun _ v => some ⟨key, v⟩) := by
      rintro license p _ ⟨⟩
      exact lookup_insert_property license.properties p key
    exact htracks.fold_entry hfold (Finmap.lookup_empty key)

/-! ## Files -/

/-- The entry for a payload that is a path. -/
def originalPath (payload : Text) : List Property :=
  if '/' ∈ payload ∧ '=' ∉ payload then
    [{ key := "original-path".toList
       value := removeChars ['\"', '\\'] payload }]
  else []

structure File.Holds (file : File) (payload : Text) (props : List Property) :
    Prop where
  fields : ∀ k : FileKey, k.isText = true →
    file.field k = (lastValue props k.text).getD []
  facets : HoldsFacets file.facets props
  properties : file.properties = originalPath payload ++
    props.filter fun p => isOther FileKey.all FileKey.text p.key
  digests : ∀ p, file.payload = some p →
    p.additionalIdentifiers.map .ok = digestsOf props

theorem File.tracks_lookup (name : Text) :
    Tracks File.assign (facetKey name)
      (fun state => state.1.facets.lookup name)
      (fun _ v => some ⟨name, v⟩) := by
  have hkey : ofText? FileKey.all FileKey.text (facetKey name) = none :=
    ofText?_facetKey (forall_mem_of_all (by decide)) name
  apply tracks_rest hkey
  · intro state p state' k hstep hk
    rw [(File.assign_of_key hk hstep).1]
  · intro state p state' hstep hk
    rw [(File.assign_of_none hk hstep).2.2.2.1]
    exact lookup_addFacetIf state.1.facets p name

theorem File.collects_properties :
    Collects File.assign (isOther FileKey.all FileKey.text)
      (fun state => state.1.properties) id := by
  intro state p state' hstep
  unfold isOther
  dsimp only
  cases hk : ofText? FileKey.all FileKey.text p.key with
  | some k =>
      rw [(File.assign_of_key hk hstep).2.1]
      simp
  | none =>
      rw [(File.assign_of_none hk hstep).2.2.2.2]
      cases isFacet p.key <;> simp

/-- What the loop over the properties of a file starts from. -/
theorem File.takePayload_eq_ok {act : Action} {file : File} {p : Payload}
    {props : List Property}
    (h : File.takePayload act = .ok (file, p, props)) :
    file = { properties := originalPath act.payloadString } ∧
      p.additionalIdentifiers = act.payload.additionalIdentifiers ∧
      props = act.fileEntries := by
  unfold File.takePayload at h
  unfold originalPath Action.fileEntries
  by_cases hempty : act.payloadString = []
  · rw [if_pos hempty] at h
    cases h
    simp [hempty]
  · rw [if_neg hempty] at h
    by_cases hslash : '/' ∈ act.payloadString
    · rw [if_pos hslash] at h
      by_cases hequals : '=' ∈ act.payloadString
      · rw [if_pos hequals, splitProperty_eq] at h
        cases h
        simp [hslash, hequals]
      · rw [if_neg hequals] at h
        cases h
        simp [hslash, hequals]
    · rw [if_neg hslash] at h
      obtain ⟨digest, -, hstate⟩ := Outcome.bind_eq_ok_iff.mp h
      cases hstate
      simp [hslash]

theorem File.holdsFacets_fromAction {act : Action} {file : File}
    (h : File.fromAction act = .ok file) :
    HoldsFacets file.facets act.fileEntries := by
  obtain ⟨start, p, props, final, q, htake, hfold, rfl⟩ :=
    File.fromAction_eq_ok h
  obtain ⟨rfl, -, rfl⟩ := File.takePayload_eq_ok htake
  intro name
  exact (File.tracks_lookup name).fold_entry hfold rfl

theorem File.holds_fromAction {act : Action} {file : File}
    (hpayload : act.payload = {}) (h : File.fromAction act = .ok file) :
    file.Holds act.payloadString act.fileEntries := by
  have hfacets := File.holdsFacets_fromAction h
  obtain ⟨start, p, props, final, q, htake, hfold, rfl⟩ :=
    File.fromAction_eq_ok h
  obtain ⟨rfl, hidentifiers, rfl⟩ := File.takePayload_eq_ok htake
  refine ⟨?_, ?_, ?_, ?_⟩
  · intro k htext
    have hlast := (File.tracks_field htext).fold_last hfold
      (by cases k <;> rfl)
    rw [← hlast]
    cases k <;> rfl
  · exact hfacets
  · have hproperties := File.collects_properties.fold hfold
    rwa [List.map_id] at hproperties
  · intro payload hsome
    obtain ⟨digests, hdigests, rfl⟩ := File.fold_payload hfold
    dsimp only at hsome
    split_ifs at hsome
    cases hsome
    rw [hdigests, hidentifiers, hpayload]
    rfl

/-! ## All conversions -/

/-- What the typed actions hold, for an action as `parse_string` builds it.
Only files can fail to be converted, and only on a digest. -/
theorem fromAction_holds (act : Action) (hpayload : act.payload = {}) :
    (∃ dir, Dir.fromAction act = .ok dir ∧ dir.Holds act.entries) ∧
    (∃ dep, Dependency.fromAction act = .ok dep ∧ dep.Holds act.entries) ∧
    (∃ attr, Attr.fromAction act = .ok attr ∧ attr.Holds act.entries) ∧
    (∃ link, Link.fromAction act = .ok link ∧ link.Holds act.entries) ∧
    (∃ license, License.fromAction act = .ok license ∧
      license.Holds act.payloadString act.properties) ∧
    ((act.FileAccepted ∧ ∃ file, File.fromAction act = .ok file ∧
        file.Holds act.payloadString act.fileEntries) ∨
      (¬ act.FileAccepted ∧
        File.fromAction act = .panic unwrapMessage)) := by
  unfold Dir.fromAction Dependency.fromAction Attr.fromAction Link.fromAction
  rw [act.propertiesWithPayload_eq]
  refine ⟨⟨_, rfl, Dir.holds_foldl act.entries⟩,
    ⟨_, rfl, Dependency.holds_foldl act.entries⟩,
    ⟨_, rfl, Attr.holds_foldl act.entries⟩,
    ⟨_, rfl, Link.holds_foldl act.entries⟩,
    ⟨_, rfl, License.holds_foldl act.payloadString act.properties⟩, ?_⟩
  rcases File.fromAction_ok_or_panic act with
    ⟨haccepted, file, hok⟩ | ⟨hnot, hpanic⟩
  · exact .inl ⟨haccepted, file, hok, File.holds_fromAction hpayload hok⟩
  · exact .inr ⟨hnot, hpanic⟩

/-- The payload comes last although it is written first, and a facet can have
dots in its name. -/
theorem fromAction_holds_repeated :
    ∃ file, File.fromAction
        { kind := .file
          payloadString := "path=a/b".toList
          properties := [⟨"path".toList, "c".toList⟩,
            ⟨"facet.doc.man".toList, "false".toList⟩,
            ⟨"facet.doc.man".toList, "true".toList⟩] } = .ok file ∧
      file.path = "a/b".toList ∧
      file.facets.lookup "doc.man".toList =
        some ⟨"doc.man".toList, "true".toList⟩ := by
  obtain ⟨-, -, -, -, -, ⟨-, file, hok, hholds⟩ | ⟨-, hpanic⟩⟩ :=
    fromAction_holds
      { kind := .file
        payloadString := "path=a/b".toList
        properties := [⟨"path".toList, "c".toList⟩,
          ⟨"facet.doc.man".toList, "false".toList⟩,
          ⟨"facet.doc.man".toList, "true".toList⟩] } rfl
  · refine ⟨file, hok, (hholds.fields .path rfl).trans (by decide +kernel),
      (hholds.facets "doc.man".toList).trans (by decide +kernel)⟩
  · exact absurd hpanic (by decide +kernel)

end Ips
