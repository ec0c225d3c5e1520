import Ips.ActionConversions

/-!
# What a typed action tells about its properties

Two actions with the same typed form were made from the same values under
every key that the conversion keeps as it is written.
-/

namespace Ips

/-! ## What a conversion stores under a key -/

/-- The value of the first property with a key. -/
def valueOf (props : List Property) (key : Text) : Option Text :=
  (props.find? fun p => p.key = key).map Property.value

theorem valueOf_cons (p : Property) (props : List Property) (key : Text) :
    valueOf (p :: props) key =
      if p.key = key then some p.value else valueOf props key := by
  unfold valueOf
  by_cases h : p.key = key
  · simp [h]
  · simp [h]

theorem valueOf_append_singleton (props : List Property) (p : Property)
    (key : Text) :
    valueOf (props ++ [p]) key =
      if p.key = key then (valueOf props key).or (some p.value)
      else valueOf props key := by
  induction props with
  | nil => simp [valueOf]
  | cons q props ih =>
      rw [List.cons_append, valueOf_cons, valueOf_cons, ih]
      by_cases hq : q.key = key
      · simp [hq]
      · simp [hq]

theorem valueOf_eq_some_iff {props : List Property}
    (hnodup : (props.map Property.key).Nodup) (p : Property) :
    valueOf props p.key = some p.value ↔ p ∈ props := by
  induction props with
  | nil => simp [valueOf]
  | cons q props ih =>
      rw [List.map_cons, List.nodup_cons] at hnodup
      rw [valueOf_cons, List.mem_cons]
      by_cases hkey : q.key = p.key
      · have hnot : p ∉ props := by
          intro hmem
          exact hnodup.1 (hkey ▸ List.mem_map_of_mem hmem)
        rw [if_pos hkey]
        constructor
        · intro h
          left
          cases p
          cases q
          simp_all
        · intro h
          rcases h with rfl | h
          · rfl
          · exact absurd h hnot
      · rw [if_neg hkey, ih hnodup.2]
        constructor
        · exact .inr
        · rintro (rfl | h)
          · exact absurd rfl hkey
          · exact h

/-- The values of all properties with a key, in order. -/
def valuesOf (props : List Property) (key : Text) : List Text :=
  (props.filter fun p => p.key = key).map Property.value

theorem valuesOf_cons (p : Property) (props : List Property) (key : Text) :
    valuesOf (p :: props) key =
      if p.key = key then p.value :: valuesOf props key
      else valuesOf props key := by
  unfold valuesOf
  by_cases h : p.key = key
  · simp [h]
  · simp [h]

theorem valuesOf_eq_nil {props : List Property} {key : Text}
    (h : key ∉ props.map Property.key) : valuesOf props key = [] := by
  unfold valuesOf
  rw [List.map_eq_nil_iff, List.filter_eq_nil_iff]
  intro p hp
  have hkey : p.key ≠ key := fun heq => h (heq ▸ List.mem_map_of_mem hp)
  simpa using hkey

theorem valuesOf_of_nodup {props : List Property}
    (hnodup : (props.map Property.key).Nodup) (key : Text) :
    valuesOf props key = (valueOf props key).toList := by
  induction props with
  | nil => rfl
  | cons p props ih =>
      rw [List.map_cons, List.nodup_cons] at hnodup
      rw [valuesOf_cons, valueOf_cons]
      by_cases hkey : p.key = key
      · rw [if_pos hkey, if_pos hkey,
          valuesOf_eq_nil (hkey ▸ hnodup.1)]
        rfl
      · rw [if_neg hkey, if_neg hkey]
        exact ih hnodup.2

/-- The properties of two lists agree on the kept keys when their values do. -/
theorem perm_of_valueOf {props props' : List Property} (kept : Text → Bool)
    (hnodup : (props.map Property.key).Nodup)
    (hnodup' : (props'.map Property.key).Nodup)
    (h : ∀ key, kept key = true → valueOf props key = valueOf props' key) :
    (props.filter fun p => kept p.key).Perm
      (props'.filter fun p => kept p.key) := by
  apply (List.perm_ext_iff_of_nodup
    ((List.Nodup.of_map _ hnodup).filter _)
    ((List.Nodup.of_map _ hnodup').filter _)).mpr
  intro p
  rw [List.mem_filter, List.mem_filter]
  apply and_congr_left
  intro hkept
  rw [← valueOf_eq_some_iff hnodup, ← valueOf_eq_some_iff hnodup',
    h p.key hkept]

/-- Property lists with pairwise distinct keys and non-empty values. -/
structure WellFormedProperties (props : List Property) : Prop where
  keys_nodup : (props.map Property.key).Nodup
  values_ne_nil : ∀ p ∈ props, p.value ≠ []

theorem WellFormedProperties.value_ne_nil {props : List Property}
    (hprops : WellFormedProperties props) {key v : Text}
    (hv : valueOf props key = some v) : v ≠ [] := by
  unfold valueOf at hv
  rw [Option.map_eq_some_iff] at hv
  rcases hv with ⟨p, hfind, rfl⟩
  exact hprops.values_ne_nil p (List.mem_of_find?_eq_some hfind)

/-- A loop over properties in which only the properties with one key change a
part of the state. -/
def Tracks {T V : Type} (assign : T → Property → Outcome ActionError T)
    (key : Text) (get : T → V) (read : V → Text → V) : Prop :=
  ∀ t p t', assign t p = .ok t' →
    get t' = if p.key = key then read (get t) p.value else get t

section Tracks

variable {T V : Type} {assign : T → Property → Outcome ActionError T}
  {key : Text} {get : T → V} {read : V → Text → V}

/-- The part of the state has seen every value under the key, in order. -/
theorem Tracks.fold_values (htracks : Tracks assign key get read)
    {props : List Property} {t t' : T}
    (hfold : Outcome.fold assign t props = .ok t') :
    get t' = (valuesOf props key).foldl read (get t) := by
  induction props generalizing t with
  | nil =>
      cases hfold
      rfl
  | cons p props ih =>
      rw [Outcome.fold_cons, Outcome.bind_eq_ok_iff] at hfold
      obtain ⟨t₁, hstep, hrest⟩ := hfold
      rw [ih hrest, htracks t p t₁ hstep, valuesOf_cons]
      split_ifs
      · rfl
      · rfl

theorem Tracks.fold (htracks : Tracks assign key get read)
    {props : List Property} {t t' : T}
    (hfold : Outcome.fold assign t props = .ok t')
    (hnodup : (props.map Property.key).Nodup) :
    get t' = ((valueOf props key).map (read (get t))).getD (get t) := by
  rw [htracks.fold_values hfold, valuesOf_of_nodup hnodup]
  cases valueOf props key with
  | none => rfl
  | some v => rfl

/-- Two loops that leave the same part behind have read the same value, if
that part shows which value was read, and whether one was. -/
theorem Tracks.valueOf_eq (htracks : Tracks assign key get read)
    {props props' : List Property} {t t' u u' : T}
    (hfold : Outcome.fold assign t props = .ok t')
    (hfold' : Outcome.fold assign u props' = .ok u')
    (hstart : get t = get u) (hend : get t' = get u')
    (hprops : WellFormedProperties props)
    (hprops' : WellFormedProperties props')
    (hinj : ∀ v v', read (get u) v = read (get u) v' → v = v')
    (hread : ∀ v, v ≠ [] → read (get u) v ≠ get u) :
    valueOf props key = valueOf props' key := by
  rw [htracks.fold hfold hprops.keys_nodup,
    htracks.fold hfold' hprops'.keys_nodup, hstart] at hend
  cases hv : valueOf props key with
  | none =>
      cases hv' : valueOf props' key with
      | none => rfl
      | some v' =>
          rw [hv, hv'] at hend
          exact absurd hend.symm (hread v' (hprops'.value_ne_nil hv'))
  | some v =>
      cases hv' : valueOf props' key with
      | none =>
          rw [hv, hv'] at hend
          exact absurd hend (hread v (hprops.value_ne_nil hv))
      | some v' =>
          rw [hv, hv'] at hend
          rw [hinj v v' hend]

end Tracks

/-! ## Facets -/

def facetValue (facets : HashMap Facet) (key : Text) : Option Text :=
  (facets.lookup (getFacetKey key)).map Facet.value

theorem getFacetKey_append (name : Text) :
    getFacetKey ("facet.".toList ++ name) = name := by
  simp [getFacetKey]

def facetKey (name : Text) : Text := "facet.".toList ++ name

theorem isFacet_facetKey (name : Text) : isFacet (facetKey name) = true :=
  List.isPrefixOf_iff_prefix.mpr (List.prefix_append _ name)

/-- Facets are stored under the name behind the first dot, and no two keys have
the same name. -/
theorem lookup_addFacetIf (facets : HashMap Facet) (p : Property)
    (name : Text) :
    (if isFacet p.key then
      (addFacet facets (Facet.fromKeyValue p.key p.value)).2
      else facets).lookup name =
        if p.key = facetKey name then some ⟨name, p.value⟩
        else facets.lookup name := by
  by_cases hfacet : isFacet p.key = true
  · obtain ⟨other, hother⟩ := List.isPrefixOf_iff_prefix.mp hfacet
    have hname : getFacetKey p.key = other := by
      rw [← hother]
      exact getFacetKey_append other
    rw [if_pos hfacet]
    unfold addFacet Facet.fromKeyValue
    dsimp only
    rw [hname]
    by_cases heq : other = name
    · have hkey : p.key = facetKey name := by
        rw [← hother, heq]
        rfl
      rw [if_pos hkey, heq, Finmap.lookup_insert]
    · have hkey : p.key ≠ facetKey name := by
        intro h
        rw [← hother] at h
        exact heq (List.append_cancel_left h)
      rw [if_neg hkey, Finmap.lookup_insert_of_ne _ (fun h => heq h.symm)]
  · have hkey : p.key ≠ facetKey name :=
      fun h => hfacet (h ▸ isFacet_facetKey name)
    rw [if_neg hfacet, if_neg hkey]

theorem facetValue_addFacetIf (facets : HashMap Facet) (p : Property)
    {key : Text} (hkey : isFacet key = true) :
    facetValue (if isFacet p.key then
      (addFacet facets (Facet.fromKeyValue p.key p.value)).2
      else facets) key =
        if p.key = key then some p.value else facetValue facets key := by
  obtain ⟨name, rfl⟩ := List.isPrefixOf_iff_prefix.mp hkey
  unfold facetValue
  rw [getFacetKey_append, lookup_addFacetIf]
  change Option.map Facet.value (if p.key = facetKey name then _ else _) =
    if p.key = facetKey name then _ else _
  split_ifs
  · rfl
  · rfl

theorem valueOf_appendUnlessFacet (props : List Property) (p : Property)
    {key : Text} (hkey : isFacet key ≠ true) :
    valueOf (if isFacet p.key then props else props ++ [p]) key =
      if p.key = key then (valueOf props key).or (some p.value)
      else valueOf props key := by
  by_cases hp : isFacet p.key = true
  · have hne : p.key ≠ key := fun h => hkey (h ▸ hp)
    rw [if_pos hp, if_neg hne]
  · rw [if_neg hp, valueOf_append_singleton]

/-! ## Keys with a field of their own -/

section Keys

variable {K T V : Type} {all : List K} {text : K → Text}
  {assign : T → Property → Outcome ActionError T}
  {get : T → V} {read : V → Text → V}

theorem tracks_key [DecidableEq K] (hall : ∀ k, k ∈ all)
    (hinj : Function.Injective text) (k : K)
    (hnamed : ∀ t p t' k', assign t p = .ok t' →
      ofText? all text p.key = some k' →
      get t' = if k' = k then read (get t) p.value else get t)
    (hrest : ∀ t p t', assign t p = .ok t' →
      ofText? all text p.key = none → get t' = get t) :
    Tracks assign (text k) get read := by
  intro t p t' hstep
  cases hp : ofText? all text p.key with
  | none =>
      have hne : p.key ≠ text k := by
        intro h
        rw [(ofText?_eq_some_iff hall hinj).mpr h.symm] at hp
        cases hp
      rw [if_neg hne]
      exact hrest t p t' hstep hp
  | some k' =>
      have hkey : text k' = p.key := (ofText?_eq_some_iff hall hinj).mp hp
      rw [hnamed t p t' k' hstep hp, ← hkey]
      simp only [hinj.eq_iff]

theorem tracks_rest {key : Text} (hkey : ofText? all text key = none)
    (hnamed : ∀ t p t' k, assign t p = .ok t' →
      ofText? all text p.key = some k → get t' = get t)
    (hrest : ∀ t p t', assign t p = .ok t' →
      ofText? all text p.key = none →
      get t' = if p.key = key then read (get t) p.value else get t) :
    Tracks assign key get read := by
  intro t p t' hstep
  cases hp : ofText? all text p.key with
  | none => exact hrest t p t' hstep hp
  | some k =>
      have hne : p.key ≠ key := by
        intro h
        rw [h, hkey] at hp
        cases hp
      rw [if_neg hne]
      exact hnamed t p t' k hstep hp

end Keys

/-! ## Directories -/

theorem DirKey.mem_all (k : DirKey) : k ∈ DirKey.all := by
  cases k <;> decide

theorem DirKey.text_injective : Function.Injective DirKey.text := by
  intro k k'
  cases k <;> cases k' <;> decide

def Dir.field (dir : Dir) : DirKey → Text
  | .path => dir.path
  | .owner => dir.owner
  | .group => dir.group
  | .mode => dir.mode
  | .revertTag => dir.revertTag
  | .salvageFrom => dir.salvageFrom

theorem Dir.assign_of_key {dir : Dir} {p : Property} {k : DirKey}
    (hk : ofText? DirKey.all DirKey.text p.key = some k) :
    (Dir.assign dir p).facets = dir.facets ∧
      ∀ k', (Dir.assign dir p).field k' =
        if k = k' then p.value else dir.field k' := by
  unfold Dir.assign
  rw [hk]
  constructor
  · cases k <;> rfl
  · intro k'
    cases k <;> cases k' <;> rfl

theorem Dir.assign_of_none {dir : Dir} {p : Property}
    (hk : ofText? DirKey.all DirKey.text p.key = none) :
    (∀ k', (Dir.assign dir p).field k' = dir.field k') ∧
      (Dir.assign dir p).facets =
        if isFacet p.key then
          (addFacet dir.facets (Facet.fromKeyValue p.key p.value)).2
        else dir.facets := by
  unfold Dir.assign
  rw [hk]
  dsimp only
  by_cases hfacet : isFacet p.key = true
  · rw [if_pos hfacet, if_pos hfacet]
    constructor
    · intro k'
      cases k' <;> rfl
    · rfl
  · rw [if_neg hfacet, if_neg hfacet]
    exact ⟨fun _ => rfl, rfl⟩

theorem Dir.tracks_field (k : DirKey) :
    Tracks (fun dir p => .ok (Dir.assign dir p)) k.text (Dir.field · k)
      (fun _ v => v) := by
  apply tracks_key DirKey.mem_all DirKey.text_injective
  · rintro dir p _ k' ⟨⟩ hk
    exact (Dir.assign_of_key hk).2 k
  · rintro dir p _ ⟨⟩ hk
    exact (Dir.assign_of_none hk).1 k

theorem Dir.tracks_facet {key : Text} (hfacet : isFacet key = true)
    (hkey : ofText? DirKey.all DirKey.text key = none) :
    Tracks (fun dir p => .ok (Dir.assign dir p)) key
      (fun dir => facetValue dir.facets key) (fun _ v => some v) := by
  apply tracks_rest hkey
  · rintro dir p _ k' ⟨⟩ hk
    exact congrArg (facetValue · key) (Dir.assign_of_key hk).1
  · rintro dir p _ ⟨⟩ hk
    rw [(Dir.assign_of_none hk).2]
    exact facetValue_addFacetIf dir.facets p hfacet

def Dir.keeps (key : Text) : Bool :=
  (ofText? DirKey.all DirKey.text key).isSome || isFacet key

theorem Dir.valueOf_eq {props props' : List Property}
    (hprops : WellFormedProperties props)
    (hprops' : WellFormedProperties props')
    (h : props.foldl Dir.assign {} = props'.foldl Dir.assign {})
    {key : Text} (hkeeps : Dir.keeps key = true) :
    valueOf props key = valueOf props' key := by
  cases hk : ofText? DirKey.all DirKey.text key with
  | none =>
      have hfacet : isFacet key = true := by
        simpa [Dir.keeps, hk] using hkeeps
      exact (Dir.tracks_facet hfacet hk).valueOf_eq
        (Outcome.fold_pure Dir.assign {} props)
        (Outcome.fold_pure Dir.assign {} props') rfl (by rw [h]) hprops hprops'
        (by simp) (by simp [facetValue])
  | some k =>
      rw [← (ofText?_eq_some_iff DirKey.mem_all DirKey.text_injective).mp hk]
      exact (Dir.tracks_field k).valueOf_eq
        (Outcome.fold_pure Dir.assign {} props)
        (Outcome.fold_pure Dir.assign {} props') rfl (by rw [h]) hprops hprops'
        (by simp) (by cases k <;> simp [Dir.field])

/-! ## Dependencies -/

theorem DependencyKey.mem_all (k : DependencyKey) : k ∈ DependencyKey.all := by
  cases k <;> decide

theorem DependencyKey.text_injective :
    Function.Injective DependencyKey.text := by
  intro k k'
  cases k <;> cases k' <;> decide

def Dependency.field (dep : Dependency) : DependencyKey → Text
  | .fmri => dep.fmri
  | .type => dep.dependencyType
  | .predicate => dep.predicate
  | .rootImage => dep.rootImage

theorem Dependency.assign_of_key {dep : Dependency} {p : Property}
    {k : DependencyKey}
    (hk : ofText? DependencyKey.all DependencyKey.text p.key = some k) :
    (Dependency.assign dep p).facets = dep.facets ∧
      (Dependency.assign dep p).optional = dep.optional ∧
      ∀ k', (Dependency.assign dep p).field k' =
        if k = k' then p.value else dep.field k' := by
  unfold Dependency.assign
  rw [hk]
  refine ⟨?_, ?_, ?_⟩
  · cases k <;> rfl
  · cases k <;> rfl
  · intro k'
    cases k <;> cases k' <;> rfl

theorem Dependency.assign_of_none {dep : Dependency} {p : Property}
    (hk : ofText? DependencyKey.all DependencyKey.text p.key = none) :
    (∀ k', (Dependency.assign dep p).field k' = dep.field k') ∧
      ((Dependency.assign dep p).facets =
        if isFacet p.key then
          (addFacet dep.facets (Facet.fromKeyValue p.key p.value)).2
        else dep.facets) ∧
      (Dependency.assign dep p).optional =
        if isFacet p.key then dep.optional else dep.optional ++ [p] := by
  unfold Dependency.assign
  rw [hk]
  dsimp only
  by_cases hfacet : isFacet p.key = true
  · rw [if_pos hfacet, if_pos hfacet, if_pos hfacet]
    refine ⟨?_, rfl, rfl⟩
    intro k'
    cases k' <;> rfl
  · rw [if_neg hfacet, if_neg hfacet, if_neg hfacet]
    refine ⟨?_, rfl, rfl⟩
    intro k'
    cases k' <;> rfl

theorem Dependency.tracks_field (k : DependencyKey) :
    Tracks (fun dep p => .ok (Dependency.assign dep p)) k.text
      (Dependency.field · k) (fun _ v => v) := by
  apply tracks_key DependencyKey.mem_all DependencyKey.text_injective
  · rintro dep p _ k' ⟨⟩ hk
    exact (Dependency.assign_of_key hk).2.2 k
  · rintro dep p _ ⟨⟩ hk
    exact (Dependency.assign_of_none hk).1 k

theorem Dependency.tracks_facet {key : Text} (hfacet : isFacet key = true)
    (hkey : ofText? DependencyKey.all DependencyKey.text key = none) :
    Tracks (fun dep p => .ok (Dependency.assign dep p)) key
      (fun dep => facetValue dep.facets key) (fun _ v => some v) := by
  apply tracks_rest hkey
  · rintro dep p _ k' ⟨⟩ hk
    exact congrArg (facetValue · key) (Dependency.assign_of_key hk).1
  · rintro dep p _ ⟨⟩ hk
    rw [(Dependency.assign_of_none hk).2.1]
    exact facetValue_addFacetIf dep.facets p hfacet

theorem Dependency.tracks_optional {key : Text} (hfacet : isFacet key ≠ true)
    (hkey : ofText? DependencyKey.all DependencyKey.text key = none) :
    Tracks (fun dep p => .ok (Dependency.assign dep p)) key
      (fun dep => valueOf dep.optional key) (fun old v => old.or (some v)) := by
  apply tracks_rest hkey
  · rintro dep p _ k' ⟨⟩ hk
    exact congrArg (valueOf · key) (Dependency.assign_of_key hk).2.1
  · rintro dep p _ ⟨⟩ hk
    rw [(Dependency.assign_of_none hk).2.2]
    exact valueOf_appendUnlessFacet dep.optional p hfacet

theorem Dependency.valueOf_eq {props props' : List Property}
    (hprops : WellFormedProperties props)
    (hprops' : WellFormedProperties props')
    (h : props.foldl Dependency.assign {} =
      props'.foldl Dependency.assign {}) (key : Text) :
    valueOf props key = valueOf props' key := by
  have hfold := Outcome.fold_pure (ε := ActionError) Dependency.assign {} props
  have hfold' :=
    Outcome.fold_pure (ε := ActionError) Dependency.assign {} props'
  cases hk : ofText? DependencyKey.all DependencyKey.text key with
  | none =>
      by_cases hfacet : isFacet key = true
      · exact (Dependency.tracks_facet hfacet hk).valueOf_eq hfold hfold'
          rfl (by rw [h]) hprops hprops' (by simp) (by simp [facetValue])
      · exact (Dependency.tracks_optional hfacet hk).valueOf_eq hfold hfold'
          rfl (by rw [h]) hprops hprops' (by simp [valueOf]) (by simp [valueOf])
  | some k =>
      rw [← (ofText?_eq_some_iff DependencyKey.mem_all
        DependencyKey.text_injective).mp hk]
      exact (Dependency.tracks_field k).valueOf_eq hfold hfold'
        rfl (by rw [h]) hprops hprops' (by simp)
        (by cases k <;> simp [Dependency.field])

/-! ## Attributes, licenses and links -/

def propertyValue (properties : HashMap Property) (key : Text) : Option Text :=
  (properties.lookup key).map Property.value

theorem propertyValue_insert (properties : HashMap Property) (p : Property)
    (key : Text) :
    propertyValue (properties.insert p.key p) key =
      if p.key = key then some p.value else propertyValue properties key := by
  unfold propertyValue
  by_cases h : p.key = key
  · rw [if_pos h, ← h, Finmap.lookup_insert]
    rfl
  · rw [if_neg h, Finmap.lookup_insert_of_ne _ (fun heq => h heq.symm)]

theorem License.valueOf_eq {props props' : List Property} {payload : Text}
    (hprops : WellFormedProperties props)
    (hprops' : WellFormedProperties props')
    (h : props.foldl License.assign { payload := payload } =
      props'.foldl License.assign { payload := payload }) (key : Text) :
    valueOf props key = valueOf props' key := by
  have htracks : Tracks (fun license p => .ok (License.assign license p)) key
      (fun license => propertyValue license.properties key)
      (fun _ v => some v) := by
    rintro license p _ ⟨⟩
    exact propertyValue_insert license.properties p key
  exact htracks.valueOf_eq (Outcome.fold_pure License.assign _ props)
    (Outcome.fold_pure License.assign _ props') rfl (by rw [h]) hprops hprops'
    (by simp) (by simp [propertyValue])

theorem LinkKey.mem_all (k : LinkKey) : k ∈ LinkKey.all := by
  cases k <;> decide

theorem LinkKey.text_injective : Function.Injective LinkKey.text := by
  intro k k'
  cases k <;> cases k' <;> decide

def Link.field (link : Link) : LinkKey → Text
  | .path => link.path
  | .target => link.target

theorem Link.tracks_field (k : LinkKey) :
    Tracks (fun link p => .ok (Link.assign link p)) k.text (Link.field · k)
      (fun _ v => v) := by
  apply tracks_key LinkKey.mem_all LinkKey.text_injective
  · rintro link p _ k' ⟨⟩ hk
    unfold Link.assign
    rw [hk]
    cases k' <;> cases k <;> rfl
  · rintro link p _ ⟨⟩ hk
    unfold Link.assign
    rw [hk]
    cases k <;> rfl

theorem Link.tracks_properties {key : Text}
    (hkey : ofText? LinkKey.all LinkKey.text key = none) :
    Tracks (fun link p => .ok (Link.assign link p)) key
      (fun link => propertyValue link.properties key) (fun _ v => some v) := by
  apply tracks_rest hkey
  · rintro link p _ k' ⟨⟩ hk
    unfold Link.assign
    rw [hk]
    cases k' <;> rfl
  · rintro link p _ ⟨⟩ hk
    unfold Link.assign
    rw [hk]
    exact propertyValue_insert link.properties p key

theorem Link.valueOf_eq {props props' : List Property}
    (hprops : WellFormedProperties props)
    (hprops' : WellFormedProperties props')
    (h : props.foldl Link.assign {} = props'.foldl Link.assign {})
    (key : Text) : valueOf props key = valueOf props' key := by
  have hfold := Outcome.fold_pure (ε := ActionError) Link.assign {} props
  have hfold' := Outcome.fold_pure (ε := ActionError) Link.assign {} props'
  cases hk : ofText? LinkKey.all LinkKey.text key with
  | none =>
      exact (Link.tracks_properties hk).valueOf_eq hfold hfold' rfl (by rw [h])
        hprops hprops' (by simp) (by simp [propertyValue])
  | some k =>
      rw [← (ofText?_eq_some_iff LinkKey.mem_all LinkKey.text_injective).mp hk]
      exact (Link.tracks_field k).valueOf_eq hfold hfold' rfl (by rw [h])
        hprops hprops' (by simp) (by cases k <;> simp [Link.field])

theorem AttrKey.mem_all (k : AttrKey) : k ∈ AttrKey.all := by
  cases k <;> decide

theorem AttrKey.text_injective : Function.Injective AttrKey.text := by
  intro k k'
  cases k <;> cases k' <;> decide

theorem Attr.tracks_name :
    Tracks (fun attr p => .ok (Attr.assign attr p)) AttrKey.name.text Attr.key
      (fun _ v => v) := by
  apply tracks_key AttrKey.mem_all AttrKey.text_injective
  · rintro attr p _ k ⟨⟩ hk
    unfold Attr.assign
    rw [hk]
    cases k <;> rfl
  · rintro attr p _ ⟨⟩ hk
    unfold Attr.assign
    rw [hk]

theorem Attr.tracks_value :
    Tracks (fun attr p => .ok (Attr.assign attr p)) AttrKey.value.text
      Attr.values (fun old v => old ++ [v]) := by
  apply tracks_key AttrKey.mem_all AttrKey.text_injective
  · rintro attr p _ k ⟨⟩ hk
    unfold Attr.assign
    rw [hk]
    cases k <;> rfl
  · rintro attr p _ ⟨⟩ hk
    unfold Attr.assign
    rw [hk]

theorem Attr.tracks_properties {key : Text}
    (hkey : ofText? AttrKey.all AttrKey.text key = none) :
    Tracks (fun attr p => .ok (Attr.assign attr p)) key
      (fun attr => propertyValue attr.properties key) (fun _ v => some v) := by
  apply tracks_rest hkey
  · rintro attr p _ k ⟨⟩ hk
    unfold Attr.assign
    rw [hk]
    cases k <;> rfl
  · rintro attr p _ ⟨⟩ hk
    unfold Attr.assign
    rw [hk]
    exact propertyValue_insert attr.properties p key

theorem Attr.valueOf_eq {props props' : List Property}
    (hprops : WellFormedProperties props)
    (hprops' : WellFormedProperties props')
    (h : props.foldl Attr.assign {} = props'.foldl Attr.assign {})
    (key : Text) : valueOf props key = valueOf props' key := by
  have hfold := Outcome.fold_pure (ε := ActionError) Attr.assign {} props
  have hfold' := Outcome.fold_pure (ε := ActionError) Attr.assign {} props'
  cases hk : ofText? AttrKey.all AttrKey.text key with
  | none =>
      exact (Attr.tracks_properties hk).valueOf_eq hfold hfold' rfl (by rw [h])
        hprops hprops' (by simp) (by simp [propertyValue])
  | some k =>
      rw [← (ofText?_eq_some_iff AttrKey.mem_all AttrKey.text_injective).mp hk]
      cases k with
      | name =>
          exact Attr.tracks_name.valueOf_eq hfold hfold' rfl (by rw [h])
            hprops hprops' (by simp) (by simp)
      | value =>
          exact Attr.tracks_value.valueOf_eq hfold hfold' rfl (by rw [h])
            hprops hprops' (by simp) (by simp)

/-! ## Files -/

def FileKey.isText : FileKey → Bool
  | .overlay | .preserve | .chash | .contentHash => false
  | _ => true

/-- The fields that hold a value as it is written. -/
def File.field (file : File) : FileKey → Text
  | .path => file.path
  | .owner => file.owner
  | .group => file.group
  | .mode => file.mode
  | .revertTag => file.revertTag
  | .originalName => file.originalName
  | .sysAttr => file.sysAttr
  | _ => []

theorem File.addDigest_eq_ok {state state' : File × Payload} {value : Text}
    (h : File.addDigest state value = .ok state') :
    ∃ digest, Digest.fromStr value = .ok digest ∧
      state' = (state.1, { state.2 with
        additionalIdentifiers :=
          state.2.additionalIdentifiers ++ [digest] }) := by
  unfold File.addDigest at h
  cases hdigest : Digest.fromStr value with
  | ok digest =>
      rw [hdigest] at h
      cases h
      exact ⟨digest, rfl, rfl⟩
  | error e =>
      rw [hdigest] at h
      cases h

theorem File.assign_of_key {file file' : File} {payload payload' : Payload}
    {p : Property} {k : FileKey}
    (hk : ofText? FileKey.all FileKey.text p.key = some k)
    (hstep : File.assign (file, payload) p = .ok (file', payload')) :
    file'.facets = file.facets ∧ file'.properties = file.properties ∧
      (∀ k', k'.isText = true → file'.field k' =
        if k = k' then p.value else file.field k') ∧
      (file'.overlay =
        if k = .overlay then boolOrFalse p.value else file.overlay) ∧
      file'.preserve =
        if k = .preserve then boolOrFalse p.value else file.preserve := by
  unfold File.assign at hstep
  rw [hk] at hstep
  cases k
  case chash =>
    rcases File.addDigest_eq_ok hstep with ⟨digest, -, hstate⟩
    cases hstate
    refine ⟨rfl, rfl, ?_, rfl, rfl⟩
    intro k' htext
    cases k' <;> first | rfl | cases htext
  case contentHash =>
    rcases File.addDigest_eq_ok hstep with ⟨digest, -, hstate⟩
    cases hstate
    refine ⟨rfl, rfl, ?_, rfl, rfl⟩
    intro k' htext
    cases k' <;> first | rfl | cases htext
  all_goals
    cases hstep
    refine ⟨rfl, rfl, ?_, rfl, rfl⟩
    intro k' htext
    cases k' <;> first | rfl | cases htext

theorem File.assign_of_none {file file' : File} {payload payload' : Payload}
    {p : Property} (hk : ofText? FileKey.all FileKey.text p.key = none)
    (hstep : File.assign (file, payload) p = .ok (file', payload')) :
    (∀ k', file'.field k' = file.field k') ∧
      file'.overlay = file.overlay ∧ file'.preserve = file.preserve ∧
      (file'.facets =
        if isFacet p.key then
          (addFacet file.facets (Facet.fromKeyValue p.key p.value)).2
        else file.facets) ∧
      file'.properties =
        if isFacet p.key then file.properties else file.properties ++ [p] := by
  unfold File.assign at hstep
  rw [hk] at hstep
  dsimp only at hstep
  by_cases hfacet : isFacet p.key = true
  · rw [if_pos hfacet] at hstep
    cases hstep
    rw [if_pos hfacet, if_pos hfacet]
    refine ⟨?_, rfl, rfl, rfl, rfl⟩
    intro k'
    cases k' <;> rfl
  · rw [if_neg hfacet] at hstep
    cases hstep
    rw [if_neg hfacet, if_neg hfacet]
    refine ⟨?_, rfl, rfl, rfl, rfl⟩
    intro k'
    cases k' <;> rfl

theorem File.tracks_field {k : FileKey} (htext : k.isText = true) :
    Tracks File.assign k.text (fun state => state.1.field k)
      (fun _ v => v) := by
  apply tracks_key FileKey.mem_all FileKey.text_injective
  · intro state p state' k' hstep hk
    exact (File.assign_of_key hk hstep).2.2.1 k htext
  · intro state p state' hstep hk
    exact (File.assign_of_none hk hstep).1 k

theorem File.tracks_overlay :
    Tracks File.assign FileKey.overlay.text (fun state => state.1.overlay)
      (fun _ v => boolOrFalse v) := by
  apply tracks_key FileKey.mem_all FileKey.text_injective
  · intro state p state' k' hstep hk
    exact (File.assign_of_key hk hstep).2.2.2.1
  · intro state p state' hstep hk
    exact (File.assign_of_none hk hstep).2.1

theorem File.tracks_preserve :
    Tracks File.assign FileKey.preserve.text (fun state => state.1.preserve)
      (fun _ v => boolOrFalse v) := by
  apply tracks_key FileKey.mem_all FileKey.text_injective
  · intro state p state' k' hstep hk
    exact (File.assign_of_key hk hstep).2.2.2.2
  · intro state p state' hstep hk
    exact (File.assign_of_none hk hstep).2.2.1

theorem File.tracks_facet {key : Text} (hfacet : isFacet key = true)
    (hkey : ofText? FileKey.all FileKey.text key = none) :
    Tracks File.assign key (fun state => facetValue state.1.facets key)
      (fun _ v => some v) := by
  apply tracks_rest hkey
  · intro state p state' k' hstep hk
    exact congrArg (facetValue · key) (File.assign_of_key hk hstep).1
  · intro state p state' hstep hk
    rw [(File.assign_of_none hk hstep).2.2.2.1]
    exact facetValue_addFacetIf state.1.facets p hfacet

theorem File.tracks_properties {key : Text} (hfacet : isFacet key ≠ true)
    (hkey : ofText? FileKey.all FileKey.text key = none) :
    Tracks File.assign key (fun state => valueOf state.1.properties key)
      (fun old v => old.or (some v)) := by
  apply tracks_rest hkey
  · intro state p state' k' hstep hk
    exact congrArg (valueOf · key) (File.assign_of_key hk hstep).2.1
  · intro state p state' hstep hk
    rw [(File.assign_of_none hk hstep).2.2.2.2]
    exact valueOf_appendUnlessFacet state.1.properties p hfacet

/-- The keys whose values a file keeps as they are written: not the two
boolean flags and not the two digests. -/
def File.keeps (key : Text) : Bool :=
  match ofText? FileKey.all FileKey.text key with
  | some k => k.isText
  | none => true

theorem File.fromAction_of_no_payload {act : Action} {file : File}
    (hpayload : act.payloadString = [])
    (h : File.fromAction act = .ok file) :
    ∃ file' p, Outcome.fold File.assign ({}, act.payload) act.properties =
        .ok (file', p) ∧
      file = { file' with
        payload := if p.primaryIdentifier.hash = [] then none else some p } := by
  obtain ⟨start, payload, props, file', p, htake, hfold, rfl⟩ :=
    File.fromAction_eq_ok h
  unfold File.takePayload at htake
  rw [if_pos hpayload] at htake
  cases htake
  exact ⟨file', p, hfold, rfl⟩

theorem File.valueOf_eq {act act' : Action} {file : File}
    (hpayload : act.payloadString = []) (hpayload' : act'.payloadString = [])
    (hprops : WellFormedProperties act.properties)
    (hprops' : WellFormedProperties act'.properties)
    (h : File.fromAction act = .ok file)
    (h' : File.fromAction act' = .ok file)
    {key : Text} (hkeeps : File.keeps key = true) :
    valueOf act.properties key = valueOf act'.properties key := by
  rcases File.fromAction_of_no_payload hpayload h with ⟨f, p, hfold, rfl⟩
  rcases File.fromAction_of_no_payload hpayload' h' with ⟨f', p', hfold', heq⟩
  cases hk : ofText? FileKey.all FileKey.text key with
  | none =>
      by_cases hfacet : isFacet key = true
      · have hend : facetValue f.facets key = facetValue f'.facets key :=
          congrArg (fun file => facetValue file.facets key) heq
        exact (File.tracks_facet hfacet hk).valueOf_eq hfold hfold' rfl hend
          hprops hprops' (by simp) (by simp [facetValue])
      · have hend : valueOf f.properties key = valueOf f'.properties key :=
          congrArg (fun file => valueOf file.properties key) heq
        exact (File.tracks_properties hfacet hk).valueOf_eq hfold hfold' rfl
          hend hprops hprops' (by simp [valueOf]) (by simp [valueOf])
  | some k =>
      rw [← (ofText?_eq_some_iff FileKey.mem_all FileKey.text_injective).mp hk]
      have htext : k.isText = true := by
        simpa [File.keeps, hk] using hkeeps
      have hend : f.field k = f'.field k := by
        have hfield := congrArg (File.field · k) heq
        cases k <;> exact hfield
      exact (File.tracks_field htext).valueOf_eq hfold hfold' rfl hend
        hprops hprops' (by simp) (by cases k <;> simp [File.field])

/-- A flag that is not given counts as false. -/
def flagOf (props : List Property) (k : FileKey) : Bool :=
  ((valueOf props k.text).map boolOrFalse).getD false

theorem File.flagOf_eq {act : Action} {file : File}
    (hpayload : act.payloadString = [])
    (hprops : WellFormedProperties act.properties)
    (h : File.fromAction act = .ok file) :
    file.overlay = flagOf act.properties .overlay ∧
      file.preserve = flagOf act.properties .preserve := by
  rcases File.fromAction_of_no_payload hpayload h with ⟨f, p, hfold, rfl⟩
  constructor
  · exact File.tracks_overlay.fold hfold hprops.keys_nodup
  · exact File.tracks_preserve.fold hfold hprops.keys_nodup

/-- The digests that the properties name, in order. -/
def digestsOf (props : List Property) : List (Except DigestError Digest) :=
  (props.filter fun p => isDigestKey p.key).map fun p =>
    Digest.fromStr p.value

theorem File.assign_payload {file file' : File} {payload payload' : Payload}
    {p : Property}
    (hstep : File.assign (file, payload) p = .ok (file', payload')) :
    ∃ digests, digestsOf [p] = digests.map .ok ∧
      payload' = { payload with
        additionalIdentifiers :=
          payload.additionalIdentifiers ++ digests } := by
  have hkey : ∀ k, ofText? FileKey.all FileKey.text p.key = some k ↔
      FileKey.text k = p.key :=
    fun k => ofText?_eq_some_iff FileKey.mem_all FileKey.text_injective
  by_cases hdigest : isDigestKey p.key
  · have hadd : File.addDigest (file, payload) p.value =
        .ok (file', payload') := by
      unfold File.assign at hstep
      rcases hdigest with hp | hp
      · rw [(hkey .chash).mpr hp.symm] at hstep
        exact hstep
      · rw [(hkey .contentHash).mpr hp.symm] at hstep
        exact hstep
    rcases File.addDigest_eq_ok hadd with ⟨digest, hok, hstate⟩
    cases hstate
    refine ⟨[digest], ?_, rfl⟩
    simp [digestsOf, hdigest, hok]
  · refine ⟨[], by simp [digestsOf, hdigest], ?_⟩
    unfold File.assign at hstep
    rw [List.append_nil]
    cases hk : ofText? FileKey.all FileKey.text p.key with
    | none =>
        rw [hk] at hstep
        dsimp only at hstep
        split_ifs at hstep
        · cases hstep
          rfl
        · cases hstep
          rfl
    | some k =>
        rw [hk] at hstep
        cases k
        case chash =>
          exact absurd (.inl ((hkey _).mp hk).symm) hdigest
        case contentHash =>
          exact absurd (.inr ((hkey _).mp hk).symm) hdigest
        all_goals
          cases hstep
          rfl

theorem File.fold_payload {props : List Property} {file file' : File}
    {payload payload' : Payload}
    (hfold : Outcome.fold File.assign (file, payload) props =
      .ok (file', payload')) :
    ∃ digests, digestsOf props = digests.map .ok ∧
      payload' = { payload with
        additionalIdentifiers :=
          payload.additionalIdentifiers ++ digests } := by
  induction props generalizing file payload with
  | nil =>
      cases hfold
      exact ⟨[], rfl, by rw [List.append_nil]⟩
  | cons p props ih =>
      rw [Outcome.fold_cons, Outcome.bind_eq_ok_iff] at hfold
      rcases hfold with ⟨⟨f₁, p₁⟩, hstep, hrest⟩
      rcases File.assign_payload hstep with ⟨ds, hds, rfl⟩
      rcases ih hrest with ⟨ds', hds', rfl⟩
      refine ⟨ds ++ ds', ?_, by rw [List.append_assoc]⟩
      rw [List.map_append, ← hds, ← hds']
      unfold digestsOf
      rw [← List.map_append, ← List.filter_append]
      rfl

/-- A file with a primary hash keeps the digests. -/
theorem File.digestsOf_eq {act act' : Action} {file : File}
    (hpayload : act.payloadString = []) (hpayload' : act'.payloadString = [])
    (h : File.fromAction act = .ok file)
    (h' : File.fromAction act' = .ok file)
    (hsame : act.payload = act'.payload)
    (hhash : act.payload.primaryIdentifier.hash ≠ []) :
    digestsOf act.properties = digestsOf act'.properties := by
  rcases File.fromAction_of_no_payload hpayload h with ⟨f, p, hfold, rfl⟩
  rcases File.fromAction_of_no_payload hpayload' h' with ⟨f', p', hfold', heq⟩
  rcases File.fold_payload hfold with ⟨ds, hds, rfl⟩
  rcases File.fold_payload hfold' with ⟨ds', hds', rfl⟩
  have hpay := congrArg File.payload heq
  dsimp only at hpay
  rw [← hsame, if_neg hhash, if_neg hhash] at hpay
  have hadd := congrArg Payload.additionalIdentifiers (Option.some.inj hpay)
  rw [hds, hds', List.append_cancel_left hadd]

/-! ## Two actions with the same typed form -/

/-- Actions that are given by their properties alone. -/
structure Action.Plain (act : Action) : Prop where
  noPayload : act.payloadString = []
  properties : WellFormedProperties act.properties

theorem Action.Plain.propertiesWithPayload {act : Action} (hact : act.Plain) :
    act.propertiesWithPayload = .ok act.properties :=
  if_pos hact.noPayload

theorem Action.Plain.foldl_eq {T : Type} {assign : T → Property → T}
    {start t : T} {act act' : Action} (hact : act.Plain) (hact' : act'.Plain)
    (h : (act.propertiesWithPayload >>= fun props =>
      .ok (props.foldl assign start)) = .ok t)
    (h' : (act'.propertiesWithPayload >>= fun props =>
      .ok (props.foldl assign start)) = .ok t) :
    act.properties.foldl assign start = act'.properties.foldl assign start := by
  rw [hact.propertiesWithPayload, Outcome.ok_bind] at h
  rw [hact'.propertiesWithPayload, Outcome.ok_bind, ← h] at h'
  exact Outcome.ok.inj h'.symm

theorem perm_of_valueOf_eq {act act' : Action} (hact : act.Plain)
    (hact' : act'.Plain)
    (h : ∀ key, valueOf act.properties key = valueOf act'.properties key) :
    act.properties.Perm act'.properties := by
  simpa using perm_of_valueOf (fun _ => true) hact.properties.keys_nodup
    hact'.properties.keys_nodup fun key _ => h key

/-- Dependencies, attributes, links and licenses determine the properties they
were made from.  A directory determines those with a field of their own and
the facets, a file all but its flags and digests. -/
theorem fromAction_lossless (act act' : Action) (hact : act.Plain)
    (hact' : act'.Plain) :
    (∀ dep, Dependency.fromAction act = .ok dep →
      Dependency.fromAction act' = .ok dep →
      act.properties.Perm act'.properties) ∧
    (∀ attr, Attr.fromAction act = .ok attr → Attr.fromAction act' = .ok attr →
      act.properties.Perm act'.properties) ∧
    (∀ link, Link.fromAction act = .ok link → Link.fromAction act' = .ok link →
      act.properties.Perm act'.properties) ∧
    (∀ license, License.fromAction act = .ok license →
      License.fromAction act' = .ok license →
      act.properties.Perm act'.properties) ∧
    (∀ dir, Dir.fromAction act = .ok dir → Dir.fromAction act' = .ok dir →
      (act.properties.filter fun p => Dir.keeps p.key).Perm
        (act'.properties.filter fun p => Dir.keeps p.key)) ∧
    (∀ file, File.fromAction act = .ok file →
      File.fromAction act' = .ok file →
      (act.properties.filter fun p => File.keeps p.key).Perm
        (act'.properties.filter fun p => File.keeps p.key) ∧
      flagOf act.properties .overlay = flagOf act'.properties .overlay ∧
      flagOf act.properties .preserve = flagOf act'.properties .preserve ∧
      (act.payload = act'.payload →
        act.payload.primaryIdentifier.hash ≠ [] →
        digestsOf act.properties = digestsOf act'.properties)) := by
  refine ⟨?_, ?_, ?_, ?_, ?_, ?_⟩
  · intro dep h h'
    exact perm_of_valueOf_eq hact hact' (Dependency.valueOf_eq
      hact.properties hact'.properties (hact.foldl_eq hact' h h'))
  · intro attr h h'
    exact perm_of_valueOf_eq hact hact' (Attr.valueOf_eq
      hact.properties hact'.properties (hact.foldl_eq hact' h h'))
  · intro link h h'
    exact perm_of_valueOf_eq hact hact' (Link.valueOf_eq
      hact.properties hact'.properties (hact.foldl_eq hact' h h'))
  · intro license h h'
    unfold License.fromAction at h h'
    rw [hact.noPayload] at h
    rw [hact'.noPayload, ← h] at h'
    exact perm_of_valueOf_eq hact hact' (License.valueOf_eq
      hact.properties hact'.properties (Outcome.ok.inj h'.symm))
  · intro dir h h'
    exact perm_of_valueOf Dir.keeps hact.properties.keys_nodup
      hact'.properties.keys_nodup fun key hkeeps => Dir.valueOf_eq
        hact.properties hact'.properties (hact.foldl_eq hact' h h') hkeeps
  · intro file h h'
    have hflags := File.flagOf_eq hact.noPayload hact.properties h
    have hflags' := File.flagOf_eq hact'.noPayload hact'.properties h'
    refine ⟨?_, hflags.1.symm.trans hflags'.1, hflags.2.symm.trans hflags'.2,
      File.digestsOf_eq hact.noPayload hact'.noPayload h h'⟩
    exact perm_of_valueOf File.keeps hact.properties.keys_nodup
      hact'.properties.keys_nodup fun key hkeeps => File.valueOf_eq
        hact.noPayload hact'.noPayload hact.properties hact'.properties h h'
        hkeeps

theorem fromAction_lossless_depend :
    let type : Property := ⟨"type".toList, "require".toList⟩
    let fmri : Property := ⟨"fmri".toList, "pkg:/a".toList⟩
    [type, fmri].Perm [fmri, type] :=
  (fromAction_lossless
    { kind := .dependency, properties :=
      [⟨"type".toList, "require".toList⟩, ⟨"fmri".toList, "pkg:/a".toList⟩] }
    { kind := .dependency, properties :=
      [⟨"fmri".toList, "pkg:/a".toList⟩, ⟨"type".toList, "require".toList⟩] }
    ⟨rfl, by decide, by decide⟩ ⟨rfl, by decide, by decide⟩).1 _ rfl rfl

def fileWith (primary : Text) (props : List Property) : Action where
  kind := .file
  payload := { primaryIdentifier := { hash := primary } }
  properties := props

def dirWith (props : List Property) : Action where
  kind := .dir
  properties := props

/-- A directory drops a property without a field, a file keeps one of two
readings of a flag, no digest unless it has a primary hash, and with one does
not keep the key of a digest. -/
theorem fromAction_not_lossless :
    let unknown : Property := ⟨"foo".toList, "x".toList⟩
    let long : Property := ⟨"overlay".toList, "true".toList⟩
    let short : Property := ⟨"overlay".toList, "t".toList⟩
    let chash : Property := ⟨"chash".toList, "a".toList⟩
    let contentHash : Property := ⟨"pkg.content-hash".toList, "a".toList⟩
    ((dirWith [unknown]).Plain ∧ (dirWith []).Plain ∧
      Dir.fromAction (dirWith [unknown]) = Dir.fromAction (dirWith []) ∧
      ¬ [unknown].Perm []) ∧
    ((fileWith [] [long]).Plain ∧ (fileWith [] [short]).Plain ∧
      File.fromAction (fileWith [] [long]) =
        File.fromAction (fileWith [] [short]) ∧
      ¬ [long].Perm [short]) ∧
    ((fileWith [] [chash]).Plain ∧ (fileWith [] []).Plain ∧
      File.fromAction (fileWith [] [chash]) =
        File.fromAction (fileWith [] []) ∧
      ¬ [chash].Perm []) ∧
    ((fileWith "h".toList [chash]).Plain ∧
      (fileWith "h".toList [contentHash]).Plain ∧
      File.fromAction (fileWith "h".toList [chash]) =
        File.fromAction (fileWith "h".toList [contentHash]) ∧
      ¬ [chash].Perm [contentHash]) := by
  refine ⟨⟨?_, ?_, by decide, by decide⟩, ⟨?_, ?_, by decide, by decide⟩,
    ⟨?_, ?_, by decide, by decide⟩, ⟨?_, ?_, by decide, by decide⟩⟩
  all_goals exact ⟨rfl, by decide, by decide⟩

end Ips
