import Ips.ActionFields

/-!
# Facets of an action

Four kinds of action have facets, and they implement `FacetedAction` alike:
the map is changed first, and what a call reports is computed from the entry
that it replaced or took out.  A call that reports false has therefore changed
the map whenever another value was stored under the name.
-/

namespace Ips

def Action.addFacet (act : Action) (facet : Facet) : Bool × Action :=
  let (added, facets) := Ips.addFacet act.facets facet
  (added, { act with facets := facets })

def Action.removeFacet (act : Action) (facet : Facet) : Bool × Action :=
  let (removed, facets) := Ips.removeFacet act.facets facet
  (removed, { act with facets := facets })

def Dir.addFacet (dir : Dir) (facet : Facet) : Bool × Dir :=
  let (added, facets) := Ips.addFacet dir.facets facet
  (added, { dir with facets := facets })

def Dir.removeFacet (dir : Dir) (facet : Facet) : Bool × Dir :=
  let (removed, facets) := Ips.removeFacet dir.facets facet
  (removed, { dir with facets := facets })

def File.addFacet (file : File) (facet : Facet) : Bool × File :=
  let (added, facets) := Ips.addFacet file.facets facet
  (added, { file with facets := facets })

def File.removeFacet (file : File) (facet : Facet) : Bool × File :=
  let (removed, facets) := Ips.removeFacet file.facets facet
  (removed, { file with facets := facets })

def Dependency.addFacet (dep : Dependency) (facet : Facet) :
    Bool × Dependency :=
  let (added, facets) := Ips.addFacet dep.facets facet
  (added, { dep with facets := facets })

def Dependency.removeFacet (dep : Dependency) (facet : Facet) :
    Bool × Dependency :=
  let (removed, facets) := Ips.removeFacet dep.facets facet
  (removed, { dep with facets := facets })

/-- The implementations of the trait. -/
inductive FacetedAction where
  | action (act : Action)
  | dir (dir : Dir)
  | file (file : File)
  | dependency (dep : Dependency)

inductive FacetCall where
  | add (facet : Facet)
  | remove (facet : Facet)

namespace FacetedAction

def facets : FacetedAction → HashMap Facet
  | .action act => act.facets
  | .dir d => d.facets
  | .file f => f.facets
  | .dependency dep => dep.facets

def addFacet (x : FacetedAction) (facet : Facet) : Bool × FacetedAction :=
  match x with
  | .action act => (act.addFacet facet).map id .action
  | .dir d => (d.addFacet facet).map id .dir
  | .file f => (f.addFacet facet).map id .file
  | .dependency dep => (dep.addFacet facet).map id .dependency

def removeFacet (x : FacetedAction) (facet : Facet) : Bool × FacetedAction :=
  match x with
  | .action act => (act.removeFacet facet).map id .action
  | .dir d => (d.removeFacet facet).map id .dir
  | .file f => (f.removeFacet facet).map id .file
  | .dependency dep => (dep.removeFacet facet).map id .dependency

def call (x : FacetedAction) : FacetCall → Bool × FacetedAction
  | .add facet => x.addFacet facet
  | .remove facet => x.removeFacet facet

/-- What a manifest line is read into and converted to.  The reader puts no
facets into the generic action: they are still among its properties. -/
inductive Converted : FacetedAction → Prop
  | action {act : Action} (h : act.facets = ∅) : Converted (.action act)
  | dir {act : Action} {d : Dir} (h : Dir.fromAction act = .ok d) :
      Converted (.dir d)
  | file {act : Action} {f : File} (h : File.fromAction act = .ok f) :
      Converted (.file f)
  | dependency {act : Action} {dep : Dependency}
      (h : Dependency.fromAction act = .ok dep) : Converted (.dependency dep)

inductive Reached : FacetedAction → Prop
  | converted {x : FacetedAction} (h : x.Converted) : Reached x
  | called {x : FacetedAction} (h : Reached x) (c : FacetCall) :
      Reached (x.call c).2

end FacetedAction

/-! ## Calls on the map -/

def KeyedByName (facets : HashMap Facet) : Prop :=
  ∀ name facet, facets.lookup name = some facet → facet.name = name

namespace FacetCall

def facet : FacetCall → Facet
  | .add facet => facet
  | .remove facet => facet

/-- When the call should report that it changed something. -/
def Due (facets : HashMap Facet) : FacetCall → Prop
  | .add facet => facet.name ∉ facets
  | .remove facet => ∃ stored, facets.lookup facet.name = some stored ∧
      stored.name = facet.name ∧ stored.value = facet.value

/-- The entry that the call leaves under the name of its facet. -/
def entry : FacetCall → Option Facet
  | .add facet => some facet
  | .remove _ => none

/-- What is reported and what happens to the facets belong together. -/
structure Faithful (c : FacetCall) (x : FacetedAction) : Prop where
  keyed : KeyedByName x.facets
  reports : (x.call c).1 = true ↔ c.Due x.facets
  changes : (x.call c).1 = true →
    (x.call c).2.facets.lookup c.facet.name = c.entry ∧
      ∀ name, name ≠ c.facet.name →
        (x.call c).2.facets.lookup name = x.facets.lookup name
  keeps : (x.call c).1 = false → (x.call c).2.facets = x.facets

end FacetCall

namespace FacetedAction

theorem call_add (x : FacetedAction) (facet : Facet) :
    (x.call (.add facet)).1 = (x.facets.lookup facet.name).isNone ∧
      (x.call (.add facet)).2.facets = x.facets.insert facet.name facet := by
  cases x <;> exact ⟨rfl, rfl⟩

theorem call_remove (x : FacetedAction) (facet : Facet) :
    (x.call (.remove facet)).1 =
        decide (x.facets.lookup facet.name = some facet) ∧
      (x.call (.remove facet)).2.facets = x.facets.erase facet.name := by
  cases x <;> exact ⟨rfl, rfl⟩

/-- Whatever a call reports, it leaves its entry under the name of its facet
and touches no other. -/
theorem lookup_call (x : FacetedAction) (c : FacetCall) (name : Text) :
    (x.call c).2.facets.lookup name =
      if name = c.facet.name then c.entry else x.facets.lookup name := by
  split_ifs with h
  · subst h
    cases c with
    | add facet =>
        rw [(x.call_add facet).2]
        exact Finmap.lookup_insert _
    | remove facet =>
        rw [(x.call_remove facet).2]
        exact Finmap.lookup_erase _ _
  · cases c with
    | add facet =>
        rw [(x.call_add facet).2]
        exact Finmap.lookup_insert_of_ne _ h
    | remove facet =>
        rw [(x.call_remove facet).2]
        exact Finmap.lookup_erase_ne h

theorem call_reports (x : FacetedAction) (c : FacetCall) :
    (x.call c).1 = true ↔ c.Due x.facets := by
  cases c with
  | add facet =>
      rw [(x.call_add facet).1, Option.isNone_iff_eq_none,
        Finmap.lookup_eq_none]
      exact Iff.rfl
  | remove facet =>
      rw [(x.call_remove facet).1, decide_eq_true_eq]
      constructor
      · intro h
        exact ⟨facet, h, rfl, rfl⟩
      · rintro ⟨⟨name, value⟩, h, rfl, rfl⟩
        exact h

/-- The map is the same after a call exactly when it was already as the call
leaves it. -/
theorem facets_call_eq_iff (x : FacetedAction) (c : FacetCall) :
    (x.call c).2.facets = x.facets ↔
      x.facets.lookup c.facet.name = c.entry := by
  constructor
  · intro h
    rw [← h, lookup_call, if_pos rfl]
  · intro h
    apply Finmap.ext_lookup
    intro name
    rw [lookup_call]
    split_ifs with hname
    · rw [hname, h]
    · rfl

/-! ## Runs -/

theorem keyedByName_call {x : FacetedAction} (h : KeyedByName x.facets)
    (c : FacetCall) : KeyedByName (x.call c).2.facets := by
  intro name facet hfacet
  rw [lookup_call] at hfacet
  split_ifs at hfacet with hname
  · cases c with
    | add added =>
        cases hfacet
        exact hname.symm
    | remove removed => cases hfacet
  · exact h name facet hfacet

theorem keyedByName_of_holds {facets : HashMap Facet} {props : List Property}
    (h : HoldsFacets facets props) : KeyedByName facets := by
  intro name facet hfacet
  rw [h name, Option.map_eq_some_iff] at hfacet
  obtain ⟨value, -, rfl⟩ := hfacet
  rfl

theorem keyedByName_converted {x : FacetedAction} (h : x.Converted) :
    KeyedByName x.facets := by
  cases h with
  | action hempty =>
      intro name facet hfacet
      rw [facets, hempty, Finmap.lookup_empty] at hfacet
      cases hfacet
  | @dir act d hok =>
      rw [Dir.fromAction_eq] at hok
      cases hok
      exact keyedByName_of_holds (Dir.holds_foldl act.entries).facets
  | file hok => exact keyedByName_of_holds (File.holdsFacets_fromAction hok)
  | @dependency act dep hok =>
      rw [Dependency.fromAction_eq] at hok
      cases hok
      exact keyedByName_of_holds (Dependency.holds_foldl act.entries).facets

theorem keyedByName_reached {x : FacetedAction} (h : x.Reached) :
    KeyedByName x.facets := by
  induction h with
  | converted h => exact keyedByName_converted h
  | called _ c ih => exact keyedByName_call ih c

/-! ## Calls that report false -/

/-- No other value is stored under the name. -/
def Agrees (x : FacetedAction) (facet : Facet) : Prop :=
  ∀ stored, x.facets.lookup facet.name = some stored →
    stored.value = facet.value

theorem agrees_of_due {x : FacetedAction} {c : FacetCall}
    (h : c.Due x.facets) : x.Agrees c.facet := by
  intro stored hstored
  cases c with
  | add facet =>
      have hnone : x.facets.lookup facet.name = none :=
        Finmap.lookup_eq_none.mpr h
      rw [FacetCall.facet, hnone] at hstored
      cases hstored
  | remove facet =>
      obtain ⟨found, hfound, -, hvalue⟩ := h
      rw [FacetCall.facet, hfound] at hstored
      cases hstored
      exact hvalue

theorem lookup_eq_entry_iff {x : FacetedAction} (hx : x.Reached)
    {c : FacetCall} (h : ¬c.Due x.facets) :
    x.facets.lookup c.facet.name = c.entry ↔ x.Agrees c.facet := by
  cases c with
  | add facet =>
      have hmem : facet.name ∈ x.facets := not_not.mp h
      obtain ⟨stored, hstored⟩ := Finmap.mem_iff.mp hmem
      have hname : stored.name = facet.name :=
        keyedByName_reached hx facet.name stored hstored
      constructor
      · intro hentry found hfound
        rw [hentry] at hfound
        cases hfound
        rfl
      · intro hagrees
        have hvalue : stored.value = facet.value := hagrees stored hstored
        rw [FacetCall.facet, hstored, FacetCall.entry, Option.some.injEq,
          Facet.mk.injEq]
        exact ⟨hname, hvalue⟩
  | remove facet =>
      constructor
      · intro hentry found hfound
        rw [hentry] at hfound
        cases hfound
      · intro hagrees
        rw [FacetCall.entry, Option.eq_none_iff_forall_ne_some]
        intro stored hstored
        have hname : stored.name = facet.name :=
          keyedByName_reached hx facet.name stored hstored
        exact h ⟨stored, hstored, hname, hagrees stored hstored⟩

/-- In every state that calls can lead to, a call does what it reports exactly
when no other value is stored under the name. -/
theorem call_faithful_iff {x : FacetedAction} (hx : x.Reached)
    (c : FacetCall) : c.Faithful x ↔ x.Agrees c.facet := by
  have hchanges : (x.call c).2.facets.lookup c.facet.name = c.entry ∧
      ∀ name, name ≠ c.facet.name →
        (x.call c).2.facets.lookup name = x.facets.lookup name := by
    constructor
    · rw [lookup_call, if_pos rfl]
    · intro name hname
      rw [lookup_call, if_neg hname]
  -- In a reached state only the last part can fail.
  have hiff : c.Faithful x ↔
      ((x.call c).1 = false → (x.call c).2.facets = x.facets) :=
    ⟨fun h => h.keeps, fun h =>
      ⟨keyedByName_reached hx, x.call_reports c, fun _ => hchanges, h⟩⟩
  rw [hiff, ← Bool.not_eq_true, x.call_reports c]
  by_cases hdue : c.Due x.facets
  · exact iff_of_true (fun hnot => absurd hdue hnot) (agrees_of_due hdue)
  · rw [← lookup_eq_entry_iff hx hdue, ← facets_call_eq_iff]
    exact ⟨fun h => h hdue, fun h _ => h⟩

/-! ## A directory with one facet -/

/-- The action read from `dir path=usr/share/doc facet.doc=true`. -/
def docAction : Action where
  kind := .dir
  properties := [⟨"path".toList, "usr/share/doc".toList⟩,
    ⟨"facet.doc".toList, "true".toList⟩]

def docDir : Dir := docAction.properties.foldl Dir.assign {}

theorem reached_docDir : (dir docDir).Reached :=
  .converted (Converted.dir (show Dir.fromAction docAction = .ok docDir from rfl))

theorem call_faithful_docDir :
    (FacetCall.add ⟨"doc".toList, "true".toList⟩).Faithful (dir docDir) ∧
      (FacetCall.remove ⟨"doc".toList, "true".toList⟩).Faithful
        (dir docDir) ∧
      (FacetCall.add ⟨"devel".toList, "true".toList⟩).Faithful
        (dir docDir) := by
  have hdoc : docDir.facets.lookup "doc".toList =
      some ⟨"doc".toList, "true".toList⟩ := by decide +kernel
  have hdevel : docDir.facets.lookup "devel".toList = none := by
    decide +kernel
  refine ⟨(call_faithful_iff reached_docDir _).mpr ?_,
    (call_faithful_iff reached_docDir _).mpr ?_,
    (call_faithful_iff reached_docDir _).mpr ?_⟩
  · intro stored hstored
    cases hdoc.symm.trans hstored
    rfl
  · intro stored hstored
    cases hdoc.symm.trans hstored
    rfl
  · intro stored hstored
    cases hdevel.symm.trans hstored

/-- Both calls report false, but the first replaces the facet and the second
takes it out. -/
theorem call_unfaithful :
    (dir docDir).Reached ∧
      ((dir docDir).call (.add ⟨"doc".toList, "false".toList⟩)).1 = false ∧
      ((dir docDir).call (.add ⟨"doc".toList, "false".toList⟩)).2.facets ≠
        docDir.facets ∧
      ((dir docDir).call (.remove ⟨"doc".toList, "false".toList⟩)).1 = false ∧
      ((dir docDir).call (.remove ⟨"doc".toList, "false".toList⟩)).2.facets ≠
        docDir.facets ∧
      ¬∀ x : FacetedAction, x.Reached → ∀ c : FacetCall, c.Faithful x := by
  have hadd : ((dir docDir).call
      (.add ⟨"doc".toList, "false".toList⟩)).2.facets ≠ docDir.facets := by
    decide +kernel
  refine ⟨reached_docDir, by decide +kernel, hadd, by decide +kernel,
    by decide +kernel, ?_⟩
  intro h
  exact hadd ((h _ reached_docDir _).keeps (by decide +kernel))

end FacetedAction

end Ips
