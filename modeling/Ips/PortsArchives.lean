import Ips.PortsSources

/-!
# What is unpacked

All sources are stored before the first one is unpacked, under names that the
URLs choose.  The contents of the files are replayed from the events of a run:
an archive that tar reads is the last one that was stored under its name.
-/

namespace Ips.Ports

open Interaction

abbrev FileContents := Text → Option Bytes

/-- A file is emptied when it is created, and a write goes to its end. -/
def store (files : FileContents) : Event System → FileContents
  | ⟨.create path, .ok _⟩ => Function.update files path (some [])
  | ⟨.write path bytes, .ok _⟩ =>
      Function.update files path (some ((files path).getD [] ++ bytes))
  | _ => files

/-- The contents that the requests of a run leave behind. -/
def stored (files : FileContents) (events : List (Event System)) :
    FileContents :=
  events.foldl store files

theorem stored_append (files : FileContents)
    (first rest : List (Event System)) :
    stored files (first ++ rest) = stored (stored files first) rest :=
  List.foldl_append

/-- The argument of tar that names the archive. -/
def Command.archive (command : Command) : Option Text :=
  if command.program = .text defaultTar then command.args[3]? else none

/-- What tar is given to read by an event. -/
def archiveRead (files : FileContents) : Event System → Option (Option Bytes)
  | ⟨.spawn command, .ok _⟩ => command.archive.map files
  | _ => none

/-- The contents of the archives that are unpacked in a run. -/
def unpacked (files : FileContents) : List (Event System) → List (Option Bytes)
  | [] => []
  | e :: events =>
      (archiveRead files e).toList ++ unpacked (store files e) events

theorem unpacked_append (files : FileContents)
    (first rest : List (Event System)) :
    unpacked files (first ++ rest) =
      unpacked files first ++ unpacked (stored files first) rest := by
  induction first generalizing files with
  | nil => rfl
  | cons e first ih =>
      rw [List.cons_append, unpacked, unpacked, ih, List.append_assoc]
      rfl

theorem unpacked_eq_nil {files : FileContents} {events : List (Event System)}
    (h : ∀ e ∈ events, ∀ files, archiveRead files e = none) :
    unpacked files events = [] := by
  induction events generalizing files with
  | nil => rfl
  | cons e events ih =>
      rw [List.forall_mem_cons] at h
      rw [unpacked, h.1 files, ih h.2]
      rfl

/-! ## Sources -/

/-- The last source that was stored under a name. -/
def lastFetched (fetched : List Fetched) (path : Text) : Option Fetched :=
  (fetched.filter fun f => f.source.localName = path).getLast?

theorem stored_fetchedOne (files : FileContents) (f : Fetched) :
    stored files f.events =
      Function.update files f.source.localName (some f.bytes) := by
  unfold Fetched.events stored replied
  simp [store]

theorem stored_fetched (files : FileContents) (fetched : List Fetched)
    (path : Text) :
    stored files (fetched.flatMap Fetched.events) path =
      ((lastFetched fetched path).map Fetched.bytes).or (files path) := by
  induction fetched using List.reverseRecOn with
  | nil => rfl
  | append_singleton fetched f ih =>
      rw [List.flatMap_append, List.flatMap_singleton, stored_append,
        stored_fetchedOne]
      unfold lastFetched at ih ⊢
      rw [List.filter_append]
      by_cases hpath : f.source.localName = path
      · simp [hpath]
      · rw [Function.update_of_ne (Ne.symm hpath), ih]
        simp [hpath]

theorem archive_tarCommand (ws : Workspace) (src : Source) :
    (ws.tarCommand src).archive = some src.localName := rfl

theorem stored_command (files : FileContents) (command : Command) :
    stored files (Workspace.commandEvents command) = files := rfl

theorem unpacked_sources (files : FileContents) (ws : Workspace)
    (fetched : List Fetched) :
    unpacked files (unpackEvents ws fetched) =
      fetched.map fun f => files f.source.localName := by
  unfold unpackEvents
  induction fetched with
  | nil => rfl
  | cons f fetched ih =>
      rw [List.flatMap_cons, unpacked_append, stored_command, ih]
      rfl

theorem lastFetched_of_mem {fetched : List Fetched} {f : Fetched}
    (h : f ∈ fetched) : ∃ g ∈ fetched,
      lastFetched fetched f.source.localName = some g ∧
        g.source.localName = f.source.localName := by
  have hmem : f ∈ fetched.filter fun g =>
      g.source.localName = f.source.localName := by
    simpa using h
  obtain ⟨g, hg⟩ := Option.isSome_iff_exists.mp
    (List.getLast?_isSome.mpr (List.ne_nil_of_mem hmem))
  have hlast := List.mem_filter.mp (List.mem_of_getLast? hg)
  exact ⟨g, hlast.1, hg, by simpa using hlast.2⟩

/-! ## Runs -/

/-- The name that a source is stored under. -/
def storedName (parseUrl : Text → Except Text Url) (src : Text) :
    Option Text :=
  match parseUrl src with
  | .ok url => some (lastSegment url.path)
  | .error _ => none

/-- The body of a response. -/
def body : Event System → Option Bytes
  | ⟨.get _, .ok response⟩ => response.bytes
  | _ => none

theorem bodies_fetched (fetched : List Fetched) :
    (fetched.flatMap Fetched.events).filterMap body =
      fetched.map Fetched.bytes := by
  induction fetched with
  | nil => rfl
  | cons f fetched ih =>
      rw [List.flatMap_cons, List.filterMap_append, ih]
      rfl

theorem bodies_unpack (ws : Workspace) (fetched : List Fetched) :
    (unpackEvents ws fetched).filterMap body = [] := by
  apply List.filterMap_eq_nil_iff.mpr
  intro e he
  obtain ⟨f, -, he⟩ := List.mem_flatMap.mp he
  simp only [Workspace.commandEvents, replied, List.mem_cons,
    List.not_mem_nil, or_false] at he
  rcases he with rfl | rfl <;> rfl

theorem unpacked_fetched (files : FileContents) (fetched : List Fetched) :
    unpacked files (fetched.flatMap Fetched.events) = [] := by
  apply unpacked_eq_nil
  intro e he files
  obtain ⟨f, -, he⟩ := List.mem_flatMap.mp he
  simp only [Fetched.events, replied, List.mem_cons, List.not_mem_nil,
    or_false] at he
  rcases he with rfl | rfl | rfl <;> rfl

theorem unpacked_provided (ws : Workspace) (fetched : List Fetched) :
    unpacked (fun _ => none)
        (fetched.flatMap Fetched.events ++ unpackEvents ws fetched) =
      fetched.map fun f =>
        (lastFetched fetched f.source.localName).map Fetched.bytes := by
  rw [unpacked_append, unpacked_fetched, List.nil_append, unpacked_sources]
  apply List.map_congr_left
  intro f _
  rw [stored_fetched, Option.or_none]

theorem Provides.localName {parseUrl : Text → Except Text Url}
    {ws : Workspace} {src : Text} {f : Fetched}
    (h : Provides parseUrl ws src f) :
    ∃ name, '/' ∉ name ∧ storedName parseUrl src = some name ∧
      f.source.localName = joinPath ws.sourceDir name := by
  obtain ⟨url, hurl, hsource⟩ := sourceNew_eq_ok_iff.mp h.1
  refine ⟨lastSegment url.path, slash_not_mem_lastSegment url.path, ?_, ?_⟩
  · unfold storedName
    rw [hurl]
  · rw [hsource]

theorem Provides.localName_eq_iff {parseUrl : Text → Except Text Url}
    {ws : Workspace} {src src' : Text} {f g : Fetched}
    (hf : Provides parseUrl ws src f) (hg : Provides parseUrl ws src' g) :
    f.source.localName = g.source.localName ↔
      storedName parseUrl src = storedName parseUrl src' := by
  obtain ⟨name, hslash, hname, hlocal⟩ := hf.localName
  obtain ⟨name', hslash', hname', hlocal'⟩ := hg.localName
  rw [hlocal, hlocal', hname, hname', joinPath_injective _ hslash hslash',
    Option.some_inj]

theorem mem_zip_map {α β γ : Type} {R : α → β → Prop} {xs : List α}
    {ys : List β} (h : List.Forall₂ R xs ys) (g : β → γ) (p : α × γ) :
    p ∈ xs.zip (ys.map g) →
      ∃ y ∈ ys, R p.1 y ∧ p.2 = g y := by
  induction h with
  | nil => simp
  | @cons x y xs ys hfirst _ ih =>
      rw [List.map_cons, List.zip_cons_cons, List.mem_cons]
      rintro (rfl | hp)
      · exact ⟨y, List.mem_cons_self, hfirst, rfl⟩
      · obtain ⟨z, hz, hrel⟩ := ih hp
        exact ⟨z, List.mem_cons_of_mem y hz, hrel⟩

theorem exists_mem_zip_map {α β γ : Type} {R : α → β → Prop} {xs : List α}
    {ys : List β} (h : List.Forall₂ R xs ys) (g : β → γ) {y : β}
    (hy : y ∈ ys) : ∃ x, R x y ∧ (x, g y) ∈ xs.zip (ys.map g) := by
  induction h with
  | nil => cases hy
  | @cons x y' xs ys hfirst _ ih =>
      rw [List.map_cons, List.zip_cons_cons]
      rcases List.mem_cons.mp hy with rfl | hy
      · exact ⟨x, hfirst, List.mem_cons_self⟩
      · obtain ⟨z, hz, hmem⟩ := ih hy
        exact ⟨z, hz, List.mem_cons_of_mem _ hmem⟩

/-- Every source is unpacked from what was fetched for it exactly when the
sources that are stored under one name have the same contents. -/
theorem unpacked_own_iff {parseUrl : Text → Except Text Url} {ws : Workspace}
    {sources : List Text} {events : List (Event System)}
    (h : Prog.Runs (provideSources parseUrl ws sources) events (.ok ())) :
    unpacked (fun _ => none) events =
        (events.filterMap body).map some ↔
      ∀ p ∈ sources.zip (events.filterMap body),
        ∀ q ∈ sources.zip (events.filterMap body),
          storedName parseUrl p.1 = storedName parseUrl q.1 → p.2 = q.2 := by
  obtain ⟨fetched, hall, rfl⟩ := runs_provideSources_ok_iff.mp h
  rw [unpacked_provided, List.filterMap_append, bodies_fetched, bodies_unpack,
    List.append_nil, List.map_map, List.map_inj_left]
  constructor
  · intro hown p hp q hq hname
    obtain ⟨f, hf, hpf, hbody⟩ := mem_zip_map hall Fetched.bytes p hp
    obtain ⟨g, hg, hqg, hbody'⟩ := mem_zip_map hall Fetched.bytes q hq
    have hf' := hown f hf
    rw [(hpf.localName_eq_iff hqg).mpr hname] at hf'
    rw [hbody, hbody']
    exact Option.some.inj (hf'.symm.trans (hown g hg))
  · intro hsame f hf
    obtain ⟨g, hg, hlast, hname⟩ := lastFetched_of_mem hf
    obtain ⟨src, hpf, hp⟩ := exists_mem_zip_map hall Fetched.bytes hf
    obtain ⟨src', hqg, hq⟩ := exists_mem_zip_map hall Fetched.bytes hg
    have hbody := hsame _ hq _ hp ((hqg.localName_eq_iff hpf).mp hname)
    rw [hlast, Option.map_some]
    exact congrArg some hbody

/-! ## Two sources with one name -/

/-- The URLs of two hosts for an archive. -/
def hostUrls : Text → Except Text Url := fun s =>
  if s = "https://a/v1.tar".toList ∨ s = "https://b/v1.tar".toList then
    .ok { asStr := s, path := "/v1.tar".toList }
  else .error "relative URL without a base".toList

def hostSource (url : Text) : Source where
  url := { asStr := url, path := "/v1.tar".toList }
  localName := "/wks/sources/v1.tar".toList

def hostFetched : List Fetched :=
  [⟨hostSource "https://a/v1.tar".toList, 200, [1]⟩,
    ⟨hostSource "https://b/v1.tar".toList, 200, [2]⟩]

def hostEvents : List (Event System) :=
  hostFetched.flatMap Fetched.events ++
    unpackEvents (.ofRoot "/wks".toList) hostFetched

theorem runs_hostEvents : Prog.Runs (provideSources hostUrls
    (.ofRoot "/wks".toList)
    ["https://a/v1.tar".toList, "https://b/v1.tar".toList])
    hostEvents (.ok ()) := by
  have hunpackable : ∀ url, (hostSource url).Unpackable := by
    intro url
    exact (unpackable_iff "/wks".toList (by decide)).mpr
      (by decide : NamesTar "v1.tar".toList)
  refine runs_provideSources_ok_iff.mpr ⟨hostFetched, ?_, rfl⟩
  refine .cons ⟨by decide +kernel, hunpackable _⟩ (.cons ⟨?_, ?_⟩ .nil)
  · decide +kernel
  · exact hunpackable _

/-- The archive of the second host is unpacked twice. -/
theorem unpacked_overwritten :
    ¬unpacked (fun _ => none) hostEvents =
      (hostEvents.filterMap body).map some := by
  rw [unpacked_own_iff runs_hostEvents]
  intro h
  have hsame := h ("https://a/v1.tar".toList, [1]) (by decide +kernel)
    ("https://b/v1.tar".toList, [2]) (by decide +kernel) (by decide +kernel)
  cases hsame

end Ips.Ports
