import Ips.MakefileLookup

/-!
# Components

`Component::new_from_makefile` (`userland/src/component.rs`) makes a component
out of the first values of a few variables.  The lookups replace references,
so they can run into a cycle; the options of configure are not looked up but
copied, and the references in them stay.

The texts of versions and URLs are those of the semver and url crates.
-/

namespace Ips

open Peg Relation

/-! ## First values -/

namespace Makefile

theorem resolved_ne_nil {get : Text → Outcome CallError (Option Text)}
    {var : MakefileVariable} {values : List Text} (hne : var.values ≠ [])
    (h : resolveNestedVariables get var = .ok values) : values ≠ [] := by
  rintro rfl
  have hlength := fold_resolveValue_length h
  exact hne (List.length_eq_zero_iff.mp (by simpa using hlength.symm))

/-- The first value of a variable, at every depth that is enough for it. -/
def FirstValue (m : Makefile) (name : Text) (first? : Option Text) : Prop :=
  ∃ depth, getFirstValueOfVariableByName m depth name = .ok first?

theorem first_mono {m : Makefile} {n k : ℕ} {name : Text}
    {first? : Option Text} (hnk : n ≤ k)
    (h : getFirstValueOfVariableByName m n name = .ok first?) :
    getFirstValueOfVariableByName m k name = .ok first? := by
  unfold getFirstValueOfVariableByName at h ⊢
  cases hlookup : m.variableMap.lookup name with
  | none =>
      rw [hlookup] at h
      exact h
  | some var =>
      rw [hlookup] at h
      obtain ⟨values, hvalues, heq⟩ := Outcome.bind_eq_ok_iff.mp h
      exact Outcome.bind_eq_ok_iff.mpr ⟨values, resolveNestedVariables_mono
        (fun _ _ => get_mono hnk) hvalues, heq⟩

theorem FirstValue.unique {m : Makefile} {name : Text}
    {first? other? : Option Text} (h : FirstValue m name first?)
    (hother : FirstValue m name other?) : first? = other? := by
  obtain ⟨n, hn⟩ := h
  obtain ⟨k, hk⟩ := hother
  have hmax := first_mono (le_max_left n k) hn
  rw [first_mono (le_max_right n k) hk] at hmax
  cases hmax
  rfl

theorem first_ok_iff {m : Makefile} (hm : HasValues m) (depth : ℕ)
    (name : Text) :
    (∃ first?, getFirstValueOfVariableByName m depth name = .ok first?) ↔
      Ends m (depth + 1) name := by
  unfold Ends get getFirstValueOfVariableByName
  cases hlookup : m.variableMap.lookup name with
  | none => exact ⟨fun _ => ⟨none, rfl⟩, fun _ => ⟨none, rfl⟩⟩
  | some var =>
      constructor
      · rintro ⟨first?, h⟩
        obtain ⟨values, hvalues, -⟩ := Outcome.bind_eq_ok_iff.mp h
        exact ⟨some (varsToString values),
          Outcome.bind_eq_ok_iff.mpr ⟨values, hvalues, rfl⟩⟩
      · rintro ⟨result, h⟩
        obtain ⟨values, hvalues, -⟩ := Outcome.bind_eq_ok_iff.mp h
        have hne := resolved_ne_nil (hm name var hlookup) hvalues
        obtain ⟨first, rest, rfl⟩ := List.exists_cons_of_ne_nil hne
        exact ⟨some first, Outcome.bind_eq_ok_iff.mpr ⟨_, hvalues, rfl⟩⟩

/-- There is a first value unless the lookup can run into a cycle. -/
theorem exists_firstValue_iff {m : Makefile} (hm : HasValues m)
    (name : Text) :
    (∃ first?, FirstValue m name first?) ↔
      ¬ReachesCycle (RefersTo m) name := by
  constructor
  · rintro ⟨first?, depth, h⟩
    exact not_reachesCycle_of_acc (acc_of_ends m (depth + 1) name
      ((first_ok_iff hm depth name).mp ⟨first?, h⟩))
  · intro hcycle
    obtain ⟨depth, hends⟩ := ends_of_acc m name
      (acc_of_not_reachesCycle (finite_references m name) hcycle)
    obtain ⟨first?, h⟩ := (first_ok_iff hm depth name).mpr
      (ends_mono m depth (depth + 1) name (Nat.le_succ depth) hends)
    exact ⟨first?, depth, h⟩

theorem first_ok_or_depth {m : Makefile} (hm : HasValues m) (depth : ℕ)
    (name : Text) :
    (∃ first?, getFirstValueOfVariableByName m depth name = .ok first?) ∨
      getFirstValueOfVariableByName m depth name = .err .depth := by
  unfold getFirstValueOfVariableByName
  cases hlookup : m.variableMap.lookup name with
  | none => exact .inl ⟨none, rfl⟩
  | some var =>
      rcases resolveNestedVariables_ok_or_depth (get_ok_or_depth m depth) var
        with ⟨values, hvalues⟩ | herr
      · have hne := resolved_ne_nil (hm name var hlookup) hvalues
        obtain ⟨first, rest, rfl⟩ := List.exists_cons_of_ne_nil hne
        exact .inl ⟨some first,
          Outcome.bind_eq_ok_iff.mpr ⟨_, hvalues, rfl⟩⟩
      · right
        dsimp only
        rw [herr]
        rfl

end Makefile

/-! ## The component of a makefile -/

inductive BuildStyle where
  | configure
  | cmake
  | make
  | meson
  | custom
  deriving DecidableEq, Repr

inductive ComponentOptionPlatform where
  | all
  | intel
  | sparc
  | arm
  deriving DecidableEq, Repr

structure ComponentOption where
  platform : ComponentOptionPlatform
  opt : Text
  deriving DecidableEq, Repr

inductive ComponentSource (V U : Type) where
  | gitSource (url : U)
  | archiveSource (version : V) (hash : Option Text) (url : U)
  deriving DecidableEq, Repr

structure Component (V U : Type) where
  version : V
  revision : Option ℤ
  sources : HashMap (ComponentSource V U)
  options : List ComponentOption
  buildStyle : BuildStyle

inductive ComponentError where
  | lookup (error : Makefile.CallError)
  | anyhow (message : Text)
  | versionError
  | urlError
  deriving DecidableEq, Repr

namespace Component

/-- What the semver and url crates provide. -/
structure Parsers (V U : Type) where
  version : Text → Option V
  url : Text → Option U

def digitsValue (digits : Text) : ℕ :=
  digits.foldl (fun n c => 10 * n + (c.toNat - '0'.toNat)) 0

def checkI32 (digits : Text) (value : ℤ) : Option ℤ :=
  if digits ≠ [] ∧ digits.all isDigit ∧ -2 ^ 31 ≤ value ∧ value < 2 ^ 31 then
    some value
  else none

/-- `str::parse` at the type `i32`. -/
def parseI32 : Text → Option ℤ
  | '-' :: digits => checkI32 digits (-digitsValue digits)
  | '+' :: digits => checkI32 digits (digitsValue digits)
  | digits => checkI32 digits (digitsValue digits)

/-- A revision that is no number is zero. -/
def parseRevision (s : Text) : ℤ := (parseI32 s).getD 0

def parseBuildStyle (style : Text) : BuildStyle :=
  if style = "justmake".toList then .make
  else if style = "cmake".toList then .cmake
  else if style = "meson".toList then .meson
  else if style = "custom".toList then .custom
  else .configure

def buildStyleOf : Option Text → BuildStyle
  | some style => parseBuildStyle style
  | none => .configure

/-- The values are copied as the makefile has them. -/
def configureOptions (m : Makefile) : List ComponentOption :=
  match m.variableMap.lookup "CONFIGURE_OPTIONS".toList with
  | some opts => opts.values.map fun v => { platform := .all, opt := v }
  | none => []

section Source

variable {V U : Type} (parsers : Parsers V U)

def parseVersion : Option Text → Outcome ComponentError V
  | none => .err (.anyhow "missing component version".toList)
  | some text =>
      match parsers.version text with
      | some ver => .ok ver
      | none => .err .versionError

def parseUrl (text : Text) : Outcome ComponentError U :=
  match parsers.url text with
  | some url => .ok url
  | none => .err .urlError

/-- An archive goes before a repository, also where only the URL of the
repository can be parsed. -/
def sourceOf (ver : V) (componentSrc componentArchiveUrl gitUrl
    componentArchiveHash : Option Text) :
    Outcome ComponentError (Text × ComponentSource V U) :=
  match componentSrc, componentArchiveUrl, gitUrl with
  | some name, some text, _ => do
      let url ← parseUrl parsers text
      return (name, .archiveSource ver componentArchiveHash url)
  | some name, none, some text => do
      let url ← parseUrl parsers text
      return (name, .gitSource url)
  | _, _, _ => .err (.anyhow "no source found in makefile".toList)

def firstValue (m : Makefile) (depth : ℕ) (name : Text) :
    Outcome ComponentError (Option Text) :=
  (m.getFirstValueOfVariableByName depth name).mapErr .lookup

def newFromMakefile (m : Makefile) (depth : ℕ) :
    Outcome ComponentError (Component V U) := do
  let opts := configureOptions m
  let ver ← parseVersion parsers
    (← firstValue m depth "COMPONENT_VERSION".toList)
  let revision ← firstValue m depth "COMPONENT_REVISION".toList
  let componentSrc ← firstValue m depth "COMPONENT_SRC".toList
  let componentArchiveUrl ←
    firstValue m depth "COMPONENT_ARCHIVE_URL".toList
  let gitUrl ← firstValue m depth "GIT_URL".toList
  let componentArchiveHash ←
    firstValue m depth "COMPONENT_ARCHIVE_HASH".toList
  let buildStyle ← firstValue m depth "BUILD_STYLE".toList
  let src ← sourceOf parsers ver componentSrc componentArchiveUrl gitUrl
    componentArchiveHash
  return {
    version := ver
    revision := revision.map parseRevision
    sources := Finmap.singleton src.1 src.2
    options := opts
    buildStyle := buildStyleOf buildStyle }

/-! ## Its parts, from the first values -/

/-- The variables that are looked up behind the version. -/
def detailNames : List Text :=
  ["COMPONENT_REVISION".toList, "COMPONENT_SRC".toList,
    "COMPONENT_ARCHIVE_URL".toList, "GIT_URL".toList,
    "COMPONENT_ARCHIVE_HASH".toList, "BUILD_STYLE".toList]

/-- The component as a function of the first values. -/
def assemble (m : Makefile) (ver : V) (first : Text → Option Text) :
    Outcome ComponentError (Component V U) := do
  let src ← sourceOf parsers ver (first "COMPONENT_SRC".toList)
    (first "COMPONENT_ARCHIVE_URL".toList) (first "GIT_URL".toList)
    (first "COMPONENT_ARCHIVE_HASH".toList)
  return {
    version := ver
    revision := (first "COMPONENT_REVISION".toList).map parseRevision
    sources := Finmap.singleton src.1 src.2
    options := configureOptions m
    buildStyle := buildStyleOf (first "BUILD_STYLE".toList) }

end Source

section Details

variable {V U : Type} {parsers : Parsers V U} {m : Makefile}
  {first : Text → Option Text} {c : Component V U}

/-- Which source a makefile has. -/
inductive IsSource (parsers : Parsers V U) (first : Text → Option Text)
    (ver : V) : ComponentSource V U → Prop
  | archive {text : Text} {url : U}
      (h : first "COMPONENT_ARCHIVE_URL".toList = some text)
      (hurl : parsers.url text = some url) :
      IsSource parsers first ver
        (.archiveSource ver (first "COMPONENT_ARCHIVE_HASH".toList) url)
  | git {text : Text} {url : U}
      (harchive : first "COMPONENT_ARCHIVE_URL".toList = none)
      (h : first "GIT_URL".toList = some text)
      (hurl : parsers.url text = some url) :
      IsSource parsers first ver (.gitSource url)

/-- What a component says about the first values that it is made of. -/
structure Describes (parsers : Parsers V U) (m : Makefile)
    (first : Text → Option Text) (c : Component V U) : Prop where
  version : ∃ text, first "COMPONENT_VERSION".toList = some text ∧
    parsers.version text = some c.version
  revision : c.revision =
    (first "COMPONENT_REVISION".toList).map parseRevision
  sources : ∃ name source, first "COMPONENT_SRC".toList = some name ∧
    IsSource parsers first c.version source ∧
    c.sources = Finmap.singleton name source
  options : c.options = configureOptions m
  buildStyle : c.buildStyle = buildStyleOf (first "BUILD_STYLE".toList)

theorem parseVersion_ok_iff {version? : Option Text} {ver : V} :
    parseVersion parsers version? = .ok ver ↔
      ∃ text, version? = some text ∧ parsers.version text = some ver := by
  cases version? with
  | none => simp [parseVersion]
  | some text => cases hver : parsers.version text <;>
      simp [parseVersion, hver]

theorem parseUrl_ok_iff {text : Text} {url : U} :
    parseUrl parsers text = .ok url ↔ parsers.url text = some url := by
  cases hurl : parsers.url text <;> simp [parseUrl, hurl]

theorem sourceOf_ok_iff {ver : V} {src : Text × ComponentSource V U} :
    sourceOf parsers ver (first "COMPONENT_SRC".toList)
        (first "COMPONENT_ARCHIVE_URL".toList) (first "GIT_URL".toList)
        (first "COMPONENT_ARCHIVE_HASH".toList) = .ok src ↔
      first "COMPONENT_SRC".toList = some src.1 ∧
        IsSource parsers first ver src.2 := by
  constructor
  · intro h
    cases hname : first "COMPONENT_SRC".toList with
    | none =>
        rw [hname] at h
        cases h
    | some name =>
        cases harchive : first "COMPONENT_ARCHIVE_URL".toList with
        | some text =>
            rw [hname, harchive] at h
            obtain ⟨url, hurl, heq⟩ := Outcome.bind_eq_ok_iff.mp h
            cases heq
            exact ⟨rfl, .archive harchive (parseUrl_ok_iff.mp hurl)⟩
        | none =>
            cases hgit : first "GIT_URL".toList with
            | none =>
                rw [hname, harchive, hgit] at h
                cases h
            | some text =>
                rw [hname, harchive, hgit] at h
                obtain ⟨url, hurl, heq⟩ := Outcome.bind_eq_ok_iff.mp h
                cases heq
                exact ⟨rfl, .git harchive hgit (parseUrl_ok_iff.mp hurl)⟩
  · obtain ⟨name, source⟩ := src
    rintro ⟨hname, hsource⟩
    dsimp only at hname hsource
    cases hsource with
    | archive harchive hurl =>
        rw [hname, harchive]
        exact Outcome.bind_eq_ok_iff.mpr ⟨_, parseUrl_ok_iff.mpr hurl, rfl⟩
    | git harchive hgit hurl =>
        rw [hname, harchive, hgit]
        exact Outcome.bind_eq_ok_iff.mpr ⟨_, parseUrl_ok_iff.mpr hurl, rfl⟩

theorem assemble_ok_iff :
    (parseVersion parsers (first "COMPONENT_VERSION".toList) >>= fun ver =>
      assemble parsers m ver first) = .ok c ↔
      Describes parsers m first c := by
  constructor
  · intro h
    obtain ⟨ver, hver, hassemble⟩ := Outcome.bind_eq_ok_iff.mp h
    obtain ⟨src, hsrc, heq⟩ := Outcome.bind_eq_ok_iff.mp hassemble
    obtain ⟨hname, hsource⟩ := sourceOf_ok_iff.mp hsrc
    cases heq
    exact ⟨parseVersion_ok_iff.mp hver, rfl,
      ⟨src.1, src.2, hname, hsource, rfl⟩, rfl, rfl⟩
  · rintro ⟨hver, hrevision, ⟨name, source, hname, hsource, hsources⟩,
      hoptions, hstyle⟩
    obtain ⟨version, revision, sources, options, buildStyle⟩ := c
    dsimp only at hver hrevision hsource hsources hoptions hstyle
    refine Outcome.bind_eq_ok_iff.mpr
      ⟨version, parseVersion_ok_iff.mpr hver, ?_⟩
    refine Outcome.bind_eq_ok_iff.mpr
      ⟨(name, source), sourceOf_ok_iff.mpr ⟨hname, hsource⟩, ?_⟩
    rw [hrevision, hsources, hoptions, hstyle]
    rfl

/-! ## Lookups that end -/

theorem firstValue_ok_iff {depth : ℕ} {name : Text} {first? : Option Text} :
    firstValue m depth name = .ok first? ↔
      m.getFirstValueOfVariableByName depth name = .ok first? :=
  Outcome.mapErr_eq_ok_iff

theorem firstValue_mono {n k : ℕ} {name : Text} {first? : Option Text}
    (hnk : n ≤ k) (h : firstValue m n name = .ok first?) :
    firstValue m k name = .ok first? :=
  firstValue_ok_iff.mpr (Makefile.first_mono hnk (firstValue_ok_iff.mp h))

theorem newFromMakefile_of_first {depth : ℕ}
    (h : ∀ name ∈ "COMPONENT_VERSION".toList :: detailNames,
      firstValue m depth name = .ok (first name)) :
    newFromMakefile parsers m depth =
      parseVersion parsers (first "COMPONENT_VERSION".toList) >>= fun ver =>
        assemble parsers m ver first := by
  simp only [detailNames, List.forall_mem_cons] at h
  obtain ⟨hversion, hrevision, hsrc, harchive, hgit, hhash, hstyle, -⟩ := h
  unfold newFromMakefile
  simp only [hversion, hrevision, hsrc, harchive, hgit, hhash, hstyle,
    Outcome.ok_bind]
  rfl

/-- A run that makes a component has looked up all the variables. -/
theorem lookups_of_ok {depth : ℕ}
    (h : newFromMakefile parsers m depth = .ok c) :
    ∀ name ∈ "COMPONENT_VERSION".toList :: detailNames,
      ∃ first?, firstValue m depth name = .ok first? := by
  obtain ⟨version?, hversion, h⟩ := Outcome.bind_eq_ok_iff.mp h
  obtain ⟨ver, -, h⟩ := Outcome.bind_eq_ok_iff.mp h
  obtain ⟨revision, hrevision, h⟩ := Outcome.bind_eq_ok_iff.mp h
  obtain ⟨src, hsrc, h⟩ := Outcome.bind_eq_ok_iff.mp h
  obtain ⟨archive, harchive, h⟩ := Outcome.bind_eq_ok_iff.mp h
  obtain ⟨git, hgit, h⟩ := Outcome.bind_eq_ok_iff.mp h
  obtain ⟨hash, hhash, h⟩ := Outcome.bind_eq_ok_iff.mp h
  obtain ⟨style, hstyle, -⟩ := Outcome.bind_eq_ok_iff.mp h
  simp only [detailNames, List.forall_mem_cons]
  exact ⟨⟨_, hversion⟩, ⟨_, hrevision⟩, ⟨_, hsrc⟩, ⟨_, harchive⟩, ⟨_, hgit⟩,
    ⟨_, hhash⟩, ⟨_, hstyle⟩, by simp⟩

theorem exists_depth {names : List Text} (first : Text → Option Text)
    (h : ∀ name ∈ names, m.FirstValue name (first name)) :
    ∃ depth, ∀ name ∈ names, firstValue m depth name = .ok (first name) := by
  refine exists_common_bound ?_ ?_
  · intro n k name hnk hname
    exact firstValue_mono hnk hname
  · intro name hname
    obtain ⟨depth, hdepth⟩ := h name hname
    exact ⟨depth, firstValue_ok_iff.mpr hdepth⟩

/-- A makefile gives a component exactly when the lookups end and the first
values describe one. -/
theorem newFromMakefile_ok_iff :
    (∃ depth, newFromMakefile parsers m depth = .ok c) ↔
      ∃ first, (∀ name ∈ "COMPONENT_VERSION".toList :: detailNames,
        m.FirstValue name (first name)) ∧ Describes parsers m first c := by
  constructor
  · rintro ⟨depth, h⟩
    choose! first hfirst using lookups_of_ok h
    rw [newFromMakefile_of_first hfirst] at h
    exact ⟨first, fun name hname =>
      ⟨depth, firstValue_ok_iff.mp (hfirst name hname)⟩,
      assemble_ok_iff.mp h⟩
  · rintro ⟨first, hfirst, hc⟩
    obtain ⟨depth, hdepth⟩ := exists_depth first hfirst
    refine ⟨depth, ?_⟩
    rw [newFromMakefile_of_first hdepth]
    exact assemble_ok_iff.mpr hc

/-! ## Makefiles that programs can hold -/

theorem firstValue_ok_or_depth (hm : m.HasValues) (depth : ℕ) (name : Text) :
    (∃ first?, firstValue m depth name = .ok first?) ∨
      firstValue m depth name = .err (.lookup .depth) := by
  unfold firstValue
  rcases Makefile.first_ok_or_depth hm depth name with ⟨first?, h⟩ | h
  · rw [h]
    exact .inl ⟨first?, rfl⟩
  · rw [h]
    exact .inr rfl

/-- A lookup that is run has ended if the whole run has. -/
theorem firstValue_of_bind_ne (hm : m.HasValues) {depth : ℕ} {name : Text}
    {α : Type} {f : Option Text → Outcome ComponentError α}
    (h : (firstValue m depth name >>= f) ≠ .err (.lookup .depth)) :
    ∃ first?, firstValue m depth name = .ok first? ∧
      f first? ≠ .err (.lookup .depth) := by
  rcases firstValue_ok_or_depth hm depth name with ⟨first?, hfirst⟩ | herr
  · rw [hfirst] at h
    exact ⟨first?, hfirst, h⟩
  · rw [herr] at h
    exact absurd rfl h

theorem lookups_of_ends (hm : m.HasValues) {depth : ℕ}
    (h : newFromMakefile parsers m depth ≠ .err (.lookup .depth)) :
    ∃ version?, firstValue m depth "COMPONENT_VERSION".toList =
        .ok version? ∧
      ∀ ver, parseVersion parsers version? = .ok ver →
        ∀ name ∈ detailNames, ∃ first?,
          firstValue m depth name = .ok first? := by
  unfold newFromMakefile at h
  obtain ⟨version?, hversion, h⟩ := firstValue_of_bind_ne hm h
  refine ⟨version?, hversion, ?_⟩
  intro ver hver
  rw [hver, Outcome.ok_bind] at h
  obtain ⟨revision, hrevision, h⟩ := firstValue_of_bind_ne hm h
  obtain ⟨src, hsrc, h⟩ := firstValue_of_bind_ne hm h
  obtain ⟨archive, harchive, h⟩ := firstValue_of_bind_ne hm h
  obtain ⟨git, hgit, h⟩ := firstValue_of_bind_ne hm h
  obtain ⟨hash, hhash, h⟩ := firstValue_of_bind_ne hm h
  obtain ⟨style, hstyle, -⟩ := firstValue_of_bind_ne hm h
  simp only [detailNames, List.forall_mem_cons]
  exact ⟨⟨_, hrevision⟩, ⟨_, hsrc⟩, ⟨_, harchive⟩, ⟨_, hgit⟩, ⟨_, hhash⟩,
    ⟨_, hstyle⟩, by simp⟩

/-- A result, or an error of the makefile and not of its lookups. -/
def Answers {α : Type} (x : Outcome ComponentError α) : Prop :=
  (∃ a, x = .ok a) ∨ ∃ error, error ≠ .lookup .depth ∧ x = .err error

theorem Answers.bind {α β : Type} {x : Outcome ComponentError α}
    {f : α → Outcome ComponentError β} (hx : Answers x)
    (hf : ∀ a, Answers (f a)) : Answers (x >>= f) := by
  rcases hx with ⟨a, rfl⟩ | ⟨error, hne, rfl⟩
  · exact hf a
  · exact .inr ⟨error, hne, rfl⟩

theorem Answers.ne_depth {α : Type} {x : Outcome ComponentError α}
    (hx : Answers x) : x ≠ .err (.lookup .depth) := by
  rcases hx with ⟨a, rfl⟩ | ⟨error, hne, rfl⟩
  · simp
  · exact fun heq => hne (Outcome.err.inj heq)

theorem answers_parseVersion (version? : Option Text) :
    Answers (parseVersion parsers version?) := by
  cases version? with
  | none => exact .inr ⟨_, ComponentError.noConfusion, rfl⟩
  | some text =>
      cases hver : parsers.version text with
      | none => exact .inr ⟨.versionError, by simp, by simp [parseVersion, hver]⟩
      | some ver => exact .inl ⟨ver, by simp [parseVersion, hver]⟩

theorem answers_parseUrl (text : Text) : Answers (parseUrl parsers text) := by
  cases hurl : parsers.url text with
  | none => exact .inr ⟨.urlError, by simp, by simp [parseUrl, hurl]⟩
  | some url => exact .inl ⟨url, parseUrl_ok_iff.mpr hurl⟩

theorem answers_sourceOf (ver : V) (src archive git hash : Option Text) :
    Answers (sourceOf parsers ver src archive git hash) := by
  unfold sourceOf
  split
  · exact (answers_parseUrl _).bind fun _ => .inl ⟨_, rfl⟩
  · exact (answers_parseUrl _).bind fun _ => .inl ⟨_, rfl⟩
  · exact .inr ⟨_, ComponentError.noConfusion, rfl⟩

theorem answers_assemble (ver : V) (first : Text → Option Text) :
    Answers (assemble parsers m ver first) :=
  (answers_sourceOf _ _ _ _ _).bind fun _ => .inl ⟨_, rfl⟩

theorem newFromMakefile_of_err {depth : ℕ} {version? : Option Text}
    {error : ComponentError}
    (h : firstValue m depth "COMPONENT_VERSION".toList = .ok version?)
    (hver : parseVersion parsers version? = .err error) :
    newFromMakefile parsers m depth = .err error := by
  unfold newFromMakefile
  simp only [h, hver, Outcome.ok_bind, Outcome.err_bind]

/-- A run that ends is the same at every greater depth, and it answers. -/
theorem newFromMakefile_mono (hm : m.HasValues) {n : ℕ}
    (h : newFromMakefile parsers m n ≠ .err (.lookup .depth)) :
    Answers (newFromMakefile parsers m n) ∧
      ∀ k, n ≤ k → newFromMakefile parsers m k =
        newFromMakefile parsers m n := by
  obtain ⟨version?, hversion, hdetails⟩ := lookups_of_ends hm h
  rcases answers_parseVersion version? with
    ⟨ver, hver⟩ | ⟨error, hne, herr⟩
  · have hall : ∀ name ∈ "COMPONENT_VERSION".toList :: detailNames,
        ∃ first?, firstValue m n name = .ok first? :=
      List.forall_mem_cons.mpr ⟨⟨version?, hversion⟩, hdetails ver hver⟩
    choose! first hfirst using hall
    rw [newFromMakefile_of_first hfirst]
    refine ⟨(answers_parseVersion _).bind fun ver =>
      answers_assemble ver first, ?_⟩
    intro k hnk
    exact newFromMakefile_of_first fun name hname =>
      firstValue_mono hnk (hfirst name hname)
  · rw [newFromMakefile_of_err hversion herr]
    refine ⟨.inr ⟨error, hne, rfl⟩, ?_⟩
    intro k hnk
    exact newFromMakefile_of_err (firstValue_mono hnk hversion) herr

/-- Making a component out of a makefile that a program can hold never
panics.  It ends exactly when no cycle of references can be reached from the
version and, behind a version that can be parsed, from the other variables. -/
theorem newFromMakefile_ends_iff {upper : Makefile.UppercaseTable}
    (h : Makefile.Obtained upper m) :
    (∀ depth,
      newFromMakefile parsers m depth = .err (.lookup .depth) ∨
        Answers (newFromMakefile parsers m depth) ∧
          ∀ k, depth ≤ k → newFromMakefile parsers m k =
            newFromMakefile parsers m depth) ∧
    ((∃ depth, newFromMakefile parsers m depth ≠ .err (.lookup .depth)) ↔
      ¬ReachesCycle m.RefersTo "COMPONENT_VERSION".toList ∧
      ∀ text ver, m.FirstValue "COMPONENT_VERSION".toList (some text) →
        parsers.version text = some ver →
          ∀ name ∈ detailNames, ¬ReachesCycle m.RefersTo name) := by
  have hm := h.hasValues
  constructor
  · intro depth
    by_cases hdepth :
        newFromMakefile parsers m depth = .err (.lookup .depth)
    · exact .inl hdepth
    · exact .inr (newFromMakefile_mono hm hdepth)
  constructor
  · rintro ⟨depth, hends⟩
    obtain ⟨version?, hversion, hdetails⟩ := lookups_of_ends hm hends
    have hfirst : m.FirstValue "COMPONENT_VERSION".toList version? :=
      ⟨depth, firstValue_ok_iff.mp hversion⟩
    refine ⟨(Makefile.exists_firstValue_iff hm _).mp ⟨_, hfirst⟩, ?_⟩
    intro text ver htext hver name hname
    have hparse : parseVersion parsers version? = .ok ver :=
      parseVersion_ok_iff.mpr ⟨text, hfirst.unique htext, hver⟩
    obtain ⟨first?, hname⟩ := hdetails ver hparse name hname
    exact (Makefile.exists_firstValue_iff hm name).mp
      ⟨first?, depth, firstValue_ok_iff.mp hname⟩
  · rintro ⟨hversion, hdetails⟩
    obtain ⟨version?, hfirst⟩ :=
      (Makefile.exists_firstValue_iff hm _).mpr hversion
    rcases answers_parseVersion version? with
      ⟨ver, hver⟩ | ⟨error, hne, herr⟩
    · obtain ⟨text, rfl, hparse⟩ := parseVersion_ok_iff.mp hver
      have hall : ∀ name ∈ "COMPONENT_VERSION".toList :: detailNames,
          ∃ first?, m.FirstValue name first? :=
        List.forall_mem_cons.mpr ⟨⟨_, hfirst⟩, fun name hname =>
          (Makefile.exists_firstValue_iff hm name).mpr
            (hdetails text ver hfirst hparse name hname)⟩
      choose! first hvalues using hall
      obtain ⟨depth, hdepth⟩ := exists_depth first hvalues
      refine ⟨depth, ?_⟩
      rw [newFromMakefile_of_first hdepth]
      exact ((answers_parseVersion _).bind fun ver =>
        answers_assemble ver first).ne_depth
    · obtain ⟨depth, hdepth⟩ := hfirst
      refine ⟨depth, ?_⟩
      rw [newFromMakefile_of_err (firstValue_ok_iff.mpr hdepth) herr]
      exact fun heq => hne (Outcome.err.inj heq)

end Details

/-- The makefile of the text `COMPONENT_VERSION=1` and
`COMPONENT_SRC=$(COMPONENT_SRC)`. -/
def cyclicMakefile : Makefile :=
  Makefile.insertVariable
    (Makefile.insertVariable Makefile.new
      ("COMPONENT_VERSION".toList, { values := ["1".toList] }))
    ("COMPONENT_SRC".toList, { values := ["$(COMPONENT_SRC)".toList] })

/-- Texts stand for themselves; one number is no version. -/
def textParsers : Parsers Text Text where
  version := fun text => if '.' ∈ text then some text else none
  url := some

theorem newFromMakefile_ends_cyclic :
    ∃ depth, newFromMakefile textParsers cyclicMakefile depth ≠
      .err (.lookup .depth) := by
  have hparse : Makefile.parseString Makefile.asciiUppercase
      "COMPONENT_VERSION=1\nCOMPONENT_SRC=$(COMPONENT_SRC)\n".toList =
        .ok cyclicMakefile := by
    decide +kernel
  have hobtained := Makefile.Obtained.parseString hparse
  have hfirst : cyclicMakefile.FirstValue "COMPONENT_VERSION".toList
      (some "1".toList) :=
    ⟨1, by decide +kernel⟩
  refine (newFromMakefile_ends_iff hobtained).2.mpr ⟨?_, ?_⟩
  · exact (Makefile.exists_firstValue_iff hobtained.hasValues _).mp
      ⟨_, hfirst⟩
  · intro text ver htext hver
    cases hfirst.unique htext
    cases hver

end Component

end Ips
