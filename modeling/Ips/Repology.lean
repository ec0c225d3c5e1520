import Ips.RustPrelude

/-!
# The newest version of a package

`find_newest_version` asks the repology service for the packages of a project
and takes the last of their versions in order (`userland/src/repology.rs`).  A
text that is no semantic version takes part as version 0.0.1, so this stand-in
can come out as the newest, and without packages there is no last version.

Versions are those of the semver crate: their texts, their order and their
constructor are parameters.
-/

namespace Ips.Repology

/-- What the semver crate provides; a version that was printed can be parsed
again. -/
structure Semver (V : Type) where
  parse : Text → Option V
  new : ℕ → ℕ → ℕ → V
  toText : V → Text
  parse_toText : ∀ v, parse (toText v) = some v

structure Package where
  version : Text

def baseUrl : Text := "https://repology.org/api/v1/".toList

section Source

variable {E V : Type} [LinearOrder V]

/-- The request is a parameter: it gets an address and returns what the
service answers. -/
def project (get : Text → Outcome E (List Package)) (package : Text) :
    Outcome E (List Package) :=
  get (baseUrl ++ "/project/".toList ++ package)

def parseVersion (semver : Semver V) (p : Package) : Outcome E V :=
  match semver.parse p.version with
  | some v => .ok v
  | none => .ok (semver.new 0 0 1)

def pushVersion (semver : Semver V) (versions : List V) (p : Package) :
    Outcome E (List V) := do
  let v ← parseVersion semver p
  return versions ++ [v]

def findNewestVersion (semver : Semver V)
    (get : Text → Outcome E (List Package)) (package : Text) :
    Outcome E Text := do
  let pkgs ← project get package
  let versions ← Outcome.fold (pushVersion semver) [] pkgs
  match (versions.mergeSort (· ≤ ·)).getLast? with
  | some v => return semver.toText v
  | none => .panic "called `Option::unwrap()` on a `None` value"

end Source

/-! ## The last of the sorted versions -/

section Newest

variable {E V : Type} (semver : Semver V)

def versionOrStandIn (p : Package) : V :=
  (semver.parse p.version).getD (semver.new 0 0 1)

theorem toText_injective {v w : V} (h : semver.toText v = semver.toText w) :
    v = w := by
  have hparse := semver.parse_toText v
  rw [h, semver.parse_toText] at hparse
  exact (Option.some.inj hparse).symm

theorem versionOrStandIn_of_some {p : Package} {v : V}
    (h : semver.parse p.version = some v) : versionOrStandIn semver p = v := by
  rw [versionOrStandIn, h, Option.getD_some]

theorem versionOrStandIn_of_none {p : Package}
    (h : semver.parse p.version = none) :
    versionOrStandIn semver p = semver.new 0 0 1 := by
  rw [versionOrStandIn, h, Option.getD_none]

theorem fold_pushVersion (versions : List V) (pkgs : List Package) :
    Outcome.fold (pushVersion (E := E) semver) versions pkgs =
      .ok (versions ++ pkgs.map (versionOrStandIn semver)) := by
  have hpush : ∀ versions p, pushVersion (E := E) semver versions p =
      .ok (versions ++ [versionOrStandIn semver p]) := by
    intro versions p
    unfold pushVersion parseVersion versionOrStandIn
    cases semver.parse p.version <;> rfl
  induction pkgs generalizing versions with
  | nil => simp [Outcome.fold]
  | cons p pkgs ih =>
      rw [Outcome.fold_cons, hpush, Outcome.ok_bind, ih, List.map_cons,
        List.append_assoc]
      rfl

variable [LinearOrder V]

theorem getLast?_mergeSort {versions : List V} {v : V}
    (h : (versions.mergeSort (· ≤ ·)).getLast? = some v) :
    v ∈ versions ∧ ∀ w ∈ versions, w ≤ v := by
  obtain ⟨lower, hsorted⟩ := List.getLast?_eq_some_iff.mp h
  have hpairwise := List.pairwise_mergeSort' (· ≤ ·) versions
  rw [hsorted, List.pairwise_append] at hpairwise
  have hmem : ∀ w, w ∈ versions ↔ w ∈ lower ++ [v] := by
    intro w
    rw [← hsorted, List.mem_mergeSort]
  refine ⟨(hmem v).mpr (by simp), ?_⟩
  intro w hw
  rcases List.mem_append.mp ((hmem w).mp hw) with hlower | hlast
  · exact hpairwise.2.2 w hlower v (by simp)
  · rw [List.mem_singleton.mp hlast]

variable (get : Text → Outcome E (List Package)) {package : Text}
  {pkgs : List Package}

theorem findNewestVersion_nil (h : project get package = .ok []) :
    findNewestVersion semver get package =
      .panic "called `Option::unwrap()` on a `None` value" := by
  unfold findNewestVersion
  rw [h, Outcome.ok_bind, fold_pushVersion, Outcome.ok_bind]
  simp

/-- With packages there is always an answer: the greatest version, where the
stand-in counts for every text that does not parse. -/
theorem findNewestVersion_eq_ok (h : project get package = .ok pkgs)
    (hne : pkgs ≠ []) :
    ∃ v, findNewestVersion semver get package = .ok (semver.toText v) ∧
      v ∈ pkgs.map (versionOrStandIn semver) ∧
      ∀ w ∈ pkgs.map (versionOrStandIn semver), w ≤ v := by
  have hsome : ((pkgs.map (versionOrStandIn semver)).mergeSort
      (· ≤ ·)).getLast? ≠ none := by
    rw [Ne, List.getLast?_eq_none_iff, ← List.length_eq_zero_iff,
      List.length_mergeSort, List.length_map, List.length_eq_zero_iff]
    exact hne
  obtain ⟨v, hv⟩ := Option.ne_none_iff_exists'.mp hsome
  refine ⟨v, ?_, getLast?_mergeSort hv⟩
  unfold findNewestVersion
  rw [h, Outcome.ok_bind, fold_pushVersion, Outcome.ok_bind, List.nil_append,
    hv]
  rfl

/-! ## When the newest version is found -/

/-- The version of a package, with every other version below it. -/
def IsNewest (pkgs : List Package) (v : V) : Prop :=
  (∃ p ∈ pkgs, semver.parse p.version = some v) ∧
    ∀ p ∈ pkgs, ∀ w, semver.parse p.version = some w → w ≤ v

/-- The greatest of the versions that parse, or an error when none does. -/
structure AnswersNewest (pkgs : List Package) (result : Outcome E Text) :
    Prop where
  no_panic : ∀ message, result ≠ .panic message
  newest : (∃ p ∈ pkgs, (semver.parse p.version).isSome) →
    ∃ v, IsNewest semver pkgs v ∧ result = .ok (semver.toText v)
  error : (∀ p ∈ pkgs, semver.parse p.version = none) →
    ∃ e, result = .err e

/-- Some version parses, and the stand-in does not exceed all of these or is
not needed. -/
def Comparable (pkgs : List Package) : Prop :=
  ∃ p ∈ pkgs, ∃ v, semver.parse p.version = some v ∧
    ((∀ q ∈ pkgs, (semver.parse q.version).isSome) ∨ semver.new 0 0 1 ≤ v)

theorem answersNewest_ok_iff (v : V) :
    AnswersNewest (E := E) semver pkgs (.ok (semver.toText v)) ↔
      IsNewest semver pkgs v := by
  constructor
  · intro hanswers
    have hsome : ∃ p ∈ pkgs, (semver.parse p.version).isSome := by
      by_contra hnone
      push Not at hnone
      obtain ⟨e, he⟩ := hanswers.error fun p hp => by simpa using hnone p hp
      cases he
    obtain ⟨w, hnewest, heq⟩ := hanswers.newest hsome
    rw [toText_injective semver (Outcome.ok.inj heq)]
    exact hnewest
  · intro hnewest
    refine ⟨?_, fun _ => ⟨v, hnewest, rfl⟩, ?_⟩
    · intro message hpanic
      cases hpanic
    · intro hnone
      obtain ⟨⟨p, hp, hv⟩, -⟩ := hnewest
      rw [hnone p hp] at hv
      cases hv

section Greatest

variable {v : V} (hgreatest : ∀ w ∈ pkgs.map (versionOrStandIn semver), w ≤ v)
include hgreatest

theorem le_of_parse {p : Package} (hp : p ∈ pkgs) {w : V}
    (hw : semver.parse p.version = some w) : w ≤ v := by
  rw [← versionOrStandIn_of_some semver hw]
  exact hgreatest _ (List.mem_map_of_mem hp)

theorem standIn_le_of_parse {p : Package} (hp : p ∈ pkgs)
    (hnone : semver.parse p.version = none) : semver.new 0 0 1 ≤ v := by
  rw [← versionOrStandIn_of_none semver hnone]
  exact hgreatest _ (List.mem_map_of_mem hp)

theorem isNewest_of_comparable (hcomparable : Comparable semver pkgs)
    (hmem : v ∈ pkgs.map (versionOrStandIn semver)) :
    IsNewest semver pkgs v := by
  refine ⟨?_, fun p hp w => le_of_parse semver hgreatest hp⟩
  obtain ⟨q, hq, hv⟩ := List.mem_map.mp hmem
  cases hparse : semver.parse q.version with
  | some w =>
      rw [versionOrStandIn_of_some semver hparse] at hv
      exact ⟨q, hq, hv ▸ hparse⟩
  | none =>
      -- The greatest is the stand-in, so a version that parses is equal to it.
      rw [versionOrStandIn_of_none semver hparse] at hv
      obtain ⟨p, hp, w, hw, hall | hstandIn⟩ := hcomparable
      · have hsome := hall q hq
        rw [hparse] at hsome
        cases hsome
      · have heq : w = v :=
          le_antisymm (le_of_parse semver hgreatest hp hw) (hv ▸ hstandIn)
        exact ⟨p, hp, heq ▸ hw⟩

theorem comparable_of_isNewest (hnewest : IsNewest semver pkgs v) :
    Comparable semver pkgs := by
  obtain ⟨⟨p, hp, hv⟩, -⟩ := hnewest
  refine ⟨p, hp, v, hv, ?_⟩
  by_cases hall : ∀ q ∈ pkgs, (semver.parse q.version).isSome
  · exact .inl hall
  · push Not at hall
    obtain ⟨q, hq, hnone⟩ := hall
    exact .inr (standIn_le_of_parse semver hgreatest hq (by simpa using hnone))

end Greatest

/-- The newest version is found exactly when some version parses and, if others
do not, one that parses is at least 0.0.1. -/
theorem findNewestVersion_answers_iff (h : project get package = .ok pkgs) :
    AnswersNewest semver pkgs (findNewestVersion semver get package) ↔
      Comparable semver pkgs := by
  by_cases hne : pkgs = []
  · subst hne
    rw [findNewestVersion_nil semver get h]
    constructor
    · intro hanswers
      exact absurd rfl (hanswers.no_panic _)
    · rintro ⟨p, hp, -⟩
      cases hp
  · obtain ⟨v, hresult, hmem, hgreatest⟩ :=
      findNewestVersion_eq_ok semver get h hne
    rw [hresult, answersNewest_ok_iff]
    constructor
    · exact comparable_of_isNewest semver hgreatest
    · intro hcomparable
      exact isNewest_of_comparable semver hgreatest hcomparable hmem

end Newest

/-! ## Plain versions -/

/-- Versions without pre-release and build parts. -/
abbrev Plain := ℕ ×ₗ ℕ ×ₗ ℕ

/-- A decimal number without leading zeros. -/
def parseNumber (s : Text) : Option ℕ :=
  let n := Nat.ofDigitChars 10 s 0
  if Nat.toDigits 10 n = s then some n else none

theorem parseNumber_toDigits (n : ℕ) :
    parseNumber (Nat.toDigits 10 n) = some n := by
  simp [parseNumber, Nat.ofDigitChars_ten_toDigits]

def Plain.new (major minor patch : ℕ) : Plain :=
  toLex (major, toLex (minor, patch))

def Plain.parse (s : Text) : Option Plain :=
  match splitAt '.' s with
  | [major, minor, patch] => do
      return .new (← parseNumber major) (← parseNumber minor)
        (← parseNumber patch)
  | _ => none

def Plain.toText (v : Plain) : Text :=
  Nat.toDigits 10 v.1 ++ '.' ::
    (Nat.toDigits 10 v.2.1 ++ '.' :: Nat.toDigits 10 v.2.2)

theorem dot_not_mem_toDigits (n : ℕ) : '.' ∉ Nat.toDigits 10 n := by
  intro h
  have hdigit := Nat.isDigit_of_mem_toDigits (by decide) (by decide) h
  revert hdigit
  decide

theorem Plain.parse_toText (v : Plain) : parse v.toText = some v := by
  have hsplit : splitAt '.' v.toText = [Nat.toDigits 10 v.1,
      Nat.toDigits 10 v.2.1, Nat.toDigits 10 v.2.2] := by
    unfold toText
    rw [splitAt_append_cons (dot_not_mem_toDigits _),
      splitAt_append_cons (dot_not_mem_toDigits _),
      splitAt_of_not_mem (dot_not_mem_toDigits _)]
  unfold parse
  rw [hsplit]
  simp only [parseNumber_toDigits]
  rfl

def plain : Semver Plain where
  parse := Plain.parse
  new := Plain.new
  toText := Plain.toText
  parse_toText := Plain.parse_toText

/-- A service that always lists packages with the given versions. -/
def listing (versions : List String) : Text → Outcome Unit (List Package) :=
  fun _ => .ok (versions.map fun version => ⟨version.toList⟩)

theorem findNewestVersion_answers_listing :
    AnswersNewest plain
      (["1.9.0", "unknown", "1.10.0"].map fun version => ⟨version.toList⟩)
      (findNewestVersion plain (listing ["1.9.0", "unknown", "1.10.0"])
        "zlib".toList) := by
  apply (findNewestVersion_answers_iff plain _ rfl).mpr
  refine ⟨⟨"1.9.0".toList⟩, by simp, Plain.new 1 9 0, by decide +kernel, ?_⟩
  right
  decide +kernel

/-- A version below the stand-in, next to one that does not parse. -/
theorem findNewestVersion_lower :
    findNewestVersion plain (listing ["0.0.0", "unknown"]) "zlib".toList =
      .ok "0.0.1".toList := by
  have hproject : project (listing ["0.0.0", "unknown"]) "zlib".toList =
      .ok [⟨"0.0.0".toList⟩, ⟨"unknown".toList⟩] := rfl
  have hversions : [⟨"0.0.0".toList⟩, ⟨"unknown".toList⟩].map
      (versionOrStandIn plain) = [Plain.new 0 0 0, Plain.new 0 0 1] := by
    decide +kernel
  obtain ⟨v, hresult, hmem, hgreatest⟩ :=
    findNewestVersion_eq_ok plain _ hproject (by simp)
  rw [hversions] at hmem hgreatest
  have hle : Plain.new 0 0 1 ≤ v := hgreatest _ (by simp)
  have hv : v = Plain.new 0 0 1 := by
    rcases List.mem_pair.mp hmem with rfl | hv
    · exact absurd hle (by decide +kernel)
    · exact hv
  rw [hresult, hv]
  decide +kernel

/-- Without packages the call panics; without a version that parses, and with
a lower one only, it answers with the stand-in. -/
theorem findNewestVersion_standIn :
    findNewestVersion plain (listing []) "zlib".toList =
        .panic "called `Option::unwrap()` on a `None` value" ∧
      findNewestVersion plain (listing ["unknown"]) "zlib".toList =
        .ok "0.0.1".toList ∧
      findNewestVersion plain (listing ["0.0.0", "unknown"]) "zlib".toList =
        .ok "0.0.1".toList ∧
      ¬∀ versions : List String, AnswersNewest plain
        (versions.map fun version => ⟨version.toList⟩)
        (findNewestVersion plain (listing versions) "zlib".toList) := by
  have hnil : findNewestVersion plain (listing []) "zlib".toList =
      .panic "called `Option::unwrap()` on a `None` value" := by
    decide +kernel
  refine ⟨hnil, by decide +kernel, findNewestVersion_lower, ?_⟩
  intro h
  exact (h []).no_panic _ hnil

end Ips.Repology
