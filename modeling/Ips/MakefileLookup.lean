import Ips.Cycles
import Ips.MakefileInclude

/-!
# Looking up variables

`Makefile::get` replaces the references `$(NAME)` in the values of a variable
by the values of the variables they name, which it looks up in the same way.
A lookup ends exactly when no cycle of references can be reached from its name.
-/

namespace Ips.Makefile

open Peg Relation

/-! ## References in a value -/

/-- A match of `\$\(.+?\)` at the start of the text. -/
def matchReference : Reader Text := fun s =>
  match s with
  | '$' :: '(' :: c :: t =>
      if c = '\n' then none
      else
        match t.dropWhile fun d => d != ')' && d != '\n' with
        | ')' :: u =>
            some ('$' :: '(' :: c ::
              (t.takeWhile (fun d => d != ')' && d != '\n') ++ [')']), u)
        | _ => none
  | _ => none

/-- One round of the search: a match is taken as a whole, and where none
starts the search goes on with the next character. -/
def nextCapture : Reader (List Text) := fun s =>
  match matchReference s with
  | some (capture, t) => some ([capture], t)
  | none =>
      match s with
      | [] => none
      | _ :: t => some ([], t)

/-- `Regex::captures_iter`: the leftmost matches that do not overlap. -/
def capturesIter (s : Text) : List Text := (repeatAll id nextCapture s).1

/-- `str::replace` of `$(` by nothing. -/
def removeOpening : Text → Text
  | [] => []
  | [c] => [c]
  | '$' :: '(' :: t => removeOpening t
  | c :: d :: t => c :: removeOpening (d :: t)

def nestedVarName (capture : Text) : Text :=
  removeChars [')'] (removeOpening capture)

/-- `str::replacen` with the count one. -/
def replaceFirst (pattern replacement : Text) : Text → Text
  | [] => if pattern = [] then replacement else []
  | c :: t =>
      if pattern.isPrefixOf (c :: t) then
        replacement ++ (c :: t).drop pattern.length
      else c :: replaceFirst pattern replacement t

/-! ## Lookups -/

/-- One round of the inner loop of `resolve_nested_variables`, given the
recursive call of `get`. -/
def resolveCapture (get : Text → Outcome CallError (Option Text))
    (value capture : Text) : Outcome CallError Text := do
  match ← get (nestedVarName capture) with
  | some resolved => return replaceFirst capture resolved value
  | none => return value

def resolveValue (get : Text → Outcome CallError (Option Text))
    (resolved : List Text) (value : Text) :
    Outcome CallError (List Text) := do
  let value' ← Outcome.fold (resolveCapture get) value (capturesIter value)
  return resolved ++ [value']

def resolveNestedVariables (get : Text → Outcome CallError (Option Text))
    (var : MakefileVariable) : Outcome CallError (List Text) :=
  Outcome.fold (resolveValue get) [] var.values

def varsToString : List Text → Text
  | [] => []
  | [value] => value
  | values => List.intercalate ['\n'] values

def get (m : Makefile) : ℕ → Text → Outcome CallError (Option Text)
  | 0, _ => .err .depth
  | depth + 1, name =>
      match m.variableMap.lookup name with
      | none => .ok none
      | some var => do
          let values ← resolveNestedVariables (get m depth) var
          return some (varsToString values)

def getFirstValueOfVariableByName (m : Makefile) (depth : ℕ) (name : Text) :
    Outcome CallError (Option Text) :=
  match m.variableMap.lookup name with
  | none => .ok none
  | some var => do
      let values ← resolveNestedVariables (get m depth) var
      match values with
      | [] => .panic "called `Option::unwrap()` on a `None` value"
      | first :: _ => return some first

/-! ## Termination -/

/-- A defined variable refers to another one. -/
def RefersTo (m : Makefile) (v w : Text) : Prop :=
  ∃ var, m.variableMap.lookup v = some var ∧
    ∃ value ∈ var.values, ∃ capture ∈ capturesIter value,
      nestedVarName capture = w ∧ w ∈ m.variableMap

def Ends (m : Makefile) (depth : ℕ) (name : Text) : Prop :=
  ∃ result, get m depth name = .ok result

theorem resolveCapture_ok_iff
    (get : Text → Outcome CallError (Option Text)) (value capture : Text) :
    (∃ value', resolveCapture get value capture = .ok value') ↔
      ∃ result, get (nestedVarName capture) = .ok result := by
  unfold resolveCapture
  constructor
  · rintro ⟨value', h⟩
    obtain ⟨result, hget, -⟩ := Outcome.bind_eq_ok_iff.mp h
    exact ⟨result, hget⟩
  · rintro ⟨result, hget⟩
    rw [hget, Outcome.ok_bind]
    cases result with
    | none => exact ⟨value, rfl⟩
    | some resolved => exact ⟨replaceFirst capture resolved value, rfl⟩

theorem resolveNestedVariables_ok_iff
    (get : Text → Outcome CallError (Option Text)) (var : MakefileVariable) :
    (∃ values, resolveNestedVariables get var = .ok values) ↔
      ∀ value ∈ var.values, ∀ capture ∈ capturesIter value,
        ∃ result, get (nestedVarName capture) = .ok result := by
  apply Outcome.fold_ok_iff
  intro resolved value _
  rw [← Outcome.fold_ok_iff (resolveCapture get)
    (fun value capture _ => resolveCapture_ok_iff get value capture) value]
  unfold resolveValue
  constructor
  · rintro ⟨values, h⟩
    obtain ⟨value', hvalue, -⟩ := Outcome.bind_eq_ok_iff.mp h
    exact ⟨value', hvalue⟩
  · rintro ⟨value', hvalue⟩
    rw [hvalue]
    exact ⟨resolved ++ [value'], rfl⟩

/-- The calls that a lookup makes have to end, one level below. -/
theorem ends_succ_iff (m : Makefile) (depth : ℕ) (name : Text) :
    Ends m (depth + 1) name ↔
      ∀ var, m.variableMap.lookup name = some var →
        ∀ value ∈ var.values, ∀ capture ∈ capturesIter value,
          Ends m depth (nestedVarName capture) := by
  unfold Ends
  cases hlookup : m.variableMap.lookup name with
  | none => simp [get, hlookup]
  | some var =>
      have hresolve := resolveNestedVariables_ok_iff (get m depth) var
      constructor
      · rintro ⟨result, h⟩ var' hvar
        cases hvar
        simp only [get, hlookup] at h
        obtain ⟨values, hvalues, -⟩ := Outcome.bind_eq_ok_iff.mp h
        exact hresolve.mp ⟨values, hvalues⟩
      · intro h
        obtain ⟨values, hvalues⟩ := hresolve.mpr (h var rfl)
        refine ⟨some (varsToString values), ?_⟩
        simp only [get, hlookup, hvalues]
        rfl

theorem resolveNestedVariables_mono
    {get get' : Text → Outcome CallError (Option Text)}
    (hget : ∀ name result, get name = .ok result → get' name = .ok result)
    {var : MakefileVariable} {values : List Text}
    (h : resolveNestedVariables get var = .ok values) :
    resolveNestedVariables get' var = .ok values := by
  refine Outcome.fold_mono _ ?_ h
  intro resolved value resolved' hvalue
  obtain ⟨value', hcaptures, heq⟩ := Outcome.bind_eq_ok_iff.mp hvalue
  apply Outcome.bind_eq_ok_iff.mpr
  refine ⟨value', ?_, heq⟩
  refine Outcome.fold_mono _ ?_ hcaptures
  intro copy capture copy' hcapture
  obtain ⟨found, hfound, heq⟩ := Outcome.bind_eq_ok_iff.mp hcapture
  exact Outcome.bind_eq_ok_iff.mpr ⟨found, hget _ _ hfound, heq⟩

/-- More depth does not change what a lookup returns. -/
theorem get_mono {m : Makefile} {n k : ℕ} {name : Text}
    {result : Option Text} (hnk : n ≤ k) (h : get m n name = .ok result) :
    get m k name = .ok result := by
  induction n generalizing k name result with
  | zero => cases h
  | succ n ih =>
      cases k with
      | zero => omega
      | succ k =>
          have hle : n ≤ k := by omega
          unfold get at h ⊢
          cases hlookup : m.variableMap.lookup name with
          | none =>
              rw [hlookup] at h
              exact h
          | some var =>
              rw [hlookup] at h
              obtain ⟨values, hvalues, heq⟩ := Outcome.bind_eq_ok_iff.mp h
              apply Outcome.bind_eq_ok_iff.mpr
              exact ⟨values, resolveNestedVariables_mono
                (fun _ _ => ih hle) hvalues, heq⟩

theorem ends_mono (m : Makefile) (n k : ℕ) (name : Text) (hnk : n ≤ k)
    (h : Ends m n name) : Ends m k name := by
  obtain ⟨result, hresult⟩ := h
  exact ⟨result, get_mono hnk hresult⟩

theorem acc_of_ends (m : Makefile) (depth : ℕ) (name : Text)
    (h : Ends m depth name) : Acc (Function.swap (RefersTo m)) name := by
  induction depth generalizing name with
  | zero =>
      obtain ⟨result, hresult⟩ := h
      cases hresult
  | succ depth ih =>
      apply Acc.intro
      rintro w ⟨var, hvar, value, hvalue, capture, hcapture, rfl, -⟩
      exact ih _ ((ends_succ_iff m depth name).mp h var hvar value hvalue
        capture hcapture)

theorem ends_of_not_mem {m : Makefile} {name : Text}
    (h : name ∉ m.variableMap) : Ends m 1 name := by
  rw [ends_succ_iff]
  intro var hvar
  exact absurd (Finmap.mem_of_lookup_eq_some hvar) h

theorem ends_of_acc (m : Makefile) (name : Text)
    (hacc : Acc (Function.swap (RefersTo m)) name) :
    ∃ depth, Ends m depth name := by
  induction hacc with
  | intro name _ ih =>
      cases hlookup : m.variableMap.lookup name with
      | none =>
          exact ⟨1, ends_of_not_mem (Finmap.lookup_eq_none.mp hlookup)⟩
      | some var =>
          -- Every name looked up on the way ends at some depth.
          have hcalls : ∀ w ∈ var.values.flatMap
              (fun value => (capturesIter value).map nestedVarName),
              ∃ depth, Ends m depth w := by
            intro w hw
            obtain ⟨value, hvalue, hw⟩ := List.mem_flatMap.mp hw
            obtain ⟨capture, hcapture, rfl⟩ := List.mem_map.mp hw
            by_cases hmem : nestedVarName capture ∈ m.variableMap
            · exact ih _ ⟨var, hlookup, value, hvalue, capture, hcapture, rfl,
                hmem⟩
            · exact ⟨1, ends_of_not_mem hmem⟩
          obtain ⟨depth, hdepth⟩ := exists_common_bound (ends_mono m) hcalls
          refine ⟨depth + 1, ?_⟩
          rw [ends_succ_iff]
          intro var' hvar' value hvalue capture hcapture
          rw [hlookup] at hvar'
          cases hvar'
          exact hdepth _ (List.mem_flatMap.mpr
            ⟨value, hvalue, List.mem_map.mpr ⟨capture, hcapture, rfl⟩⟩)

theorem finite_references (m : Makefile) (name : Text) :
    {w | ReflTransGen (RefersTo m) name w}.Finite := by
  apply Set.Finite.subset (Set.Finite.insert name m.variableMap.keys.finite_toSet)
  intro w hw
  rcases ReflTransGen.cases_tail hw with rfl | ⟨v, -, -, -, -, -, -, -, -, hmem⟩
  · exact Set.mem_insert _ _
  · exact Set.mem_insert_of_mem _ (Finmap.mem_keys.mpr hmem)

theorem resolveNestedVariables_ok_or_depth
    {get : Text → Outcome CallError (Option Text)}
    (hget : ∀ name, (∃ result, get name = .ok result) ∨
      get name = .err .depth) (var : MakefileVariable) :
    (∃ values, resolveNestedVariables get var = .ok values) ∨
      resolveNestedVariables get var = .err .depth := by
  apply Outcome.fold_ok_or_err
  intro resolved value _
  have hcapture : ∀ value capture,
      (∃ value', resolveCapture get value capture = .ok value') ∨
        resolveCapture get value capture = .err .depth := by
    intro value capture
    rcases hget (nestedVarName capture) with hok | herr
    · exact .inl ((resolveCapture_ok_iff get value capture).mpr hok)
    · right
      unfold resolveCapture
      rw [herr]
      rfl
  have hcaptures := Outcome.fold_ok_or_err (resolveCapture get)
    (fun copy capture (_ : capture ∈ capturesIter value) =>
      hcapture copy capture) value
  unfold resolveValue
  rcases hcaptures with ⟨value', hvalue⟩ | herr
  · rw [hvalue]
    exact .inl ⟨resolved ++ [value'], rfl⟩
  · rw [herr]
    exact .inr rfl

/-- A lookup fails for want of depth only. -/
theorem get_ok_or_depth (m : Makefile) (depth : ℕ) (name : Text) :
    (∃ result, get m depth name = .ok result) ∨
      get m depth name = .err .depth := by
  induction depth generalizing name with
  | zero => exact .inr rfl
  | succ depth ih =>
      unfold get
      cases m.variableMap.lookup name with
      | none => exact .inl ⟨none, rfl⟩
      | some var =>
          dsimp only
          rcases resolveNestedVariables_ok_or_depth ih var with
            ⟨values, hvalues⟩ | herr
          · rw [hvalues]
            exact .inl ⟨some (varsToString values), rfl⟩
          · rw [herr]
            exact .inr rfl

/-- A lookup ends exactly when no cycle of references can be reached from its
name, and otherwise no depth of calls is enough. -/
theorem get_ends_iff (m : Makefile) (name : Text) :
    ((∃ depth result, get m depth name = .ok result) ↔
      ¬ ReachesCycle (RefersTo m) name) ∧
    (ReachesCycle (RefersTo m) name →
      ∀ depth, get m depth name = .err .depth) := by
  have hends : (∃ depth result, get m depth name = .ok result) ↔
      ¬ ReachesCycle (RefersTo m) name := by
    constructor
    · rintro ⟨depth, hresult⟩
      exact not_reachesCycle_of_acc (acc_of_ends m depth name hresult)
    · intro hcycle
      exact ends_of_acc m name
        (acc_of_not_reachesCycle (finite_references m name) hcycle)
  refine ⟨hends, ?_⟩
  intro hcycle depth
  rcases get_ok_or_depth m depth name with hok | herr
  · exact absurd hcycle (hends.mp ⟨depth, hok⟩)
  · exact herr

/-! ## Values -/

def HasValues (m : Makefile) : Prop :=
  ∀ name var, m.variableMap.lookup name = some var → var.values ≠ []

theorem HasValues.insertVariable {m : Makefile} (h : HasValues m)
    (name value : Text) :
    HasValues (insertVariable m (name, { values := [value] })) := by
  intro name' var hvar
  rw [lookup_insertVariable] at hvar
  split_ifs at hvar
  · cases hvar
    simp
  · exact h name' var hvar

theorem HasValues.addItem {m : Makefile} (h : HasValues m) (item : Item) :
    HasValues (addItem m item) := by
  cases item with
  | newline => exact h
  | comment => exact h
  | define name value => exact h.insertVariable name value
  | assignment name mode value => exact h.insertVariable name value
  | inclusion value => exact h
  | target => exact h

theorem hasValues_new : HasValues new := by
  intro name var h
  rw [new, Finmap.lookup_empty] at h
  cases h

theorem HasValues.addItems {m : Makefile} (h : HasValues m)
    (items : List Item) : HasValues (items.foldl Makefile.addItem m) := by
  induction items generalizing m with
  | nil => exact h
  | cons item items ih => exact ih (h.addItem item)

theorem parseString_hasValues {upper : UppercaseTable} {content : Text}
    {m : Makefile} (h : parseString upper content = .ok m) : HasValues m := by
  rw [parseString_eq] at h
  split at h
  · cases h
  · cases h
    exact hasValues_new.addItems _

theorem parseSingleFile_hasValues {fs : FileSystem} {upper : UppercaseTable}
    {cwd path : Path} {m : Makefile}
    (h : parseSingleFile fs upper cwd path = .ok m) : HasValues m := by
  unfold parseSingleFile at h
  split at h
  · cases h
  · obtain ⟨m', hparse, heq⟩ := Outcome.bind_eq_ok_iff.mp h
    have hm' := parseString_hasValues (Outcome.mapErr_eq_ok_iff.mp hparse)
    cases heq
    exact hm'

theorem combine_values_ne_nil {old : Option MakefileVariable}
    {var : MakefileVariable} (h : var.values ≠ []) :
    (combine old var).values ≠ [] := by
  unfold combine
  split
  · simp [h]
  · exact h

theorem HasValues.merge {m other : Makefile} (hm : HasValues m)
    (hother : HasValues other) : HasValues (m.merge other) := by
  intro name var hvar
  rw [lookup_merge] at hvar
  unfold mergeLookup at hvar
  split at hvar
  · exact hm name var hvar
  · next var' hvar' =>
      cases hvar
      exact combine_values_ne_nil (hother name var' hvar')

theorem parseIncludedMakefiles_hasValues {fs : FileSystem}
    {upper : UppercaseTable} {cwd cwd' : Path} {m : Makefile}
    {included : List Makefile}
    (h : parseIncludedMakefiles fs upper cwd m = .ok (included, cwd')) :
    ∀ incl ∈ included, HasValues incl := by
  unfold parseIncludedMakefiles at h
  split at h
  · cases h
    simp
  · split at h
    · cases h
    · obtain ⟨ms, hfold, heq⟩ := Outcome.bind_eq_ok_iff.mp h
      cases heq
      apply Outcome.fold_invariant _ _ _ hfold
        (P := fun ms => ∀ incl ∈ ms, HasValues incl)
      · intro ms incl _ ms' hms hstep
        obtain ⟨loaded, hload, heq⟩ := Outcome.bind_eq_ok_iff.mp hstep
        cases heq
        unfold loadInclude at hload
        split at hload
        · cases hload
        · intro incl' hincl
          rcases List.mem_append.mp hincl with hincl | hincl
          · exact hms incl' hincl
          · cases List.mem_singleton.mp hincl
            exact parseSingleFile_hasValues hload
      · simp

theorem parseAll_hasValues {fs : FileSystem} {upper : UppercaseTable}
    {depth : ℕ} {cwd cwd' : Path} {m final : Makefile} (hm : HasValues m)
    (h : parseAll fs upper depth cwd m = .ok (final, cwd')) :
    HasValues final := by
  induction depth generalizing cwd cwd' m final with
  | zero => cases h
  | succ depth ih =>
      unfold parseAll at h
      obtain ⟨included, hincluded, h⟩ := Outcome.bind_eq_ok_iff.mp h
      obtain ⟨merged, hmerged, heq⟩ := Outcome.bind_eq_ok_iff.mp h
      cases heq
      have hall := parseIncludedMakefiles_hasValues
        (Outcome.mapErr_eq_ok_iff.mp hincluded)
      have hfold : HasValues merged.1 := by
        apply Outcome.fold_invariant _ _ hasValues_new hmerged
          (P := fun state => HasValues state.1)
        intro state incl hincl state' hstate hstep
        unfold mergeInclude at hstep
        split_ifs at hstep
        · obtain ⟨flat, hflat, heq⟩ := Outcome.bind_eq_ok_iff.mp hstep
          cases heq
          exact hstate.merge (ih (hall incl hincl) hflat)
        · cases hstep
          exact hstate.merge (hall incl hincl)
      exact hfold.merge hm

/-- The makefiles that a program can hold. -/
inductive Obtained (upper : UppercaseTable) : Makefile → Prop where
  | parseString {content : Text} {m : Makefile}
      (h : parseString upper content = .ok m) : Obtained upper m
  | parseSingleFile {fs : FileSystem} {cwd path : Path} {m : Makefile}
      (h : parseSingleFile fs upper cwd path = .ok m) : Obtained upper m
  | merge {m other : Makefile} (hm : Obtained upper m)
      (hother : Obtained upper other) : Obtained upper (m.merge other)
  | parseAll {fs : FileSystem} {depth : ℕ} {cwd cwd' : Path}
      {m final : Makefile} (hm : Obtained upper m)
      (h : parseAll fs upper depth cwd m = .ok (final, cwd')) :
      Obtained upper final

theorem Obtained.hasValues {upper : UppercaseTable} {m : Makefile}
    (h : Obtained upper m) : HasValues m := by
  induction h with
  | parseString h => exact parseString_hasValues h
  | parseSingleFile h => exact parseSingleFile_hasValues h
  | merge _ _ hm hother => exact hm.merge hother
  | parseAll _ h hm => exact parseAll_hasValues hm h

theorem fold_resolveValue_length
    {get : Text → Outcome CallError (Option Text)} {values : List Text}
    {resolved resolved' : List Text}
    (h : Outcome.fold (resolveValue get) resolved values = .ok resolved') :
    resolved'.length = resolved.length + values.length := by
  induction values generalizing resolved with
  | nil =>
      cases h
      rfl
  | cons value values ih =>
      rw [Outcome.fold_cons] at h
      obtain ⟨next, hnext, hrest⟩ := Outcome.bind_eq_ok_iff.mp h
      obtain ⟨value', -, heq⟩ := Outcome.bind_eq_ok_iff.mp hnext
      cases heq
      rw [ih hrest, List.length_append, List.length_singleton,
        List.length_cons]
      omega

theorem varsToString_cons (first : Text) (rest : List Text) :
    varsToString (first :: rest) =
      if rest = [] then first
      else first ++ '\n' :: List.intercalate ['\n'] rest := by
  cases rest with
  | nil => rfl
  | cons second rest =>
      have hjoin : varsToString (first :: second :: rest) =
          List.intercalate ['\n'] (first :: second :: rest) := rfl
      rw [if_neg (by simp), hjoin, List.intercalate_cons_cons,
        List.append_assoc, List.singleton_append]

/-- `Makefile::parse_string` never panics, no makefile that a program can hold
has a variable without values, and so a lookup that ends has a first value. -/
theorem lookups_have_values (upper : UppercaseTable) :
    (∀ content, (∃ m, parseString upper content = .ok m) ∨
      ∃ error, parseString upper content = .err error) ∧
    ∀ m, Obtained upper m →
      (∀ name var, m.variableMap.lookup name = some var → var.values ≠ []) ∧
      ∀ depth name result, get m (depth + 1) name = .ok result →
        ∃ first?,
          getFirstValueOfVariableByName m depth name = .ok first? ∧
          (first?.isSome ↔ result.isSome) ∧
          ∀ text, result = some text →
            ∃ var first rest, m.variableMap.lookup name = some var ∧
              resolveNestedVariables (get m depth) var =
                .ok (first :: rest) ∧
              first? = some first ∧
              text = if rest = [] then first
                else first ++ '\n' :: List.intercalate ['\n'] rest := by
  constructor
  · intro content
    rw [parseString_eq]
    cases readMakefile upper content with
    | none => exact .inr ⟨_, rfl⟩
    | some items => exact .inl ⟨_, rfl⟩
  · intro m hm
    have hvalues := hm.hasValues
    refine ⟨hvalues, ?_⟩
    intro depth name result hget
    unfold get at hget
    unfold getFirstValueOfVariableByName
    cases hlookup : m.variableMap.lookup name with
    | none =>
        rw [hlookup] at hget
        cases hget
        exact ⟨none, rfl, by simp, by simp⟩
    | some var =>
        rw [hlookup] at hget
        obtain ⟨values, hresolve, heq⟩ := Outcome.bind_eq_ok_iff.mp hget
        cases heq
        cases values with
        | nil =>
            have hlength := fold_resolveValue_length hresolve
            have hnil : var.values = [] :=
              List.length_eq_zero_iff.mp (by simpa using hlength.symm)
            exact absurd hnil (hvalues name var hlookup)
        | cons first rest =>
            refine ⟨some first, ?_, by simp, ?_⟩
            · dsimp only
              rw [hresolve]
              rfl
            · intro text htext
              cases htext
              exact ⟨var, first, rest, rfl, hresolve, rfl,
                varsToString_cons first rest⟩

/-- The values of the text `A=1` and `B=$(A)x`. -/
def nestedMakefile : Makefile :=
  insertVariable (insertVariable new ("A".toList, { values := ["1".toList] }))
    ("B".toList, { values := ["$(A)x".toList] })

theorem lookups_have_values_nested :
    parseString asciiUppercase "A=1\nB=$(A)x\n".toList =
      .ok nestedMakefile ∧
    get nestedMakefile 2 "B".toList = .ok (some "1x".toList) ∧
    ∃ first?, getFirstValueOfVariableByName nestedMakefile 1 "B".toList =
      .ok first? ∧ first?.isSome := by
  have hparse : parseString asciiUppercase "A=1\nB=$(A)x\n".toList =
      .ok nestedMakefile := by decide +kernel
  have hget : get nestedMakefile 2 "B".toList = .ok (some "1x".toList) := by
    decide +kernel
  obtain ⟨first?, hfirst, hsome, -⟩ :=
    ((lookups_have_values asciiUppercase).2 nestedMakefile
      (.parseString hparse)).2 1 "B".toList _ hget
  exact ⟨hparse, hget, first?, hfirst, hsome.mpr rfl⟩

end Ips.Makefile
