import Ips.MakefileLookup

/-!
# Lookups as substitution

The values considered here are made of fragments: text without a dollar sign,
and references `$(NAME)`.  The loop of `resolve_nested_variables` searches the
original value for references, but replaces the first occurrence in a copy in
which earlier references are already replaced.  What was put in place of those
is again made of fragments and has references to undefined names only, so the
first occurrence is the one that was found.
-/

namespace Ips.Makefile

open Peg Relation

/-! ## Fragments -/

structure ReferenceName where
  text : Text
  ne_nil : text ≠ []
  plain : ∀ c ∈ text, c ≠ '$' ∧ c ≠ '(' ∧ c ≠ ')' ∧ c ≠ '\n'

inductive Fragment where
  | literal (text : Text) (dollar_not_mem : '$' ∉ text)
  | reference (name : ReferenceName)

def ReferenceName.toReference (name : ReferenceName) : Text :=
  '$' :: '(' :: (name.text ++ [')'])

def Fragment.toText : Fragment → Text
  | .literal text _ => text
  | .reference name => name.toReference

def render (fragments : List Fragment) : Text := fragments.flatMap Fragment.toText

def Fragment.names : Fragment → List ReferenceName
  | .literal _ _ => []
  | .reference name => [name]

def references (fragments : List Fragment) : List ReferenceName :=
  fragments.flatMap Fragment.names

/-- A reference stands for what `get` returns for its name, and for itself
when that is nothing. -/
def Fragment.substitute (get : Text → Outcome CallError (Option Text)) :
    Fragment → Text
  | .literal text _ => text
  | .reference name =>
      match get name.text with
      | .ok (some resolved) => resolved
      | _ => name.toReference

/-- Every value of the makefile is made of fragments. -/
def ReferencesOnly (m : Makefile) : Prop :=
  ∀ name var, m.variableMap.lookup name = some var →
    ∀ value ∈ var.values, ∃ fragments, value = render fragments

theorem ReferenceName.closing_not_mem (name : ReferenceName) :
    ')' ∉ name.text := fun h => (name.plain ')' h).2.2.1 rfl

theorem ReferenceName.dollar_not_mem_tail (name : ReferenceName) :
    '$' ∉ '(' :: (name.text ++ [')']) := by
  have hdollar : '$' ∉ name.text := fun h => (name.plain '$' h).1 rfl
  simp [hdollar]

theorem render_append (fragments more : List Fragment) :
    render (fragments ++ more) = render fragments ++ render more :=
  List.flatMap_append

theorem references_append (fragments more : List Fragment) :
    references (fragments ++ more) = references fragments ++ references more :=
  List.flatMap_append

theorem render_singleton (fragment : Fragment) :
    render [fragment] = fragment.toText := List.append_nil _

/-! ## The search -/

theorem matchReference_reference (name : ReferenceName) (t : Text) :
    matchReference (name.toReference ++ t) = some (name.toReference, t) := by
  obtain ⟨text, hne, hplain⟩ := name
  cases text with
  | nil => exact absurd rfl hne
  | cons c text =>
      have hrun : ∀ d ∈ text, (d != ')' && d != '\n') = true := by
        intro d hd
        have hd' := hplain d (List.mem_cons_of_mem c hd)
        simp [hd'.2.2.1, hd'.2.2.2]
      have hnewline : c ≠ '\n' := (hplain c List.mem_cons_self).2.2.2
      have hdrop : (text ++ ')' :: t).dropWhile
          (fun d => d != ')' && d != '\n') = ')' :: t := by
        rw [List.dropWhile_append_of_pos hrun]
        rfl
      have htake : (text ++ ')' :: t).takeWhile
          (fun d => d != ')' && d != '\n') = text := by
        rw [List.takeWhile_append_of_pos hrun]
        simp
      simp only [ReferenceName.toReference, List.cons_append,
        List.append_assoc, List.nil_append, matchReference, if_neg hnewline,
        hdrop, htake]

theorem matchReference_of_ne {c : Char} (hc : c ≠ '$') (t : Text) :
    matchReference (c :: t) = none := by
  unfold matchReference
  split
  · next heq => exact absurd (List.cons.inj heq).1 hc
  · rfl

theorem matchReference_length {s capture t : Text}
    (h : matchReference s = some (capture, t)) : t.length < s.length := by
  unfold matchReference at h
  split at h
  · next c u =>
      split_ifs at h
      split at h
      · next v hdrop =>
          cases h
          have hle := List.length_dropWhile_le
            (fun d => d != ')' && d != '\n') u
          rw [hdrop, List.length_cons] at hle
          simp only [List.length_cons]
          omega
      · cases h
  · cases h

theorem nextCapture_consuming : Consuming nextCapture := by
  intro s captures t h
  unfold nextCapture at h
  split at h
  · next hmatch =>
      cases h
      exact matchReference_length hmatch
  · split at h
    · cases h
    · cases h
      exact Nat.lt_succ_self _

theorem capturesIter_reference (name : ReferenceName) (t : Text) :
    capturesIter (name.toReference ++ t) =
      name.toReference :: capturesIter t := by
  have hnext : nextCapture (name.toReference ++ t) =
      some ([name.toReference], t) := by
    unfold nextCapture
    rw [matchReference_reference]
  unfold capturesIter
  rw [repeatAll_of_some shrinking_id nextCapture_consuming hnext]
  rfl

theorem capturesIter_literal {text : Text} (htext : '$' ∉ text) (t : Text) :
    capturesIter (text ++ t) = capturesIter t := by
  induction text with
  | nil => rfl
  | cons c text ih =>
      have hrest : '$' ∉ text := List.not_mem_of_not_mem_cons htext
      have hc : c ≠ '$' := fun hc => htext (hc ▸ List.mem_cons_self)
      have hnext : nextCapture (c :: (text ++ t)) = some ([], text ++ t) := by
        unfold nextCapture
        rw [matchReference_of_ne hc]
      rw [← ih hrest]
      unfold capturesIter
      rw [List.cons_append,
        repeatAll_of_some shrinking_id nextCapture_consuming hnext]
      rfl

theorem capturesIter_render (fragments : List Fragment) :
    capturesIter (render fragments) =
      (references fragments).map ReferenceName.toReference := by
  induction fragments with
  | nil => rfl
  | cons fragment fragments ih =>
      cases fragment with
      | literal text htext => exact (capturesIter_literal htext _).trans ih
      | reference name =>
          calc
            capturesIter (render (.reference name :: fragments)) =
                name.toReference :: capturesIter (render fragments) :=
              capturesIter_reference name _
            _ = _ := by
              rw [ih]
              rfl

theorem removeOpening_of_dollar_not_mem {s : Text} (h : '$' ∉ s) :
    removeOpening s = s := by
  fun_induction removeOpening s with
  | case1 => rfl
  | case2 => rfl
  | case3 t _ => simp at h
  | case4 c d t hnot ih =>
      rw [ih (List.not_mem_of_not_mem_cons h)]

theorem nestedVarName_reference (name : ReferenceName) :
    nestedVarName name.toReference = name.text := by
  have htail : '$' ∉ name.text ++ [')'] :=
    List.not_mem_of_not_mem_cons name.dollar_not_mem_tail
  have hopen : removeOpening name.toReference = name.text ++ [')'] := by
    unfold ReferenceName.toReference
    rw [removeOpening, removeOpening_of_dollar_not_mem htail]
  have hclosing : removeChars [')'] name.text = name.text := by
    apply removeChars_eq_self
    simp [name.closing_not_mem]
  unfold nestedVarName
  rw [hopen, removeChars_append, hclosing]
  exact List.append_nil _

/-! ## The replacement -/

theorem replaceFirst_of_isPrefix {pattern : Text} (hne : pattern ≠ [])
    (replacement t : Text) :
    replaceFirst pattern replacement (pattern ++ t) = replacement ++ t := by
  have hprefix : pattern.isPrefixOf (pattern ++ t) = true :=
    List.isPrefixOf_iff_prefix.mpr (List.prefix_append pattern t)
  have hdrop : (pattern ++ t).drop pattern.length = t := List.drop_left
  cases pattern with
  | nil => exact absurd rfl hne
  | cons c pattern =>
      rw [List.cons_append] at hprefix hdrop ⊢
      rw [replaceFirst, if_pos hprefix, hdrop]

/-- Where a reference cannot start, it is not replaced. -/
theorem replaceFirst_literal {text : Text} (htext : '$' ∉ text)
    (name : ReferenceName) (replacement t : Text) :
    replaceFirst name.toReference replacement (text ++ t) =
      text ++ replaceFirst name.toReference replacement t := by
  induction text with
  | nil => rfl
  | cons c text ih =>
      have hrest : '$' ∉ text := List.not_mem_of_not_mem_cons htext
      have hprefix : ¬ name.toReference.isPrefixOf (c :: (text ++ t)) := by
        rw [List.isPrefixOf_iff_prefix]
        intro h
        have hc : '$' = c := (List.cons_prefix_cons.mp h).1
        exact htext (hc ▸ List.mem_cons_self)
      rw [List.cons_append, replaceFirst, if_neg hprefix, ih hrest,
        List.cons_append]

theorem ReferenceName.eq_of_isPrefix {name other : ReferenceName} {t : Text}
    (h : name.toReference <+: other.toReference ++ t) :
    name.text = other.text := by
  obtain ⟨u, hu⟩ := h
  have htail : name.text ++ ')' :: u = other.text ++ ')' :: t := by
    simpa [toReference] using hu
  exact eq_of_append_cons_eq name.closing_not_mem other.closing_not_mem htail

theorem replaceFirst_reference {name other : ReferenceName}
    (hne : name.text ≠ other.text) (replacement t : Text) :
    replaceFirst name.toReference replacement (other.toReference ++ t) =
      other.toReference ++ replaceFirst name.toReference replacement t := by
  have hprefix : ¬ name.toReference.isPrefixOf (other.toReference ++ t) := by
    rw [List.isPrefixOf_iff_prefix]
    exact fun h => hne (ReferenceName.eq_of_isPrefix h)
  have htail := replaceFirst_literal other.dollar_not_mem_tail name
    replacement t
  calc
    replaceFirst name.toReference replacement (other.toReference ++ t) =
        '$' :: replaceFirst name.toReference replacement
          (('(' :: (other.text ++ [')'])) ++ t) := by
      unfold ReferenceName.toReference at hprefix ⊢
      rw [List.cons_append] at hprefix ⊢
      rw [replaceFirst, if_neg hprefix]
    _ = _ := by
      rw [htail]
      rfl

/-- The replacement passes over everything that does not hold the name. -/
theorem replaceFirst_render {fragments : List Fragment} {name : ReferenceName}
    (hname : ∀ other ∈ references fragments, name.text ≠ other.text)
    (replacement t : Text) :
    replaceFirst name.toReference replacement (render fragments ++ t) =
      render fragments ++ replaceFirst name.toReference replacement t := by
  induction fragments with
  | nil => rfl
  | cons fragment fragments ih =>
      have hcons : render (fragment :: fragments) =
          fragment.toText ++ render fragments := List.flatMap_cons
      have hnames : references (fragment :: fragments) =
          fragment.names ++ references fragments := List.flatMap_cons
      rw [hnames] at hname
      have hrest := ih fun other h => hname other (List.mem_append_right _ h)
      rw [hcons, List.append_assoc, List.append_assoc, ← hrest]
      cases fragment with
      | literal text htext => exact replaceFirst_literal htext name _ _
      | reference other =>
          have hother : name.text ≠ other.text :=
            hname other (List.mem_append_left _ (List.mem_singleton.mpr rfl))
          exact replaceFirst_reference hother _ _

/-! ## Settled text -/

/-- Made of fragments, with references to undefined names only. -/
def Settled (m : Makefile) (text : Text) : Prop :=
  ∃ fragments, text = render fragments ∧
    ∀ name ∈ references fragments, name.text ∉ m.variableMap

theorem settled_literal {text : Text} (m : Makefile) (htext : '$' ∉ text) :
    Settled m text :=
  ⟨[.literal text htext], (render_singleton (.literal text htext)).symm, by
    simp [references, Fragment.names]⟩

theorem settled_reference {m : Makefile} {name : ReferenceName}
    (hname : name.text ∉ m.variableMap) : Settled m name.toReference :=
  ⟨[.reference name], (render_singleton (.reference name)).symm, by
    simpa [references, Fragment.names] using hname⟩

theorem Settled.append {m : Makefile} {s t : Text} (hs : Settled m s)
    (ht : Settled m t) : Settled m (s ++ t) := by
  obtain ⟨fragments, rfl, hfragments⟩ := hs
  obtain ⟨more, rfl, hmore⟩ := ht
  refine ⟨fragments ++ more, (render_append _ _).symm, ?_⟩
  intro name hname
  rw [references_append] at hname
  rcases List.mem_append.mp hname with hname | hname
  · exact hfragments name hname
  · exact hmore name hname

theorem settled_intercalate {m : Makefile} {texts : List Text}
    (h : ∀ text ∈ texts, Settled m text) :
    Settled m (List.intercalate ['\n'] texts) := by
  induction texts with
  | nil => exact settled_literal m (by simp)
  | cons text texts ih =>
      have htext := h text List.mem_cons_self
      have hrest := ih fun t ht => h t (List.mem_cons_of_mem text ht)
      cases texts with
      | nil => simpa using htext
      | cons next texts =>
          have hnewline : Settled m ['\n'] := settled_literal m (by simp)
          rw [List.intercalate_cons_cons]
          exact (htext.append hnewline).append hrest

theorem Settled.nestedVarName_not_mem {m : Makefile} {text capture : Text}
    (h : Settled m text) (hcapture : capture ∈ capturesIter text) :
    nestedVarName capture ∉ m.variableMap := by
  obtain ⟨fragments, rfl, hfragments⟩ := h
  rw [capturesIter_render] at hcapture
  obtain ⟨name, hname, rfl⟩ := List.mem_map.mp hcapture
  rw [nestedVarName_reference]
  exact hfragments name hname

theorem mem_references_of_occurs {fragments : List Fragment}
    {name : ReferenceName} {before after : Text}
    (h : render fragments = before ++ (name.toReference ++ after)) :
    ∃ other ∈ references fragments, name.text = other.text := by
  induction fragments generalizing before with
  | nil => simp [render, ReferenceName.toReference] at h
  | cons fragment fragments ih =>
      cases fragment with
      | literal text htext =>
          obtain ⟨before', -, hrest⟩ := append_eq_append_cons htext h
          exact ih hrest
      | reference other =>
          cases before with
          | nil =>
              have hprefix : name.toReference <+:
                  other.toReference ++ render fragments := ⟨after, h.symm⟩
              exact ⟨other, List.mem_cons_self,
                ReferenceName.eq_of_isPrefix hprefix⟩
          | cons c before =>
              obtain ⟨before', -, hrest⟩ := append_eq_append_cons
                other.dollar_not_mem_tail (List.cons.inj h).2
              obtain ⟨found, hfound, heq⟩ := ih hrest
              exact ⟨found, List.mem_cons_of_mem _ hfound, heq⟩

theorem Settled.not_isInfix {m : Makefile} {text : Text} (h : Settled m text)
    {name : ReferenceName} (hname : name.text ∈ m.variableMap) :
    ¬ name.toReference <:+: text := by
  rintro ⟨before, after, hoccurs⟩
  obtain ⟨fragments, rfl, hfragments⟩ := h
  rw [List.append_assoc] at hoccurs
  obtain ⟨other, hother, heq⟩ := mem_references_of_occurs hoccurs.symm
  exact hfragments other hother (heq ▸ hname)

/-! ## The loops -/

section Loops

variable {m : Makefile} {get : Text → Outcome CallError (Option Text)}

/-- What the recursive calls return. -/
structure SettledCalls (m : Makefile)
    (get : Text → Outcome CallError (Option Text)) : Prop where
  not_mem_of_none : ∀ name, get name = .ok none → name ∉ m.variableMap
  mem_of_some : ∀ name text, get name = .ok (some text) →
    name ∈ m.variableMap
  settled : ∀ name text, get name = .ok (some text) → Settled m text

theorem SettledCalls.settled_substitute (hget : SettledCalls m get)
    {fragments : List Fragment}
    (hends : ∀ name ∈ references fragments,
      ∃ result, get name.text = .ok result) :
    Settled m (fragments.flatMap (Fragment.substitute get)) := by
  induction fragments with
  | nil => exact settled_literal m (by simp)
  | cons fragment fragments ih =>
      have hnames : references (fragment :: fragments) =
          fragment.names ++ references fragments := List.flatMap_cons
      rw [hnames] at hends
      have hrest := ih fun name h => hends name (List.mem_append_right _ h)
      rw [List.flatMap_cons]
      apply Settled.append _ hrest
      cases fragment with
      | literal text htext => exact settled_literal m htext
      | reference name =>
          obtain ⟨result, hresult⟩ :=
            hends name (List.mem_append_left _ (List.mem_singleton.mpr rfl))
          rw [Fragment.substitute, hresult]
          cases result with
          | none => exact settled_reference (hget.not_mem_of_none _ hresult)
          | some text => exact hget.settled _ _ hresult

/-- The loop over the references of a value, from the point where the copy is
settled up to the fragments still to come. -/
theorem SettledCalls.fold_resolveCapture (hget : SettledCalls m get)
    {fragments : List Fragment}
    (hends : ∀ name ∈ references fragments,
      ∃ result, get name.text = .ok result)
    {before : Text} (hbefore : Settled m before) :
    Outcome.fold (resolveCapture get) (before ++ render fragments)
        ((references fragments).map ReferenceName.toReference) =
      .ok (before ++ fragments.flatMap (Fragment.substitute get)) := by
  induction fragments generalizing before with
  | nil => rfl
  | cons fragment fragments ih =>
      have hnames : references (fragment :: fragments) =
          fragment.names ++ references fragments := List.flatMap_cons
      have hcons : render (fragment :: fragments) =
          fragment.toText ++ render fragments := List.flatMap_cons
      rw [hnames] at hends
      have hrest := @ih fun name h => hends name (List.mem_append_right _ h)
      rw [hnames, hcons, List.flatMap_cons, ← List.append_assoc before]
      cases fragment with
      | literal text htext =>
          rw [← List.append_assoc]
          exact hrest (hbefore.append (settled_literal m htext))
      | reference name =>
          obtain ⟨result, hresult⟩ :=
            hends name (List.mem_append_left _ (List.mem_singleton.mpr rfl))
          rw [Fragment.names, List.singleton_append, List.map_cons,
            Outcome.fold_cons, resolveCapture, nestedVarName_reference,
            hresult, Outcome.ok_bind, Fragment.toText, Fragment.substitute,
            hresult, ← List.append_assoc]
          cases result with
          | none =>
              have hname := hget.not_mem_of_none _ hresult
              exact hrest (hbefore.append (settled_reference hname))
          | some text =>
              have hmem := hget.mem_of_some _ _ hresult
              have hreplace : replaceFirst name.toReference text
                  (before ++ (name.toReference ++ render fragments)) =
                    before ++ (text ++ render fragments) := by
                obtain ⟨done, rfl, hdone⟩ := hbefore
                have hne : name.toReference ≠ [] := List.cons_ne_nil _ _
                rw [replaceFirst_render, replaceFirst_of_isPrefix hne]
                intro other hother heq
                exact hdone other hother (heq ▸ hmem)
              rw [List.append_assoc before]
              dsimp only
              rw [hreplace, ← List.append_assoc]
              exact hrest (hbefore.append (hget.settled _ _ hresult))

theorem SettledCalls.resolveNestedVariables_eq (hget : SettledCalls m get)
    {var : MakefileVariable} {pieces : List (List Fragment)}
    (hpieces : var.values = pieces.map render)
    (hends : ∀ fragments ∈ pieces, ∀ name ∈ references fragments,
      ∃ result, get name.text = .ok result) :
    resolveNestedVariables get var =
      .ok (pieces.map fun fragments =>
        fragments.flatMap (Fragment.substitute get)) := by
  have hloop : ∀ resolved : List Text,
      Outcome.fold (resolveValue get) resolved (pieces.map render) =
        .ok (resolved ++ pieces.map fun fragments =>
          fragments.flatMap (Fragment.substitute get)) := by
    clear hpieces
    induction pieces with
    | nil => simp
    | cons fragments pieces ih =>
        intro resolved
        have hvalue := hget.fold_resolveCapture
          (hends fragments List.mem_cons_self)
          (settled_literal m (List.not_mem_nil))
        rw [List.nil_append, List.nil_append] at hvalue
        rw [List.map_cons, Outcome.fold_cons, resolveValue,
          capturesIter_render, hvalue, Outcome.ok_bind, Outcome.pure_eq,
          Outcome.ok_bind,
          ih fun more h => hends more (List.mem_cons_of_mem fragments h),
          List.map_cons, List.append_assoc]
        rfl
  unfold resolveNestedVariables
  rw [hpieces]
  exact hloop []

end Loops

/-! ## Lookups -/

theorem varsToString_eq (values : List Text) :
    varsToString values = List.intercalate ['\n'] values := by
  cases values with
  | nil => rfl
  | cons first rest =>
      cases rest with
      | nil => simp [varsToString]
      | cons second rest => rfl

/-- A lookup of a defined name, one level above the lookups it makes. -/
theorem get_succ_eq {m : Makefile} {depth : ℕ}
    (hcalls : SettledCalls m (get m depth)) {name : Text}
    {var : MakefileVariable} (hlookup : m.variableMap.lookup name = some var)
    {pieces : List (List Fragment)} (hpieces : var.values = pieces.map render)
    (hends : Ends m (depth + 1) name) :
    (∀ fragments ∈ pieces, ∀ w ∈ references fragments,
      ∃ result, get m depth w.text = .ok result) ∧
    get m (depth + 1) name =
      .ok (some (List.intercalate ['\n'] (pieces.map fun fragments =>
        fragments.flatMap (Fragment.substitute (get m depth))))) := by
  have hcaptures := (ends_succ_iff m depth name).mp hends var hlookup
  have hreferences : ∀ fragments ∈ pieces, ∀ w ∈ references fragments,
      ∃ result, get m depth w.text = .ok result := by
    intro fragments hfragments w hw
    have hvalue : render fragments ∈ var.values := by
      rw [hpieces]
      exact List.mem_map_of_mem hfragments
    have hcapture : w.toReference ∈ capturesIter (render fragments) := by
      rw [capturesIter_render]
      exact List.mem_map_of_mem hw
    have hresult := hcaptures _ hvalue _ hcapture
    rwa [nestedVarName_reference] at hresult
  refine ⟨hreferences, ?_⟩
  rw [get, hlookup]
  dsimp only
  rw [hcalls.resolveNestedVariables_eq hpieces hreferences, Outcome.ok_bind,
    varsToString_eq, Outcome.pure_eq]

theorem ReferencesOnly.exists_pieces {m : Makefile} (hm : ReferencesOnly m)
    {name : Text} {var : MakefileVariable}
    (hlookup : m.variableMap.lookup name = some var) :
    ∃ pieces : List (List Fragment), var.values = pieces.map render := by
  have hvalues := hm name var hlookup
  generalize var.values = values at hvalues
  induction values with
  | nil => exact ⟨[], rfl⟩
  | cons value values ih =>
      obtain ⟨fragments, hfragments⟩ := hvalues value List.mem_cons_self
      obtain ⟨pieces, hpieces⟩ :=
        ih fun v hv => hvalues v (List.mem_cons_of_mem value hv)
      exact ⟨fragments :: pieces, by rw [hfragments, hpieces, List.map_cons]⟩

theorem settledCalls (m : Makefile) (hm : ReferencesOnly m) (depth : ℕ) :
    SettledCalls m (get m depth) := by
  induction depth with
  | zero =>
      constructor <;> intros <;> contradiction
  | succ depth ih =>
      constructor
      · intro name h
        cases hlookup : m.variableMap.lookup name with
        | none => exact Finmap.lookup_eq_none.mp hlookup
        | some var =>
            rw [get, hlookup] at h
            obtain ⟨values, -, heq⟩ := Outcome.bind_eq_ok_iff.mp h
            cases heq
      · intro name text h
        cases hlookup : m.variableMap.lookup name with
        | none =>
            rw [get, hlookup] at h
            cases h
        | some var => exact Finmap.mem_of_lookup_eq_some hlookup
      · intro name text h
        cases hlookup : m.variableMap.lookup name with
        | none =>
            rw [get, hlookup] at h
            cases h
        | some var =>
            obtain ⟨pieces, hpieces⟩ := hm.exists_pieces hlookup
            obtain ⟨hreferences, heq⟩ :=
              get_succ_eq ih hlookup hpieces ⟨some text, h⟩
            rw [heq] at h
            cases h
            apply settled_intercalate
            intro text htext
            obtain ⟨fragments, hfragments, rfl⟩ := List.mem_map.mp htext
            exact ih.settled_substitute (hreferences fragments hfragments)

theorem substitute_congr {get get' : Text → Outcome CallError (Option Text)}
    {fragments : List Fragment}
    (h : ∀ name ∈ references fragments, get name.text = get' name.text) :
    fragments.flatMap (Fragment.substitute get) =
      fragments.flatMap (Fragment.substitute get') := by
  apply List.flatMap_congr
  intro fragment hfragment
  cases fragment with
  | literal text htext => rfl
  | reference name =>
      have hname : name ∈ references fragments :=
        List.mem_flatMap.mpr ⟨_, hfragment, List.mem_singleton.mpr rfl⟩
      rw [Fragment.substitute, Fragment.substitute, h name hname]

/-- From some depth of calls on, a lookup from which no cycle of references
can be reached returns the values of the variable, joined by newlines, in which
each reference is replaced, where it stands, by what the lookup of its name
returns.  References to undefined names stay, and no other references do. -/
theorem get_substitutes (m : Makefile) (hm : ReferencesOnly m) (name : Text)
    (var : MakefileVariable) (hlookup : m.variableMap.lookup name = some var)
    (hcycle : ¬ ReachesCycle (RefersTo m) name) :
    ∃ depth, ∀ k, depth ≤ k →
      ∀ pieces : List (List Fragment), var.values = pieces.map render →
        (∀ fragments ∈ pieces, ∀ w ∈ references fragments,
          (w.text ∈ m.variableMap →
            ∃ resolved, get m k w.text = .ok (some resolved)) ∧
          (w.text ∉ m.variableMap → get m k w.text = .ok none)) ∧
        ∃ text, get m k name = .ok (some text) ∧
          text = List.intercalate ['\n'] (pieces.map fun fragments =>
            fragments.flatMap (Fragment.substitute (get m k))) ∧
          (∀ w : ReferenceName, w.text ∈ m.variableMap →
            ¬ w.toReference <:+: text) ∧
          ∀ capture ∈ capturesIter text,
            nestedVarName capture ∉ m.variableMap := by
  obtain ⟨depth, hends⟩ := ends_of_acc m name
    (acc_of_not_reachesCycle (finite_references m name) hcycle)
  refine ⟨depth + 1, ?_⟩
  intro k hk pieces hpieces
  obtain ⟨k, rfl⟩ : ∃ k', k = k' + 1 := ⟨k - 1, by omega⟩
  have hcalls := settledCalls m hm k
  obtain ⟨hreferences, heq⟩ := get_succ_eq hcalls hlookup hpieces
    (ends_mono m depth (k + 1) name (by omega) hends)
  -- The lookups made one level below return the same at this level.
  have hsame : ∀ fragments ∈ pieces, ∀ w ∈ references fragments,
      get m k w.text = get m (k + 1) w.text := by
    intro fragments hfragments w hw
    obtain ⟨result, hresult⟩ := hreferences fragments hfragments w hw
    rw [hresult, get_mono (Nat.le_succ k) hresult]
  have hpiecesEq : (pieces.map fun fragments =>
      fragments.flatMap (Fragment.substitute (get m k))) =
        pieces.map fun fragments =>
          fragments.flatMap (Fragment.substitute (get m (k + 1))) := by
    apply List.map_congr_left
    intro fragments hfragments
    exact substitute_congr (hsame fragments hfragments)
  have hsettled := (settledCalls m hm (k + 1)).settled _ _ heq
  constructor
  · intro fragments hfragments w hw
    obtain ⟨result, hresult⟩ := hreferences fragments hfragments w hw
    rw [← hsame fragments hfragments w hw, hresult]
    cases result with
    | none =>
        have hnot := hcalls.not_mem_of_none _ hresult
        exact ⟨fun hmem => absurd hmem hnot, fun _ => rfl⟩
    | some resolved =>
        have hmem := hcalls.mem_of_some _ _ hresult
        exact ⟨fun _ => ⟨resolved, rfl⟩, fun hnot => absurd hmem hnot⟩
  · refine ⟨_, heq, by rw [hpiecesEq], ?_, ?_⟩
    · intro w hw
      exact hsettled.not_isInfix hw
    · intro capture hcapture
      exact hsettled.nestedVarName_not_mem hcapture

theorem referencesOnly_new : ReferencesOnly new := by
  intro name var hlookup
  rw [new, Finmap.lookup_empty] at hlookup
  cases hlookup

theorem ReferencesOnly.insertVariable {m : Makefile} (hm : ReferencesOnly m)
    (name : Text) (pieces : List (List Fragment)) :
    ReferencesOnly
      (insertVariable m (name, { values := pieces.map render })) := by
  intro other var hlookup value hvalue
  unfold Makefile.insertVariable at hlookup
  by_cases hother : other = name
  · rw [hother, Finmap.lookup_insert] at hlookup
    cases hlookup
    obtain ⟨fragments, -, rfl⟩ := List.mem_map.mp hvalue
    exact ⟨fragments, rfl⟩
  · rw [Finmap.lookup_insert_of_ne _ hother] at hlookup
    exact hm other var hlookup value hvalue

def nameA : ReferenceName := ⟨['A'], by decide, forall_mem_of_all (by decide)⟩

def nameU : ReferenceName := ⟨['U'], by decide, forall_mem_of_all (by decide)⟩

def piecesOfA : List (List Fragment) :=
  [[.literal ['1'] (by decide)], [.reference nameU]]

def piecesOfB : List (List Fragment) :=
  [[.reference nameA, .literal ['x'] (by decide), .reference nameA]]

/-- `A` has the values `1` and `$(U)`, `B` has the value `$(A)x$(A)`. -/
def repeatedMakefile : Makefile :=
  insertVariable
    (insertVariable new (['A'], { values := piecesOfA.map render }))
    (['B'], { values := piecesOfB.map render })

theorem get_substitutes_repeated :
    ∃ k, get repeatedMakefile k ['B'] =
        .ok (some "1\n$(U)x1\n$(U)".toList) ∧
      "1\n$(U)x1\n$(U)".toList =
        List.intercalate ['\n'] (piecesOfB.map fun fragments =>
          fragments.flatMap (Fragment.substitute (get repeatedMakefile k))) ∧
      ¬ nameA.toReference <:+: "1\n$(U)x1\n$(U)".toList := by
  have honly : ReferencesOnly repeatedMakefile :=
    (referencesOnly_new.insertVariable ['A'] piecesOfA).insertVariable
      ['B'] piecesOfB
  have hget : get repeatedMakefile 3 ['B'] =
      .ok (some "1\n$(U)x1\n$(U)".toList) := by decide +kernel
  obtain ⟨depth, hdepth⟩ := get_substitutes repeatedMakefile honly ['B']
    { values := piecesOfB.map render } (by decide +kernel)
    (not_reachesCycle_of_acc (acc_of_ends _ 3 _ ⟨_, hget⟩))
  obtain ⟨-, text, htext, heq, hnone, -⟩ :=
    hdepth (depth + 3) (Nat.le_add_right _ _) piecesOfB rfl
  rw [get_mono (Nat.le_add_left 3 depth) hget] at htext
  cases htext
  exact ⟨depth + 3, get_mono (Nat.le_add_left 3 depth) hget, heq,
    hnone nameA (by decide +kernel)⟩

end Ips.Makefile
