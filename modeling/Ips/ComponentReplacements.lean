import Ips.ComponentDiff

/-!
# The order of replacements

`replace_func` applies the replacements one after another, in the order in
which a hash map is iterated.  Two replacements can change places when neither
the value nor the reference of one can become part of the reference of the
other.  For names without dollar signs and closing parentheses nothing less is
enough: where a value can become part of another reference, some text tells
the two orders apart.
-/

namespace Ips.ComponentDiff

/-! ## Replacing one pattern -/

/-- `str::replace` of a non-empty pattern. -/
def replaceAll (pattern replacement s : Text) : Text :=
  replaceFrom pattern replacement 0 s

section Pattern

variable {p : Text} (r : Text)

theorem replaceFrom_skip (skipped t : Text) :
    replaceFrom p r skipped.length (skipped ++ t) = replaceAll p r t := by
  induction skipped with
  | nil => rfl
  | cons c skipped ih => exact ih

theorem replaceAll_append (hp : p ≠ []) (t : Text) :
    replaceAll p r (p ++ t) = r ++ replaceAll p r t := by
  have hhead : p.isPrefixOf (p ++ t) = true :=
    List.isPrefixOf_iff_prefix.mpr (List.prefix_append p t)
  cases p with
  | nil => exact absurd rfl hp
  | cons c q =>
      rw [List.cons_append] at hhead ⊢
      unfold replaceAll
      rw [replaceFrom, if_pos hhead, List.length_cons, Nat.add_sub_cancel,
        replaceFrom_skip]
      rfl

theorem replaceAll_cons {c : Char} {t : Text} (h : ¬ p <+: c :: t) :
    replaceAll p r (c :: t) = c :: replaceAll p r t := by
  unfold replaceAll
  rw [replaceFrom, if_neg (by rwa [List.isPrefixOf_iff_prefix])]

/-- The cases of the search: the end, a match, and a character to pass. -/
theorem match_cases (p s : Text) :
    s = [] ∨ (∃ t, s = p ++ t) ∨ ∃ c t, s = c :: t ∧ ¬ p <+: c :: t := by
  cases s with
  | nil => exact .inl rfl
  | cons c t =>
      by_cases h : p <+: c :: t
      · obtain ⟨u, hu⟩ := h
        exact .inr (.inl ⟨u, hu.symm⟩)
      · exact .inr (.inr ⟨c, t, rfl, h⟩)

/-- Text in which no match starts is passed over. -/
theorem replaceAll_append_left {v t : Text}
    (h : ∀ x y, v = x ++ y → y ≠ [] → ¬ p <+: y ++ t) :
    replaceAll p r (v ++ t) = v ++ replaceAll p r t := by
  induction v with
  | nil => rfl
  | cons c v ih =>
      have hhead : ¬ p <+: c :: (v ++ t) :=
        h [] (c :: v) rfl (List.cons_ne_nil c v)
      have hrest : replaceAll p r (v ++ t) = v ++ replaceAll p r t := by
        apply ih
        intro x y hxy hy
        exact h (c :: x) y (by rw [hxy, List.cons_append]) hy
      rw [List.cons_append, replaceAll_cons r hhead, hrest, List.cons_append]

theorem replaceAll_of_not_isInfix {s : Text} (h : ¬ p <:+: s) :
    replaceAll p r s = s := by
  have hstart : ∀ x y, s = x ++ y → y ≠ [] → ¬ p <+: y ++ [] := by
    intro x y hxy _ hhead
    rw [List.append_nil] at hhead
    obtain ⟨z, rfl⟩ := hhead
    exact h ⟨x, z, by rw [hxy, List.append_assoc]⟩
  have happend := replaceAll_append_left r hstart
  rw [List.append_nil] at happend
  rw [happend]
  exact List.append_nil s

/-- Induction along the search. -/
theorem match_induction {P : Text → Prop} (hp : p ≠ []) (hnil : P [])
    (hmatch : ∀ t, P t → P (p ++ t))
    (hpass : ∀ c t, ¬ p <+: c :: t → P t → P (c :: t)) (s : Text) : P s := by
  induction hlength : s.length using Nat.strong_induction_on generalizing s with
  | _ n ih =>
      rcases match_cases p s with rfl | ⟨t, rfl⟩ | ⟨c, t, rfl, hnot⟩
      · exact hnil
      · have hpos := List.length_pos_of_ne_nil hp
        rw [List.length_append] at hlength
        exact hmatch t (ih t.length (by omega) t rfl)
      · rw [List.length_cons] at hlength
        exact hpass c t hnot (ih t.length (by omega) t rfl)

theorem replaceAll_self (hp : p ≠ []) (s : Text) : replaceAll p p s = s := by
  induction s using match_induction hp with
  | hnil => rfl
  | hmatch t ih => rw [replaceAll_append p hp, ih]
  | hpass c t hnot ih => rw [replaceAll_cons p hnot, ih]

theorem length_le_replaceAll (hp : p ≠ []) (hr : p.length ≤ r.length)
    (s : Text) : s.length ≤ (replaceAll p r s).length := by
  induction s using match_induction hp with
  | hnil => exact Nat.zero_le _
  | hmatch t ih =>
      rw [replaceAll_append r hp, List.length_append, List.length_append]
      omega
  | hpass c t hnot ih =>
      rw [replaceAll_cons r hnot, List.length_cons, List.length_cons]
      omega

theorem replaceAll_length_le (hp : p ≠ []) (hr : r.length ≤ p.length)
    (s : Text) : (replaceAll p r s).length ≤ s.length := by
  induction s using match_induction hp with
  | hnil => exact Nat.le_refl _
  | hmatch t ih =>
      rw [replaceAll_append r hp, List.length_append, List.length_append]
      omega
  | hpass c t hnot ih =>
      rw [replaceAll_cons r hnot, List.length_cons, List.length_cons]
      omega

/-- A replacement by something else changes every text with a match. -/
theorem replaceAll_ne_self (hp : p ≠ []) (hr : r ≠ p) {s : Text}
    (h : p <:+: s) : replaceAll p r s ≠ s := by
  induction s using match_induction hp with
  | hnil => exact absurd (List.infix_nil.mp h) hp
  | hmatch t _ =>
      intro heq
      rw [replaceAll_append r hp] at heq
      have hsum := congrArg List.length heq
      rw [List.length_append, List.length_append] at hsum
      have hsame : r.length = p.length := by
        rcases Nat.le_total p.length r.length with hle | hle
        · have hrest := length_le_replaceAll r hp hle t
          omega
        · have hrest := replaceAll_length_le r hp hle t
          omega
      exact hr (List.append_inj heq hsame).1
  | hpass c t hnot ih =>
      intro heq
      rw [replaceAll_cons r hnot] at heq
      rcases List.infix_cons_iff.mp h with hhead | hinfix
      · exact hnot hhead
      · exact ih hinfix (List.cons.inj heq).2

end Pattern

/-! ## Two patterns -/

/-- The text can become part of a match of the pattern: it contains one, lies
inside one, ends with the beginning of one or begins with the end of one. -/
inductive Touches (v p : Text) : Prop where
  | contains (x y : Text) (hv : v = x ++ (p ++ y))
  | inside (x y : Text) (hx : x ≠ []) (hy : y ≠ []) (hp : p = x ++ (v ++ y))
  | begins (x u y : Text) (hu : u ≠ []) (hv : v = x ++ u) (hp : p = u ++ y)
  | ends (x u y : Text) (hu : u ≠ []) (hv : v = u ++ y) (hp : p = x ++ u)

theorem touches_of_isPrefix_right {v p x y t : Text} (hv : v = x ++ y)
    (hy : y ≠ []) (h : p <+: y ++ t) : Touches v p := by
  obtain ⟨z, hz⟩ := h
  rcases List.append_eq_append_iff.mp hz with ⟨u, hyu, -⟩ | ⟨u, hpu, -⟩
  · exact .contains x u (by rw [hv, hyu])
  · exact .begins x y u hy hv hpu

theorem touches_of_isPrefix_left {w v p t : Text} (hw : w ≠ [])
    (hnot : ¬ p <+: w) (h : p <+: w ++ (v ++ t)) : Touches v p := by
  obtain ⟨z, hz⟩ := h
  rcases List.append_eq_append_iff.mp hz with ⟨u, hwu, -⟩ | ⟨u, hpu, hvu⟩
  · exact absurd ⟨u, hwu.symm⟩ hnot
  · -- The match is `w ++ u`, and `u` starts where the text does.
    have hu : u ≠ [] := by
      rintro rfl
      exact hnot ⟨[], by rw [hpu, List.append_nil, List.append_nil]⟩
    rcases List.append_eq_append_iff.mp hvu.symm with ⟨y, hvy, -⟩ | ⟨y, huy, -⟩
    · exact .ends w u y hu hvy hpu
    · by_cases hy : y = []
      · rw [hy, List.append_nil] at huy
        exact .ends w u [] hu (by rw [huy, List.append_nil]) hpu
      · exact .inside w y hw hy (by rw [hpu, huy])

section Two

variable {p q : Text} (r r' : Text)

theorem replaceAll_append_of_not_touches {v : Text} (h : ¬ Touches v p)
    (t : Text) : replaceAll p r (v ++ t) = v ++ replaceAll p r t := by
  apply replaceAll_append_left
  intro x y hv hy hhead
  exact h (touches_of_isPrefix_right hv hy hhead)

/-- Replacing one pattern makes no match of another, where its replacement
cannot become part of one. -/
theorem isPrefix_of_isPrefix_replaceAll (hp : p ≠ []) (h : ¬ Touches r q)
    {w : Text} (hw : w ≠ []) {t : Text} (hq : q <+: w ++ replaceAll p r t) :
    q <+: w ++ t := by
  by_cases hnot : q <+: w
  · exact hnot.trans (List.prefix_append w t)
  · induction t using match_induction hp generalizing w with
    | hnil => exact hq
    | hmatch t _ =>
        rw [replaceAll_append r hp] at hq
        exact absurd (touches_of_isPrefix_left hw hnot hq) h
    | hpass c t hpass ih =>
        rw [replaceAll_cons r hpass] at hq
        by_cases hnext : q <+: w ++ [c]
        · apply hnext.trans
          exact ⟨t, by rw [List.append_assoc, List.singleton_append]⟩
        · have hrest := @ih (w ++ [c]) (by simp)
            (by rwa [List.append_assoc, List.singleton_append]) hnext
          rwa [List.append_assoc, List.singleton_append] at hrest

/-- Replacements that cannot become part of each other's matches commute. -/
theorem replaceAll_comm (hp : p ≠ []) (hq : q ≠ [])
    (hpq : ¬ Touches p q) (hqp : ¬ Touches q p)
    (hr : ¬ Touches r q) (hr' : ¬ Touches r' p) (s : Text) :
    replaceAll q r' (replaceAll p r s) =
      replaceAll p r (replaceAll q r' s) := by
  induction hlength : s.length using Nat.strong_induction_on generalizing s with
  | _ n ih =>
      rcases match_cases p s with rfl | ⟨t, rfl⟩ | ⟨c, t, rfl, hnotP⟩
      · rfl
      · have hpos := List.length_pos_of_ne_nil hp
        rw [List.length_append] at hlength
        rw [replaceAll_append r hp, replaceAll_append_of_not_touches r' hr,
          ih t.length (by omega) t rfl,
          replaceAll_append_of_not_touches r' hpq, replaceAll_append r hp]
      · rcases match_cases q (c :: t) with hnil | ⟨u, hu⟩ | ⟨d, u, hdu, hnotQ⟩
        · cases hnil
        · have hpos := List.length_pos_of_ne_nil hq
          rw [hu, List.length_append] at hlength
          rw [hu, replaceAll_append r' hq,
            replaceAll_append_of_not_touches r hqp,
            replaceAll_append r' hq, replaceAll_append_of_not_touches r hr',
            ih u.length (by omega) u rfl]
        · rw [← hdu] at hnotQ
          rw [List.length_cons] at hlength
          have hpass : ¬ q <+: c :: replaceAll p r t := by
            intro hhead
            exact hnotQ (isPrefix_of_isPrefix_replaceAll r hp hr
              (List.cons_ne_nil c []) hhead)
          have hpass' : ¬ p <+: c :: replaceAll q r' t := by
            intro hhead
            exact hnotP (isPrefix_of_isPrefix_replaceAll r' hq hr'
              (List.cons_ne_nil c []) hhead)
          rw [replaceAll_cons r hnotP, replaceAll_cons r' hnotQ,
            replaceAll_cons r' hpass, replaceAll_cons r hpass',
            ih t.length (by omega) t rfl]

end Two

/-! ## References -/

/-- Names whose references hold one dollar sign and one closing parenthesis. -/
def PlainName (name : Text) : Prop := '$' ∉ name ∧ ')' ∉ name

instance (name : Text) : Decidable (PlainName name) :=
  inferInstanceAs (Decidable (_ ∧ _))

theorem macroReference_eq (name : Text) :
    macroReference name = '$' :: ('(' :: (name ++ [')'])) := rfl

theorem macroReference_ne_nil (name : Text) : macroReference name ≠ [] :=
  List.cons_ne_nil _ _

section Names

variable {name other : Text}

theorem PlainName.dollar_not_mem_tail (h : PlainName name) :
    '$' ∉ '(' :: (name ++ [')']) := by
  simp [h.1]

theorem PlainName.eq_of_isPrefix (h : PlainName name) (hother : PlainName other)
    {t : Text} (hhead : macroReference name <+: macroReference other ++ t) :
    name = other := by
  obtain ⟨u, hu⟩ := hhead
  have htail : name ++ ')' :: u = other ++ ')' :: t := by
    simpa [macroReference_eq] using hu
  exact eq_of_append_cons_eq h.2 hother.2 htail

/-- What follows a part of a reference holds no dollar sign. -/
theorem PlainName.dollar_not_mem_right (h : PlainName name) {x y : Text}
    (hx : x ≠ []) (heq : macroReference name = x ++ y) : '$' ∉ y := by
  cases x with
  | nil => exact absurd rfl hx
  | cons c x =>
      have htail : '(' :: (name ++ [')']) = x ++ y := (List.cons.inj heq).2
      intro hmem
      apply h.dollar_not_mem_tail
      rw [htail]
      exact List.mem_append_right x hmem

/-- Nothing, or the beginning of a reference. -/
def Stub (a : Text) : Prop :=
  a = [] ∨ ∃ rest, a = '$' :: rest ∧ '$' ∉ rest ∧ ')' ∉ rest

theorem PlainName.stub_left (h : PlainName name) {x y : Text} (hy : y ≠ [])
    (heq : macroReference name = x ++ y) : Stub x := by
  cases x with
  | nil => exact .inl rfl
  | cons c x =>
      have hc : '$' = c := (List.cons.inj heq).1
      have htail : '(' :: (name ++ [')']) = x ++ y := (List.cons.inj heq).2
      -- The last character of the reference is in `y`.
      obtain ⟨z, hz⟩ : ∃ z, '(' :: name = x ++ z := by
        rw [← List.dropLast_append_getLast hy, ← List.append_assoc,
          ← List.cons_append] at htail
        have hinit := (List.append_inj' htail rfl).1
        exact ⟨y.dropLast, hinit⟩
      have hfree : ∀ d, d ∉ '(' :: name → d ∉ x := by
        intro d hd hmem
        rw [hz] at hd
        exact hd (List.mem_append_left z hmem)
      refine .inr ⟨x, by rw [hc], hfree '$' ?_, hfree ')' ?_⟩
      · simp [h.1]
      · simp [h.2]

theorem PlainName.not_isPrefix_stub (h : PlainName name) {a x y t : Text}
    (ha : Stub a) (hxy : a = x ++ y) (hy : y ≠ []) :
    ¬ macroReference name <+: y ++ '$' :: t := by
  rcases ha with rfl | ⟨rest, rfl, hdollar, hclosing⟩
  · exact absurd (List.append_eq_nil_iff.mp hxy.symm).2 hy
  · rintro ⟨z, hz⟩
    cases x with
    | cons c x =>
        -- A match starts with a dollar sign, and `rest` has none.
        have hrest : rest = x ++ y := (List.cons.inj hxy).2
        cases y with
        | nil => exact hy rfl
        | cons d y =>
            have hd : '$' = d := (List.cons.inj hz).1
            apply hdollar
            rw [hrest, ← hd]
            exact List.mem_append_right x List.mem_cons_self
    | nil =>
        have hy' : y = '$' :: rest := hxy.symm
        rw [hy'] at hz
        have htail : '(' :: (name ++ [')']) ++ z = rest ++ '$' :: t :=
          (List.cons.inj hz).2
        obtain ⟨u, hu, -⟩ :=
          append_eq_append_cons h.dollar_not_mem_tail htail
        apply hclosing
        rw [hu]
        simp

theorem replaceAll_of_dollar_not_mem (r : Text) {b : Text} (hb : '$' ∉ b) :
    replaceAll (macroReference name) r b = b := by
  apply replaceAll_of_not_isInfix
  intro h
  exact hb (h.subset List.mem_cons_self)

/-- The replacement of the reference that stands behind a stub. -/
theorem PlainName.replaceAll_reference (h : PlainName name) (r : Text)
    {a b : Text} (ha : Stub a) (hb : '$' ∉ b) :
    replaceAll (macroReference name) r (a ++ (macroReference name ++ b)) =
      a ++ (r ++ b) := by
  have hpass : ∀ x y, a = x ++ y → y ≠ [] →
      ¬ macroReference name <+: y ++ (macroReference name ++ b) :=
    fun x y hxy hy => h.not_isPrefix_stub ha hxy hy
  rw [replaceAll_append_left r hpass,
    replaceAll_append r (macroReference_ne_nil name),
    replaceAll_of_dollar_not_mem r hb]

/-- Other replacements leave such a text as it is. -/
theorem PlainName.replaceAll_other (h : PlainName name)
    (hother : PlainName other) (hne : other ≠ name) (r : Text) {a b : Text}
    (ha : Stub a) (hb : '$' ∉ b) :
    replaceAll (macroReference other) r (a ++ (macroReference name ++ b)) =
      a ++ (macroReference name ++ b) := by
  have hpass : ∀ x y, a = x ++ y → y ≠ [] →
      ¬ macroReference other <+: y ++ (macroReference name ++ b) :=
    fun x y hxy hy => hother.not_isPrefix_stub ha hxy hy
  have hnot : ¬ macroReference other <+: macroReference name ++ b :=
    fun hhead => hne (hother.eq_of_isPrefix h hhead)
  have htail : '$' ∉ '(' :: (name ++ [')']) ++ b := by
    intro hmem
    rcases List.mem_append.mp hmem with hmem | hmem
    · exact h.dollar_not_mem_tail hmem
    · exact hb hmem
  rw [replaceAll_append_left r hpass]
  congr 1
  calc
    replaceAll (macroReference other) r (macroReference name ++ b) =
        '$' :: replaceAll (macroReference other) r
          ('(' :: (name ++ [')']) ++ b) := replaceAll_cons r hnot
    _ = _ := by
      rw [replaceAll_of_dollar_not_mem r htail]
      rfl

theorem PlainName.not_touches (h : PlainName name) (hother : PlainName other)
    (hne : name ≠ other) :
    ¬ Touches (macroReference name) (macroReference other) := by
  have hhead : ¬ macroReference name <+: macroReference other := by
    intro hpre
    exact hne (h.eq_of_isPrefix hother (hpre.trans (List.prefix_append _ [])))
  have hhead' : ¬ macroReference other <+: macroReference name := by
    intro hpre
    exact hne (hother.eq_of_isPrefix h
      (hpre.trans (List.prefix_append _ []))).symm
  -- A dollar sign can only be the first character of a reference.
  have hfirst : ∀ {name : Text}, PlainName name → ∀ {x t : Text},
      macroReference name = x ++ '$' :: t → x = [] := by
    intro name hname x t heq
    by_contra hx
    exact hname.dollar_not_mem_right hx heq List.mem_cons_self
  have hstart : ∀ {name u y : Text}, u ≠ [] → macroReference name = u ++ y →
      ∃ v, u = '$' :: v := by
    intro name u y hu heq
    cases u with
    | nil => exact absurd rfl hu
    | cons c u =>
        have hc : '$' = c := (List.cons.inj heq).1
        exact ⟨u, by rw [hc]⟩
  intro htouches
  cases htouches with
  | contains x y hv =>
      have hx : x = [] := hfirst h hv
      rw [hx, List.nil_append] at hv
      exact hhead' ⟨y, hv.symm⟩
  | inside x y hx hy hp => exact hx (hfirst hother hp)
  | begins x u y hu hv hp =>
      obtain ⟨v, rfl⟩ := hstart hu hp
      have hx : x = [] := hfirst h hv
      rw [hx, List.nil_append] at hv
      exact hhead ⟨y, by rw [hv, hp]⟩
  | ends x u y hu hv hp =>
      obtain ⟨v, rfl⟩ := hstart hu hv
      have hx : x = [] := hfirst hother hp
      rw [hx, List.nil_append] at hp
      exact hhead' ⟨y, by rw [hv, hp]⟩

/-- Where a value can become part of a reference, it does in some text whose
other references are gone. -/
theorem PlainName.exists_context (h : PlainName name) {v : Text}
    (htouches : Touches v (macroReference name)) :
    ∃ a b, Stub a ∧ '$' ∉ b ∧ macroReference name <:+: a ++ (v ++ b) := by
  cases htouches with
  | contains x y hv =>
      refine ⟨[], [], .inl rfl, by simp, x, y, ?_⟩
      rw [List.nil_append, List.append_nil, hv, List.append_assoc]
  | inside x y hx hy hp =>
      have hvy : v ++ y ≠ [] := by simp [hy]
      refine ⟨x, y, h.stub_left hvy hp, ?_, [], [], ?_⟩
      · intro hmem
        exact h.dollar_not_mem_right hx hp (List.mem_append_right v hmem)
      · rw [List.nil_append, List.append_nil, hp]
  | begins x u y hu hv hp =>
      refine ⟨[], y, .inl rfl, h.dollar_not_mem_right hu hp, x, [], ?_⟩
      rw [List.nil_append, List.append_nil, hv, hp, List.append_assoc]
  | ends x u y hu hv hp =>
      refine ⟨x, [], h.stub_left hu hp, by simp, [], y, ?_⟩
      rw [List.nil_append, List.append_nil, hv, hp, List.append_assoc]

end Names

/-! ## The replacements of a map -/

/-- `str::split_once`. -/
def splitOnce (separator : Char) (s : Text) : Option (Text × Text) :=
  match s.dropWhile (· != separator) with
  | [] => none
  | _ :: rest => some (s.takeWhile (· != separator), rest)

def parseTrippletReplacements (replacements : List Text) : HashMap Text :=
  replacements.foldl
    (fun map str =>
      let pair := (splitOnce ':' str).getD ([], [])
      map.insert pair.1 pair.2)
    ∅

/-- An order in which the entries of a map may be iterated. -/
structure IterationOf (map : HashMap Text) (entries : List (Text × Text)) :
    Prop where
  nodup : (entries.map Prod.fst).Nodup
  mem_iff : ∀ key value, (key, value) ∈ entries ↔ map.lookup key = some value

def OrderIndependent (map : HashMap Text) : Prop :=
  ∀ orig entries entries', IterationOf map entries →
    IterationOf map entries' →
      replaceFunc orig (some entries) = replaceFunc orig (some entries')

/-- No two replacements that change something can become part of each other's
references. -/
def Independent (map : HashMap Text) : Prop :=
  ∀ key value key' value', map.lookup key = some value →
    map.lookup key' = some value' → key ≠ key' →
    value ≠ macroReference key → value' ≠ macroReference key' →
      ¬ Touches value (macroReference key') ∧
        ¬ Touches (macroReference key) (macroReference key')

def replaceEntry (s : Text) (entry : Text × Text) : Text :=
  replaceAll (macroReference entry.1) entry.2 s

theorem replaceFunc_eq_foldl (orig : Text) (entries : List (Text × Text)) :
    replaceFunc orig (some entries) = entries.foldl replaceEntry orig := by
  have hlater : ∀ (entries : List (Text × Text)) (n : ℕ) (s : Text), 0 < n →
      (entries.zipIdx n).foldl
        (fun replacement entry =>
          if entry.2 = 0 then
            replaceFrom (macroReference entry.1.1) entry.1.2 0 orig
          else replaceFrom (macroReference entry.1.1) entry.1.2 0 replacement)
        s = entries.foldl replaceEntry s := by
    intro entries
    induction entries with
    | nil =>
        intro n s _
        rfl
    | cons entry entries ih =>
        intro n s hn
        rw [List.zipIdx_cons, List.foldl_cons, List.foldl_cons,
          if_neg (by omega), ih (n + 1) _ (by omega)]
        rfl
  cases entries with
  | nil => rfl
  | cons entry entries =>
      unfold replaceFunc
      dsimp only
      rw [List.zipIdx_cons, List.foldl_cons, List.foldl_cons, if_pos rfl,
        hlater entries (0 + 1) _ (by omega)]
      rfl

section Maps

variable {map : HashMap Text} {entries entries' : List (Text × Text)}

theorem IterationOf.perm (h : IterationOf map entries)
    (h' : IterationOf map entries') : entries.Perm entries' := by
  rw [List.perm_ext_iff_of_nodup h.nodup.of_map h'.nodup.of_map]
  rintro ⟨key, value⟩
  rw [h.mem_iff, h'.mem_iff]

theorem IterationOf.of_perm (h : IterationOf map entries)
    (hperm : entries.Perm entries') : IterationOf map entries' := by
  constructor
  · exact (hperm.map Prod.fst).nodup_iff.mp h.nodup
  · intro key value
    rw [← hperm.mem_iff, h.mem_iff]

theorem exists_iterationOf (map : HashMap Text) :
    ∃ entries, IterationOf map entries := by
  induction map using Finmap.induction_on with
  | _ alist =>
      refine ⟨alist.entries.map fun entry => (entry.1, entry.2), ?_, ?_⟩
      · rw [List.map_map]
        exact alist.nodupKeys
      · intro key value
        rw [Finmap.lookup_toFinmap, List.mem_map]
        constructor
        · rintro ⟨⟨key', value'⟩, hmem, heq⟩
          cases heq
          exact AList.mem_lookup_iff.mpr hmem
        · intro hlookup
          exact ⟨⟨key, value⟩, AList.mem_lookup_iff.mp hlookup, rfl⟩

/-- Replacements of independent entries commute. -/
theorem Independent.replaceEntry_comm (h : Independent map)
    (hentries : IterationOf map entries) {entry entry' : Text × Text}
    (hentry : entry ∈ entries) (hentry' : entry' ∈ entries) (s : Text) :
    replaceEntry (replaceEntry s entry) entry' =
      replaceEntry (replaceEntry s entry') entry := by
  obtain ⟨key, value⟩ := entry
  obtain ⟨key', value'⟩ := entry'
  have hlookup := (hentries.mem_iff key value).mp hentry
  have hlookup' := (hentries.mem_iff key' value').mp hentry'
  have hself : ∀ (key s : Text),
      replaceEntry s (key, macroReference key) = s :=
    fun key s => replaceAll_self (macroReference_ne_nil key) s
  by_cases hkey : key = key'
  · rw [hkey, hlookup'] at hlookup
    cases hlookup
    rw [hkey]
  · by_cases hvalue : value = macroReference key
    · rw [hvalue, hself, hself]
    · by_cases hvalue' : value' = macroReference key'
      · rw [hvalue', hself, hself]
      · have hfirst := h key value key' value' hlookup hlookup' hkey hvalue
          hvalue'
        have hsecond := h key' value' key value hlookup' hlookup
          (Ne.symm hkey) hvalue' hvalue
        exact replaceAll_comm value value' (macroReference_ne_nil key)
          (macroReference_ne_nil key') hfirst.2 hsecond.2 hfirst.1 hsecond.1 s

theorem Independent.orderIndependent (h : Independent map) :
    OrderIndependent map := by
  intro orig entries entries' hentries hentries'
  rw [replaceFunc_eq_foldl, replaceFunc_eq_foldl]
  apply (hentries.perm hentries').foldl_eq'
  intro entry hentry entry' hentry' s
  exact h.replaceEntry_comm hentries hentry hentry' s

theorem foldl_replaceEntry_eq_self {s : Text}
    (h : ∀ entry ∈ entries, replaceEntry s entry = s) :
    entries.foldl replaceEntry s = s := by
  induction entries with
  | nil => rfl
  | cons entry entries ih =>
      rw [List.foldl_cons, h entry List.mem_cons_self]
      exact ih fun e he => h e (List.mem_cons_of_mem entry he)

/-- The entries of a map with two of them at the end, in either order. -/
theorem IterationOf.exists_last (h : IterationOf map entries)
    {entry entry' : Text × Text} (hentry : entry ∈ entries)
    (hentry' : entry' ∈ entries) (hne : entry.1 ≠ entry'.1) :
    ∃ rest, IterationOf map (rest ++ [entry, entry']) ∧
      IterationOf map (rest ++ [entry', entry]) ∧
      ∀ e ∈ rest, e ∈ entries ∧ e.1 ≠ entry.1 := by
  have herase : entry' ∈ entries.erase entry :=
    (List.mem_erase_of_ne fun heq => hne (by rw [heq])).mpr hentry'
  have hperm : entries.Perm
      (entry :: entry' :: (entries.erase entry).erase entry') :=
    (List.perm_cons_erase hentry).trans
      ((List.perm_cons_erase herase).cons entry)
  have hmove : ∀ x y : Text × Text, ∀ rest,
      ([x, y] ++ rest).Perm (rest ++ [x, y]) :=
    fun _ _ _ => List.perm_append_comm
  refine ⟨(entries.erase entry).erase entry', ?_, ?_, ?_⟩
  · exact h.of_perm (hperm.trans (hmove _ _ _))
  · exact h.of_perm ((hperm.trans (.swap _ _ _)).trans (hmove _ _ _))
  · intro e he
    have hnodup := (h.of_perm hperm).nodup
    rw [List.map_cons, List.nodup_cons] at hnodup
    constructor
    · exact List.mem_of_mem_erase (List.mem_of_mem_erase he)
    · intro heq
      apply hnodup.1
      rw [← heq]
      exact List.mem_map_of_mem (List.mem_cons_of_mem entry' he)

theorem OrderIndependent.not_touches (h : OrderIndependent map)
    (hplain : ∀ key ∈ map, PlainName key) {key value key' value' : Text}
    (hlookup : map.lookup key = some value)
    (hlookup' : map.lookup key' = some value') (hkey : key ≠ key')
    (hvalue' : value' ≠ macroReference key') :
    ¬ Touches value (macroReference key') := by
  intro htouches
  have hname := hplain key (Finmap.mem_of_lookup_eq_some hlookup)
  have hname' := hplain key' (Finmap.mem_of_lookup_eq_some hlookup')
  obtain ⟨a, b, ha, hb, hoccurs⟩ := hname'.exists_context htouches
  obtain ⟨entries, hentries⟩ := exists_iterationOf map
  obtain ⟨rest, hfirst, hsecond, hrest⟩ := hentries.exists_last
    ((hentries.mem_iff key value).mpr hlookup)
    ((hentries.mem_iff key' value').mpr hlookup') hkey
  -- In this text only the reference to `key` is replaced.
  have hothers : ∀ entry ∈ rest,
      replaceEntry (a ++ (macroReference key ++ b)) entry =
        a ++ (macroReference key ++ b) := by
    intro entry hentry
    obtain ⟨hmem, hne⟩ := hrest entry hentry
    have hother := hplain entry.1 (Finmap.mem_of_lookup_eq_some
      ((hentries.mem_iff entry.1 entry.2).mp hmem))
    exact hname.replaceAll_other hother hne entry.2 ha hb
  have hboth := h (a ++ (macroReference key ++ b)) _ _ hfirst hsecond
  rw [replaceFunc_eq_foldl, replaceFunc_eq_foldl, List.foldl_append,
    List.foldl_append, foldl_replaceEntry_eq_self hothers] at hboth
  have hkept : replaceEntry (a ++ (macroReference key ++ b)) (key', value') =
      a ++ (macroReference key ++ b) :=
    hname.replaceAll_other hname' (Ne.symm hkey) value' ha hb
  have hreplaced : replaceEntry (a ++ (macroReference key ++ b)) (key, value) =
      a ++ (value ++ b) := hname.replaceAll_reference value ha hb
  simp only [List.foldl_cons, List.foldl_nil, hkept, hreplaced] at hboth
  exact replaceAll_ne_self value' (macroReference_ne_nil key') hvalue'
    hoccurs hboth

theorem OrderIndependent.independent (h : OrderIndependent map)
    (hplain : ∀ key ∈ map, PlainName key) : Independent map := by
  intro key value key' value' hlookup hlookup' hkey _ hvalue'
  refine ⟨h.not_touches hplain hlookup hlookup' hkey hvalue', ?_⟩
  exact (hplain key (Finmap.mem_of_lookup_eq_some hlookup)).not_touches
    (hplain key' (Finmap.mem_of_lookup_eq_some hlookup')) hkey

end Maps

/-- The replacements of a map may be made in every order, and the comparison
reports the same files, when they are independent; for plain names only
then. -/
theorem replaceFunc_order_iff (map : HashMap Text) :
    (Independent map → OrderIndependent map ∧
      ∀ sample manifests inComponent entries entries',
        IterationOf map entries → IterationOf map entries' →
          findFilesMissingInManifests sample manifests (some entries) =
            findFilesMissingInManifests sample manifests (some entries') ∧
          findRemovedFiles sample manifests inComponent (some entries) =
            findRemovedFiles sample manifests inComponent (some entries')) ∧
    ((∀ key ∈ map, PlainName key) →
      (OrderIndependent map ↔ Independent map)) := by
  constructor
  · intro h
    refine ⟨h.orderIndependent, ?_⟩
    intro sample manifests inComponent entries entries' hentries hentries'
    have hsame : replacedKey (some entries) = replacedKey (some entries') := by
      funext f
      exact h.orderIndependent (fileKey f) entries entries' hentries hentries'
    constructor
    · rw [findFilesMissingInManifests_eq, findFilesMissingInManifests_eq,
        hsame]
    · rw [findRemovedFiles_eq, findRemovedFiles_eq, hsame]
  · intro hplain
    exact ⟨fun h => h.independent hplain, Independent.orderIndependent⟩

/-- A value that shares no character with a reference cannot become part of
it. -/
theorem not_touches_of_disjoint {v p : Text} (hv : v ≠ [])
    (h : ∀ c ∈ v, c ∉ p) (hp : p ≠ []) : ¬ Touches v p := by
  have hshared : ∀ {u : Text}, u ≠ [] → u ⊆ v → u ⊆ p → False := by
    intro u hu huv hup
    obtain ⟨c, hc⟩ := List.exists_mem_of_ne_nil u hu
    exact h c (huv hc) (hup hc)
  intro htouches
  cases htouches with
  | contains x y heq =>
      refine hshared hp ?_ (List.Subset.refl p)
      intro c hc
      rw [heq]
      simp [hc]
  | inside x y hx hy heq =>
      refine hshared hv (List.Subset.refl v) ?_
      intro c hc
      rw [heq]
      simp [hc]
  | begins x u y hu heq heq' =>
      apply hshared hu
      · rw [heq]
        exact List.subset_append_right x u
      · rw [heq']
        exact List.subset_append_left u y
  | ends x u y hu heq heq' =>
      apply hshared hu
      · rw [heq]
        exact List.subset_append_left u y
      · rw [heq']
        exact List.subset_append_right x u

theorem iterationOf_pair {key value key' value' : Text} (hkey : key ≠ key') :
    IterationOf (Finmap.insert key' value' (Finmap.insert key value ∅))
      [(key, value), (key', value')] := by
  constructor
  · simpa using hkey
  · intro k v
    by_cases hk' : k = key'
    · subst hk'
      rw [Finmap.lookup_insert]
      simpa [Ne.symm hkey] using eq_comm
    · rw [Finmap.lookup_insert_of_ne _ hk']
      by_cases hk : k = key
      · subst hk
        rw [Finmap.lookup_insert]
        simpa [hkey] using eq_comm
      · rw [Finmap.lookup_insert_of_ne _ hk, Finmap.lookup_empty]
        simp [hk, hk']

def plainReplacements : HashMap Text :=
  parseTrippletReplacements ["ARCH:amd64".toList, "VERSION:1.2".toList]

theorem plainReplacements_iteration : IterationOf plainReplacements
    [("ARCH".toList, "amd64".toList), ("VERSION".toList, "1.2".toList)] :=
  iterationOf_pair (by decide)

theorem plainReplacements_independent : Independent plainReplacements := by
  intro key value key' value' hlookup hlookup' hkey _ _
  have hmem := (plainReplacements_iteration.mem_iff key value).mpr hlookup
  have hmem' := (plainReplacements_iteration.mem_iff key' value').mpr hlookup'
  have harch : PlainName "ARCH".toList := by decide
  have hversion : PlainName "VERSION".toList := by decide
  simp only [List.mem_cons, Prod.mk.injEq, List.not_mem_nil, or_false]
    at hmem hmem'
  rcases hmem with ⟨rfl, rfl⟩ | ⟨rfl, rfl⟩ <;>
    rcases hmem' with ⟨rfl, rfl⟩ | ⟨rfl, rfl⟩
  · exact absurd rfl hkey
  · exact ⟨not_touches_of_disjoint (by decide) (forall_mem_of_all (by decide))
      (by decide), harch.not_touches hversion hkey⟩
  · exact ⟨not_touches_of_disjoint (by decide) (forall_mem_of_all (by decide))
      (by decide), hversion.not_touches harch hkey⟩
  · exact absurd rfl hkey

theorem replaceFunc_order_iff_plain :
    Independent plainReplacements ∧ OrderIndependent plainReplacements :=
  ⟨plainReplacements_independent,
    ((replaceFunc_order_iff plainReplacements).1
      plainReplacements_independent).1⟩

/-- The value of `A` is a reference to `B`. -/
def chainedReplacements : HashMap Text :=
  parseTrippletReplacements ["A:$(B)".toList, "B:x".toList]

/-- In one order the file `$(A)` is found as `x`, in the other one it is
reported as missing. -/
theorem replaceFunc_order_dependent :
    IterationOf chainedReplacements
        [("A".toList, "$(B)".toList), ("B".toList, "x".toList)] ∧
      IterationOf chainedReplacements
        [("B".toList, "x".toList), ("A".toList, "$(B)".toList)] ∧
      replaceFunc "$(A)".toList
        (some [("A".toList, "$(B)".toList), ("B".toList, "x".toList)]) =
          "x".toList ∧
      replaceFunc "$(A)".toList
        (some [("B".toList, "x".toList), ("A".toList, "$(B)".toList)]) =
          "$(B)".toList ∧
      findFilesMissingInManifests { files := [{ path := "$(A)".toList }] }
          [{ files := [{ path := "x".toList }] }]
          (some [("A".toList, "$(B)".toList), ("B".toList, "x".toList)]) =
        [] ∧
      findFilesMissingInManifests { files := [{ path := "$(A)".toList }] }
          [{ files := [{ path := "x".toList }] }]
          (some [("B".toList, "x".toList), ("A".toList, "$(B)".toList)]) =
        [{ path := "$(A)".toList }] := by
  have hiteration : IterationOf chainedReplacements
      [("A".toList, "$(B)".toList), ("B".toList, "x".toList)] :=
    iterationOf_pair (by decide)
  refine ⟨hiteration, hiteration.of_perm (.swap _ _ _), ?_⟩
  decide +kernel

end Ips.ComponentDiff
