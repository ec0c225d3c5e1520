import Ips.MakefileAssignments

/-!
# The lines of a makefile

The name of a target may run over any number of lines.  Lines `NAME=VALUE` that
stand at the start of a physical line are read as assignments unless a target
or a definition in front of them has taken them.
-/

namespace Ips.Makefile

open Peg

variable (upper : UppercaseTable) (content : Text)

/-! ## Places in a makefile -/

/-- Reading the items of the text comes to the place. -/
def Visits (s : List Char) : Prop := Reaches skip (readItem upper) content s

/-- The place is inside of an item of the text. -/
def InItem (kind : Item → Prop) (u : List Char) : Prop :=
  ∃ s t item, Visits upper content s ∧ kind item ∧
    Within skip (readItem upper) s [item] t u

def InTarget (u : List Char) : Prop := InItem upper content (· = .target) u

def InDefine (u : List Char) : Prop :=
  InItem upper content (fun item => ∃ name value, item = .define name value) u

/-- The text goes on with `NAME=VALUE`. -/
def Assigns (s : List Char) (name value : Text) : Prop :=
  ∃ blanks t, IsName name ∧ Blanks blanks ∧
    s = name ++ (blanks ++ '=' :: t) ∧ value = restOfLine (skip t)

/-- A physical line `NAME=VALUE` outside of definitions. -/
structure AssignedLine (name value : Text) (s : List Char) : Prop where
  lineStart : LineStart content s
  assigns : Assigns s name value
  notInDefine : ¬ InDefine upper content s

/-- The items that give a variable a value. -/
def Item.sets (name value : Text) : Item → Prop
  | .define key text => key = name ∧ text = value
  | .assignment key _ text => key = name ∧ text = value
  | _ => False

/-- An item at the place gives the variable a value. -/
def SetsAt (name value : Text) (s : List Char) : Prop :=
  ∃ item t, readItem upper (skip s) = some ([item], t) ∧ item.sets name value

/-- Something other than a line `NAME=VALUE` gives the variable a value. -/
def SetOtherwise (name : Text) : Prop :=
  ∃ value s, Visits upper content s ∧ SetsAt upper name value s ∧
    ¬ AssignedLine upper content name value s

/-- The value at the last of the places. -/
def Last (place : Text → List Char → Prop) (value : Text) : Prop :=
  ∃ s, place value s ∧ ∀ value' s', place value' s' → s.length ≤ s'.length

def storedValues (m : Makefile) (name : Text) : Option (List Text) :=
  (m.variableMap.lookup name).map MakefileVariable.values

/-! ## The last value is stored -/

theorem storedValues_insertVariable (m : Makefile) (key name : Text)
    (values : List Text) :
    storedValues (insertVariable m (key, { values := values })) name =
      if key = name then some values else storedValues m name := by
  unfold storedValues
  rw [lookup_insertVariable]
  split_ifs
  · rfl
  · rfl

theorem storedValues_addItem (m : Makefile) (item : Item) (name : Text) :
    (∃ value, item.sets name value ∧
      storedValues (addItem m item) name = some [value]) ∨
    ((∀ value, ¬ item.sets name value) ∧
      storedValues (addItem m item) name = storedValues m name) := by
  have hinsert : ∀ key value : Text,
      (∃ v, (key = name ∧ value = v) ∧
        storedValues (insertVariable m (key, { values := [value] })) name =
          some [v]) ∨
      ((∀ v, ¬ (key = name ∧ value = v)) ∧
        storedValues (insertVariable m (key, { values := [value] })) name =
          storedValues m name) := by
    intro key value
    rw [storedValues_insertVariable]
    by_cases h : key = name
    · left
      exact ⟨value, ⟨h, rfl⟩, if_pos h⟩
    · right
      exact ⟨fun v hv => h hv.1, if_neg h⟩
  cases item with
  | define key value => exact hinsert key value
  | assignment key mode value => exact hinsert key value
  | newline => exact .inr ⟨fun _ => id, rfl⟩
  | comment => exact .inr ⟨fun _ => id, rfl⟩
  | inclusion value => exact .inr ⟨fun _ => id, rfl⟩
  | target => exact .inr ⟨fun _ => id, rfl⟩

theorem readItem_singleton {s t : List Char} {items : List Item}
    (h : readItem upper s = some (items, t)) : ∃ item, items = [item] := by
  rcases readItem_eq_some upper h with ⟨-, rfl⟩ | ⟨-, -, rfl⟩ | ⟨item, rfl, -⟩
  · exact ⟨_, rfl⟩
  · exact ⟨_, rfl⟩
  · exact ⟨_, rfl⟩

/-- The run over the items stores what the last item for the name gives. -/
theorem storedValues_items (name : Text) (s : List Char) (m : Makefile) :
    (∃ value, Last (fun value u => Visits upper s u ∧
        SetsAt upper name value u) value ∧
      storedValues ((repeatAll skip (readItem upper) s).1.foldl addItem m)
        name = some [value]) ∨
    ((∀ value u, Visits upper s u → ¬ SetsAt upper name value u) ∧
      storedValues ((repeatAll skip (readItem upper) s).1.foldl addItem m)
        name = storedValues m name) := by
  have hconsuming := readItem_consuming upper
  revert m
  apply repeatAll_induction skip_shrinking hconsuming
    (fun s result => ∀ m,
      (∃ value, Last (fun value u => Visits upper s u ∧
          SetsAt upper name value u) value ∧
        storedValues (result.1.foldl addItem m) name = some [value]) ∨
      ((∀ value u, Visits upper s u → ¬ SetsAt upper name value u) ∧
        storedValues (result.1.foldl addItem m) name = storedValues m name))
  · intro s hstop m
    right
    refine ⟨?_, rfl⟩
    rintro value u hu ⟨item, t, hread, -⟩
    rw [hu.eq_of_stop hstop, hstop] at hread
    cases hread
  · intro s items t hread ih m
    rcases readItem_singleton upper hread with ⟨item, rfl⟩
    have hlt := hconsuming hread
    have hle := skip_shrinking s
    rw [List.foldl_append, List.foldl_cons, List.foldl_nil]
    rcases ih (addItem m item) with ⟨value, ⟨u, ⟨hu, hsets⟩, hmin⟩, hstored⟩ |
      ⟨hnone, hstored⟩
    · -- A later item wins.
      left
      refine ⟨value, ⟨u, ⟨?_, hsets⟩, ?_⟩, hstored⟩
      · exact Relation.ReflTransGen.head ⟨[item], hread⟩ hu
      · rintro value' u' ⟨hu', hsets'⟩
        rcases hu'.eq_or_of_read hread with heq | hafter
        · have := hu.length_le skip_shrinking hconsuming
          rw [heq]
          omega
        · exact hmin value' u' ⟨hafter, hsets'⟩
    · -- No later item is for the name, so this one decides.
      rw [hstored]
      rcases storedValues_addItem m item name with ⟨value, hsets, heq⟩ |
        ⟨hsets, heq⟩
      · left
        refine ⟨value, ⟨s, ⟨.refl, item, t, hread, hsets⟩, ?_⟩, heq⟩
        rintro value' u' ⟨hu', hsets'⟩
        rcases hu'.eq_or_of_read hread with heq | hafter
        · rw [heq]
        · exact absurd hsets' (hnone value' u' hafter)
      · right
        refine ⟨?_, heq⟩
        rintro value u hu hsetsAt
        rcases hu.eq_or_of_read hread with rfl | hafter
        · rcases hsetsAt with ⟨item', t', hread', hitem⟩
          rw [hread] at hread'
          cases hread'
          exact hsets value hitem
        · exact hnone value u hafter hsetsAt

/-! ## From line to line -/

theorem afterLine_skip (s : List Char) : afterLine (skip s) = afterLine s := by
  rw [skip_eq]
  exact afterLine_dropWhile blank_not_newline s

theorem nameChar_not_newline (c : Char) (h : isNameChar upper c = true) :
    isNewlineChar c = false := by
  cases hc : isNewlineChar c with
  | false => rfl
  | true =>
      simp only [isNewlineChar, Bool.or_eq_true, beq_iff_eq] at hc
      rcases hc with rfl | rfl
      · rw [isNameChar_of_ascii upper (by decide)] at h
        cases h
      · rw [isNameChar_of_ascii upper (by decide)] at h
        cases h

theorem afterLine_readOperator {s t : List Char} {mode : VariableMode}
    (h : readOperator s = some (mode, t)) : afterLine s = afterLine t := by
  unfold readOperator at h
  split at h
  · cases h
    rfl
  · cases h
    rfl
  · cases h

theorem readAssignment_line {s t : List Char} {item : Item}
    (h : readAssignment upper s = some (item, t)) : afterLine s = t := by
  rcases readAssignment_eq_some upper h with ⟨mode, u, hop, -, rfl⟩
  calc
    afterLine s = afterLine (s.dropWhile (isNameChar upper)) :=
      (afterLine_dropWhile (nameChar_not_newline upper) s).symm
    _ = afterLine (skip (s.dropWhile (isNameChar upper))) :=
      (afterLine_skip _).symm
    _ = afterLine u := afterLine_readOperator hop
    _ = afterLine (skip u) := (afterLine_skip u).symm

theorem readInclusion_line {s t : List Char} {item : Item}
    (h : readInclusion s = some (item, t)) : afterLine s = t := by
  unfold readInclusion at h
  split at h
  · cases h
  · next word u hword =>
      cases h
      rcases readWords_mem hword with ⟨w, hmem, rfl⟩
      cases List.mem_singleton.mp hmem
      rw [readWords_splits _ hword, afterLine_append (forall_mem_of_all (by decide)),
        afterLine_skip]

/-- An item that is no target and no definition ends with its line. -/
theorem readItem_line_cases {s r t : List Char} {item : Item}
    (h : readItem upper s = some ([item], r))
    (hnext : readNewline (afterLine s) = some t) :
    item = .target ∨ (∃ name value, item = .define name value) ∨ r = t ∨
      readNewline r = some t := by
  rcases readItem_eq_some upper h with ⟨hn, -⟩ | ⟨-, hc, -⟩ |
    ⟨item', heq, -, -, hread⟩
  · right
    right
    left
    have hhead : headIs isNewlineChar s = true := by
      cases hs : headIs isNewlineChar s with
      | true => rfl
      | false =>
          rw [readNewline_eq_none_iff.mpr hs] at hn
          cases hn
    rw [afterLine_of_head hhead, hn] at hnext
    exact Option.some.inj hnext
  · right
    right
    left
    unfold readComment at hc
    split at hc
    · next u =>
        have hline : afterLine ('#' :: u) = afterLine u := rfl
        rw [hline, hc] at hnext
        exact Option.some.inj hnext
    · cases hc
  · cases heq
    rcases hread with hd | ha | hi | ht
    · rcases readDefine_eq_some upper hd with ⟨-, -, value, -, -, rfl⟩
      exact .inr (.inl ⟨_, value, rfl⟩)
    · rw [readAssignment_line upper ha] at hnext
      exact .inr (.inr (.inr hnext))
    · rw [readInclusion_line hi] at hnext
      exact .inr (.inr (.inr hnext))
    · rcases readTarget_eq_some ht with ⟨-, -, -, -, -, -, rfl, -⟩
      exact .inl rfl

section Accepted

variable {upper content}

theorem Visits.newline {s t : List Char} (hs : Visits upper content s)
    (hn : readNewline s = some t) : Visits upper content t := by
  have hskip : skip s = s := by
    apply skip_of_head
    cases s with
    | nil => rfl
    | cons c u =>
        cases hc : isBlank c with
        | false => exact hc
        | true =>
            have hnone : readNewline (c :: u) = none := by
              rw [readNewline_eq_none_iff]
              exact blank_not_newline c hc
            rw [hnone] at hn
            cases hn
  refine hs.tail ⟨[.newline], ?_⟩
  unfold readItem
  rw [hskip, hn]

variable (upper content) in
/-- A place that reading comes to, or that a target or a definition has
taken. -/
def Accounted (s : List Char) : Prop :=
  Visits upper content s ∨ InTarget upper content s ∨ InDefine upper content s

theorem accounted_of_item {s u r t : List Char} {item : Item}
    (hs : Visits upper content s)
    (hread : readItem upper (skip s) = some ([item], r))
    (hkind : item = .target ∨ ∃ name value, item = .define name value)
    (hu : u <:+ skip s) (hr : r <:+ u)
    (hnext : readNewline (afterLine u) = some t) :
    Accounted upper content t ∨ readNewline (afterLine r) = some t := by
  have hvisit : Visits upper content r := hs.tail ⟨[item], hread⟩
  rcases hr with ⟨w, rfl⟩
  rcases nextLine_cases hnext with hline | hfeed | ⟨hr, ht, hlt⟩
  · rw [hline] at hnext
    exact .inr hnext
  · left
    left
    apply hvisit.newline
    rw [hfeed]
    rfl
  · left
    have hle := hr.length_le
    by_cases hlen : r.length = t.length
    · left
      rwa [← hr.eq_of_length hlen]
    · right
      have hwithin : Within skip (readItem upper) s [item] r t :=
        ⟨hread, ht.trans hu, hr, lt_of_lt_of_le hlt hu.length_le, by omega⟩
      rcases hkind with hkind | hkind
      · exact .inl ⟨s, r, item, hs, hkind, hwithin⟩
      · exact .inr ⟨s, r, item, hs, hkind, hwithin⟩

/-- Reading stops at the end of the text only. -/
def ReadsAll (upper : UppercaseTable) (content : Text) : Prop :=
  ∀ s, Visits upper content s → readItem upper (skip s) = none → skip s = []

/-- The line after a place that reading comes to.  Behind the end of a
definition another item may start on the same line, so this goes by induction
on what is left of the text. -/
theorem accounted_nextLine (hall : ReadsAll upper content) {s t : List Char}
    (hs : Visits upper content s)
    (hnext : readNewline (afterLine s) = some t) :
    Accounted upper content t := by
  induction hlen : s.length using Nat.strong_induction_on generalizing s with
  | _ n ih =>
      rw [← afterLine_skip] at hnext
      cases hread : readItem upper (skip s) with
      | none =>
          rw [hall s hs hread] at hnext
          cases hnext
      | some result =>
          rcases result with ⟨items, r⟩
          rcases readItem_singleton upper hread with ⟨item, rfl⟩
          have hvisit : Visits upper content r := hs.tail ⟨[item], hread⟩
          have hlt := (readItem_suffix_lt upper hread).2
          have hle := skip_shrinking s
          have hlong : item = .target ∨ (∃ name value,
              item = .define name value) → Accounted upper content t := by
            intro hkind
            rcases accounted_of_item hs hread hkind List.suffix_rfl
              (readItem_suffix_lt upper hread).1 hnext with h | h
            · exact h
            · exact ih r.length (by omega) hvisit h rfl
          rcases readItem_line_cases upper hread hnext with h | h | rfl | h
          · exact hlong (.inl h)
          · exact hlong (.inr h)
          · exact .inl hvisit
          · exact .inl (hvisit.newline h)

theorem accounted_lineStart (hall : ReadsAll upper content) {s : List Char}
    (hs : LineStart content s) : Accounted upper content s := by
  induction hs with
  | first => exact .inl .refl
  | next hs hnext ih =>
      have hinside : ∀ {s r u t : List Char} {item : Item},
          Visits upper content s →
          (item = .target ∨ ∃ name value, item = .define name value) →
          Within skip (readItem upper) s [item] r u →
          readNewline (afterLine u) = some t → Accounted upper content t := by
        intro s r u t item hs hkind hwithin hnext
        rcases accounted_of_item hs hwithin.read hkind hwithin.suffix
          hwithin.rest_suffix hnext with h | h
        · exact h
        · exact accounted_nextLine hall (hs.tail ⟨[item], hwithin.read⟩) h
      rcases ih with hvisit | ⟨s, r, item, hs, hkind, hwithin⟩ |
        ⟨s, r, item, hs, hkind, hwithin⟩
      · exact accounted_nextLine hall hvisit hnext
      · exact hinside hs (.inl hkind) hwithin hnext
      · exact hinside hs (.inr hkind) hwithin hnext

/-! ## Lines that are read -/

theorem Visits.not_inItem {s : List Char} {kind : Item → Prop}
    (hs : Visits upper content s) : ¬ InItem upper content kind s := by
  rintro ⟨u, t, item, hu, -, hwithin⟩
  exact hwithin.not_reaches skip_shrinking (readItem_consuming upper) hu hs

theorem Assigns.setsAt {s : List Char} {name value : Text}
    (h : Assigns s name value) : SetsAt upper name value s := by
  rcases h with ⟨blanks, t, hname, hblanks, rfl, rfl⟩
  have hop : readOperator ('=' :: t) = some (.set, t) := rfl
  have hread := readItem_assignment upper hname hblanks hop
  rw [SetsAt, hread.1]
  exact ⟨_, _, hread.2, rfl, rfl⟩

theorem SetsAt.unique {s : List Char} {name value value' : Text}
    (h : SetsAt upper name value s) (h' : SetsAt upper name value' s) :
    value = value' := by
  rcases h with ⟨item, t, hread, hsets⟩
  rcases h' with ⟨item', t', hread', hsets'⟩
  rw [hread] at hread'
  cases hread'
  cases item with
  | define key text => exact hsets.2.symm.trans hsets'.2
  | assignment key mode text => exact hsets.2.symm.trans hsets'.2
  | newline => cases hsets
  | comment => cases hsets
  | inclusion text => cases hsets
  | target => cases hsets

theorem AssignedLine.visits (hall : ReadsAll upper content) {s : List Char}
    {name value : Text} (h : AssignedLine upper content name value s)
    (htarget : ¬ InTarget upper content s) : Visits upper content s := by
  rcases accounted_lineStart hall h.lineStart with hs | hs | hs
  · exact hs
  · exact absurd hs htarget
  · exact absurd hs h.notInDefine

theorem AssignedLine.unique {s : List Char} {name value value' : Text}
    (h : AssignedLine upper content name value s)
    (h' : AssignedLine upper content name value' s) : value = value' := by
  have hsets : SetsAt upper name value s := h.assigns.setsAt
  exact hsets.unique h'.assigns.setsAt

theorem exists_last {P : Text → List Char → Prop} {value : Text}
    {s : List Char} (h : P value s) : ∃ value, Last P value := by
  have hexists : ∃ n value s, P value s ∧ s.length = n :=
    ⟨s.length, value, s, h, rfl⟩
  classical
  rcases Nat.find_spec hexists with ⟨value, s, hs, hlen⟩
  refine ⟨value, s, hs, ?_⟩
  intro value' s' hs'
  rw [hlen]
  exact Nat.find_min' hexists ⟨value', s', hs', rfl⟩

theorem Last.unique {P : Text → List Char → Prop} {value value' : Text}
    (hsuffix : ∀ v s, P v s → s <:+ content)
    (hvalue : ∀ v v' s, P v s → P v' s → v = v')
    (h : Last P value) (h' : Last P value') : value = value' := by
  rcases h with ⟨s, hs, hmin⟩
  rcases h' with ⟨s', hs', hmin'⟩
  have hlen : s.length = s'.length :=
    le_antisymm (hmin value' s' hs') (hmin' value s hs)
  have heq : s = s' :=
    (List.suffix_of_suffix_length_le (hsuffix value s hs)
      (hsuffix value' s' hs') hlen.le).eq_of_length hlen
  subst heq
  exact hvalue value value' s hs hs'

end Accepted

/-! ## Makefiles that are accepted -/

/-- A variable that a line `NAME=VALUE` assigns is there, and when only such
lines assign it, it holds the value of the last one. -/
def KeepsLines (m : Makefile) : Prop :=
  ∀ name value s, AssignedLine upper content name value s →
    (storedValues m name).isSome ∧
    (¬ SetOtherwise upper content name →
      ∀ last, Last (AssignedLine upper content name) last →
        storedValues m name = some [last])

/-- The last line for a variable says the same as the last one that no target
has taken, unless the variable is set by other means too. -/
def LastLinesRead : Prop :=
  ∀ name value s, AssignedLine upper content name value s →
    SetOtherwise upper content name ∨
    ∃ last, Last (AssignedLine upper content name) last ∧
      Last (fun v u => AssignedLine upper content name v u ∧
        ¬ InTarget upper content u) last

theorem parseString_eq_ok {m : Makefile}
    (h : parseString upper content = .ok m) :
    ReadsAll upper content ∧
      m = (repeatAll skip (readItem upper) content).1.foldl addItem new := by
  rw [parseString_eq] at h
  unfold readMakefile readDocument at h
  dsimp only at h
  split_ifs at h with hdoc
  cases h
  refine ⟨?_, rfl⟩
  intro s hs hstop
  rw [← repeatAll_eq_of_reaches skip_shrinking (readItem_consuming upper) hs
    hstop]
  exact hdoc.2

end Ips.Makefile
