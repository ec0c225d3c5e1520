import Ips.ManifestCanonical

/-!
# Where the readers of a manifest stop

Every reader leaves a suffix of the text, and an action takes at least one
line break with it.  In a text without quotes and backslashes a value is free
of blanks and line breaks.
-/

namespace Ips.Manifest

open Peg

/-! ## Suffixes -/

theorem readWhitespace_suffix {s t : List Char}
    (h : readWhitespace s = some t) : t <:+ s := by
  unfold readWhitespace at h
  split at h
  · exact (readNewline_suffix h).trans (List.suffix_cons _ _)
  · cases h
    exact List.suffix_cons _ _
  · cases h
    exact List.suffix_cons _ _
  · cases h

theorem readComment_suffix {s t : List Char}
    (h : readComment s = some t) : t <:+ s := by
  unfold readComment at h
  split at h
  · exact ((readNewline_suffix h).trans (List.dropWhile_suffix _)).trans
      (List.suffix_cons _ _)
  · cases h

theorem readGap_suffix {s t : List Char} (h : readGap s = some t) :
    t <:+ s := by
  unfold readGap at h
  split at h
  · next hw =>
      cases h
      exact readWhitespace_suffix hw
  · exact readComment_suffix h

theorem skip_suffix (s : List Char) : skip s <:+ s := by
  apply skip_induction (fun s t => t <:+ s)
  · intro s _
    exact List.suffix_rfl
  · intro s t hread h
    exact h.trans (readGap_suffix hread)

theorem readProperty_suffix : Suffixing readProperty := by
  intro s props t hread
  rcases readProperty_eq_some hread with
    ⟨key, s₁, s₂, value, hname, hskip, hvalue, -⟩
  have h₁ := (readRunOnce_splits _).suffixing hname
  have h₂ := hskip ▸ skip_suffix s₁
  have h₃ := readPropertyValue_splits.suffixing hvalue
  exact h₃.trans ((skip_suffix s₂).trans
    ((List.suffix_cons '=' s₂).trans (h₂.trans h₁)))

theorem readProperties_suffix (s : List Char) :
    (repeatAll skip readProperty s).2 <:+ s :=
  repeatAll_suffix skip_shrinking readProperty_consuming skip_suffix
    readProperty_suffix s

theorem readContent_suffix : Suffixing readContent := by
  intro s content t hread
  rcases readContent_eq_some hread with ⟨props, hprops, -⟩ | ⟨payload, hvalue, -⟩
  · exact readProperty_suffix hprops
  · exact readPropertyValue_splits.suffixing hvalue

theorem readTerminator_suffix {s t : List Char}
    (h : readTerminator s = some t) : t <:+ s := by
  unfold readTerminator at h
  split at h
  · next hn =>
      cases h
      exact readNewline_suffix hn
  · split_ifs at h
    cases h
    exact List.nil_suffix

theorem readAction_suffix : Suffixing readAction := by
  intro s act t hread
  rcases readAction_eq_some hread with
    ⟨name, s₁, content, s₂, hname, hcontent, hterm, -⟩
  have h₁ := (readWords_splits _).suffixing hname
  have h₂ := readContent_suffix hcontent
  have h₃ := readTerminator_suffix hterm
  exact h₃.trans ((skip_suffix _).trans ((readProperties_suffix s₂).trans
    (h₂.trans ((skip_suffix s₁).trans h₁))))

theorem readTransform_suffix {s t : List Char}
    (h : readTransform s = some t) : t <:+ s := by
  rcases readTransform_eq_some h with ⟨opening, s₁, name, s₂, props, s₃,
    arrow, s₄, c, hopening, hname, hprops, harrow, hclose⟩
  have h₁ := (readWords_splits _).suffixing hopening
  have h₂ := (readWords_splits _).suffixing hname
  have h₃ := readProperty_suffix hprops
  have h₄ := (readWords_splits _).suffixing harrow
  have h₅ : t <:+ skip s₄ :=
    (List.suffix_cons c t).trans (hclose ▸ List.dropWhile_suffix _)
  exact h₅.trans ((skip_suffix s₄).trans (h₄.trans ((skip_suffix _).trans
    ((readProperties_suffix s₃).trans (h₃.trans ((skip_suffix s₂).trans
      (h₂.trans ((skip_suffix s₁).trans h₁))))))))

theorem readItem_suffix : Suffixing readItem := by
  intro s items t hread
  unfold readItem at hread
  split at hread
  · next hn =>
      cases hread
      exact readNewline_suffix hn
  · split at hread
    · next htransform =>
        cases hread
        exact readTransform_suffix htransform
    · split at hread
      · next haction =>
          cases hread
          exact readAction_suffix haction
      · cases hread

/-! ## Values -/

theorem forall_readActions {content : List Char} {actions : List Action}
    (hread : readActions content = some actions) {P : Action → Prop}
    (h : ∀ s act t, s <:+ content → readAction s = some (act, t) → P act) :
    ∀ act ∈ actions, P act := by
  unfold readActions readManifest at hread
  rw [Option.map_eq_some_iff] at hread
  rcases hread with ⟨items, hitems, rfl⟩
  dsimp only at hitems
  split_ifs at hitems
  cases hitems
  intro act hact
  rcases List.mem_filterMap.mp hact with ⟨item, hitem, haction⟩
  have hall := repeatAll_forall skip_shrinking readItem_consuming skip_suffix
    readItem_suffix (P := fun item => ∀ act, item.action? = some act → P act)
    (s := content)
  apply hall ?_ item hitem act haction
  intro u items t hu hitem item hmem act haction
  unfold readItem at hitem
  split at hitem
  · cases hitem
    cases List.mem_singleton.mp hmem
    cases haction
  · split at hitem
    · cases hitem
      cases List.mem_singleton.mp hmem
      cases haction
    · split at hitem
      · next hread =>
          cases hitem
          cases List.mem_singleton.mp hmem
          cases haction
          exact h u act t hu hread
      · cases hitem

/-- The values of an action are values that were read as a property's. -/
theorem forall_properties {s t : List Char} {act : Action}
    (hread : readAction s = some (act, t)) {P : Property → Prop}
    (h : ∀ u props v, u <:+ s → readProperty u = some (props, v) →
      ∀ prop ∈ props, P prop) :
    ∀ prop ∈ act.properties, P prop := by
  rcases readAction_eq_some hread with
    ⟨name, s₁, content, s₂, hname, hcontent, -, rfl⟩
  have hs₁ : skip s₁ <:+ s :=
    (skip_suffix s₁).trans ((readWords_splits _).suffixing hname)
  have hs₂ : s₂ <:+ s := (readContent_suffix hcontent).trans hs₁
  intro prop hprop
  rcases List.mem_append.mp hprop with hprop | hprop
  · rcases readContent_eq_some hcontent with
      ⟨props, hprops, rfl⟩ | ⟨payload, -, rfl⟩
    · exact h _ _ _ hs₁ hprops prop hprop
    · cases hprop
  · exact repeatAll_forall skip_shrinking readProperty_consuming skip_suffix
      readProperty_suffix (fun u props v hu => h u props v (hu.trans hs₂))
      prop hprop

def Unquoted (s : Text) : Prop := '\"' ∉ s ∧ '\\' ∉ s

theorem unquoted_removeChars (s : Text) :
    Unquoted (removeChars ['\"', '\\'] s) := by
  constructor <;> simp [mem_removeChars]

theorem unquoted_of_readActions {content : List Char} {actions : List Action}
    (hread : readActions content = some actions) :
    ∀ act ∈ actions, ∀ prop ∈ act.properties, Unquoted prop.value := by
  apply forall_readActions hread
    (P := fun act => ∀ prop ∈ act.properties, Unquoted prop.value)
  intro s act t _ haction
  apply forall_properties haction (P := fun prop => Unquoted prop.value)
  intro u props v _ hprops prop hprop
  rcases readProperty_eq_some hprops with ⟨key, s₁, s₂, value, -, -, -, rfl⟩
  cases List.mem_singleton.mp hprop
  exact unquoted_removeChars value

def Unseparated (s : Text) : Prop := ∀ c ∈ s, isSeparating c = false

instance (s : Text) : Decidable (Unseparated s) :=
  inferInstanceAs (Decidable (∀ c ∈ s, _))

theorem isSeparating_of_isBareStart {c : Char} {t : List Char}
    (h : isBareStart (c :: t) = true) : isSeparating c = false := by
  by_contra hc
  simp only [isSeparating, Bool.not_eq_false, Bool.or_eq_true,
    beq_iff_eq] at hc
  rcases hc with rfl | rfl | rfl | rfl
  · cases h
  · cases h
  · have hn : (readNewline ('\r' :: t)).isNone = false := by
      rw [readNewline_isNone]
      rfl
    simp [isBareStart, hn] at h
  · cases h

theorem unseparated_readBare {s value t : List Char}
    (h : readBare s = some (value, t)) : Unseparated value := by
  unfold readBare readRunOnce at h
  split_ifs at h
  simp only [Option.some.injEq, Prod.mk.injEq] at h
  rw [← h.1]
  clear h
  intro c hc
  induction s with
  | nil => cases hc
  | cons d s ih =>
      unfold takeTails at hc
      by_cases hd : isBareStart (d :: s) = true
      · rw [if_pos hd] at hc
        rcases List.mem_cons.mp hc with rfl | hc
        · exact isSeparating_of_isBareStart hd
        · by_cases hnil : takeTails isBareStart s = []
          · rw [hnil] at hc
            cases hc
          · exact ih hnil hc
      · rw [if_neg hd] at hc
        cases hc

/-- A value without quotes was written bare. -/
theorem unseparated_readPropertyValue {s value t : List Char}
    (hquote : '\"' ∉ s) (h : readPropertyValue s = some (value, t)) :
    Unseparated value := by
  have hhead : s.head? ≠ some '\"' := fun hs =>
    hquote (List.mem_of_mem_head? hs)
  unfold readPropertyValue at h
  rw [readQuoted_eq_none hhead] at h
  exact unseparated_readBare h

theorem unseparated_of_readActions {content : List Char}
    {actions : List Action} (hquote : '\"' ∉ content)
    (hread : readActions content = some actions) :
    ∀ act ∈ actions, Unseparated act.payloadString ∧
      ∀ prop ∈ act.properties, Unseparated prop.value := by
  have hfree : ∀ u, u <:+ content → '\"' ∉ u := fun u hu hmem =>
    hquote (hu.subset hmem)
  apply forall_readActions hread (P := fun act =>
    Unseparated act.payloadString ∧
      ∀ prop ∈ act.properties, Unseparated prop.value)
  intro s act t hs haction
  constructor
  · rcases readAction_eq_some haction with
      ⟨name, s₁, content, s₂, hname, hcontent, -, rfl⟩
    have hs₁ : skip s₁ <:+ s :=
      (skip_suffix s₁).trans ((readWords_splits _).suffixing hname)
    rcases readContent_eq_some hcontent with
      ⟨props, -, rfl⟩ | ⟨payload, hvalue, rfl⟩
    · intro c hc
      cases hc
    · exact unseparated_readPropertyValue (hfree _ (hs₁.trans hs)) hvalue
  · apply forall_properties haction (P := fun prop => Unseparated prop.value)
    intro u props v hu hprops prop hprop
    rcases readProperty_eq_some hprops with
      ⟨key, s₁, s₂, value, hname, hskip, hvalue, rfl⟩
    cases List.mem_singleton.mp hprop
    have h₁ := (readRunOnce_splits _).suffixing hname
    have h₂ := hskip ▸ skip_suffix s₁
    have h₃ : skip s₂ <:+ u := (skip_suffix s₂).trans
      ((List.suffix_cons '=' s₂).trans (h₂.trans h₁))
    have hbare := unseparated_readPropertyValue
      (hfree _ (h₃.trans (hu.trans hs))) hvalue
    intro c hc
    exact hbare c (mem_removeChars.mp hc).1

/-! ## Counting line breaks -/

/-- A text of whole lines. -/
def Terminated (s : List Char) : Prop := s = [] ∨ s.getLast? = some '\n'

theorem Terminated.suffix {s t : List Char} (hs : Terminated s)
    (ht : t <:+ s) : Terminated t := by
  rcases ht with ⟨w, rfl⟩
  by_cases hnil : t = []
  · exact .inl hnil
  · right
    rcases hs with hs | hs
    · exact absurd (List.append_eq_nil_iff.mp hs).2 hnil
    · rwa [List.getLast?_append_of_ne_nil _ hnil] at hs

theorem readTerminator_count_lt {s t u : List Char} (hs : Terminated s)
    (hne : s ≠ []) (hcr : '\r' ∉ s) (hu : u <:+ s)
    (hterm : readTerminator u = some t) : t.count '\n' < s.count '\n' := by
  have hle := hu.sublist.count_le '\n'
  unfold readTerminator at hterm
  split at hterm
  · next hn =>
      cases hterm
      unfold readNewline at hn
      split at hn
      · cases hn
        rw [List.count_cons_self] at hle
        omega
      · exact absurd (hu.subset (by simp)) hcr
      · exact absurd (hu.subset (by simp)) hcr
      · cases hn
  · split_ifs at hterm
    cases hterm
    have hmem : '\n' ∈ s := by
      rcases hs with hs | hs
      · exact absurd hs hne
      · exact List.mem_of_getLast? hs
    simpa using List.count_pos_iff.mpr hmem

theorem readAction_count_lt {s t : List Char} {act : Action}
    (hs : Terminated s) (hcr : '\r' ∉ s)
    (hread : readAction s = some (act, t)) :
    t.count '\n' < s.count '\n' := by
  rcases readAction_eq_some hread with
    ⟨name, s₁, content, s₂, hname, hcontent, hterm, -⟩
  have hsuffix : skip (repeatAll skip readProperty s₂).2 <:+ s :=
    (skip_suffix _).trans ((readProperties_suffix s₂).trans
      ((readContent_suffix hcontent).trans
        ((skip_suffix s₁).trans ((readWords_splits _).suffixing hname))))
  have hne : s ≠ [] := by
    have hlt := readAction_consuming hread
    intro hnil
    rw [hnil] at hlt
    cases hlt
  exact readTerminator_count_lt hs hne hcr hsuffix hterm

/-- Every action takes a line break with it. -/
theorem HoldsActions.length_le {s : List Char} {actions : List Action}
    (h : HoldsActions s actions) (hs : Terminated s) (hcr : '\r' ∉ s) :
    actions.length ≤ s.count '\n' := by
  rw [← h.1]
  clear h
  revert hs hcr
  apply repeatAll_induction skip_shrinking readItem_consuming (fun s result =>
    Terminated s → '\r' ∉ s →
      (result.1.filterMap Item.action?).length ≤ s.count '\n')
  · intro s _ _ _
    simp
  · intro s items t hround ih hs hcr
    have hskip := skip_suffix s
    have ht : t <:+ s := (readItem_suffix hround).trans hskip
    have hrest := ih (hs.suffix ht) (fun hmem => hcr (ht.subset hmem))
    have hle := ht.sublist.count_le '\n'
    rw [List.filterMap_append, List.length_append]
    unfold readItem at hround
    split at hround
    · cases hround
      exact (Nat.zero_add _).le.trans (hrest.trans hle)
    · split at hround
      · cases hround
        exact (Nat.zero_add _).le.trans (hrest.trans hle)
      · split at hround
        · next act v haction =>
            cases hround
            have hlt := readAction_count_lt (hs.suffix hskip)
              (fun hmem => hcr (hskip.subset hmem)) haction
            have hcount := hskip.sublist.count_le '\n'
            have hone : (List.filterMap Item.action? [.action act]).length =
                1 := rfl
            omega
        · cases hround

end Ips.Manifest
