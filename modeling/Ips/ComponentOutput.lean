import Ips.ActionRecovery
import Ips.ComponentDiff
import Ips.ManifestText

/-!
# The manifest of the missing files

`diff_component` writes one line `file path=..` for each missing file, with
the path as it is.  The module says which paths the manifest parser then reads
back.
-/

namespace Ips.ComponentDiff

open Peg Manifest

/-! ## Files and the actions they come from -/

theorem addAction_files {m m' : Manifest} {act : Action}
    (h : m.addAction act = .ok m') :
    m'.files = m.files ∨
      ∃ f, File.fromAction act = .ok f ∧ m'.files = m.files ++ [f] := by
  unfold addAction at h
  cases hkind : act.kind
  case file =>
    rw [hkind] at h
    rcases Outcome.bind_eq_ok_iff.mp h with ⟨f, hf, hm⟩
    cases hm
    exact .inr ⟨f, hf, rfl⟩
  case attr =>
    rw [hkind] at h
    rcases Outcome.bind_eq_ok_iff.mp h with ⟨attr, -, hm⟩
    cases hm
    exact .inl rfl
  case dir =>
    rw [hkind] at h
    rcases Outcome.bind_eq_ok_iff.mp h with ⟨dir, -, hm⟩
    cases hm
    exact .inl rfl
  case dependency =>
    rw [hkind] at h
    rcases Outcome.bind_eq_ok_iff.mp h with ⟨dep, -, hm⟩
    cases hm
    exact .inl rfl
  case license =>
    rw [hkind] at h
    rcases Outcome.bind_eq_ok_iff.mp h with ⟨license, -, hm⟩
    cases hm
    exact .inl rfl
  case link =>
    rw [hkind] at h
    rcases Outcome.bind_eq_ok_iff.mp h with ⟨link, -, hm⟩
    cases hm
    exact .inl rfl
  all_goals
    rw [hkind] at h
    cases h

/-- Every file of the result was there before or is one of the actions, and
there is at most one for each action. -/
theorem fold_addAction_files {m m' : Manifest} {actions : List Action}
    (h : Outcome.fold addAction m actions = .ok m') :
    (∀ f ∈ m'.files, f ∈ m.files ∨
      ∃ act ∈ actions, File.fromAction act = .ok f) ∧
    m'.files.length ≤ m.files.length + actions.length := by
  induction actions generalizing m with
  | nil =>
      cases h
      exact ⟨fun f hf => .inl hf, le_rfl⟩
  | cons act actions ih =>
      rw [Outcome.fold_cons, Outcome.bind_eq_ok_iff] at h
      rcases h with ⟨m₁, hstep, hrest⟩
      have hih := ih hrest
      rcases addAction_files hstep with hfiles | ⟨g, hg, hfiles⟩
      · rw [hfiles] at hih
        constructor
        · intro f hf
          rcases hih.1 f hf with hf | ⟨act', hact', hf⟩
          · exact .inl hf
          · exact .inr ⟨act', List.mem_cons_of_mem act hact', hf⟩
        · have hlen := hih.2
          rw [List.length_cons]
          omega
      · rw [hfiles] at hih
        constructor
        · intro f hf
          rcases hih.1 f hf with hf | ⟨act', hact', hf⟩
          · rcases List.mem_append.mp hf with hf | hf
            · exact .inl hf
            · cases List.mem_singleton.mp hf
              exact .inr ⟨act, List.mem_cons_self, hg⟩
          · exact .inr ⟨act', List.mem_cons_of_mem act hact', hf⟩
        · have hlen := hih.2
          rw [List.length_append, List.length_singleton] at hlen
          rw [List.length_cons]
          omega

theorem fold_addAction_prefix {m m' : Manifest} {actions : List Action}
    (h : Outcome.fold addAction m actions = .ok m') :
    m.files <+: m'.files := by
  induction actions generalizing m with
  | nil =>
      cases h
      exact List.prefix_rfl
  | cons act actions ih =>
      rw [Outcome.fold_cons, Outcome.bind_eq_ok_iff] at h
      rcases h with ⟨m₁, hstep, hrest⟩
      have hih := ih hrest
      rcases addAction_files hstep with hfiles | ⟨g, -, hfiles⟩
      · rwa [hfiles] at hih
      · rw [hfiles] at hih
        exact (List.prefix_append _ _).trans hih

theorem splitProperty_value {s key value : Text}
    (h : splitProperty s = .ok (key, value)) :
    Unquoted value ∧ ∀ c ∈ value, c ∈ s := by
  unfold splitProperty at h
  split_ifs at h
  · split at h
    · next key' value' rest hsplit =>
        cases h
        constructor
        · exact unquoted_removeChars value'
        · intro c hc
          have hpiece : value' ∈ splitAt '=' s := by
            rw [hsplit]
            simp
          exact (mem_of_mem_splitAt hpiece (mem_removeChars.mp hc).1).1
    · cases h
  · cases h
    constructor
    · constructor <;> simp
    · intro c hc
      cases hc

theorem File.assign_path {state state' : File × Payload} {prop : Property}
    (h : File.assign state prop = .ok state') :
    state'.1.path = state.1.path ∨ state'.1.path = prop.value := by
  cases hk : ofText? FileKey.all FileKey.text prop.key with
  | none => exact .inl ((File.assign_of_none hk h).1 .path)
  | some k =>
      have hpath := (File.assign_of_key hk h).2.2.1 .path rfl
      by_cases hk' : k = .path
      · rw [if_pos hk'] at hpath
        exact .inr hpath
      · rw [if_neg hk'] at hpath
        exact .inl hpath

theorem File.fold_path {P : Text → Prop} {state state' : File × Payload}
    {props : List Property}
    (h : Outcome.fold File.assign state props = .ok state')
    (hstart : P state.1.path) (hprops : ∀ prop ∈ props, P prop.value) :
    P state'.1.path := by
  induction props generalizing state with
  | nil =>
      cases h
      exact hstart
  | cons prop props ih =>
      rw [Outcome.fold_cons, Outcome.bind_eq_ok_iff] at h
      rcases h with ⟨state₁, hstep, hrest⟩
      apply ih hrest
      · rcases File.assign_path hstep with hpath | hpath
        · rw [hpath]
          exact hstart
        · rw [hpath]
          exact hprops prop List.mem_cons_self
      · exact fun q hq => hprops q (List.mem_cons_of_mem prop hq)

/-- The path of a file is empty or a value of its action. -/
theorem File.fromAction_path {P : Text → Prop} {act : Action} {f : File}
    (h : File.fromAction act = .ok f) (hnil : P [])
    (hprops : ∀ prop ∈ act.properties, P prop.value)
    (hpayload : ∀ key value,
      splitProperty act.payloadString = .ok (key, value) → P value) :
    P f.path := by
  obtain ⟨file, p, props, file', p', htake, hfold, rfl⟩ :=
    File.fromAction_eq_ok h
  have hstart : file.path = [] ∧ ∀ prop ∈ props, P prop.value := by
    unfold File.takePayload at htake
    split_ifs at htake
    · cases htake
      exact ⟨rfl, hprops⟩
    · rcases Outcome.bind_eq_ok_iff.mp htake with
        ⟨⟨key, value⟩, hsplit, htake⟩
      cases htake
      refine ⟨rfl, fun prop hprop => ?_⟩
      rcases List.mem_append.mp hprop with hprop | hprop
      · exact hprops prop hprop
      · cases List.mem_singleton.mp hprop
        exact hpayload key value hsplit
    · cases htake
      exact ⟨rfl, hprops⟩
    · rcases Outcome.bind_eq_ok_iff.mp htake with ⟨digest, -, htake⟩
      cases htake
      exact ⟨rfl, hprops⟩
  exact File.fold_path (P := P) hfold (by rw [hstart.1]; exact hnil) hstart.2

/-- Every file of a parsed manifest is one of the actions of the text. -/
theorem exists_file_action {content : Text} {m : Manifest}
    (h : parseString content = .ok m) {f : File} (hf : f ∈ m.files) :
    ∃ actions act, readActions content = some actions ∧ act ∈ actions ∧
      File.fromAction act = .ok f := by
  obtain ⟨actions, hread, hfold⟩ := exists_actions h
  rcases (fold_addAction_files hfold).1 f hf with hnone | ⟨act, hact, hfile⟩
  · cases hnone
  · exact ⟨actions, act, hread, hact, hfile⟩

/-- The paths of a parsed manifest have lost their quotes and backslashes. -/
theorem unquoted_path {content : Text} {m : Manifest}
    (h : parseString content = .ok m) : ∀ f ∈ m.files, Unquoted f.path := by
  intro f hf
  obtain ⟨actions, act, hread, hact, hfile⟩ := exists_file_action h hf
  apply File.fromAction_path hfile
  · constructor <;> simp
  · exact unquoted_of_readActions hread act hact
  · intro key value hsplit
    exact (splitProperty_value hsplit).1

theorem unseparated_path {content : Text} {m : Manifest}
    (hquote : '\"' ∉ content) (h : parseString content = .ok m) :
    ∀ f ∈ m.files, Unseparated f.path := by
  intro f hf
  obtain ⟨actions, act, hread, hact, hfile⟩ := exists_file_action h hf
  have hfree := unseparated_of_readActions hquote hread act hact
  apply File.fromAction_path hfile
  · intro c hc
    cases hc
  · exact hfree.2
  · intro key value hsplit c hc
    exact hfree.1 c ((splitProperty_value hsplit).2 c hc)

/-! ## The written lines -/

def writeLine (path : Text) : Text := "file path=".toList ++ (path ++ ['\n'])

def writeLines (paths : List Text) : Text := paths.flatMap writeLine

/-- What `diff_component` writes to the output manifest. -/
def writeMissing (missing : List File) : Text :=
  missing.flatMap fun action => writeLine action.path

theorem writeMissing_eq (missing : List File) :
    writeMissing missing = writeLines (missing.map File.path) := by
  simp [writeMissing, writeLines, List.flatMap_map]

/-- The action that a line is read as: an empty path and one that is taken
for a comment leave the property without a value, so that it becomes the
payload. -/
def lineAction (path : Text) : Action :=
  if path = [] ∨ path.head? = some '#' then
    { kind := .file, payloadString := "path=".toList ++ path }
  else { kind := .file, properties := [⟨"path".toList, path⟩] }

theorem readItem_line (t : List Char) :
    skip ("file path=".toList ++ t) = "file path=".toList ++ t ∧
      readItem ("file path=".toList ++ t) =
        (readAction ("file path=".toList ++ t)).map fun x =>
          ([.action x.1], x.2) := by
  constructor
  · exact skip_eq_self_of_head _ (by decide)
  · have hn : readNewline ("file path=".toList ++ t) = none := rfl
    have htransform : readTransform ("file path=".toList ++ t) = none := by
      simp [readTransform, readWords]
    unfold readItem
    rw [hn, htransform]
    cases readAction ("file path=".toList ++ t) with
    | none => rfl
    | some result => rfl

def pathLine (path : Text) (hquote : Unquoted path) (hsep : Unseparated path)
    (hne : path ≠ []) (hhash : path.head? ≠ some '#') : ActionLine where
  keyword := .file
  payload := none
  properties := [(⟨.space, []⟩, pathProperty {
    text := path
    quoted := false
    noQuote := hquote.1
    noBackslash := hquote.2
    bare := fun _ => ⟨hne, hsep, hhash⟩ })]
  payload_kind := by decide
  nonempty := .inr (List.cons_ne_nil _ _)

theorem readAction_line_property {path : Text} (hquote : Unquoted path)
    (hsep : Unseparated path) (hne : path ≠ []) (hhash : path.head? ≠ some '#')
    (t : List Char) :
    readAction (writeLine path ++ t) = some (lineAction path, t) := by
  have hrender : (pathLine path hquote hsep hne hhash).render =
      "file path=".toList ++ path := by
    simp [pathLine, pathProperty, ActionLine.render, Keyword.render,
      Keyword.word, renderProperties, Separators.render, Separator.render,
      CanonicalProperty.render, CanonicalValue.render]
  have hmisread :
      ¬ (pathLine path hquote hsep hne hhash).Misread ('\n' :: t) := by
    rintro ⟨s, hs, -⟩
    cases hs
  have haction :
      (pathLine path hquote hsep hne hhash).action = lineAction path := by
    unfold lineAction
    rw [if_neg (by simp [hne, hhash])]
    rfl
  have hread := readAction_render (pathLine path hquote hsep hne hhash)
    (.inr ⟨t, rfl⟩) rfl hmisread
  rw [haction, hrender, List.append_assoc] at hread
  unfold writeLine
  rw [List.append_assoc, List.append_assoc]
  exact hread

theorem readActionName_line (path : Text) (t : List Char) :
    readActionName (writeLine path ++ t) =
      some ("file".toList, ' ' :: ("path=".toList ++ (path ++ '\n' :: t))) := by
  have hfile := readActionName_render .file
    (' ' :: ("path=".toList ++ (path ++ '\n' :: t)))
  unfold writeLine
  rw [List.append_assoc, List.append_assoc]
  exact hfile

theorem skip_path (t : List Char) :
    skip (' ' :: ("path=".toList ++ t)) = "path=".toList ++ t := by
  rw [skip_of_gap (t := "path=".toList ++ t) rfl]
  exact skip_eq_self_of_head _ (by decide)

/-- The property of a line is read when a value follows its equals sign. -/
theorem readProperty_path (t : List Char) :
    readProperty ("path=".toList ++ t) =
      (readPropertyValue (skip t)).map fun x =>
        ([⟨"path".toList, removeChars ['\"', '\\'] x.1⟩], x.2) := by
  have hname : readPropertyName ("path=".toList ++ t) =
      some ("path".toList, '=' :: t) :=
    @readPropertyName_append "path".toList _ (by decide)
      (forall_mem_of_all (by decide)) rfl
  have hequals : skip ('=' :: t) = '=' :: t :=
    skip_eq_self_of_head t (by decide)
  unfold readProperty
  simp only [hname, hequals]
  cases readPropertyValue (skip t) with
  | none => rfl
  | some value => rfl

theorem not_newline_of_unseparated {s : Text} (h : Unseparated s) :
    ∀ c ∈ s, isNewlineChar c = false := by
  intro c hc
  have hfree := h c hc
  simp only [isSeparating, Bool.or_eq_false_iff] at hfree
  simp [isNewlineChar, hfree.2.2.1, hfree.2.2.2]

/-- A path that looks like a comment is skipped with its line break. -/
theorem skip_hash {w : Text} (hw : Unseparated ('#' :: w)) (t : List Char) :
    skip ('#' :: (w ++ '\n' :: t)) = skip t :=
  skip_of_gap (readGap_comment
    (fun c hc => not_newline_of_unseparated hw c
      (List.mem_cons_of_mem '#' hc)) t)

theorem readAction_line_payload {path : Text} (hquote : Unquoted path)
    (hsep : Unseparated path) {t : List Char}
    (h : path = [] ∨ path.head? = some '#' ∧ t = []) :
    readAction (writeLine path ++ t) = some (lineAction path, t) := by
  have hvalue : readPropertyValue (skip (path ++ '\n' :: t)) = none := by
    rcases h with rfl | ⟨hhash, rfl⟩
    · rw [List.nil_append, skip_eq_self_of_head t (by decide)]
      rfl
    · cases path with
      | nil => cases hhash
      | cons c w =>
          cases hhash
          rw [List.cons_append, skip_hash hsep, skip_of_none rfl]
          rfl
  have hbare : readPropertyValue ("path=".toList ++ (path ++ '\n' :: t)) =
      some ("path=".toList ++ path, '\n' :: t) := by
    have hlit : ∀ c ∈ "path=".toList, isSeparating c = false :=
      forall_mem_of_all (by decide)
    unfold readPropertyValue
    rw [readQuoted_eq_none (by simp)]
    dsimp only
    rw [← List.append_assoc]
    apply readBare_append
    · simp
    · simpa using hquote.2
    · intro c hc
      rcases List.mem_append.mp hc with hc | hc
      · exact hlit c hc
      · exact hsep c hc
    · rfl
  have hcontent : readContent ("path=".toList ++ (path ++ '\n' :: t)) =
      some (("path=".toList ++ path, []), '\n' :: t) := by
    apply readContent_of_payload _ hbare
    rw [readProperty_path, hvalue, Option.map_none]
  have hloop : repeatAll skip readProperty ('\n' :: t) = ([], '\n' :: t) :=
    repeatAll_readProperty_render [] (.inr ⟨t, rfl⟩)
  have hend : skip ('\n' :: t) = '\n' :: t :=
    skip_eq_self_of_head t (by decide)
  have haction : path = [] ∨ path.head? = some '#' := by
    rcases h with h | h
    · exact .inl h
    · exact .inr h.1
  unfold readAction lineAction
  rw [if_pos haction]
  simp only [readActionName_line, skip_path, hcontent, hloop, hend]
  rfl

/-! ## The actions of the written text -/

/-- Only the last path may look like a comment. -/
def HashOnlyLast : List Text → Prop
  | [] => True
  | [_] => True
  | path :: rest => path.head? ≠ some '#' ∧ HashOnlyLast rest

theorem readAction_line {path : Text} {rest : List Text}
    (hquote : Unquoted path) (hsep : Unseparated path)
    (hhash : path.head? = some '#' → rest = []) :
    readAction (writeLine path ++ writeLines rest) =
      some (lineAction path, writeLines rest) := by
  by_cases hnil : path = []
  · exact readAction_line_payload hquote hsep (.inl hnil)
  · by_cases hhead : path.head? = some '#'
    · apply readAction_line_payload hquote hsep (.inr ⟨hhead, ?_⟩)
      rw [hhash hhead]
      rfl
    · exact readAction_line_property hquote hsep hnil hhead _

theorem readItem_writeLine {path : Text} {t u : List Char} {act : Action}
    (h : readAction (writeLine path ++ t) = some (act, u)) :
    readItem (skip (writeLine path ++ t)) = some ([.action act], u) := by
  have hline := readItem_line (path ++ ['\n'] ++ t)
  unfold writeLine at h ⊢
  rw [List.append_assoc] at h ⊢
  rw [hline.1, hline.2, h]
  rfl

theorem holdsActions_writeLines {paths : List Text}
    (hquote : ∀ path ∈ paths, Unquoted path)
    (hsep : ∀ path ∈ paths, Unseparated path) (hhash : HashOnlyLast paths) :
    HoldsActions (writeLines paths) (paths.map lineAction) := by
  induction paths with
  | nil => exact holdsActions_nil
  | cons path rest ih =>
      have hlast : path.head? = some '#' → rest = [] := by
        intro hhead
        cases rest with
        | nil => rfl
        | cons q rest => exact absurd hhead hhash.1
      have hrest : HashOnlyLast rest := by
        cases rest with
        | nil => trivial
        | cons q rest => exact hhash.2
      have hread := readAction_line (hquote path List.mem_cons_self)
        (hsep path List.mem_cons_self) hlast
      have hholds := holdsActions_of_item (readItem_writeLine hread)
        (rest.map lineAction)
      apply hholds.mpr
      exact ih (fun q hq => hquote q (List.mem_cons_of_mem path hq))
        (fun q hq => hsep q (List.mem_cons_of_mem path hq)) hrest

theorem count_writeLines {paths : List Text}
    (hsep : ∀ path ∈ paths, Unseparated path) :
    (writeLines paths).count '\n' = paths.length := by
  induction paths with
  | nil => rfl
  | cons path rest ih =>
      have hfree : path.count '\n' = 0 := by
        rw [List.count_eq_zero]
        intro hmem
        have hsep' := hsep path List.mem_cons_self '\n' hmem
        cases hsep'
      have hrest := ih fun q hq => hsep q (List.mem_cons_of_mem path hq)
      have hline : (writeLine path).count '\n' = 1 := by
        unfold writeLine
        rw [List.count_append, List.count_append, hfree]
        rfl
      unfold writeLines at hrest ⊢
      rw [List.flatMap_cons, List.count_append, hline, hrest, List.length_cons,
        Nat.add_comm]

theorem terminated_writeLines (paths : List Text) :
    Terminated (writeLines paths) := by
  induction paths with
  | nil => exact .inl rfl
  | cons path rest ih =>
      right
      unfold writeLines at ih ⊢
      rw [List.flatMap_cons]
      rcases ih with ih | ih
      · rw [ih, List.append_nil]
        unfold writeLine
        rw [← List.append_assoc]
        exact List.getLast?_concat
      · have hne : rest.flatMap writeLine ≠ [] := by
          intro hnil
          rw [hnil] at ih
          cases ih
        rwa [List.getLast?_append_of_ne_nil _ hne]

theorem not_mem_writeLines {c : Char} {paths : List Text}
    (hlit : c ∉ "file path=".toList) (hbreak : c ≠ '\n')
    (hpaths : ∀ path ∈ paths, c ∉ path) : c ∉ writeLines paths := by
  intro hmem
  rcases List.mem_flatMap.mp hmem with ⟨path, hpath, hc⟩
  rcases List.mem_append.mp hc with hc | hc
  · exact hlit hc
  · rcases List.mem_append.mp hc with hc | hc
    · exact hpaths path hpath hc
    · exact hbreak (List.mem_singleton.mp hc)

theorem cr_not_mem_writeLines {paths : List Text}
    (hsep : ∀ path ∈ paths, Unseparated path) : '\r' ∉ writeLines paths := by
  apply not_mem_writeLines (by decide) (by decide)
  intro path hpath hmem
  have hfree := hsep path hpath '\r' hmem
  cases hfree

/-- A path that looks like a comment hides its line break: the value of the
property is then the keyword of the next line, and one action takes two
lines. -/
theorem count_lt_of_hash {w : Text} {q : Text} {rest : List Text}
    {act : Action} {t : List Char}
    (hw : Unseparated ('#' :: w))
    (hsep : ∀ path ∈ q :: rest, Unseparated path)
    (hread : readAction (writeLine ('#' :: w) ++ writeLines (q :: rest)) =
      some (act, t)) :
    t.count '\n' < rest.length + 1 := by
  have hnext : writeLines (q :: rest) =
      "file".toList ++
        ' ' :: ("path=".toList ++ (q ++ '\n' :: writeLines rest)) := by
    unfold writeLines writeLine
    rw [List.flatMap_cons, List.append_assoc, List.append_assoc]
    rfl
  have hskip : skip ('#' :: (w ++ '\n' :: writeLines (q :: rest))) =
      writeLines (q :: rest) := by
    rw [skip_hash hw, hnext]
    exact skip_eq_self_of_head _ (by decide)
  have hvalue : readPropertyValue (writeLines (q :: rest)) =
      some ("file".toList,
        ' ' :: ("path=".toList ++ (q ++ '\n' :: writeLines rest))) := by
    rw [hnext]
    unfold readPropertyValue
    rw [readQuoted_eq_none (by simp)]
    exact readBare_append (by decide) (by decide)
      (forall_mem_of_all (by decide)) rfl
  rcases readAction_eq_some hread with
    ⟨name, s₁, content, s₂, hname, hcontent, hterm, -⟩
  rw [readActionName_line] at hname
  cases hname
  have hproperty : readProperty (skip (' ' :: ("path=".toList ++
      ('#' :: w ++ '\n' :: writeLines (q :: rest))))) =
        some ([⟨"path".toList, removeChars ['\"', '\\'] "file".toList⟩],
          ' ' :: ("path=".toList ++ (q ++ '\n' :: writeLines rest))) := by
    rw [skip_path, readProperty_path, List.cons_append, hskip, hvalue]
    rfl
  rw [readContent_of_property hproperty] at hcontent
  simp only [Option.some.injEq, Prod.mk.injEq] at hcontent
  have hs₂ : s₂ <:+ writeLines (q :: rest) := by
    rw [← hcontent.2, hnext]
    exact List.suffix_append _ _
  have hlt := readTerminator_count_lt
    ((terminated_writeLines (q :: rest)).suffix hs₂)
    (by rw [← hcontent.2]; simp)
    (fun hmem => cr_not_mem_writeLines hsep (hs₂.subset hmem))
    ((skip_suffix _).trans (readProperties_suffix s₂)) hterm
  have hle := hs₂.sublist.count_le '\n'
  rw [count_writeLines hsep, List.length_cons] at hle
  omega

/-- A text that starts with a written line and holds actions holds the action
that is read there and the actions of what is left. -/
theorem holdsActions_line {path : Text} {rest : List Text}
    {actions : List Action}
    (h : HoldsActions (writeLines (path :: rest)) actions) :
    ∃ act t actions',
      readAction (writeLine path ++ writeLines rest) = some (act, t) ∧
      actions = act :: actions' ∧ HoldsActions t actions' := by
  change HoldsActions (writeLine path ++ writeLines rest) actions at h
  cases hread : readAction (writeLine path ++ writeLines rest) with
  | none =>
      have hline := readItem_line (path ++ ['\n'] ++ writeLines rest)
      unfold writeLine at hread h
      rw [List.append_assoc] at hread h
      have hnone : readItem (skip ("file path=".toList ++
          (path ++ ['\n'] ++ writeLines rest))) = none := by
        rw [hline.1, hline.2, hread]
        rfl
      have hdone := h.2
      rw [repeatAll_of_none skip_shrinking readItem_consuming hnone,
        hline.1] at hdone
      cases hdone
  | some result =>
      have hround := repeatAll_of_some skip_shrinking readItem_consuming
        (readItem_writeLine hread)
      have hactions := h.1
      have hdone := h.2
      rw [hround] at hactions hdone
      exact ⟨result.1, result.2, _, rfl, hactions.symm, rfl, hdone⟩

theorem length_lt_of_hash {paths : List Text}
    (hquote : ∀ path ∈ paths, Unquoted path)
    (hsep : ∀ path ∈ paths, Unseparated path) (hhash : ¬ HashOnlyLast paths)
    {actions : List Action} (h : HoldsActions (writeLines paths) actions) :
    actions.length < paths.length := by
  induction paths generalizing actions with
  | nil => exact absurd trivial hhash
  | cons path rest ih =>
      have hsep' : ∀ q ∈ rest, Unseparated q :=
        fun q hq => hsep q (List.mem_cons_of_mem path hq)
      rcases holdsActions_line h with ⟨act, t, actions', hread, rfl, hrest⟩
      by_cases hhead : path.head? = some '#' ∧ rest ≠ []
      · -- One action for two lines, and no action without a line of its own.
        cases path with
        | nil => cases hhead.1
        | cons c w =>
            cases hhead.1
            cases rest with
            | nil => exact absurd rfl hhead.2
            | cons q rest =>
                have hcount := count_lt_of_hash
                  (hsep ('#' :: w) List.mem_cons_self) hsep' hread
                have ht : t <:+ writeLines (('#' :: w) :: q :: rest) :=
                  readAction_suffix hread
                have hlen := hrest.length_le
                  ((terminated_writeLines _).suffix ht)
                  (fun hmem => cr_not_mem_writeLines hsep (ht.subset hmem))
                simp only [List.length_cons]
                omega
      · have hlast : path.head? = some '#' → rest = [] := by
          intro hp
          by_contra hne
          exact hhead ⟨hp, hne⟩
        have hrest' : ¬ HashOnlyLast rest := by
          intro hr
          apply hhash
          cases rest with
          | nil => trivial
          | cons q rest =>
              refine ⟨fun hp => ?_, hr⟩
              cases hlast hp
        have hline := readAction_line (hquote path List.mem_cons_self)
          (hsep path List.mem_cons_self) hlast
        rw [hline] at hread
        simp only [Option.some.injEq, Prod.mk.injEq] at hread
        rw [← hread.2] at hrest
        have hlt := ih (fun q hq => hquote q (List.mem_cons_of_mem path hq))
          hsep' hrest' hrest
        simp only [List.length_cons]
        omega

/-! ## The files that are read back -/

theorem lineAction_kind (path : Text) : (lineAction path).kind = .file := by
  unfold lineAction
  split_ifs
  · rfl
  · rfl

theorem splitProperty_line (path : Text) (hquote : Unquoted path) :
    ∃ value, splitProperty ("path=".toList ++ path) =
        .ok ("path".toList, value) ∧ (value = path ↔ '=' ∉ path) := by
  have hself : removeChars ['\"', '\\'] (path.takeWhile (· != '=')) =
      path.takeWhile (· != '=') := by
    have hsub := List.takeWhile_subset (· != '=') (l := path)
    apply removeChars_eq_self
    intro c hc
    rcases List.mem_pair.mp hc with rfl | rfl
    · exact fun hmem => hquote.1 (hsub hmem)
    · exact fun hmem => hquote.2 (hsub hmem)
  refine ⟨path.takeWhile (· != '='), ?_, takeWhile_bne_eq_self_iff⟩
  rw [splitProperty_eq]
  unfold splitOff
  rw [← hself]
  rfl

theorem lineAction_path {path : Text} (hquote : Unquoted path) :
    (∃ f, File.fromAction (lineAction path) = .ok f ∧ f.path = path) ↔
      (path.head? = some '#' → '/' ∈ path ∧ '=' ∉ path) := by
  by_cases hpayload : path = [] ∨ path.head? = some '#'
  · have hne : "path=".toList ++ path ≠ [] := by simp
    have hslash : '/' ∈ "path=".toList ++ path ↔ '/' ∈ path := by
      rw [List.mem_append]
      exact or_iff_right (by decide)
    have hequals : '=' ∈ "path=".toList ++ path :=
      List.mem_append_left _ (by decide)
    unfold lineAction File.fromAction File.takePayload
    rw [if_pos hpayload]
    dsimp only
    rw [if_neg hne]
    by_cases hin : '/' ∈ path
    · rcases splitProperty_line path hquote with ⟨value, hsplit, hvalue⟩
      rw [if_pos (hslash.mpr hin), if_pos hequals, hsplit]
      have hhead : path.head? = some '#' := by
        rcases hpayload with rfl | hhead
        · cases hin
        · exact hhead
      constructor
      · rintro ⟨f, hf, hpath⟩ -
        cases hf
        exact ⟨hin, hvalue.mp hpath⟩
      · intro h
        exact ⟨_, rfl, hvalue.mpr (h hhead).2⟩
    · rw [if_neg (fun h => hin (hslash.mp h))]
      constructor
      · rintro ⟨f, hf, hpath⟩ hhead
        rcases Outcome.bind_eq_ok_iff.mp hf with ⟨⟨file, p, props⟩, htake, hf⟩
        rcases Outcome.bind_eq_ok_iff.mp htake with ⟨digest, -, htake⟩
        cases htake
        cases hf
        rw [← hpath] at hhead
        cases hhead
      · intro h
        rcases hpayload with rfl | hhead
        · exact ⟨_, rfl, rfl⟩
        · exact absurd (h hhead).1 hin
  · rw [not_or] at hpayload
    unfold lineAction
    rw [if_neg (by simp [hpayload])]
    constructor
    · intro _ hhead
      exact absurd hhead hpayload.2
    · intro _
      exact ⟨_, rfl, rfl⟩

/-- File actions are added in order, each as its file. -/
theorem fold_addAction_paths {actions : List Action}
    (hkind : ∀ act ∈ actions, act.kind = .file) (m : Manifest)
    (paths : List Text) :
    (∃ m', Outcome.fold addAction m actions = .ok m' ∧
      m'.files.map File.path = m.files.map File.path ++ paths) ↔
    List.Forall₂
      (fun act path => ∃ f, File.fromAction act = .ok f ∧ f.path = path)
      actions paths := by
  induction actions generalizing m paths with
  | nil =>
      rw [List.forall₂_nil_left_iff]
      constructor
      · rintro ⟨m', hm, hpaths⟩
        cases hm
        simpa using hpaths
      · rintro rfl
        exact ⟨m, rfl, by simp⟩
  | cons act actions ih =>
      have hstep : m.addAction act = (File.fromAction act >>= fun f =>
          .ok { m with files := m.files ++ [f] }) := by
        unfold addAction
        rw [hkind act List.mem_cons_self]
        rfl
      have hrest : ∀ act' ∈ actions, act'.kind = .file :=
        fun act' h => hkind act' (List.mem_cons_of_mem act h)
      rw [Outcome.fold_cons, hstep]
      constructor
      · rintro ⟨m', hm, hpaths⟩
        rcases Outcome.bind_eq_ok_iff.mp hm with ⟨m₁, hm₁, hfold⟩
        rcases Outcome.bind_eq_ok_iff.mp hm₁ with ⟨f, hf, hm₁⟩
        cases hm₁
        rcases fold_addAction_prefix hfold with ⟨more, hmore⟩
        have hsplit : paths = f.path :: more.map File.path := by
          rw [← hmore] at hpaths
          simpa using hpaths.symm
        rw [hsplit]
        refine .cons ⟨f, hf, rfl⟩ ?_
        apply (ih hrest { m with files := m.files ++ [f] } _).mp
        exact ⟨m', hfold, by rw [← hmore, List.map_append]⟩
      · intro h
        cases h with
        | cons hhead htail =>
            rcases hhead with ⟨f, hf, rfl⟩
            rw [hf, Outcome.ok_bind, Outcome.ok_bind]
            rcases (ih hrest { m with files := m.files ++ [f] } _).mpr htail
              with ⟨m', hm', hpaths⟩
            exact ⟨m', hm', by simpa using hpaths⟩

/-- Paths that the manifest parser reads back: without blanks and line breaks,
and starting with a hash sign only where the line is the last one and is
rescued as a payload. -/
def Writable (paths : List Text) : Prop :=
  (∀ path ∈ paths, Unseparated path) ∧ HashOnlyLast paths ∧
    ∀ path ∈ paths, path.head? = some '#' → '/' ∈ path ∧ '=' ∉ path

theorem skip_writeLines_ne_nil {paths : List Text} (hne : paths ≠ []) :
    skip (writeLines paths) ≠ [] := by
  cases paths with
  | nil => exact absurd rfl hne
  | cons path rest =>
      have hline := (readItem_line (path ++ ['\n'] ++ writeLines rest)).1
      change skip (writeLine path ++ writeLines rest) ≠ []
      unfold writeLine
      rw [List.append_assoc, hline]
      intro h
      cases h

theorem forall₂_lineAction (paths : List Text)
    (hquote : ∀ path ∈ paths, Unquoted path) :
    List.Forall₂
      (fun act path => ∃ f, File.fromAction act = .ok f ∧ f.path = path)
      (paths.map lineAction) paths ↔
    ∀ path ∈ paths, path.head? = some '#' → '/' ∈ path ∧ '=' ∉ path := by
  rw [List.forall₂_map_left_iff, List.forall₂_same]
  constructor
  · intro h path hpath
    exact (lineAction_path (hquote path hpath)).mp (h path hpath)
  · intro h path hpath
    exact (lineAction_path (hquote path hpath)).mpr (h path hpath)

theorem parseString_writeLines {paths : List Text} (hne : paths ≠ [])
    (hquote : ∀ path ∈ paths, Unquoted path) :
    (∃ m, parseString (writeLines paths) = .ok m ∧
      m.files.map File.path = paths) ↔ Writable paths := by
  have hskip := skip_writeLines_ne_nil hne
  have hkind : ∀ act ∈ paths.map lineAction, act.kind = .file := by
    intro act hact
    rcases List.mem_map.mp hact with ⟨path, -, rfl⟩
    exact lineAction_kind path
  constructor
  · rintro ⟨m, hparse, hpaths⟩
    have htext : '\"' ∉ writeLines paths :=
      not_mem_writeLines (by decide) (by decide)
        fun path hpath => (hquote path hpath).1
    have hsep : ∀ path ∈ paths, Unseparated path := by
      intro path hpath
      rw [← hpaths] at hpath
      rcases List.mem_map.mp hpath with ⟨f, hf, rfl⟩
      exact unseparated_path htext hparse f hf
    obtain ⟨actions, hread, hfold⟩ := exists_actions hparse
    have hholds := (readActions_eq_some_iff hskip actions).mp hread
    have hhash : HashOnlyLast paths := by
      by_contra hnot
      have hlt := length_lt_of_hash hquote hsep hnot hholds
      have hle := (fold_addAction_files hfold).2
      have hlen : m.files.length = paths.length := by
        rw [← hpaths, List.length_map]
      rw [hlen, show (new : Manifest).files.length = 0 from rfl] at hle
      omega
    have hactions : paths.map lineAction = actions :=
      (holdsActions_writeLines hquote hsep hhash).1.symm.trans hholds.1
    refine ⟨hsep, hhash, ?_⟩
    rw [← forall₂_lineAction paths hquote,
      ← fold_addAction_paths hkind new]
    rw [hactions]
    exact ⟨m, hfold, hpaths⟩
  · rintro ⟨hsep, hhash, hslash⟩
    have hholds := holdsActions_writeLines hquote hsep hhash
    rw [parseString_eq_actions, (readActions_eq_some_iff hskip _).mpr hholds]
    rw [← forall₂_lineAction paths hquote,
      ← fold_addAction_paths hkind new] at hslash
    exact hslash

/-- The manifest that `diff_component` writes for the missing files reads back
exactly when their paths are writable. -/
theorem parseString_writeMissing (content : Text) (sample : Manifest)
    (manifests : List Manifest) (replacements : Replacements)
    (hsample : parseString content = .ok sample)
    (hmissing :
      findFilesMissingInManifests sample manifests replacements ≠ []) :
    (∃ m, parseString (writeMissing
          (findFilesMissingInManifests sample manifests replacements)) =
        .ok m ∧
      m.files.map File.path =
        (findFilesMissingInManifests sample manifests replacements).map
          File.path) ↔
    Writable ((findFilesMissingInManifests sample manifests replacements).map
      File.path) := by
  rw [writeMissing_eq]
  apply parseString_writeLines
  · rwa [ne_eq, List.map_eq_nil_iff]
  · intro path hpath
    rcases List.mem_map.mp hpath with ⟨f, hf, rfl⟩
    rw [findFilesMissingInManifests_eq] at hf
    exact unquoted_path hsample f (List.mem_of_mem_filter hf)

def sampleOf (path : Text) : Manifest where
  files := [{ path := path }]

theorem parseString_writeMissing_plain :
    ∃ m, parseString (writeMissing
        (findFilesMissingInManifests (sampleOf "usr/bin/ls".toList) [] none)) =
          .ok m ∧
      m.files.map File.path = ["usr/bin/ls".toList] := by
  have hsep : Unseparated "usr/bin/ls".toList := forall_mem_of_all (by decide)
  refine (parseString_writeMissing "file path=usr/bin/ls\n".toList
    (sampleOf "usr/bin/ls".toList) [] none (by decide +kernel) (by decide)).mpr
    ⟨?_, trivial, forall_mem_of_all (by decide)⟩
  intro path hpath
  exact List.mem_singleton.mp hpath ▸ hsep

/-- A path with a blank is read from a quoted value and written without the
quotes. -/
theorem parseString_writeMissing_blank :
    parseString "file path=\"a b\"\n".toList =
        .ok (sampleOf "a b".toList) ∧
      findFilesMissingInManifests (sampleOf "a b".toList) [] none ≠ [] ∧
      parseString (writeMissing
        (findFilesMissingInManifests (sampleOf "a b".toList) [] none)) =
          .err .parserError := by
  decide +kernel

end Ips.ComponentDiff
