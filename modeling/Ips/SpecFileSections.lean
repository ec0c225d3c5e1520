import Ips.SpecFileLines

/-!
# Section headers

A header opens its section only outside of sections.  A line that begins with
`%` and has another such line before it in the same paragraph is a line of the
section that is already open, header or not.
-/

namespace Ips.SpecFile

open Peg

/-! ## Lines and their marks -/

/-- A run of the machine over lines, with the mark of each. -/
inductive Run : State → List (Text × Mark) → State → Prop
  | nil (st : State) : Run st [] st
  | cons {st st' st'' : State} {l : Text} {mark : Mark}
      {entries : List (Text × Mark)}
      (hstep : step st l = some (mark, st')) (hrun : Run st' entries st'') :
      Run st ((l, mark) :: entries) st''

theorem run_of_steps {st st' : State} {lines : List Text} {marks : List Mark}
    (h : steps st lines = some (marks, st')) :
    Run st (lines.zip marks) st' ∧ (lines.zip marks).map Prod.fst = lines ∧
      (lines.zip marks).map Prod.snd = marks := by
  induction lines generalizing st marks with
  | nil =>
      cases h
      exact ⟨.nil _, rfl, rfl⟩
  | cons l lines ih =>
      unfold steps at h
      split at h
      · cases h
      · next mark st'' hstep =>
          rcases Option.map_eq_some_iff.mp h with ⟨x, hx, heq⟩
          cases heq
          rcases ih hx with ⟨hrun, hlines, hmarks⟩
          refine ⟨.cons hstep hrun, ?_, ?_⟩
          · rw [List.zip_cons_cons, List.map_cons, hlines]
          · rw [List.zip_cons_cons, List.map_cons, hmarks]

theorem run_append {st st'' : State} {a b : List (Text × Mark)} :
    Run st (a ++ b) st'' ↔ ∃ st', Run st a st' ∧ Run st' b st'' := by
  induction a generalizing st with
  | nil =>
      constructor
      · exact fun h => ⟨st, .nil st, h⟩
      · rintro ⟨st', hnil, h⟩
        cases hnil
        exact h
  | cons entry a ih =>
      constructor
      · intro h
        cases h with
        | cons hstep hrun =>
            rcases ih.mp hrun with ⟨st', ha, hb⟩
            exact ⟨st', .cons hstep ha, hb⟩
      · rintro ⟨st', ha, hb⟩
        cases ha with
        | cons hstep ha => exact .cons hstep (ih.mpr ⟨st', ha, hb⟩)

theorem run_cons {st st'' : State} {entry : Text × Mark}
    {b : List (Text × Mark)} :
    Run st (entry :: b) st'' ↔
      ∃ st', step st entry.1 = some (entry.2, st') ∧ Run st' b st'' := by
  constructor
  · intro h
    cases h with
    | cons hstep hrun => exact ⟨_, hstep, hrun⟩
  · rintro ⟨st', hstep, hrun⟩
    exact .cons hstep hrun

theorem run_append_singleton {st st'' : State} {a : List (Text × Mark)}
    {entry : Text × Mark} :
    Run st (a ++ [entry]) st'' ↔
      ∃ st', Run st a st' ∧ step st' entry.1 = some (entry.2, st'') := by
  rw [run_append]
  apply exists_congr
  intro st'
  rw [run_cons]
  constructor
  · rintro ⟨ha, st₁, hstep, hnil⟩
    cases hnil
    exact ⟨ha, hstep⟩
  · rintro ⟨ha, hstep⟩
    exact ⟨ha, st'', hstep, .nil st''⟩

/-! ## Where sections open -/

def Opens (l : Text) : Prop := headIs (· == '%') (skipBlanks l) = true

/-- An earlier line of the paragraph begins with `%`. -/
def Behind (before : List Text) : Prop :=
  ∃ a o b, before = a ++ o :: b ∧ Opens o ∧ ∀ l ∈ b, skipBlanks l ≠ []

theorem behind_append_singleton {ls : List Text} {l : Text} :
    Behind (ls ++ [l]) ↔ Opens l ∨ (Behind ls ∧ skipBlanks l ≠ []) := by
  constructor
  · rintro ⟨a, o, b, heq, hopens, hb⟩
    rcases List.eq_nil_or_concat b with rfl | ⟨b', l', rfl⟩
    · left
      have hlast := List.append_inj_right' heq rfl
      cases hlast
      exact hopens
    · right
      rw [List.concat_eq_append, ← List.cons_append, ← List.append_assoc] at heq
      have hlast := List.append_inj_right' heq rfl
      have hinit := List.append_inj_left' heq rfl
      cases hlast
      refine ⟨⟨a, o, b', hinit, hopens, ?_⟩, hb l (by simp)⟩
      intro l' hl'
      exact hb l' (by simp [hl'])
  · rintro (hopens | ⟨⟨a, o, b, rfl, hopens, hb⟩, hl⟩)
    · exact ⟨ls, l, [], rfl, hopens, by simp⟩
    · refine ⟨a, o, b ++ [l], by simp, hopens, ?_⟩
      intro l' hl'
      rcases List.mem_append.mp hl' with hl' | hl'
      · exact hb l' hl'
      · cases List.mem_singleton.mp hl'
        exact hl

theorem opens_of_headerOf {l name : Text} (h : headerOf l = some name) :
    Opens l := by
  rcases headerOf_eq_some h with ⟨t, ht, -⟩
  unfold Opens
  rw [ht]
  rfl

theorem not_opens_of_settingOf {l : Text} {mark : Mark}
    (h : settingOf l = some mark) : ¬ Opens l := by
  intro hopens
  have hname : readName (skipBlanks l) = none := by
    apply readName_of_head
    unfold Opens at hopens
    cases hl : skipBlanks l with
    | nil => rfl
    | cons c t =>
        rw [hl] at hopens
        have hc : c = '%' := by simpa [headIs] using hopens
        rw [hc]
        rfl
  unfold settingOf readSetting at h
  rw [hname] at h
  cases h

/-- Everything that one step can do. -/
theorem step_cases {st st' : State} {l : Text} {mark : Mark}
    (h : step st l = some (mark, st')) :
    (skipBlanks l = [] ∧ mark = .blank ∧ st' = .outside ∧
      ∀ name, st ≠ .opened name) ∨
    (st = .outside ∧ settingOf l = some mark ∧ st' = .outside) ∨
    (∃ name, st = .outside ∧ headerOf l = some name ∧ mark = .header name ∧
      st' = .opened name) ∨
    ∃ name, (st = .opened name ∨ st = .inside name) ∧ skipBlanks l ≠ [] ∧
      mark = lineMark name (skipBlanks l) ∧ st' = .inside name := by
  have hline : ∀ name, (lineOf name l).map (fun m => (m, State.inside name)) =
      some (mark, st') → skipBlanks l ≠ [] ∧
        mark = lineMark name (skipBlanks l) ∧ st' = .inside name := by
    intro name hmap
    rcases Option.map_eq_some_iff.mp hmap with ⟨m, hm, heq⟩
    cases heq
    exact ⟨(lineOf_eq_some hm).1, (lineOf_eq_some hm).2, rfl⟩
  cases st with
  | outside =>
      rw [step_outside] at h
      split_ifs at h with hblank
      · cases h
        exact .inl ⟨hblank, rfl, rfl, by simp⟩
      · split at h
        · next hsetting =>
            cases h
            exact .inr (.inl ⟨rfl, hsetting, rfl⟩)
        · rcases Option.map_eq_some_iff.mp h with ⟨name, hname, heq⟩
          cases heq
          exact .inr (.inr (.inl ⟨name, rfl, hname, rfl, rfl⟩))
  | opened name =>
      rw [step_opened] at h
      exact .inr (.inr (.inr ⟨name, .inl rfl, hline name h⟩))
  | inside name =>
      rw [step_inside] at h
      split_ifs at h with hblank
      · cases h
        exact .inl ⟨hblank, rfl, rfl, by simp⟩
      · exact .inr (.inr (.inr ⟨name, .inr rfl, hline name h⟩))

/-- The machine is in a section exactly behind a line of the paragraph that
begins with `%`. -/
theorem Run.outside_iff {entries : List (Text × Mark)} {st : State}
    (h : Run .outside entries st) :
    st = .outside ↔ ¬ Behind (entries.map Prod.fst) := by
  induction entries using List.reverseRecOn generalizing st with
  | nil =>
      cases h
      constructor
      · rintro - ⟨a, o, b, heq, -⟩
        simp at heq
      · exact fun _ => rfl
  | append_singleton entries entry ih =>
      rcases run_append_singleton.mp h with ⟨st₁, hrun, hstep⟩
      have hst := ih hrun
      have hblank : skipBlanks entry.1 = [] → ¬ Opens entry.1 := by
        intro hnil hopens
        unfold Opens at hopens
        rw [hnil] at hopens
        cases hopens
      rw [List.map_append, List.map_singleton, behind_append_singleton]
      rcases step_cases hstep with ⟨hnil, -, rfl, -⟩ | ⟨rfl, hsetting, rfl⟩ |
        ⟨name, rfl, hheader, -, rfl⟩ | ⟨name, hin, hne, -, rfl⟩
      · simp [hblank hnil, hnil]
      · simp [not_opens_of_settingOf hsetting, hst.mp rfl]
      · simp [opens_of_headerOf hheader]
      · have hbehind : Behind (entries.map Prod.fst) := by
          by_contra hnot
          have hout := hst.mpr hnot
          rcases hin with hin | hin
          · rw [hout] at hin
            cases hin
          · rw [hout] at hin
            cases hin
        simp [hbehind, hne]

/-- The header of the section that the machine is in. -/
theorem Run.exists_header {entries : List (Text × Mark)} {st : State}
    {name : Text} (h : Run .outside entries st)
    (hin : st = .opened name ∨ st = .inside name) :
    ∃ a o b, entries = a ++ o :: b ∧ headerOf o.1 = some name ∧
      Run .outside a .outside ∧ ∀ entry ∈ b, skipBlanks entry.1 ≠ [] := by
  induction entries using List.reverseRecOn generalizing st with
  | nil =>
      cases h
      rcases hin with hin | hin
      · cases hin
      · cases hin
  | append_singleton entries entry ih =>
      rcases run_append_singleton.mp h with ⟨st₁, hrun, hstep⟩
      rcases step_cases hstep with ⟨-, -, rfl, -⟩ | ⟨-, -, rfl⟩ |
        ⟨key, rfl, hheader, -, rfl⟩ | ⟨key, hst₁, hne, -, rfl⟩
      · rcases hin with hin | hin
        · cases hin
        · cases hin
      · rcases hin with hin | hin
        · cases hin
        · cases hin
      · rcases hin with hin | hin
        · cases hin
          exact ⟨entries, entry, [], rfl, hheader, hrun, by simp⟩
        · cases hin
      · have hkey : key = name := by
          rcases hin with hin | hin
          · cases hin
          · cases hin
            rfl
        rw [hkey] at hst₁
        rcases ih hrun hst₁ with ⟨a, o, b, rfl, hheader, ha, hb⟩
        refine ⟨a, o, b ++ [entry], by simp, hheader, ha, ?_⟩
        intro e he
        rcases List.mem_append.mp he with he | he
        · exact hb e he
        · cases List.mem_singleton.mp he
          exact hne

/-- Until a blank line comes, every line goes to the section. -/
theorem Run.in_section {entries : List (Text × Mark)} {st st' : State}
    {name : Text} (h : Run st entries st')
    (hin : st = .opened name ∨ st = .inside name)
    (hne : ∀ entry ∈ entries, skipBlanks entry.1 ≠ []) :
    (st' = .opened name ∨ st' = .inside name) ∧
      ∀ entry ∈ entries, entry.2 = lineMark name (skipBlanks entry.1) := by
  induction entries generalizing st with
  | nil =>
      cases h
      exact ⟨hin, by simp⟩
  | cons entry entries ih =>
      rcases run_cons.mp h with ⟨st₁, hstep, hrun⟩
      have hfirst := hne entry List.mem_cons_self
      rcases step_cases hstep with ⟨hnil, -⟩ | ⟨rfl, -⟩ | ⟨key, rfl, -⟩ |
        ⟨key, hst, -, hmark, rfl⟩
      · exact absurd hnil hfirst
      · rcases hin with hin | hin
        · cases hin
        · cases hin
      · rcases hin with hin | hin
        · cases hin
        · cases hin
      · have hkey : key = name := by
          rcases hin with rfl | rfl <;> rcases hst with hst | hst <;>
            cases hst <;> rfl
        rw [hkey] at hrun hmark
        rcases ih hrun (.inr rfl)
          (fun e he => hne e (List.mem_cons_of_mem _ he)) with ⟨hst', hall⟩
        refine ⟨hst', ?_⟩
        intro e he
        rcases List.mem_cons.mp he with rfl | he
        · exact hmark
        · exact hall e he

/-! ## Headers of the known sections -/

def headerText (n : Section) : Text := '%' :: n.text

/-- The section whose field the line is stored in. -/
def Mark.placed : Mark → Option Section
  | .stored name _ => Section.of? name
  | _ => none

/-- No header is stored, and what stands between a header and the next one is
stored in the section of the header only. -/
def Delimits (entries : List (Text × Mark)) : Prop :=
  ∀ before n mark after, entries = before ++ (headerText n, mark) :: after →
    mark.placed = none ∧
    ∀ between entry rest, after = between ++ entry :: rest →
      (∀ e ∈ between ++ [entry], ∀ m, e.1 ≠ headerText m) →
      ∀ m, entry.2.placed = some m → m = n

/-- No header stands behind another line of its paragraph that begins with
`%`; and a section whose header has blanks in it, and which is not the section
of the last header without, holds comments only. -/
structure HeadersApart (lines : List Text) : Prop where
  notBehind : ∀ before n after, lines = before ++ headerText n :: after →
    ¬ Behind before
  spaced : ∀ before n between o m after,
    lines = before ++ headerText n :: (between ++ o :: after) →
    (∀ l ∈ between ++ [o], ∀ k, l ≠ headerText k) →
    headerOf o = some m.text →
    ¬ Behind (before ++ headerText n :: between) → m ≠ n →
    ∀ b l rest, after = b ++ l :: rest →
      (∀ l' ∈ b ++ [l], skipBlanks l' ≠ []) →
      isComment (skipBlanks l) = true

theorem Section.of?_text (n : Section) : Section.of? n.text = some n := by
  cases n <;> decide

theorem Section.of?_eq_some {s : Text} {n : Section}
    (h : Section.of? s = some n) : n.text = s := by
  have hfind := List.find?_some h
  simpa using hfind

theorem Section.text_inj {m n : Section} : m.text = n.text ↔ m = n := by
  constructor
  · intro h
    have hm := Section.of?_text m
    rw [h, Section.of?_text] at hm
    exact (Option.some.inj hm).symm
  · rintro rfl
    rfl

theorem headerOf_headerText (n : Section) :
    headerOf (headerText n) = some n.text := by
  cases n <;> decide

theorem skipBlanks_headerText (n : Section) :
    skipBlanks (headerText n) = headerText n := rfl

theorem lineMark_headerText (name : Text) (n : Section) :
    lineMark name (headerText n) = .stored name (headerText n) := rfl

/-- What is stored goes to a known section, or the walk panics. -/
theorem placed_of_fold {overflowChecks : Bool} {marks : List Mark}
    {st st' : SectionState}
    (h : Outcome.fold (addMark overflowChecks) st marks = .ok st')
    {name line : Text} (hmem : Mark.stored name line ∈ marks) :
    ∃ n, Section.of? name = some n := by
  obtain ⟨c, c', hstep⟩ := Outcome.exists_step_of_fold_ok _ h hmem
  cases hname : Section.of? name with
  | some n => exact ⟨n, rfl⟩
  | none =>
      simp only [addMark, storeLine, hname] at hstep
      cases hstep

theorem exists_split {entries : List (Text × Mark)} {before after : List Text}
    {l : Text} (h : entries.map Prod.fst = before ++ l :: after) :
    ∃ a mark b, entries = a ++ (l, mark) :: b ∧ a.map Prod.fst = before ∧
      b.map Prod.fst = after := by
  rcases List.map_eq_append_iff.mp h with ⟨a, rest, rfl, ha, hrest⟩
  rcases List.map_eq_cons_iff.mp hrest with ⟨entry, b, rfl, hl, hb⟩
  subst hl
  exact ⟨a, entry.2, b, rfl, ha, hb⟩

theorem lineMark_placed {name line : Text} {m : Section}
    (h : (lineMark name line).placed = some m) :
    isComment line = false ∧ name = m.text := by
  unfold lineMark at h
  split_ifs at h with hcomment
  · cases h
  · exact ⟨by simpa using hcomment, (Section.of?_eq_some h).symm⟩

/-- Only a line in a section that is no comment is stored in it. -/
theorem step_placed {state state' : State} {line : Text} {mark : Mark}
    {m : Section} (h : step state line = some (mark, state'))
    (hplaced : mark.placed = some m) :
    (state = .opened m.text ∨ state = .inside m.text) ∧
      skipBlanks line ≠ [] ∧ isComment (skipBlanks line) = false := by
  rcases step_cases h with ⟨-, hblank, -⟩ | ⟨-, hsetting, -⟩ |
    ⟨key, -, -, hheader, -⟩ | ⟨key, hstate, hne, hmark, -⟩
  · rw [hblank] at hplaced
    cases hplaced
  · obtain ⟨key, value, hmark⟩ := settingOf_eq_some hsetting
    rw [hmark] at hplaced
    cases hplaced
  · rw [hheader] at hplaced
    cases hplaced
  · rw [hmark] at hplaced
    obtain ⟨hcomment, rfl⟩ := lineMark_placed hplaced
    exact ⟨hstate, hne, hcomment⟩

section Delimited

variable {entries : List (Text × Mark)} {st : State}

/-- Outside of a section, a header opens its section. -/
theorem step_header {l name : Text} {mark : Mark} {st' : State}
    (hheader : headerOf l = some name)
    (h : step .outside l = some (mark, st')) :
    mark = .header name ∧ st' = .opened name := by
  have hopens := opens_of_headerOf hheader
  rcases step_cases h with ⟨hnil, -⟩ | ⟨-, hsetting, -⟩ |
    ⟨key, -, hkey, hmark, hst⟩ | ⟨key, hin, -⟩
  · rcases headerOf_eq_some hheader with ⟨t, ht, -⟩
    rw [hnil] at ht
    cases ht
  · exact absurd hopens (not_opens_of_settingOf hsetting)
  · rw [hheader] at hkey
    cases hkey
    exact ⟨hmark, hst⟩
  · rcases hin with hin | hin
    · cases hin
    · cases hin

theorem Delimits.notBehind (hrun : Run .outside entries st)
    (hplaced : ∀ name line, Mark.stored name line ∈ entries.map Prod.snd →
      ∃ n, Section.of? name = some n)
    (h : Delimits entries) {before after : List Text} {n : Section}
    (hlines : entries.map Prod.fst = before ++ headerText n :: after) :
    ¬ Behind before := by
  intro hbehind
  rcases exists_split hlines with ⟨a, mark, b, rfl, rfl, -⟩
  rcases run_append.mp hrun with ⟨st₁, ha, hb⟩
  rcases run_cons.mp hb with ⟨st₂, hstep, -⟩
  have hinside : st₁ ≠ .outside := fun hout =>
    (ha.outside_iff.mp hout) hbehind
  rcases step_cases hstep with ⟨hnil, -⟩ | ⟨hout, -⟩ | ⟨key, hout, -⟩ |
    ⟨key, -, -, hmark, -⟩
  · cases hnil
  · exact hinside hout
  · exact hinside hout
  · -- The header is stored like any other line of the section.
    dsimp only at hmark
    rw [skipBlanks_headerText, lineMark_headerText] at hmark
    have hnone := (h a n mark b rfl).1
    rcases hplaced key (headerText n) (by simp [hmark]) with ⟨m, hm⟩
    rw [hmark, Mark.placed, hm] at hnone
    cases hnone

/-- A paragraph has no header behind a line that begins with `%`. -/
theorem not_header_of_paragraph {lines p b r : List Text} {o : Text}
    (hapart : ∀ x k y, lines = x ++ headerText k :: y → ¬ Behind x)
    (hlines : lines = p ++ o :: (b ++ r)) (hopens : Opens o)
    (hne : ∀ l ∈ b, skipBlanks l ≠ []) :
    ∀ l ∈ b, ∀ k, l ≠ headerText k := by
  rintro l hl k rfl
  rcases List.append_of_mem hl with ⟨x, y, rfl⟩
  refine hapart (p ++ o :: x) k (y ++ r) (by simp [hlines])
    ⟨p, o, x, rfl, hopens, ?_⟩
  intro l' hl'
  exact hne l' (List.mem_append_left _ hl')

theorem Delimits.spaced (hrun : Run .outside entries st)
    (hplaced : ∀ name line, Mark.stored name line ∈ entries.map Prod.snd →
      ∃ n, Section.of? name = some n)
    (h : Delimits entries) {before between after : List Text}
    {n m : Section} {o : Text}
    (hlines : entries.map Prod.fst =
      before ++ headerText n :: (between ++ o :: after))
    (hno : ∀ l ∈ between ++ [o], ∀ k, l ≠ headerText k)
    (hheader : headerOf o = some m.text)
    (hbehind : ¬ Behind (before ++ headerText n :: between)) (hmn : m ≠ n)
    {b rest : List Text} {l : Text} (hafter : after = b ++ l :: rest)
    (hne : ∀ l' ∈ b ++ [l], skipBlanks l' ≠ []) :
    isComment (skipBlanks l) = true := by
  have hapart : ∀ x k y, entries.map Prod.fst = x ++ headerText k :: y →
      ¬ Behind x := fun x k y hxy => h.notBehind hrun hplaced hxy
  subst hafter
  rcases exists_split hlines with ⟨e₁, mark, e₂, rfl, rfl, he₂⟩
  rcases exists_split he₂ with ⟨e₃, omark, e₄, rfl, rfl, he₄⟩
  rcases exists_split he₄ with ⟨e₅, lmark, e₆, rfl, rfl, rfl⟩
  -- The section is opened by `o`, and the line is in it.
  have hsplit : e₁ ++ (headerText n, mark) ::
      (e₃ ++ (o, omark) :: (e₅ ++ (l, lmark) :: e₆)) =
        (e₁ ++ (headerText n, mark) :: e₃) ++
          ((o, omark) :: ((e₅ ++ [(l, lmark)]) ++ e₆)) := by simp
  rw [hsplit] at hrun
  rcases run_append.mp hrun with ⟨st₁, hfirst, hrest⟩
  rcases run_cons.mp hrest with ⟨st₂, hstep, hrest⟩
  rcases run_append.mp hrest with ⟨st₃, hsection, -⟩
  have hout : st₁ = .outside := by
    rw [hfirst.outside_iff]
    simpa using hbehind
  rw [hout] at hstep
  have hopened := (step_header hheader hstep).2
  have hnonblank : ∀ e ∈ e₅ ++ [(l, lmark)], skipBlanks e.1 ≠ [] := by
    intro e he
    apply hne
    simpa using List.mem_map_of_mem (f := Prod.fst) he
  have hmark : lmark = lineMark m.text (skipBlanks l) :=
    (hsection.in_section (.inl hopened) hnonblank).2 (l, lmark) (by simp)
  by_contra hcomment
  have hstored : lmark.placed = some m := by
    rw [hmark, lineMark, if_neg hcomment]
    exact Section.of?_text m
  have hlater := not_header_of_paragraph hapart
    (p := (e₁ ++ (headerText n, mark) :: e₃).map Prod.fst) (o := o)
    (b := e₅.map Prod.fst ++ [l]) (r := e₆.map Prod.fst) (by simp)
    (opens_of_headerOf hheader) hne
  refine hmn ((h e₁ n mark _ rfl).2 (e₃ ++ (o, omark) :: e₅) (l, lmark) e₆
    (by simp) ?_ m hstored)
  intro e he k
  have hcases : e ∈ e₃ ++ [(o, omark)] ∨ e ∈ e₅ ++ [(l, lmark)] := by
    simp only [List.mem_append, List.mem_cons, List.not_mem_nil,
      or_false] at he ⊢
    tauto
  rcases hcases with he | he
  · apply hno
    simpa using List.mem_map_of_mem (f := Prod.fst) he
  · apply hlater
    simpa using List.mem_map_of_mem (f := Prod.fst) he

theorem HeadersApart.delimits (hrun : Run .outside entries st)
    (h : HeadersApart (entries.map Prod.fst)) : Delimits entries := by
  rintro before n mark after rfl
  have hbehind : ¬ Behind (before.map Prod.fst) :=
    h.notBehind _ n (after.map Prod.fst) (by simp)
  rcases run_append.mp hrun with ⟨st₁, hbefore, hrest⟩
  rcases run_cons.mp hrest with ⟨st₂, hstep, -⟩
  rw [hbefore.outside_iff.mpr hbehind] at hstep
  have hmark : mark = .header n.text :=
    (step_header (headerOf_headerText n) hstep).1
  refine ⟨by rw [hmark]; rfl, ?_⟩
  rintro between entry rest rfl hno m hplaced
  -- The line is stored in the section of the last header that was read.
  have hsplit : before ++ (headerText n, mark) :: (between ++ entry :: rest) =
      (before ++ (headerText n, mark) :: between) ++ entry :: rest := by simp
  rw [hsplit] at hrun
  rcases run_append.mp hrun with ⟨st₃, hprefix, hline⟩
  rcases run_cons.mp hline with ⟨st₄, hstep', -⟩
  obtain ⟨hst₃, hne, hcomment⟩ := step_placed hstep' hplaced
  rcases hprefix.exists_header hst₃ with ⟨a, o, b, heq, hheader, ha, hb⟩
  have hsame : o = (headerText n, mark) → m = n := by
    rintro rfl
    have htext := (headerOf_headerText n).symm.trans hheader
    have hof := Section.of?_text n
    rw [Option.some.inj htext, Section.of?_text] at hof
    exact Option.some.inj hof
  rcases List.append_eq_append_iff.mp heq with ⟨c, rfl, hc⟩ | ⟨c, rfl, hc⟩
  · cases c with
    | nil =>
        cases hc
        exact hsame rfl
    | cons x c =>
        -- The header that was read stands behind this one.
        simp only [List.cons_append, List.cons.injEq] at hc
        rcases hc with ⟨rfl, rfl⟩
        by_contra hmn
        have hcomment' := h.spaced (before.map Prod.fst) n (c.map Prod.fst)
          o.1 m (b.map Prod.fst ++ entry.1 :: rest.map Prod.fst) (by simp)
          (by
            intro l hl
            have hmem : l ∈ (c ++ [o]).map Prod.fst := by simpa using hl
            rcases List.mem_map.mp hmem with ⟨e, he, rfl⟩
            apply hno e
            simp only [List.mem_append, List.mem_cons, List.not_mem_nil,
              or_false] at he ⊢
            tauto)
          hheader
          (by
            have hout := ha.outside_iff.mp rfl
            simpa using hout) hmn (b.map Prod.fst) entry.1
          (rest.map Prod.fst) rfl (by
            intro l hl
            rcases List.mem_append.mp hl with hl | hl
            · rcases List.mem_map.mp hl with ⟨e, he, rfl⟩
              exact hb e he
            · cases List.mem_singleton.mp hl
              exact hne)
        rw [hcomment] at hcomment'
        cases hcomment'
  · cases c with
    | nil =>
        cases hc
        exact hsame rfl
    | cons x c =>
        simp only [List.cons_append, List.cons.injEq] at hc
        rcases hc with ⟨rfl, rfl⟩
        exfalso
        apply hbehind
        refine ⟨a.map Prod.fst, o.1, c.map Prod.fst, by simp,
          opens_of_headerOf hheader, ?_⟩
        intro l hl
        rcases List.mem_map.mp hl with ⟨e, he, rfl⟩
        exact hb e (List.mem_append_left _ he)

theorem delimits_iff (hrun : Run .outside entries st)
    (hplaced : ∀ name line, Mark.stored name line ∈ entries.map Prod.snd →
      ∃ n, Section.of? name = some n) :
    Delimits entries ↔ HeadersApart (entries.map Prod.fst) := by
  constructor
  · intro h
    refine ⟨?_, ?_⟩
    · intro before n after hlines
      exact h.notBehind hrun hplaced hlines
    · intro before n between o m after hlines hno hheader hbehind hmn b l rest
        hafter hne
      exact h.spaced hrun hplaced hlines hno hheader hbehind hmn hafter hne
  · exact HeadersApart.delimits hrun

end Delimited

/-! ## Files that are accepted -/

/-- What becomes of the lines of a file. -/
def marksOf (content : Text) : List Mark :=
  ((steps .outside (linesOf content)).map Prod.fst).getD []

/-- The file holds what the marks of its lines store, and headers delimit
sections exactly when they are apart. -/
theorem parse_delimits {overflowChecks : Bool} {content : Text}
    {spec : SpecFile} (h : parse overflowChecks content = .ok spec) :
    (∃ st, Outcome.fold (addMark overflowChecks) { spec := {} }
        (marksOf content) = .ok st ∧ st.spec = spec) ∧
    (Delimits ((linesOf content).zip (marksOf content)) ↔
      HeadersApart (linesOf content)) := by
  rcases (parse_eq_ok_iff overflowChecks content spec).mp h with
    ⟨marks, st, -, -, ⟨st', hsteps, -⟩, hfold, hspec⟩
  have hmarks : marksOf content = marks := by
    rw [marksOf, hsteps]
    rfl
  rcases run_of_steps hsteps with ⟨hrun, hlines, hsnd⟩
  rw [hmarks]
  refine ⟨⟨st, hfold, hspec⟩, ?_⟩
  have hiff := delimits_iff hrun (by
    intro name line hmem
    rw [hsnd] at hmem
    exact placed_of_fold hfold hmem)
  rw [hlines] at hiff
  exact hiff

theorem parse_delimits_apart :
    parse true "%prep\nfoo\n\n%build\nbar\n".toList =
        .ok { prepScript := "foo".toList, buildScript := "bar".toList } ∧
      (Delimits ((linesOf "%prep\nfoo\n\n%build\nbar\n".toList).zip
          (marksOf "%prep\nfoo\n\n%build\nbar\n".toList)) ↔
        HeadersApart (linesOf "%prep\nfoo\n\n%build\nbar\n".toList)) := by
  have hparse : parse true "%prep\nfoo\n\n%build\nbar\n".toList =
      .ok { prepScript := "foo".toList, buildScript := "bar".toList } := by
    decide +kernel
  exact ⟨hparse, (parse_delimits hparse).2⟩

/-- Without a blank line before it, the header of the build script becomes a
line of the description. -/
theorem parse_delimits_swallowed :
    parse true "%description\nfoo\n%build\nbar\n".toList =
        .ok { description := "foo\n%build\nbar".toList } ∧
      ¬ Delimits ((linesOf "%description\nfoo\n%build\nbar\n".toList).zip
        (marksOf "%description\nfoo\n%build\nbar\n".toList)) := by
  have hentries : (linesOf "%description\nfoo\n%build\nbar\n".toList).zip
      (marksOf "%description\nfoo\n%build\nbar\n".toList) =
        [("%description".toList, .header "description".toList),
          ("foo".toList, .stored "description".toList "foo".toList)] ++
        (headerText .build,
          .stored "description".toList "%build".toList) ::
        [("bar".toList, .stored "description".toList "bar".toList)] := by
    decide +kernel
  refine ⟨by decide +kernel, ?_⟩
  rw [hentries]
  intro hdelimits
  have hnone := (hdelimits _ .build _ _ rfl).1
  have hsome : (Mark.stored "description".toList "%build".toList).placed =
      some .description := by decide
  rw [hsome] at hnone
  cases hnone

end Ips.SpecFile
