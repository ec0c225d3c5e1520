import Ips.PegReaders
import Mathlib.Data.List.TakeWhile

/-!
# Runs over a text and its physical lines

The rounds of a loop, the places between them and the places inside of them,
and the places where the lines of a text start.
-/

namespace Ips.Peg

variable {α : Type}

/-! ## Runs of a loop -/

section Runs

variable (gap : List Char → List Char) (r : Reader (List α))

/-- One round of the loop `(gap r)*`. -/
def Round (s t : List Char) : Prop := ∃ xs, r (gap s) = some (xs, t)

/-- The loop over the text comes to a place between two rounds. -/
def Reaches (content s : List Char) : Prop :=
  Relation.ReflTransGen (Round gap r) content s

/-- A place inside of what the round at `s` reads. -/
structure Within (s : List Char) (xs : List α) (t u : List Char) : Prop where
  read : r (gap s) = some (xs, t)
  suffix : u <:+ gap s
  rest_suffix : t <:+ u
  length_lt : u.length < (gap s).length
  rest_length_lt : t.length < u.length

variable {gap r} {content s t u : List Char} {xs : List α}

theorem round_rightUnique : Relator.RightUnique (Round gap r) := by
  rintro s t t' ⟨xs, h⟩ ⟨xs', h'⟩
  rw [h] at h'
  cases h'
  rfl

theorem Reaches.length_le (hgap : Shrinking gap) (hr : Consuming r)
    (h : Reaches gap r s t) : t.length ≤ s.length := by
  induction h with
  | refl => exact le_rfl
  | tail hreach hround ih =>
      rcases hround with ⟨xs, hread⟩
      have hlt := hr hread
      exact le_trans (le_trans hlt.le (hgap _)) ih

/-- A loop that comes to a place goes on from it in one way only. -/
theorem Reaches.eq_or_of_read (h : Reaches gap r s u)
    (hread : r (gap s) = some (xs, t)) : u = s ∨ Reaches gap r t u := by
  rcases Relation.ReflTransGen.cases_head h with heq | ⟨t', hround, hreach⟩
  · exact .inl heq.symm
  · right
    cases round_rightUnique hround ⟨xs, hread⟩
    exact hreach

theorem Reaches.eq_of_stop (h : Reaches gap r s u) (hstop : r (gap s) = none) :
    u = s := by
  rcases Relation.ReflTransGen.cases_head h with heq | ⟨t, ⟨xs, hread⟩, -⟩
  · exact heq.symm
  · rw [hstop] at hread
    cases hread

/-- A round starts at no place inside of another one. -/
theorem Within.not_reaches (hgap : Shrinking gap) (hr : Consuming r)
    (hs : Reaches gap r content s) (hwithin : Within gap r s xs t u) :
    ¬ Reaches gap r content u := by
  intro hu
  have hlt := hwithin.length_lt
  have hrest := hwithin.rest_length_lt
  have hle := hgap s
  rcases Relation.ReflTransGen.total_of_right_unique round_rightUnique hs hu with
    h | h
  · rcases Reaches.eq_or_of_read h hwithin.read with heq | hafter
    · rw [heq] at hlt
      omega
    · have := Reaches.length_le hgap hr hafter
      omega
  · have := Reaches.length_le hgap hr h
    omega

/-- Where the loop cannot go on, it has come to its end. -/
theorem repeatAll_eq_of_reaches (hgap : Shrinking gap) (hr : Consuming r)
    (hu : Reaches gap r s u) (hstop : r (gap u) = none) :
    (repeatAll gap r s).2 = u := by
  revert hu
  apply repeatAll_induction hgap hr
    (fun s result => Reaches gap r s u → result.2 = u)
  · intro s hnone hu
    exact (hu.eq_of_stop hnone).symm
  · intro s xs t hread ih hu
    rcases hu.eq_or_of_read hread with heq | hafter
    · rw [← heq, hstop] at hread
      cases hread
    · exact ih hafter

end Runs

/-! ## Physical lines -/

def restOfLine (s : List Char) : List Char :=
  s.takeWhile fun c => !isNewlineChar c

def afterLine (s : List Char) : List Char :=
  s.dropWhile fun c => !isNewlineChar c

theorem afterLine_suffix (s : List Char) : afterLine s <:+ s :=
  List.dropWhile_suffix _

theorem afterLine_append {w : List Char}
    (hw : ∀ c ∈ w, isNewlineChar c = false) (t : List Char) :
    afterLine (w ++ t) = afterLine t := by
  unfold afterLine
  apply List.dropWhile_append_of_pos
  intro c hc
  rw [hw c hc]
  rfl

theorem afterLine_dropWhile {test : Char → Bool}
    (htest : ∀ c, test c = true → isNewlineChar c = false) (s : List Char) :
    afterLine (s.dropWhile test) = afterLine s := by
  nth_rewrite 2 [← List.takeWhile_append_dropWhile (p := test) (l := s)]
  symm
  apply afterLine_append
  intro c hc
  exact htest c (List.all_eq_true.mp List.all_takeWhile c hc)

theorem afterLine_of_head {s : List Char} (h : headIs isNewlineChar s = true) :
    afterLine s = s := by
  cases s with
  | nil => rfl
  | cons c t =>
      have hc : isNewlineChar c = true := h
      simp [afterLine, hc]

theorem restOfLine_append_afterLine (s : List Char) :
    restOfLine s ++ afterLine s = s := List.takeWhile_append_dropWhile

theorem restOfLine_not_newline {s : List Char} {c : Char}
    (h : c ∈ restOfLine s) : isNewlineChar c = false := by
  have hall := List.all_eq_true.mp List.all_takeWhile c h
  simpa using hall

/-- A line ends at the end of the text or in a line break. -/
def EndOfLine (t : List Char) : Prop := t = [] ∨ headIs isNewlineChar t = true

theorem EndOfLine.head {t : List Char} (h : EndOfLine t) {test : Char → Bool}
    (htest : ∀ c, isNewlineChar c = true → test c = false) :
    headIs test t = false := by
  cases t with
  | nil => rfl
  | cons c t =>
      rcases h with h | h
      · cases h
      · exact htest c h

theorem EndOfLine.blank {t : List Char} (h : EndOfLine t) :
    headIs isBlank t = false := by
  apply h.head
  intro c hc
  cases hblank : isBlank c with
  | false => rfl
  | true =>
      rw [blank_not_newline c hblank] at hc
      cases hc

theorem EndOfLine.restOfLine {w t : List Char} (h : EndOfLine t)
    (hw : ∀ c ∈ w, isNewlineChar c = false) :
    Peg.restOfLine (w ++ t) = w ∧ afterLine (w ++ t) = t := by
  have hall : ∀ c ∈ w, (!isNewlineChar c) = true := by
    intro c hc
    rw [hw c hc]
    rfl
  have hend : headIs (fun c => !isNewlineChar c) t = false := by
    apply h.head
    intro c hc
    rw [hc]
    rfl
  unfold Peg.restOfLine afterLine
  constructor
  · rw [List.takeWhile_append_of_pos hall, ← takeTails_headIs,
      takeTails_eq_nil hend, List.append_nil]
  · rw [List.dropWhile_append_of_pos hall, ← dropTails_headIs,
      dropTails_eq_self hend]

theorem afterLine_end (s : List Char) : EndOfLine (afterLine s) := by
  have hhead := headIs_dropWhile (fun c => !isNewlineChar c) s
  cases hdrop : afterLine s with
  | nil => exact .inl rfl
  | cons c t =>
      right
      have hc : (!isNewlineChar c) = false := by
        unfold afterLine at hdrop
        rw [hdrop] at hhead
        exact hhead
      simpa [headIs] using hc

/-- A text starts with a part of a line or with a line break. -/
theorem exists_line_break (w : List Char) :
    (∀ c ∈ w, isNewlineChar c = false) ∨
      ∃ x c y, w = x ++ c :: y ∧ (∀ d ∈ x, isNewlineChar d = false) ∧
        isNewlineChar c = true := by
  induction w with
  | nil =>
      left
      intro c hc
      cases hc
  | cons d w ih =>
      cases hd : isNewlineChar d with
      | true => exact .inr ⟨[], d, w, rfl, by simp, hd⟩
      | false =>
          rcases ih with hall | ⟨x, c, y, rfl, hx, hc⟩
          · left
            intro c hc
            rcases List.mem_cons.mp hc with rfl | hc
            · exact hd
            · exact hall c hc
          · right
            refine ⟨d :: x, c, y, rfl, ?_, hc⟩
            intro e he
            rcases List.mem_cons.mp he with rfl | he
            · exact hd
            · exact hx e he

/-- The places where the lines of a text start. -/
inductive LineStart (content : List Char) : List Char → Prop
  | first : LineStart content content
  | next {s t : List Char} (hs : LineStart content s)
      (ht : readNewline (afterLine s) = some t) : LineStart content t

theorem LineStart.suffix {content s : List Char} (h : LineStart content s) :
    s <:+ content := by
  induction h with
  | first => exact List.suffix_rfl
  | next hs ht ih =>
      exact ((readNewline_suffix ht).trans (afterLine_suffix _)).trans ih

/-- The next line after a place in front of `r` starts behind the line that
`r` is in, after the line feed that `r` starts with, or in front of `r`. -/
theorem nextLine_cases {w r t : List Char}
    (h : readNewline (afterLine (w ++ r)) = some t) :
    afterLine (w ++ r) = afterLine r ∨ r = '\n' :: t ∨
      (r <:+ t ∧ t <:+ w ++ r ∧ t.length < (w ++ r).length) := by
  rcases exists_line_break w with hall | ⟨x, c, y, rfl, hx, hc⟩
  · exact .inl (afterLine_append hall r)
  · right
    have hafter : afterLine (x ++ c :: y ++ r) = c :: (y ++ r) := by
      rw [List.append_assoc, afterLine_append hx, List.cons_append]
      exact afterLine_of_head hc
    have hsuffix : c :: (y ++ r) <:+ x ++ c :: y ++ r := ⟨x, by simp⟩
    rw [hafter] at h
    have ht := (readNewline_suffix h).trans hsuffix
    have hlt := lt_of_lt_of_le (readNewline_length_lt h) hsuffix.length_le
    have hinside : t = y ++ r →
        r <:+ t ∧ t <:+ x ++ c :: y ++ r ∧
          t.length < (x ++ c :: y ++ r).length := by
      intro heq
      exact ⟨⟨y, heq.symm⟩, ht, hlt⟩
    unfold readNewline at h
    split at h
    · next heq =>
        cases heq
        exact .inr (hinside (Option.some.inj h).symm)
    · next u heq =>
        -- A carriage return takes the line feed behind it along.
        cases h
        simp only [List.cons.injEq] at heq
        cases y with
        | nil => exact .inl heq.2
        | cons d z =>
            simp only [List.cons_append, List.cons.injEq] at heq
            exact .inr ⟨⟨z, heq.2.2⟩, ht, hlt⟩
    · next heq =>
        cases heq
        exact .inr (hinside (Option.some.inj h).symm)
    · cases h

/-- One line together with its line break. -/
def readPhysicalLine : Reader (List (List Char)) := fun s =>
  (readNewline (afterLine s)).map fun t => ([restOfLine s], t)

/-- The lines of a text that end in a line break. -/
def linesOf (s : List Char) : List (List Char) :=
  (repeatAll id readPhysicalLine s).1

/-- What stands behind the last line break. -/
def lastLine (s : List Char) : List Char := (repeatAll id readPhysicalLine s).2

theorem readPhysicalLine_consuming : Consuming readPhysicalLine := by
  intro s xs t hread
  rcases Option.map_eq_some_iff.mp hread with ⟨u, hbreak, heq⟩
  cases heq
  exact lt_of_lt_of_le (readNewline_length_lt hbreak)
    (afterLine_suffix s).length_le

theorem linesOf_of_some {s t : List Char}
    (h : readNewline (afterLine s) = some t) :
    linesOf s = restOfLine s :: linesOf t ∧ lastLine s = lastLine t := by
  have hread : readPhysicalLine (id s) = some ([restOfLine s], t) := by
    rw [id, readPhysicalLine, h]
    rfl
  unfold linesOf lastLine
  rw [repeatAll_of_some shrinking_id readPhysicalLine_consuming hread]
  exact ⟨rfl, rfl⟩

theorem linesOf_of_none {s : List Char}
    (h : readNewline (afterLine s) = none) :
    linesOf s = [] ∧ lastLine s = s := by
  have hread : readPhysicalLine (id s) = none := by
    rw [id, readPhysicalLine, h]
    rfl
  unfold linesOf lastLine
  rw [repeatAll_of_none shrinking_id readPhysicalLine_consuming hread]
  exact ⟨rfl, rfl⟩

/-! ## Readers at the end of a line -/

theorem takeWhile_append_of_head {test : Char → Bool} {r : List Char}
    (h : headIs test r = false) (w : List Char) :
    (w ++ r).takeWhile test = w.takeWhile test := by
  induction w with
  | nil => rw [List.nil_append, ← takeTails_headIs, takeTails_eq_nil h]; rfl
  | cons c w ih =>
      rw [List.cons_append, List.takeWhile_cons, List.takeWhile_cons, ih]

theorem dropWhile_append_of_head {test : Char → Bool} {r : List Char}
    (h : headIs test r = false) (w : List Char) :
    (w ++ r).dropWhile test = w.dropWhile test ++ r := by
  induction w with
  | nil => rw [List.nil_append, ← dropTails_headIs, dropTails_eq_self h]; rfl
  | cons c w ih =>
      rw [List.cons_append, List.dropWhile_cons, List.dropWhile_cons, ih]
      split_ifs
      · rfl
      · rfl

theorem readNewline_append {x : List Char}
    (hx : ∀ c ∈ x, isNewlineChar c = false) (r : List Char) :
    readNewline (x ++ r) = if x = [] then readNewline r else none := by
  cases x with
  | nil => rfl
  | cons c x =>
      rw [if_neg (by simp), readNewline_eq_none_iff]
      exact hx c List.mem_cons_self

end Ips.Peg
