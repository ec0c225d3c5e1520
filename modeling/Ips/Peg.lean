import Mathlib.Tactic

/-!
# Parsing expression grammars with implicit skipping

An executable semantics of the parsing expressions that a `pest` grammar is
compiled to.  A parser reads a prefix of the remaining text and returns the
token pairs produced on the way, or fails.  Choice is ordered, repetition is
possessive, and a non-atomic sequence or repetition skips implicit whitespace
and comments between its elements.

Nothing here refers to a particular grammar.
-/

namespace Ips.Peg

/-- A reader consumes a prefix of the text or fails. -/
abbrev Reader (α : Type) := List Char → Option (α × List Char)

variable {α β : Type}

/-! ## Possessive loops -/

/-- The loop `(gap r)*` with a bound on the number of rounds.  A failing round
gives back the gap it has skipped. -/
def repeatFuel (gap : List Char → List Char) (r : Reader (List α)) :
    ℕ → List Char → List α × List Char
  | 0, s => ([], s)
  | n + 1, s =>
      match r (gap s) with
      | none => ([], s)
      | some (xs, t) =>
          let rest := repeatFuel gap r n t
          (xs ++ rest.1, rest.2)

/-- The loop `(gap r)*`.  A round that succeeds consumes a character, so the
length of the text bounds the number of rounds. -/
def repeatAll (gap : List Char → List Char) (r : Reader (List α))
    (s : List Char) : List α × List Char :=
  repeatFuel gap r s.length s

def Consuming (r : Reader α) : Prop :=
  ∀ ⦃s a t⦄, r s = some (a, t) → t.length < s.length

/-- What a reader leaves is a suffix of the text. -/
def Suffixing (r : Reader α) : Prop :=
  ∀ ⦃s a t⦄, r s = some (a, t) → t <:+ s

def Shrinking (gap : List Char → List Char) : Prop :=
  ∀ s, (gap s).length ≤ s.length

theorem shrinking_id : Shrinking id := fun _ => le_rfl

section Loops

variable {gap : List Char → List Char} {r : Reader (List α)}

/-- Nothing is read at the end of the text. -/
theorem read_gap_nil (hgap : Shrinking gap) (hr : Consuming r) :
    r (gap []) = none := by
  cases hread : r (gap []) with
  | none => rfl
  | some result =>
      have hlt := hr hread
      have hle := hgap []
      simp only [List.length_nil, Nat.le_zero] at hle
      omega

theorem repeatFuel_eq_of_length_le
    (hgap : Shrinking gap) (hr : Consuming r) (n m : ℕ) (s : List Char)
    (hn : s.length ≤ n) (hm : s.length ≤ m) :
    repeatFuel gap r n s = repeatFuel gap r m s := by
  induction n generalizing m s with
  | zero =>
      have hs : s = [] := by simpa using hn
      subst s
      cases m with
      | zero => rfl
      | succ m => simp [repeatFuel, read_gap_nil hgap hr]
  | succ n ih =>
      cases m with
      | zero =>
          have hs : s = [] := by simpa using hm
          subst s
          simp [repeatFuel, read_gap_nil hgap hr]
      | succ m =>
          cases hread : r (gap s) with
          | none => simp [repeatFuel, hread]
          | some result =>
              obtain ⟨xs, t⟩ := result
              have hlt := hr hread
              have hle := hgap s
              simp only [repeatFuel, hread]
              rw [ih m t (by omega) (by omega)]

/-- One round of the loop, without the bound. -/
theorem repeatAll_eq
    (hgap : Shrinking gap) (hr : Consuming r) (s : List Char) :
    repeatAll gap r s =
      match r (gap s) with
      | none => ([], s)
      | some (xs, t) =>
          (xs ++ (repeatAll gap r t).1, (repeatAll gap r t).2) := by
  unfold repeatAll
  rw [repeatFuel_eq_of_length_le hgap hr s.length (s.length + 1) s
    le_rfl (Nat.le_succ _)]
  cases hread : r (gap s) with
  | none => simp [repeatFuel, hread]
  | some result =>
      obtain ⟨xs, t⟩ := result
      have hlt := hr hread
      have hle := hgap s
      simp only [repeatFuel, hread]
      rw [repeatFuel_eq_of_length_le hgap hr s.length t.length t
        (by omega) le_rfl]

theorem repeatAll_of_none
    (hgap : Shrinking gap) (hr : Consuming r) {s : List Char}
    (hread : r (gap s) = none) :
    repeatAll gap r s = ([], s) := by
  rw [repeatAll_eq hgap hr, hread]

theorem repeatAll_of_some
    (hgap : Shrinking gap) (hr : Consuming r) {s t : List Char} {xs : List α}
    (hread : r (gap s) = some (xs, t)) :
    repeatAll gap r s =
      (xs ++ (repeatAll gap r t).1, (repeatAll gap r t).2) := by
  rw [repeatAll_eq hgap hr, hread]

/-- The loop rule: a property of the stopping point that every successful
round carries backwards holds of the whole loop. -/
theorem repeatAll_induction
    (hgap : Shrinking gap) (hr : Consuming r)
    (P : List Char → List α × List Char → Prop)
    (hstop : ∀ s, r (gap s) = none → P s ([], s))
    (hround : ∀ s xs t, r (gap s) = some (xs, t) →
      P t (repeatAll gap r t) →
      P s (xs ++ (repeatAll gap r t).1, (repeatAll gap r t).2))
    (s : List Char) : P s (repeatAll gap r s) := by
  induction hlen : s.length using Nat.strong_induction_on generalizing s with
  | _ n ih =>
      rw [repeatAll_eq hgap hr]
      cases hread : r (gap s) with
      | none => exact hstop s hread
      | some result =>
          obtain ⟨xs, t⟩ := result
          have hlt := hr hread
          have hle := hgap s
          exact hround s xs t hread (ih t.length (by omega) t rfl)

theorem repeatAll_suffix
    (hgap : Shrinking gap) (hr : Consuming r)
    (hskip : ∀ s, gap s <:+ s) (hread : Suffixing r) (s : List Char) :
    (repeatAll gap r s).2 <:+ s := by
  apply repeatAll_induction hgap hr (fun s result => result.2 <:+ s)
  · intro s _
    exact List.suffix_rfl
  · intro s xs t hround ih
    exact ih.trans ((hread hround).trans (hskip s))

/-- What holds of everything that one round reads, somewhere in the text,
holds of everything that the loop reads. -/
theorem repeatAll_forall
    (hgap : Shrinking gap) (hr : Consuming r)
    (hskip : ∀ s, gap s <:+ s) (hread : Suffixing r) {P : α → Prop}
    {s : List Char}
    (h : ∀ u xs t, u <:+ s → r u = some (xs, t) → ∀ x ∈ xs, P x) :
    ∀ x ∈ (repeatAll gap r s).1, P x := by
  revert h
  apply repeatAll_induction hgap hr (fun s result =>
    (∀ u xs t, u <:+ s → r u = some (xs, t) → ∀ x ∈ xs, P x) →
      ∀ x ∈ result.1, P x)
  · intro s _ _ x hx
    cases hx
  · intro s xs t hround ih h x hx
    rcases List.mem_append.mp hx with hx | hx
    · exact h (gap s) xs t (hskip s) hround x hx
    · have ht : t <:+ s := (hread hround).trans (hskip s)
      exact ih (fun u ys v hu => h u ys v (hu.trans ht)) x hx

/-- A loop ends where a round fails. -/
theorem repeatAll_stops
    (hgap : Shrinking gap) (hr : Consuming r) (s : List Char) :
    r (gap (repeatAll gap r s).2) = none := by
  apply repeatAll_induction hgap hr (fun _ result => r (gap result.2) = none)
  · intro s hread
    exact hread
  · intro s xs t _ ih
    exact ih

theorem repeatFuel_gap (n : ℕ) (s : List Char) :
    repeatFuel gap r n s = repeatFuel id (fun s => r (gap s)) n s := by
  induction n generalizing s with
  | zero => rfl
  | succ n ih => simp only [repeatFuel, id, ih]

/-- The gap can be skipped by the rounds themselves. -/
theorem repeatAll_gap (s : List Char) :
    repeatAll gap r s = repeatAll id (fun s => r (gap s)) s :=
  repeatFuel_gap s.length s

theorem repeatAll_length_le
    (hgap : Shrinking gap) (hr : Consuming r) (s : List Char) :
    (repeatAll gap r s).2.length ≤ s.length := by
  apply repeatAll_induction hgap hr
    (fun s result => result.2.length ≤ s.length)
  · intro s _
    exact le_rfl
  · intro s xs t hread ih
    have hlt := hr hread
    have hle := hgap s
    exact le_trans ih (by omega)

end Loops

/-- `r*` from the current position: the first round skips no gap. -/
def star (gap : List Char → List Char) (r : Reader (List α))
    (s : List Char) : List α × List Char :=
  match r s with
  | none => ([], s)
  | some (xs, t) =>
      let rest := repeatAll gap r t
      (xs ++ rest.1, rest.2)

theorem star_id
    {r : Reader (List α)} (hr : Consuming r) (s : List Char) :
    star id r s = repeatAll id r s := by
  rw [repeatAll_eq shrinking_id hr, id]
  unfold star
  cases r s with
  | none => rfl
  | some result => rfl

/-- After a gap, a loop and the gap behind it end where the loop that skips
the first gap itself ends. -/
theorem star_gap
    {gap : List Char → List Char} {r : Reader (List α)}
    (hgap : Shrinking gap) (hr : Consuming r)
    (hidem : ∀ s, gap (gap s) = gap s) (s : List Char) :
    (star gap r (gap s)).1 = (repeatAll gap r s).1 ∧
      gap (star gap r (gap s)).2 = gap (repeatAll gap r s).2 := by
  rw [repeatAll_eq hgap hr]
  unfold star
  cases r (gap s) with
  | none => exact ⟨rfl, hidem s⟩
  | some result => exact ⟨rfl, rfl⟩

/-! ## Parsers -/

inductive Atomicity where
  | nonAtomic
  | compoundAtomic
  | atomic
  deriving DecidableEq, Repr

/-- What a parsing expression can see besides the remaining text: the
atomicity it runs under, the length of the whole input, and what the grammar
skips implicitly. -/
structure Context where
  atomicity : Atomicity
  size : ℕ
  implicit : List Char → List Char

/-- The text between two elements is skipped in non-atomic rules only. -/
def Context.gap (ctx : Context) (s : List Char) : List Char :=
  match ctx.atomicity with
  | .nonAtomic => ctx.implicit s
  | _ => s

def Context.atomically (ctx : Context) : Context :=
  { ctx with atomicity := .atomic }

/-- A node of the parse: its rule, the offset of its first character, the
source text it spans and the nodes inside. -/
structure Pair (R : Type) where
  asRule : R
  start : ℕ
  asStr : List Char
  intoInner : List (Pair R)

abbrev Parser (R : Type) := Context → Reader (List (Pair R))

variable {R : Type}

def str (w : String) : Parser R := fun _ s =>
  if w.toList.isPrefixOf s then some ([], s.drop w.toList.length) else none

def charIf (p : Char → Bool) : Parser R := fun _ s =>
  match s with
  | c :: t => if p c then some ([], t) else none
  | [] => none

def range (first last : Char) : Parser R :=
  charIf fun c => first ≤ c && c ≤ last

def any : Parser R := charIf fun _ => true

def seq : List (Parser R) → Parser R
  | [] => fun _ s => some ([], s)
  | [p] => p
  | p :: q :: ps => fun ctx s =>
      match p ctx s with
      | none => none
      | some (xs, t) =>
          match seq (q :: ps) ctx (ctx.gap t) with
          | none => none
          | some (ys, u) => some (xs ++ ys, u)

def choice : List (Parser R) → Parser R
  | [] => fun _ _ => none
  | p :: ps => fun ctx s =>
      match p ctx s with
      | none => choice ps ctx s
      | some result => some result

def opt (p : Parser R) : Parser R := fun ctx s =>
  match p ctx s with
  | none => some ([], s)
  | some result => some result

def rep (p : Parser R) : Parser R := fun ctx s =>
  some (star ctx.gap (p ctx) s)

/-- `p+` is unrolled to `p ~ p*`, so a gap after a single `p` is consumed. -/
def repOnce (p : Parser R) : Parser R := seq [p, rep p]

def negPred (p : Parser R) : Parser R := fun ctx s =>
  match p ctx s with
  | none => some ([], s)
  | some _ => none

/-- A named rule produces a node around the nodes of its body, except inside
an atomic rule. -/
def rule (r : R) (p : Parser R) : Parser R := fun ctx s =>
  match p ctx s with
  | none => none
  | some (inner, t) =>
      match ctx.atomicity with
      | .atomic => some (inner, t)
      | _ => some ([{
          asRule := r
          start := ctx.size - s.length
          asStr := s.take (s.length - t.length)
          intoInner := inner }], t)

def atomic (p : Parser R) : Parser R := fun ctx => p ctx.atomically

def atomicRule (r : R) (p : Parser R) : Parser R := rule r (atomic p)

def soi : Parser R := fun ctx s =>
  if s.length = ctx.size then some ([], s) else none

def endOfInput : Parser R := fun _ s =>
  match s with
  | [] => some ([], [])
  | _ :: _ => none

def newline : Parser R := choice [str "\n", str "\r\n", str "\r"]

def asciiAlphaLower : Parser R := range 'a' 'z'

def asciiAlphaUpper : Parser R := range 'A' 'Z'

def asciiDigit : Parser R := range '0' '9'

def asciiAlphanumeric : Parser R :=
  choice [range 'a' 'z', range 'A' 'Z', range '0' '9']

/-! ## Inversion -/

/-- One of the alternatives was taken. -/
theorem choice_eq_some {ps : List (Parser R)} {ctx : Context}
    {s t : List Char} {xs : List (Pair R)}
    (h : choice ps ctx s = some (xs, t)) :
    ∃ p ∈ ps, p ctx s = some (xs, t) := by
  induction ps with
  | nil => cases h
  | cons p ps ih =>
      unfold choice at h
      split at h
      · obtain ⟨q, hq, hread⟩ := ih h
        exact ⟨q, List.mem_cons_of_mem p hq, hread⟩
      · next hp =>
          cases h
          exact ⟨p, List.mem_cons_self, hp⟩

/-- A rule ends where its body ends. -/
theorem rule_eq_some {r : R} {p : Parser R} {ctx : Context} {s t : List Char}
    {xs : List (Pair R)} (h : rule r p ctx s = some (xs, t)) :
    ∃ inner, p ctx s = some (inner, t) := by
  unfold rule at h
  split at h
  · cases h
  · next hp =>
      split at h
      · cases h
        exact ⟨_, hp⟩
      · cases h
        exact ⟨_, hp⟩

/-! ## Parsers never lengthen the text -/

def Bounded (p : Parser R) : Prop :=
  ∀ ⦃ctx s xs t⦄, Shrinking ctx.implicit → p ctx s = some (xs, t) →
    t.length ≤ s.length

theorem Context.gap_shrinking {ctx : Context} (h : Shrinking ctx.implicit) :
    Shrinking ctx.gap := by
  intro s
  unfold Context.gap
  split
  · exact h s
  · exact le_rfl

theorem bounded_str (w : String) : Bounded (str w : Parser R) := by
  intro ctx s xs t _ hread
  unfold str at hread
  split_ifs at hread
  cases hread
  simp

theorem bounded_charIf (test : Char → Bool) :
    Bounded (charIf test : Parser R) := by
  intro ctx s xs t _ hread
  unfold charIf at hread
  split at hread
  · split_ifs at hread
    cases hread
    simp
  · cases hread

theorem bounded_seq {ps : List (Parser R)} (h : ∀ p ∈ ps, Bounded p) :
    Bounded (seq ps) := by
  induction ps with
  | nil =>
      intro ctx s xs t _ hread
      cases hread
      exact le_rfl
  | cons p ps ih =>
      cases ps with
      | nil => exact h p List.mem_cons_self
      | cons q ps =>
          intro ctx s xs t hgap hread
          unfold seq at hread
          split at hread
          · cases hread
          · next ys u hp =>
              split at hread
              · cases hread
              · next zs v hps =>
                  cases hread
                  have h₁ := h p List.mem_cons_self hgap hp
                  have h₂ := ih (fun q hq => h q (List.mem_cons_of_mem p hq))
                    hgap hps
                  have h₃ := Context.gap_shrinking hgap u
                  omega

/-- A sequence whose first element consumes a character does so too. -/
theorem seq_length_lt {p q : Parser R} {ps : List (Parser R)} {ctx : Context}
    {s t : List Char} {xs : List (Pair R)} (hgap : Shrinking ctx.implicit)
    (hp : ∀ ys u, p ctx s = some (ys, u) → u.length < s.length)
    (hps : Bounded (seq (q :: ps)))
    (hread : seq (p :: q :: ps) ctx s = some (xs, t)) :
    t.length < s.length := by
  unfold seq at hread
  split at hread
  · cases hread
  · next ys u hfirst =>
      split at hread
      · cases hread
      · next zs v hrest =>
          cases hread
          have h₁ := hp ys u hfirst
          have h₂ := hps hgap hrest
          have h₃ := Context.gap_shrinking hgap u
          omega

theorem bounded_choice {ps : List (Parser R)} (h : ∀ p ∈ ps, Bounded p) :
    Bounded (choice ps) := by
  intro ctx s xs t hgap hread
  obtain ⟨p, hp, hread⟩ := choice_eq_some hread
  exact h p hp hgap hread

theorem Bounded.opt {p : Parser R} (h : Bounded p) : Bounded (opt p) := by
  intro ctx s xs t hgap hread
  unfold Peg.opt at hread
  split at hread
  · cases hread
    exact le_rfl
  · next hp =>
      cases hread
      exact h hgap hp

theorem Bounded.rep {p : Parser R} (h : Bounded p) : Bounded (rep p) := by
  intro ctx s xs t hgap hread
  have hloop : ∀ n s, (repeatFuel ctx.gap (p ctx) n s).2.length ≤ s.length := by
    intro n
    induction n with
    | zero => exact fun s => le_rfl
    | succ n ih =>
        intro s
        unfold repeatFuel
        split
        · exact le_rfl
        · next xs u hp =>
            have h₁ := h hgap hp
            have h₂ := Context.gap_shrinking hgap s
            exact (ih u).trans (h₁.trans h₂)
  unfold Peg.rep star at hread
  cases hp : p ctx s with
  | none =>
      rw [hp] at hread
      cases hread
      exact le_rfl
  | some result =>
      rw [hp] at hread
      cases hread
      exact (hloop _ _).trans (h hgap hp)

theorem Bounded.repOnce {p : Parser R} (h : Bounded p) :
    Bounded (repOnce p) := by
  apply bounded_seq
  intro q hq
  rcases List.mem_cons.mp hq with rfl | hq
  · exact h
  · cases List.mem_singleton.mp hq
    exact h.rep

theorem Bounded.rule {p : Parser R} (h : Bounded p) (r : R) :
    Bounded (rule r p) := by
  intro ctx s xs t hgap hread
  obtain ⟨inner, hp⟩ := rule_eq_some hread
  exact h hgap hp

theorem Bounded.atomic {p : Parser R} (h : Bounded p) : Bounded (atomic p) := by
  intro ctx s xs t hgap hread
  have hgap' : Shrinking ctx.atomically.implicit := hgap
  exact h hgap' hread

theorem Bounded.atomicRule {p : Parser R} (h : Bounded p) (r : R) :
    Bounded (atomicRule r p) := h.atomic.rule r

theorem bounded_newline : Bounded (newline : Parser R) := by
  apply bounded_choice
  intro p hp
  simp only [List.mem_cons, List.not_mem_nil, or_false] at hp
  rcases hp with rfl | rfl | rfl
  · exact bounded_str _
  · exact bounded_str _
  · exact bounded_str _

/-! ## Parsers that consume text -/

def Consumes (p : Parser R) : Prop :=
  ∀ ⦃ctx s xs t⦄, Shrinking ctx.implicit → p ctx s = some (xs, t) →
    t.length < s.length

theorem Consumes.bounded {p : Parser R} (h : Consumes p) : Bounded p :=
  fun _ _ _ _ hgap hread => (h hgap hread).le

theorem Consumes.consuming {p : Parser R} (h : Consumes p) {ctx : Context}
    (hgap : Shrinking ctx.implicit) : Consuming (p ctx) :=
  fun _ _ _ hread => h hgap hread

theorem consumes_str {w : String} (hw : w.toList ≠ []) :
    Consumes (str w : Parser R) := by
  intro ctx s xs t _ hread
  unfold str at hread
  split_ifs at hread with hprefix
  cases hread
  have hle := (List.isPrefixOf_iff_prefix.mp hprefix).length_le
  have hpos := List.length_pos_iff.mpr hw
  rw [List.length_drop]
  omega

theorem consumes_charIf (test : Char → Bool) :
    Consumes (charIf test : Parser R) := by
  intro ctx s xs t _ hread
  unfold charIf at hread
  split at hread
  · split_ifs at hread
    cases hread
    simp
  · cases hread

theorem consumes_choice {ps : List (Parser R)} (h : ∀ p ∈ ps, Consumes p) :
    Consumes (choice ps) := by
  intro ctx s xs t hgap hread
  obtain ⟨p, hp, hread⟩ := choice_eq_some hread
  exact h p hp hgap hread

theorem Consumes.seq {p : Parser R} {ps : List (Parser R)} (h : Consumes p)
    (hps : ∀ q ∈ ps, Bounded q) : Consumes (seq (p :: ps)) := by
  cases ps with
  | nil => exact h
  | cons q ps =>
      intro ctx s xs t hgap hread
      exact seq_length_lt hgap (fun _ _ hp => h hgap hp) (bounded_seq hps)
        hread

theorem Consumes.repOnce {p : Parser R} (h : Consumes p) :
    Consumes (repOnce p) := by
  apply h.seq
  intro q hq
  cases List.mem_singleton.mp hq
  exact h.bounded.rep

theorem Consumes.rule {p : Parser R} (h : Consumes p) (r : R) :
    Consumes (rule r p) := by
  intro ctx s xs t hgap hread
  obtain ⟨inner, hp⟩ := rule_eq_some hread
  exact h hgap hp

theorem Consumes.atomic {p : Parser R} (h : Consumes p) :
    Consumes (atomic p) := by
  intro ctx s xs t hgap hread
  have hgap' : Shrinking ctx.atomically.implicit := hgap
  exact h hgap' hread

theorem Consumes.atomicRule {p : Parser R} (h : Consumes p) (r : R) :
    Consumes (atomicRule r p) := h.atomic.rule r

theorem consumes_newline : Consumes (newline : Parser R) := by
  apply consumes_choice
  intro p hp
  simp only [List.mem_cons, List.not_mem_nil, or_false] at hp
  rcases hp with rfl | rfl | rfl
  · exact consumes_str (by decide)
  · exact consumes_str (by decide)
  · exact consumes_str (by decide)

/-! ## Implicit whitespace and comments -/

/-- The implicit rules run atomically, whatever rule they are skipped in. -/
def implicitContext : Context := ⟨.atomic, 0, id⟩

def skipWhitespace (whitespace : Parser R) (s : List Char) : List Char :=
  (repeatAll id (whitespace implicitContext) s).2

def commentRound (whitespace comment : Parser R) : Reader (List (Pair R)) :=
  fun s =>
    match comment implicitContext s with
    | none => none
    | some (xs, t) => some (xs, skipWhitespace whitespace t)

def skipWhitespaceAndComments
    (whitespace comment : Parser R) (s : List Char) : List Char :=
  (repeatAll id (commentRound whitespace comment)
    (skipWhitespace whitespace s)).2

/-- Run a rule on a whole text, as the generated `parse` does. -/
def parse (implicit : List Char → List Char) (p : Parser R)
    (input : List Char) : Option (List (Pair R)) :=
  (p ⟨.nonAtomic, input.length, implicit⟩ input).map Prod.fst

end Ips.Peg
