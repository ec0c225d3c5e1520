import Ips.Peg

/-!
# From parsing expressions to direct readers

The nodes that a grammar builds are consumed by an interpreter right away.
This module relates a parser to a reader that computes the interpreted value
directly: the two fail together, consume the same text, and the nodes mean
the value.  Lexical rules, which run atomically and produce no inner nodes,
are described by the text they consume.
-/

namespace Ips.Peg

variable {α β R : Type}

/-! ## Simulation -/

/-- The two readers fail together, and where they succeed they consume the
same text and their results are related. -/
def Simulates (Rel : α → β → Prop) (p : Reader α) (r : Reader β) : Prop :=
  ∀ s, Option.Rel (fun x y => Rel x.1 y.1 ∧ x.2 = y.2) (p s) (r s)

section Simulation

variable {Rel : List α → List β → Prop}
  {p : Reader (List α)} {r : Reader (List β)}
  {gap : List Char → List Char}

theorem Simulates.mono {Rel Rel' : α → β → Prop} {p : Reader α}
    {r : Reader β} (h : Simulates Rel p r) (hrel : ∀ x y, Rel x y → Rel' x y) :
    Simulates Rel' p r := by
  intro s
  have hs := h s
  cases hp : p s <;> cases hr : r s <;> rw [hp, hr] at hs
  · exact .none
  · cases hs
  · cases hs
  · cases hs with
    | some hboth => exact .some ⟨hrel _ _ hboth.1, hboth.2⟩

theorem Simulates.none_iff {Rel : α → β → Prop} {p : Reader α} {r : Reader β}
    (h : Simulates Rel p r) {s : List Char} : p s = none ↔ r s = none := by
  have hs := h s
  cases hp : p s <;> cases hr : r s <;> rw [hp, hr] at hs <;> simp
  · cases hs
  · cases hs

theorem Simulates.exists_of_some {Rel : α → β → Prop}
    {p : Reader α} {r : Reader β} (h : Simulates Rel p r)
    {s t : List Char} {y : β} (hr : r s = some (y, t)) :
    ∃ x, p s = some (x, t) ∧ Rel x y := by
  have hs := h s
  rw [hr] at hs
  cases hp : p s with
  | none =>
      rw [hp] at hs
      cases hs
  | some result =>
      rw [hp] at hs
      cases hs with
      | some hrel =>
          obtain ⟨x, t'⟩ := result
          obtain ⟨hvalue, hrest⟩ := hrel
          subst hrest
          exact ⟨x, rfl, hvalue⟩

theorem Simulates.of_some {Rel : α → β → Prop}
    {p : Reader α} {r : Reader β} (h : Simulates Rel p r)
    {s t : List Char} {x : α} (hp : p s = some (x, t)) :
    ∃ y, r s = some (y, t) ∧ Rel x y := by
  cases hr : r s with
  | none =>
      rw [h.none_iff.mpr hr] at hp
      cases hp
  | some result =>
      obtain ⟨y, t'⟩ := result
      obtain ⟨x', hp', hrel⟩ := h.exists_of_some hr
      rw [hp] at hp'
      cases hp'
      exact ⟨y, rfl, hrel⟩

theorem Simulates.consuming {Rel : α → β → Prop}
    {p : Reader α} {r : Reader β} (h : Simulates Rel p r)
    (hr : Consuming r) : Consuming p := by
  intro s x t hp
  obtain ⟨y, hread, -⟩ := h.of_some hp
  exact hr hread

/-- Readers that agree on the places of a set that reading does not leave. -/
theorem repeatFuel_rel {D : List Char → Prop}
    (hskip : ∀ s, D s → D (gap s))
    (hread : ∀ s ys t, D s → r s = some (ys, t) → D t)
    (h : ∀ s, D s →
      Option.Rel (fun x y => Rel x.1 y.1 ∧ x.2 = y.2) (p s) (r s))
    (hnil : Rel [] [])
    (happend : ∀ xs xs' ys ys', Rel xs ys → Rel xs' ys' →
      Rel (xs ++ xs') (ys ++ ys'))
    (n : ℕ) (s : List Char) (hs : D s) :
    Rel (repeatFuel gap p n s).1 (repeatFuel gap r n s).1 ∧
      (repeatFuel gap p n s).2 = (repeatFuel gap r n s).2 := by
  induction n generalizing s with
  | zero => exact ⟨hnil, rfl⟩
  | succ n ih =>
      have hround := h (gap s) (hskip s hs)
      cases hp : p (gap s) <;> cases hr : r (gap s) <;> rw [hp, hr] at hround
      · simpa [Peg.repeatFuel, hp, hr] using hnil
      · cases hround
      · cases hround
      · next x y =>
          cases hround with
          | some hrel =>
              obtain ⟨hvalue, hrest⟩ := hrel
              obtain ⟨ihRel, ihRest⟩ := ih y.2
                (hread _ y.1 y.2 (hskip s hs) hr)
              simp only [Peg.repeatFuel, hp, hr, hrest]
              exact ⟨happend _ _ _ _ hvalue ihRel, ihRest⟩

theorem Simulates.repeatFuel
    (h : Simulates Rel p r) (hnil : Rel [] [])
    (happend : ∀ xs xs' ys ys', Rel xs ys → Rel xs' ys' →
      Rel (xs ++ xs') (ys ++ ys'))
    (n : ℕ) (s : List Char) :
    Rel (repeatFuel gap p n s).1 (repeatFuel gap r n s).1 ∧
      (repeatFuel gap p n s).2 = (repeatFuel gap r n s).2 :=
  repeatFuel_rel (D := fun _ => True) (fun _ _ => trivial)
    (fun _ _ _ _ _ => trivial) (fun s _ => h s) hnil happend n s trivial

theorem Simulates.repeatAll
    (h : Simulates Rel p r) (hnil : Rel [] [])
    (happend : ∀ xs xs' ys ys', Rel xs ys → Rel xs' ys' →
      Rel (xs ++ xs') (ys ++ ys'))
    (s : List Char) :
    Rel (repeatAll gap p s).1 (repeatAll gap r s).1 ∧
      (repeatAll gap p s).2 = (repeatAll gap r s).2 :=
  h.repeatFuel hnil happend s.length s

/-- Between two gaps, `p*` does what the loop over the reader does. -/
theorem Simulates.rep_gap
    {Rel : List (Pair R) → List β → Prop} {p : Parser R} {ctx : Context}
    (h : Simulates Rel (p ctx) r) (hnil : Rel [] [])
    (happend : ∀ xs xs' ys ys', Rel xs ys → Rel xs' ys' →
      Rel (xs ++ xs') (ys ++ ys'))
    (hgap : Shrinking ctx.gap) (hidem : ∀ s, ctx.gap (ctx.gap s) = ctx.gap s)
    (hr : Consuming r) (s : List Char) :
    ∃ pairs u,
      rep p ctx (ctx.gap s) = some (pairs, u) ∧
      Rel pairs (Peg.repeatAll ctx.gap r s).1 ∧
      ctx.gap u = ctx.gap (Peg.repeatAll ctx.gap r s).2 := by
  obtain ⟨hmeans, hrest⟩ := h.repeatAll hnil happend s
  obtain ⟨hpairs, hend⟩ := star_gap hgap (h.consuming hr) hidem s
  refine ⟨(star ctx.gap (p ctx) (ctx.gap s)).1,
    (star ctx.gap (p ctx) (ctx.gap s)).2, rfl, ?_, ?_⟩
  · rw [hpairs]
    exact hmeans
  · rw [hend, hrest]

/-- `r+`, with the gap between two rounds. -/
def readOnce (gap : List Char → List Char) (r : Reader (List β)) :
    Reader (List β) := fun s =>
  match r s with
  | none => none
  | some (xs, t) =>
      some (xs ++ (star gap r (gap t)).1, (star gap r (gap t)).2)

theorem Simulates.star
    (h : Simulates Rel p r) (hnil : Rel [] [])
    (happend : ∀ xs xs' ys ys', Rel xs ys → Rel xs' ys' →
      Rel (xs ++ xs') (ys ++ ys'))
    (s : List Char) :
    Rel (star gap p s).1 (star gap r s).1 ∧
      (star gap p s).2 = (star gap r s).2 := by
  unfold Peg.star
  cases hr : r s with
  | none =>
      rw [h.none_iff.mpr hr]
      exact ⟨hnil, rfl⟩
  | some result =>
      rcases h.exists_of_some hr with ⟨xs, hp, hrel⟩
      rcases h.repeatAll hnil happend result.2 with ⟨hmeans, hrest⟩
      rw [hp]
      exact ⟨happend _ _ _ _ hrel hmeans, hrest⟩

theorem Simulates.repOnce
    {Rel : List (Pair R) → List β → Prop} {p : Parser R} {ctx : Context}
    (h : Simulates Rel (p ctx) r) (hnil : Rel [] [])
    (happend : ∀ xs xs' ys ys', Rel xs ys → Rel xs' ys' →
      Rel (xs ++ xs') (ys ++ ys')) :
    Simulates Rel (repOnce p ctx) (readOnce ctx.gap r) := by
  intro s
  unfold readOnce Peg.repOnce seq
  cases hr : r s with
  | none =>
      rw [h.none_iff.mpr hr]
      exact .none
  | some result =>
      rcases h.exists_of_some hr with ⟨xs, hp, hrel⟩
      have hstar : Rel (Peg.star ctx.gap (p ctx) (ctx.gap result.2)).1
            (Peg.star ctx.gap r (ctx.gap result.2)).1 ∧
          (Peg.star ctx.gap (p ctx) (ctx.gap result.2)).2 =
            (Peg.star ctx.gap r (ctx.gap result.2)).2 :=
        h.star hnil happend (ctx.gap result.2)
      rw [hp]
      exact .some ⟨happend _ _ _ _ hrel hstar.1, hstar.2⟩

/-- The first reader that does not fail. -/
def orElse (r r' : Reader β) : Reader β := fun s =>
  match r s with
  | some result => some result
  | none => r' s

theorem orElse_of_some {r r' : Reader β} {s : List Char} {x : β × List Char}
    (h : r s = some x) : orElse r r' s = some x := by
  unfold orElse
  rw [h]

theorem orElse_of_none {r r' : Reader β} {s : List Char} (h : r s = none) :
    orElse r r' s = r' s := by
  unfold orElse
  rw [h]

theorem orElse_eq_some {r r' : Reader β} {s : List Char}
    {x : β × List Char} (h : orElse r r' s = some x) :
    r s = some x ∨ r s = none ∧ r' s = some x := by
  unfold orElse at h
  split at h
  · next hr =>
      left
      rw [hr, h]
  · next hr => exact .inr ⟨hr, h⟩

theorem Consuming.orElse {r r' : Reader β} (h : Consuming r)
    (h' : Consuming r') : Consuming (orElse r r') := by
  intro s x t hread
  unfold Peg.orElse at hread
  split at hread
  · next hr =>
      cases hread
      exact h hr
  · exact h' hread

theorem Simulates.choice_cons
    {Rel : List (Pair R) → List β → Prop} {p : Parser R}
    {ps : List (Parser R)} {ctx : Context} {r r' : Reader (List β)}
    (h : Simulates Rel (p ctx) r) (h' : Simulates Rel (choice ps ctx) r') :
    Simulates Rel (choice (p :: ps) ctx) (orElse r r') := by
  intro s
  unfold choice
  cases hr : r s with
  | none =>
      rw [h.none_iff.mpr hr, orElse_of_none hr]
      exact h' s
  | some result =>
      rcases h.exists_of_some hr with ⟨xs, hp, hrel⟩
      rw [hp, orElse_of_some hr]
      exact .some ⟨hrel, rfl⟩

theorem Simulates.choice_single
    {Rel : List (Pair R) → List β → Prop} {p : Parser R} {ctx : Context}
    {r : Reader (List β)} (h : Simulates Rel (p ctx) r) :
    Simulates Rel (choice [p] ctx) r := by
  intro s
  have hchoice : choice [p] ctx s = p ctx s := by
    simp only [choice]
    cases p ctx s <;> rfl
  rw [hchoice]
  exact h s

end Simulation

/-! ## Contexts and nodes -/

@[simp] theorem gap_atomically (ctx : Context) : ctx.atomically.gap = id := rfl

@[simp] theorem rule_atomically (r : R) (p : Parser R) (ctx : Context) :
    rule r p ctx.atomically = p ctx.atomically := by
  funext s
  unfold rule
  cases p ctx.atomically s with
  | none => rfl
  | some result => rfl

@[simp] theorem atomicRule_atomically (r : R) (p : Parser R) (ctx : Context) :
    atomicRule r p ctx.atomically = p ctx.atomically := by
  unfold atomicRule
  rw [rule_atomically]
  rfl

theorem take_of_append {s w t : List Char} (h : s = w ++ t) :
    s.take (s.length - t.length) = w := by
  subst s
  simp

/-- A node of an atomic rule has no inner nodes. -/
def leaf (r : R) (start : ℕ) (text : List Char) : Pair R :=
  ⟨r, start, text, []⟩

/-! ## Whole texts -/

/-- Items from the start of the text to its end, at least one. -/
def readDocument (gap : List Char → List Char) (r : Reader (List β))
    (content : List Char) : Option (List β) :=
  let loop := repeatAll gap r content
  if loop.1 ≠ [] ∧ gap loop.2 = [] then some loop.1 else none

theorem seq_cons (p q : Parser R) (ps : List (Parser R)) (ctx : Context)
    (s : List Char) :
    seq (p :: q :: ps) ctx s =
      match p ctx s with
      | none => none
      | some (xs, t) =>
          match seq (q :: ps) ctx (ctx.gap t) with
          | none => none
          | some (ys, u) => some (xs ++ ys, u) := rfl

theorem rule_of_none {r : R} {p : Parser R} {ctx : Context} {s : List Char}
    (h : p ctx s = none) : rule r p ctx s = none := by
  unfold rule
  rw [h]

theorem rule_of_some {r : R} {p : Parser R} {ctx : Context} {s t : List Char}
    {inner : List (Pair R)} (hctx : ctx.atomicity = .nonAtomic)
    (h : p ctx s = some (inner, t)) :
    rule r p ctx s =
      some ([⟨r, ctx.size - s.length, s.take (s.length - t.length), inner⟩],
        t) := by
  unfold rule
  rw [h]
  dsimp only
  rw [hctx]

theorem rule_endOfInput (r : R) (ctx : Context)
    (hctx : ctx.atomicity = .nonAtomic) (s : List Char) :
    rule r endOfInput ctx s =
      if s = [] then some ([leaf r ctx.size []], []) else none := by
  cases s with
  | nil => simp [rule, endOfInput, hctx, leaf]
  | cons c t => rfl

/-- A grammar of the form `SOI ~ item+ ~ EOI` accepts what is read as a
document, and its nodes mean the items. -/
theorem Simulates.document {Rel : List (Pair R) → List β → Prop}
    {p : Parser R} {r : Reader (List β)} {implicit : List Char → List Char}
    (content : List Char) (eoiRule : R)
    (h : Simulates Rel (p ⟨.nonAtomic, content.length, implicit⟩) r)
    (hnil : Rel [] [])
    (happend : ∀ xs xs' ys ys', Rel xs ys → Rel xs' ys' →
      Rel (xs ++ xs') (ys ++ ys'))
    (hgap : Shrinking implicit)
    (hidem : ∀ s, implicit (implicit s) = implicit s)
    (hr : Consuming r) (hne : ∀ ⦃s ys t⦄, r s = some (ys, t) → ys ≠ []) :
    (readDocument implicit r content = none ∧
      seq [soi, Peg.repOnce p, rule eoiRule endOfInput]
        ⟨.nonAtomic, content.length, implicit⟩ content = none) ∨
    ∃ ys pairs, readDocument implicit r content = some ys ∧
      seq [soi, Peg.repOnce p, rule eoiRule endOfInput]
        ⟨.nonAtomic, content.length, implicit⟩ content =
          some (pairs ++ [leaf eoiRule content.length []], []) ∧
      Rel pairs ys := by
  have hgapEq : (⟨.nonAtomic, content.length, implicit⟩ : Context).gap =
      implicit := rfl
  unfold readDocument
  simp only [seq, Peg.repOnce, soi, if_true, hgapEq,
    rule_endOfInput eoiRule ⟨.nonAtomic, content.length, implicit⟩ rfl]
  cases hread : r (implicit content) with
  | none =>
      left
      rw [h.none_iff.mpr hread]
      simp [repeatAll_of_none hgap hr hread]
  | some read =>
      obtain ⟨ys, t⟩ := read
      obtain ⟨pairs, hpairs, hmeans⟩ := h.exists_of_some hread
      obtain ⟨more, u, hrep, hmore, hend⟩ :=
        h.rep_gap hnil happend hgap hidem hr t
      rw [hgapEq] at hrep hmore hend
      rw [repeatAll_of_some hgap hr hread, hpairs]
      simp only [hrep, hend]
      by_cases hdone : implicit (Peg.repeatAll implicit r t).2 = []
      · right
        have hys : ys ++ (Peg.repeatAll implicit r t).1 ≠ [] := by
          simp [hne hread]
        refine ⟨ys ++ (Peg.repeatAll implicit r t).1, pairs ++ more,
          if_pos ⟨hys, hdone⟩, ?_, happend _ _ _ _ hmeans hmore⟩
        rw [if_pos hdone]
        simp
      · left
        simp [hdone]

/-! ## Lexical rules -/

/-- A lexical reader returns the text it consumes. -/
def Splits (r : Reader (List Char)) : Prop :=
  ∀ ⦃s w t⦄, r s = some (w, t) → s = w ++ t

theorem Splits.suffixing {r : Reader (List Char)} (h : Splits r) :
    Suffixing r := by
  intro s w t hread
  exact ⟨w, (h hread).symm⟩

/-- Run atomically, the parser consumes what the reader consumes and produces
no nodes. -/
def Lexes (p : Parser R) (r : Reader (List Char)) : Prop :=
  ∀ ctx s, p (Context.atomically ctx) s = (r s).map fun x => ([], x.2)

theorem Lexes.atomicRule_eq
    {p : Parser R} {r : Reader (List Char)} (h : Lexes p r)
    (hsplit : Splits r) (name : R) {ctx : Context}
    (hctx : ctx.atomicity = .nonAtomic) (s : List Char) :
    atomicRule name p ctx s =
      (r s).map fun x => ([leaf name (ctx.size - s.length) x.1], x.2) := by
  unfold atomicRule rule atomic
  rw [h ctx s]
  cases hread : r s with
  | none => rfl
  | some result =>
      obtain ⟨w, t⟩ := result
      simp [hctx, leaf, take_of_append (hsplit hread)]

theorem Lexes.atomicRule {p : Parser R} {r : Reader (List Char)}
    (h : Lexes p r) (name : R) : Lexes (atomicRule name p) r := by
  intro ctx s
  rw [atomicRule_atomically]
  exact h ctx s

/-- The longest prefix along which every tail satisfies the test. -/
def takeTails (ok : List Char → Bool) : List Char → List Char
  | [] => []
  | c :: t => if ok (c :: t) then c :: takeTails ok t else []

def dropTails (ok : List Char → Bool) : List Char → List Char
  | [] => []
  | c :: t => if ok (c :: t) then dropTails ok t else c :: t

@[simp] theorem takeTails_append_dropTails
    (ok : List Char → Bool) (s : List Char) :
    takeTails ok s ++ dropTails ok s = s := by
  induction s with
  | nil => rfl
  | cons c t ih =>
      unfold takeTails dropTails
      split_ifs
      · simp [ih]
      · rfl

theorem takeTails_append {ok : List Char → Bool} {w : List Char}
    (hw : ∀ c ∈ w, ∀ t, ok (c :: t) = true) (t : List Char) :
    takeTails ok (w ++ t) = w ++ takeTails ok t := by
  induction w with
  | nil => rfl
  | cons c w ih =>
      have hc := hw c List.mem_cons_self (w ++ t)
      have hrest : ∀ d ∈ w, ∀ t, ok (d :: t) = true :=
        fun d hd => hw d (List.mem_cons_of_mem c hd)
      simp [takeTails, hc, ih hrest]

theorem dropTails_append {ok : List Char → Bool} {w : List Char}
    (hw : ∀ c ∈ w, ∀ t, ok (c :: t) = true) (t : List Char) :
    dropTails ok (w ++ t) = dropTails ok t := by
  induction w with
  | nil => rfl
  | cons c w ih =>
      have hc := hw c List.mem_cons_self (w ++ t)
      have hrest : ∀ d ∈ w, ∀ t, ok (d :: t) = true :=
        fun d hd => hw d (List.mem_cons_of_mem c hd)
      simp [dropTails, hc, ih hrest]

theorem takeTails_eq_nil {ok : List Char → Bool} {t : List Char}
    (h : ok t = false) : takeTails ok t = [] := by
  cases t with
  | nil => rfl
  | cons c t => simp [takeTails, h]

theorem dropTails_eq_self {ok : List Char → Bool} {t : List Char}
    (h : ok t = false) : dropTails ok t = t := by
  cases t with
  | nil => rfl
  | cons c t => simp [dropTails, h]

/-- The parser consumes one character, exactly where the test holds. -/
def ReadsOne (p : Parser R) (ok : List Char → Bool) : Prop :=
  ok [] = false ∧
    ∀ ctx s, p (Context.atomically ctx) s =
      if ok s then some ([], s.tail) else none

theorem ReadsOne.consuming {p : Parser R} {ok : List Char → Bool}
    (h : ReadsOne p ok) (ctx : Context) : Consuming (p ctx.atomically) := by
  intro s a t hread
  rw [h.2] at hread
  cases s with
  | nil => simp [h.1] at hread
  | cons c s =>
      split_ifs at hread
      simp only [Option.some.injEq, Prod.mk.injEq, List.tail_cons] at hread
      simp [← hread.2]

theorem ReadsOne.repeatAll_eq {p : Parser R} {ok : List Char → Bool}
    (h : ReadsOne p ok) (ctx : Context) (s : List Char) :
    repeatAll id (p ctx.atomically) s = ([], dropTails ok s) := by
  induction s with
  | nil =>
      apply repeatAll_of_none shrinking_id (h.consuming ctx)
      simp [h.2, h.1]
  | cons c t ih =>
      unfold dropTails
      split_ifs with hok
      · rw [repeatAll_of_some shrinking_id (h.consuming ctx)
          (by rw [id, h.2, if_pos hok])]
        simp [ih]
      · rw [repeatAll_of_none shrinking_id (h.consuming ctx)
          (by rw [id, h.2, if_neg hok])]

def readRun (ok : List Char → Bool) : Reader (List Char) := fun s =>
  some (takeTails ok s, dropTails ok s)

def readRunOnce (ok : List Char → Bool) : Reader (List Char) := fun s =>
  if takeTails ok s = [] then none else some (takeTails ok s, dropTails ok s)

theorem readRunOnce_append {ok : List Char → Bool} {w t : List Char}
    (hne : w ≠ []) (hw : ∀ c ∈ w, ∀ t, ok (c :: t) = true)
    (ht : ok t = false) : readRunOnce ok (w ++ t) = some (w, t) := by
  unfold readRunOnce
  rw [takeTails_append hw, dropTails_append hw, takeTails_eq_nil ht,
    dropTails_eq_self ht, List.append_nil, if_neg hne]

theorem readRun_splits (ok : List Char → Bool) : Splits (readRun ok) := by
  intro s w t hread
  simp only [readRun, Option.some.injEq, Prod.mk.injEq] at hread
  rw [← hread.1, ← hread.2, takeTails_append_dropTails]

theorem readRunOnce_splits (ok : List Char → Bool) :
    Splits (readRunOnce ok) := by
  intro s w t hread
  unfold readRunOnce at hread
  split_ifs at hread
  simp only [Option.some.injEq, Prod.mk.injEq] at hread
  rw [← hread.1, ← hread.2, takeTails_append_dropTails]

theorem ReadsOne.rep {p : Parser R} {ok : List Char → Bool}
    (h : ReadsOne p ok) : Lexes (rep p) (readRun ok) := by
  intro ctx s
  unfold Peg.rep readRun
  rw [gap_atomically, star_id (h.consuming ctx), h.repeatAll_eq]
  rfl

theorem ReadsOne.repOnce {p : Parser R} {ok : List Char → Bool}
    (h : ReadsOne p ok) : Lexes (repOnce p) (readRunOnce ok) := by
  intro ctx s
  have hrep := h.rep ctx s.tail
  unfold Peg.repOnce readRunOnce
  cases s with
  | nil => simp [seq, h.2, h.1, takeTails]
  | cons c t =>
      by_cases hok : ok (c :: t)
      · simp [seq, h.2, hok, takeTails, dropTails] at hrep ⊢
        simp [hrep, readRun]
      · simp [seq, h.2, hok, takeTails]

/-- A test of the first character only. -/
def headIs (test : Char → Bool) : List Char → Bool
  | [] => false
  | c :: _ => test c

@[simp] theorem takeTails_headIs (test : Char → Bool) (s : List Char) :
    takeTails (headIs test) s = s.takeWhile test := by
  induction s with
  | nil => rfl
  | cons c t ih => simp [takeTails, headIs, List.takeWhile_cons, ih]

@[simp] theorem dropTails_headIs (test : Char → Bool) (s : List Char) :
    dropTails (headIs test) s = s.dropWhile test := by
  induction s with
  | nil => rfl
  | cons c t ih => simp [dropTails, headIs, List.dropWhile_cons, ih]

theorem readsOne_charIf (test : Char → Bool) :
    ReadsOne (charIf test : Parser R) (headIs test) := by
  refine ⟨rfl, ?_⟩
  intro ctx s
  cases s with
  | nil => rfl
  | cons c t => rfl

/-- A string of one character is a character class. -/
theorem readsOne_str {w : String} {c : Char} (hw : w.toList = [c]) :
    ReadsOne (str w : Parser R) (headIs (· == c)) := by
  refine ⟨rfl, ?_⟩
  intro ctx s
  cases s with
  | nil => simp [str, hw, headIs]
  | cons d t =>
      by_cases hd : d = c
      · simp [str, hw, headIs, hd]
      · simp [str, hw, headIs, hd, Ne.symm hd]

theorem ReadsOne.choice_cons {p : Parser R} {ps : List (Parser R)}
    {test test' : Char → Bool} (hp : ReadsOne p (headIs test))
    (hps : ReadsOne (choice ps) (headIs test')) :
    ReadsOne (choice (p :: ps)) (headIs fun c => test c || test' c) := by
  refine ⟨rfl, ?_⟩
  intro ctx s
  unfold choice
  rw [hp.2, hps.2]
  cases s with
  | nil => rfl
  | cons c t =>
      by_cases htest : test c
      · simp [headIs, htest]
      · by_cases htest' : test' c
        · simp [headIs, htest, htest']
        · simp [headIs, htest, htest']

theorem readsOne_choice_single {p : Parser R} {test : Char → Bool}
    (hp : ReadsOne p (headIs test)) : ReadsOne (choice [p]) (headIs test) := by
  refine ⟨rfl, ?_⟩
  intro ctx s
  unfold choice choice
  rw [hp.2]
  split_ifs <;> rfl

theorem readsOne_strs (ws : List (Char × String))
    (h : ∀ x ∈ ws, x.2.toList = [x.1]) :
    ReadsOne (choice (ws.map fun x => (str x.2 : Parser R)))
      (headIs fun c => (ws.map Prod.fst).contains c) := by
  induction ws with
  | nil =>
      refine ⟨rfl, ?_⟩
      intro ctx s
      cases s <;> rfl
  | cons x ws ih =>
      have hx := readsOne_str (R := R) (h x List.mem_cons_self)
      have hrest := ih fun y hy => h y (List.mem_cons_of_mem x hy)
      have htest : (fun c => c == x.1 || (ws.map Prod.fst).contains c) =
          fun c => ((x :: ws).map Prod.fst).contains c := by
        funext c
        rw [List.map_cons, List.contains_cons]
      have hboth := hx.choice_cons hrest
      rw [htest] at hboth
      exact hboth

def isAlpha (c : Char) : Bool := ('a' ≤ c && c ≤ 'z') || ('A' ≤ c && c ≤ 'Z')

def isDigit (c : Char) : Bool := '0' ≤ c && c ≤ '9'

theorem printable_of_alphanumeric {c : Char}
    (h : (isAlpha c || isDigit c) = true) :
    33 ≤ c.toNat ∧ c.toNat ≤ 126 := by
  have hrange : ∀ lo hi : ℕ, lo ≤ c.toNat → c.toNat ≤ hi → 33 ≤ lo →
      hi ≤ 126 → 33 ≤ c.toNat ∧ c.toNat ≤ 126 := by
    intro lo hi h₁ h₂ h₃ h₄
    exact ⟨h₃.trans h₁, h₂.trans h₄⟩
  simp only [isAlpha, isDigit, Bool.or_eq_true, Bool.and_eq_true,
    decide_eq_true_eq] at h
  rcases h with (⟨h₁, h₂⟩ | ⟨h₁, h₂⟩) | ⟨h₁, h₂⟩
  · exact hrange 97 122 h₁ h₂ (by omega) (by omega)
  · exact hrange 65 90 h₁ h₂ (by omega) (by omega)
  · exact hrange 48 57 h₁ h₂ (by omega) (by omega)

theorem readsOne_asciiAlphanumeric :
    ReadsOne (asciiAlphanumeric : Parser R)
      (headIs fun c => isAlpha c || isDigit c) := by
  have h := (readsOne_charIf (R := R) fun c => 'a' ≤ c && c ≤ 'z').choice_cons
    ((readsOne_charIf fun c => 'A' ≤ c && c ≤ 'Z').choice_cons
      (readsOne_choice_single (readsOne_charIf isDigit)))
  refine ⟨rfl, ?_⟩
  intro ctx s
  rw [asciiAlphanumeric]
  refine (h.2 ctx s).trans ?_
  cases s with
  | nil => rfl
  | cons c t => simp [headIs, isAlpha, Bool.or_assoc]

/-- `!p ~ ANY` consumes one character where `p` fails. -/
theorem readsOne_negPred_any {p : Parser R} (fails : List Char → Bool)
    (h : ∀ ctx s, (p (Context.atomically ctx) s).isNone = fails s) :
    ReadsOne (seq [negPred p, any])
      (fun s => !s.isEmpty && fails s) := by
  refine ⟨rfl, ?_⟩
  intro ctx s
  have hs := h ctx s
  cases hp : p ctx.atomically s with
  | none =>
      rw [hp] at hs
      cases s with
      | nil => simp [seq, negPred, hp, any, charIf]
      | cons c t => simp [seq, negPred, hp, any, charIf, ← hs]
  | some result =>
      rw [hp] at hs
      simp [seq, negPred, hp, ← hs]

theorem ReadsOne.rule {p : Parser R} {ok : List Char → Bool}
    (h : ReadsOne p ok) (r : R) : ReadsOne (rule r p) ok := by
  refine ⟨h.1, ?_⟩
  intro ctx s
  rw [rule_atomically, h.2]

/-- A parser of pieces of a run: where the test holds it consumes some
characters of the test, elsewhere it fails. -/
def ReadsPiece (p : Parser R) (test : Char → Bool) : Prop :=
  ∀ ctx s, (headIs test s = false ∧ p (Context.atomically ctx) s = none) ∨
    ∃ c w t, s = c :: (w ++ t) ∧ (∀ d ∈ c :: w, test d = true) ∧
      p (Context.atomically ctx) s = some ([], t)

theorem ReadsPiece.consuming {p : Parser R} {test : Char → Bool}
    (h : ReadsPiece p test) (ctx : Context) : Consuming (p ctx.atomically) := by
  intro s xs t hread
  rcases h ctx s with ⟨-, hnone⟩ | ⟨c, w, t', rfl, -, hsome⟩
  · rw [hnone] at hread
    cases hread
  · rw [hsome] at hread
    cases hread
    simp only [List.length_cons, List.length_append]
    omega

theorem ReadsPiece.repeatAll_eq {p : Parser R} {test : Char → Bool}
    (h : ReadsPiece p test) (ctx : Context) (s : List Char) :
    repeatAll id (p ctx.atomically) s = ([], s.dropWhile test) := by
  apply repeatAll_induction shrinking_id (h.consuming ctx)
    (fun s result => result = ([], s.dropWhile test))
  · intro s hread
    rcases h ctx s with ⟨hhead, -⟩ | ⟨c, w, t, -, -, hsome⟩
    · rw [← dropTails_headIs, dropTails_eq_self hhead]
    · rw [id, hsome] at hread
      cases hread
  · intro s xs t hread ih
    rcases h ctx s with ⟨-, hnone⟩ | ⟨c, w, t', hs, hall, hsome⟩
    · rw [id, hnone] at hread
      cases hread
    · rw [id, hsome] at hread
      cases hread
      rw [ih, hs, ← List.cons_append, List.dropWhile_append_of_pos hall]
      rfl

/-- Pieces of a run, one after the other, are the run. -/
theorem ReadsPiece.repOnce {p : Parser R} {test : Char → Bool}
    (h : ReadsPiece p test) :
    Lexes (repOnce p) (readRunOnce (headIs test)) := by
  intro ctx s
  unfold Peg.repOnce readRunOnce
  simp only [seq, Peg.rep, gap_atomically, id, takeTails_headIs,
    dropTails_headIs]
  rcases h ctx s with ⟨hhead, hnone⟩ | ⟨c, w, t, rfl, hall, hsome⟩
  · have htake : s.takeWhile test = [] := by
      rw [← takeTails_headIs, takeTails_eq_nil hhead]
    rw [hnone, if_pos htake]
    rfl
  · rw [hsome, ← List.cons_append, List.takeWhile_append_of_pos hall,
      List.dropWhile_append_of_pos hall, if_neg (by simp)]
    dsimp only [Option.map_some]
    rw [star_id (h.consuming ctx), h.repeatAll_eq]
    rfl

/-! ## Blanks -/

def isBlank (c : Char) : Bool := c == ' ' || c == '\t'

def skipBlanks (s : List Char) : List Char := s.dropWhile isBlank

theorem skipWhitespace_blanks :
    skipWhitespace (atomic (choice [str " ", str "\t"]) : Parser R) =
      skipBlanks := by
  funext s
  have hone : ReadsOne (choice [str " ", str "\t"] : Parser R)
      (headIs isBlank) :=
    (readsOne_str (by decide)).choice_cons
      (readsOne_choice_single (readsOne_str (by decide)))
  have hloop := hone.repeatAll_eq ⟨.nonAtomic, 0, id⟩ s
  rw [dropTails_headIs] at hloop
  exact congrArg Prod.snd hloop

/-! ## Loops that skip blanks between characters -/

section BlankLoops

variable {blank test : Char → Bool} {r : Reader (List α)}

/-- A reader of single characters that stops at the characters of a test,
when it is not started at a blank. -/
def ReadsUntil (blank test : Char → Bool) (r : Reader (List α)) : Prop :=
  ∀ s, headIs blank s = false →
    (r s = none ∧ (s = [] ∨ headIs test s = true)) ∨
    ∃ xs c t, r s = some (xs, t) ∧ s = c :: t ∧ test c = false

theorem shrinking_dropWhile (test : Char → Bool) :
    Shrinking fun s => s.dropWhile test :=
  fun _ => (List.dropWhile_suffix test).length_le

theorem headIs_dropWhile (test : Char → Bool) (s : List Char) :
    headIs test (s.dropWhile test) = false := by
  cases hs : s.dropWhile test with
  | nil => rfl
  | cons c t =>
      have hhead := List.head_dropWhile_not test (l := s) (by simp [hs])
      simpa [hs, headIs] using hhead

theorem dropWhile_dropWhile_of_le (hblank : ∀ c, blank c = true → test c = false)
    (s : List Char) :
    (s.dropWhile blank).dropWhile (fun c => !test c) =
      s.dropWhile fun c => !test c := by
  induction s with
  | nil => rfl
  | cons c t ih =>
      by_cases hc : blank c = true
      · simp [hc, hblank c hc, ih]
      · simp [hc]

theorem skipBlanks_shrinking : Shrinking skipBlanks :=
  shrinking_dropWhile isBlank

theorem headIs_skipBlanks (s : List Char) :
    headIs isBlank (skipBlanks s) = false := headIs_dropWhile isBlank s

theorem skipBlanks_of_head {s : List Char} (h : headIs isBlank s = false) :
    skipBlanks s = s := by
  unfold skipBlanks
  rw [← dropTails_headIs]
  exact dropTails_eq_self h

@[simp] theorem skipBlanks_skipBlanks (s : List Char) :
    skipBlanks (skipBlanks s) = skipBlanks s :=
  skipBlanks_of_head (headIs_skipBlanks s)

theorem skipBlanks_suffix (s : List Char) : skipBlanks s <:+ s :=
  List.dropWhile_suffix isBlank

/-- With the gap behind it, such a loop runs up to the first character of the
test, blanks included. -/
theorem ReadsUntil.gap_repeatAll (h : ReadsUntil blank test r)
    (hblank : ∀ c, blank c = true → test c = false) (hr : Consuming r)
    (s : List Char) :
    (repeatAll (fun s => s.dropWhile blank) r s).2.dropWhile blank =
      s.dropWhile fun c => !test c := by
  apply repeatAll_induction (shrinking_dropWhile blank) hr (fun s result =>
    result.2.dropWhile blank = s.dropWhile fun c => !test c)
  · intro s hread
    have hend : (s.dropWhile blank).dropWhile (fun c => !test c) =
        s.dropWhile blank := by
      rcases h _ (headIs_dropWhile blank s) with ⟨-, hnil | htest⟩ |
        ⟨xs, c, t, hsome, -, -⟩
      · rw [hnil]
        rfl
      · cases hs : s.dropWhile blank with
        | nil => rfl
        | cons c t =>
            rw [hs] at htest
            have hc : test c = true := htest
            simp [hc]
      · rw [hsome] at hread
        cases hread
    rw [← dropWhile_dropWhile_of_le hblank s, hend]
  · intro s xs t hread ih
    rcases h _ (headIs_dropWhile blank s) with ⟨hnone, -⟩ |
      ⟨xs', c, t', hsome, hs, hc⟩
    · rw [hnone] at hread
      cases hread
    · rw [hsome] at hread
      cases hread
      rw [ih, ← dropWhile_dropWhile_of_le hblank s, hs]
      simp [hc]

end BlankLoops

/-! ## Words -/

/-- The first of the words that the text starts with. -/
def readWords : List String → Reader (List Char)
  | [] => fun _ => none
  | w :: ws => fun s =>
      if w.toList.isPrefixOf s then
        some (w.toList, s.drop w.toList.length)
      else readWords ws s

theorem str_eq (w : String) (ctx : Context) (s : List Char) :
    (str w : Parser R) ctx s =
      (readWords [w] s).map fun x => ([], x.2) := by
  unfold str readWords readWords
  split_ifs <;> rfl

theorem readWords_splits (ws : List String) : Splits (readWords ws) := by
  induction ws with
  | nil =>
      intro s w t hread
      cases hread
  | cons word ws ih =>
      intro s w t hread
      unfold readWords at hread
      split_ifs at hread with hprefix
      · simp only [Option.some.injEq, Prod.mk.injEq] at hread
        rw [← hread.1, ← hread.2]
        obtain ⟨u, hu⟩ := List.isPrefixOf_iff_prefix.mp hprefix
        rw [← hu]
        simp
      · exact ih hread

theorem readWords_mem {ws : List String} {s w t : List Char}
    (h : readWords ws s = some (w, t)) : ∃ word ∈ ws, w = word.toList := by
  induction ws with
  | nil => cases h
  | cons word ws ih =>
      unfold readWords at h
      split_ifs at h
      · simp only [Option.some.injEq, Prod.mk.injEq] at h
        exact ⟨word, List.mem_cons_self, h.1.symm⟩
      · rcases ih h with ⟨word', hmem, hw⟩
        exact ⟨word', List.mem_cons_of_mem word hmem, hw⟩

/-- Among words none of which starts another, the one written is read. -/
theorem readWords_append {ws : List String} {w : String} (hmem : w ∈ ws)
    (hfree : ∀ word ∈ ws, word ≠ w →
      ¬ word.toList <+: w.toList ∧ ¬ w.toList <+: word.toList)
    (t : List Char) :
    readWords ws (w.toList ++ t) = some (w.toList, t) := by
  induction ws with
  | nil => cases hmem
  | cons word ws ih =>
      unfold readWords
      by_cases hword : word = w
      · subst word
        rw [if_pos (List.isPrefixOf_iff_prefix.mpr (List.prefix_append _ t)),
          List.drop_left]
      · have hnot : ¬ word.toList.isPrefixOf (w.toList ++ t) = true := by
          rw [List.isPrefixOf_iff_prefix]
          intro hprefix
          rcases List.prefix_or_prefix_of_prefix hprefix
              (List.prefix_append w.toList t) with h | h
          · exact (hfree word List.mem_cons_self hword).1 h
          · exact (hfree word List.mem_cons_self hword).2 h
        have hmem' : w ∈ ws := by
          simpa [Ne.symm hword] using hmem
        rw [if_neg hnot]
        exact ih hmem'
          (fun k hk => hfree k (List.mem_cons_of_mem word hk))

theorem lexes_choice_nil : Lexes (choice [] : Parser R) (readWords []) := by
  intro ctx s
  rfl

theorem Lexes.choice_cons {p : Parser R} {ps : List (Parser R)}
    {w : String} {ws : List String}
    (hp : ∀ ctx : Context, p ctx.atomically = str w ctx.atomically)
    (hps : Lexes (choice ps) (readWords ws)) :
    Lexes (choice (p :: ps)) (readWords (w :: ws)) := by
  intro ctx s
  unfold choice readWords
  rw [hp ctx, hps ctx s]
  unfold str
  split_ifs <;> rfl

/-! ## Line breaks -/

def readNewline : List Char → Option (List Char)
  | '\n' :: t => some t
  | '\r' :: '\n' :: t => some t
  | '\r' :: t => some t
  | _ => none

def isNewlineChar (c : Char) : Bool := c == '\n' || c == '\r'

theorem newline_eq (ctx : Context) (s : List Char) :
    (newline : Parser R) ctx s = (readNewline s).map fun t => ([], t) := by
  unfold readNewline
  split
  · simp [newline, choice, str]
  · simp [newline, choice, str]
  · next t hne =>
      cases t with
      | nil => simp [newline, choice, str]
      | cons c t =>
          have hc : ¬ '\n' = c := by
            intro h
            exact hne t (by rw [h])
          simp [newline, choice, str, hc]
  · next hn hrn hr =>
      cases s with
      | nil => simp [newline, choice, str]
      | cons c t =>
          have hcn : ¬ '\n' = c := by
            intro h
            exact hn t (by rw [h])
          have hcr : ¬ '\r' = c := by
            intro h
            exact hr t (by rw [h])
          simp [newline, choice, str, hcn, hcr]

theorem readNewline_length_lt {s t : List Char}
    (h : readNewline s = some t) : t.length < s.length := by
  unfold readNewline at h
  split at h
  · simp only [Option.some.injEq] at h
    simp [h]
  · simp only [Option.some.injEq] at h
    simp [h]
  · simp only [Option.some.injEq] at h
    simp [h]
  · cases h

theorem readNewline_suffix {s t : List Char}
    (h : readNewline s = some t) : t <:+ s := by
  unfold readNewline at h
  split at h
  · cases h
    exact List.suffix_cons _ _
  · cases h
    exact (List.suffix_cons _ _).trans (List.suffix_cons _ _)
  · cases h
    exact List.suffix_cons _ _
  · cases h

theorem readNewline_isNone (s : List Char) :
    (readNewline s).isNone = !headIs isNewlineChar s := by
  unfold readNewline headIs isNewlineChar
  split <;> simp_all
  cases s with
  | nil => rfl
  | cons c t => simp_all

theorem blank_not_newline (c : Char) (h : isBlank c = true) :
    isNewlineChar c = false := by
  simp only [isBlank, Bool.or_eq_true, beq_iff_eq] at h
  rcases h with rfl | rfl <;> rfl

theorem readNewline_eq_none_iff {s : List Char} :
    readNewline s = none ↔ headIs isNewlineChar s = false := by
  rw [← Option.isNone_iff_eq_none, readNewline_isNone, Bool.not_eq_true']

theorem readsOne_notNewline :
    ReadsOne (seq [negPred newline, any] : Parser R)
      (headIs fun c => !isNewlineChar c) := by
  have hbody := readsOne_negPred_any (p := newline) (R := R)
    (fun s => !headIs isNewlineChar s)
    (by
      intro ctx s
      rw [newline_eq, Option.isNone_map, readNewline_isNone])
  refine ⟨rfl, ?_⟩
  intro ctx s
  rw [hbody.2]
  cases s with
  | nil => rfl
  | cons c t => simp [headIs]

end Ips.Peg
