import Ips.Peg

/-!
# The nodes of a parse

Which nodes occur in a parse, and which nodes a parser can produce at all.  The
second question is answered rule by rule, from the shape of the expression
alone.
-/

namespace Ips.Peg

variable {R : Type}

/-! ## Occurrences -/

/-- The node is one of the pairs or lies inside of one of them. -/
inductive Occurs (node : Pair R) : List (Pair R) → Prop
  | here {pairs : List (Pair R)} (hmem : node ∈ pairs) : Occurs node pairs
  | inside {pair : Pair R} {pairs : List (Pair R)} (hmem : pair ∈ pairs)
      (hinner : Occurs node pair.intoInner) : Occurs node pairs

@[simp] theorem occurs_nil (node : Pair R) : ¬ Occurs node [] := by
  intro h
  cases h with
  | here hmem => cases hmem
  | inside hmem _ => cases hmem

@[simp] theorem occurs_append {node : Pair R} {xs ys : List (Pair R)} :
    Occurs node (xs ++ ys) ↔ Occurs node xs ∨ Occurs node ys := by
  constructor
  · intro h
    cases h with
    | here hmem =>
        rcases List.mem_append.mp hmem with hmem | hmem
        · exact .inl (.here hmem)
        · exact .inr (.here hmem)
    | inside hmem hinner =>
        rcases List.mem_append.mp hmem with hmem | hmem
        · exact .inl (.inside hmem hinner)
        · exact .inr (.inside hmem hinner)
  · rintro (h | h)
    · cases h with
      | here hmem => exact .here (List.mem_append_left ys hmem)
      | inside hmem hinner => exact .inside (List.mem_append_left ys hmem) hinner
    · cases h with
      | here hmem => exact .here (List.mem_append_right xs hmem)
      | inside hmem hinner =>
          exact .inside (List.mem_append_right xs hmem) hinner

theorem occurs_singleton {node pair : Pair R} :
    Occurs node [pair] ↔ node = pair ∨ Occurs node pair.intoInner := by
  constructor
  · intro h
    cases h with
    | here hmem => exact .inl (List.mem_singleton.mp hmem)
    | inside hmem hinner =>
        cases List.mem_singleton.mp hmem
        exact .inr hinner
  · rintro (rfl | h)
    · exact .here List.mem_cons_self
    · exact .inside List.mem_cons_self h

theorem occurs_cons {node pair : Pair R} {pairs : List (Pair R)} :
    Occurs node (pair :: pairs) ↔
      (node = pair ∨ Occurs node pair.intoInner) ∨ Occurs node pairs := by
  rw [← List.singleton_append, occurs_append, occurs_singleton]

/-! ## What a parser yields -/

/-- Outside of atomic rules, the parser produces only nodes of this kind. -/
def Yields (P : Pair R → Prop) (p : Parser R) : Prop :=
  ∀ ⦃ctx s pairs t⦄, ctx.atomicity = .nonAtomic → p ctx s = some (pairs, t) →
    ∀ pair ∈ pairs, P pair

section Yields

variable {P Q : Pair R → Prop}

theorem yields_str (w : String) : Yields P (str w) := by
  intro ctx s pairs t _ hread
  unfold str at hread
  split_ifs at hread
  cases hread
  simp

theorem yields_soi : Yields P soi := by
  intro ctx s pairs t _ hread
  unfold soi at hread
  split_ifs at hread
  cases hread
  simp

theorem yields_seq {ps : List (Parser R)} (h : ∀ p ∈ ps, Yields P p) :
    Yields P (seq ps) := by
  induction ps with
  | nil =>
      intro ctx s pairs t _ hread
      cases hread
      simp
  | cons p ps ih =>
      cases ps with
      | nil => exact h p List.mem_cons_self
      | cons q ps =>
          intro ctx s pairs t hctx hread pair hpair
          unfold seq at hread
          split at hread
          · cases hread
          · next ys u hp =>
              split at hread
              · cases hread
              · next zs v hps =>
                  cases hread
                  rcases List.mem_append.mp hpair with hpair | hpair
                  · exact h p List.mem_cons_self hctx hp pair hpair
                  · exact ih (fun q hq => h q (List.mem_cons_of_mem p hq))
                      hctx hps pair hpair

theorem yields_choice {ps : List (Parser R)} (h : ∀ p ∈ ps, Yields P p) :
    Yields P (choice ps) := by
  intro ctx s pairs t hctx hread
  obtain ⟨p, hp, hread⟩ := choice_eq_some hread
  exact h p hp hctx hread

theorem Yields.repeatFuel {p : Parser R} (h : Yields P p) {ctx : Context}
    (hctx : ctx.atomicity = .nonAtomic) (n : ℕ) (s : List Char) :
    ∀ pair ∈ (repeatFuel ctx.gap (p ctx) n s).1, P pair := by
  induction n generalizing s with
  | zero => simp [Peg.repeatFuel]
  | succ n ih =>
      unfold Peg.repeatFuel
      split
      · simp
      · next xs t hread =>
          intro pair hpair
          rcases List.mem_append.mp hpair with hpair | hpair
          · exact h hctx hread pair hpair
          · exact ih t pair hpair

theorem Yields.rep {p : Parser R} (h : Yields P p) : Yields P (rep p) := by
  intro ctx s pairs t hctx hread pair hpair
  unfold Peg.rep star at hread
  split at hread
  · cases hread
    cases hpair
  · next xs u hfirst =>
      cases hread
      rcases List.mem_append.mp hpair with hpair | hpair
      · exact h hctx hfirst pair hpair
      · exact h.repeatFuel hctx _ u pair hpair

theorem Yields.repOnce {p : Parser R} (h : Yields P p) :
    Yields P (repOnce p) := by
  apply yields_seq
  intro q hq
  simp only [List.mem_cons, List.not_mem_nil, or_false] at hq
  rcases hq with rfl | rfl
  · exact h
  · exact h.rep

/-- A named rule yields one node, around the nodes of its body. -/
theorem Yields.rule {r : R} {p : Parser R} (h : Yields Q p)
    (hnode : ∀ node : Pair R, node.asRule = r →
      (∀ inner ∈ node.intoInner, Q inner) → P node) :
    Yields P (rule r p) := by
  intro ctx s pairs t hctx hread pair hpair
  unfold Peg.rule at hread
  split at hread
  · cases hread
  · next inner u hbody =>
      rw [hctx] at hread
      cases hread
      cases List.mem_singleton.mp hpair
      exact hnode _ rfl (h hctx hbody)

theorem yields_any (p : Parser R) : Yields (fun _ => True) p :=
  fun _ _ _ _ _ _ _ _ => trivial

/-- For a rule whose inner nodes do not matter. -/
theorem yields_rule {r : R} (p : Parser R)
    (hnode : ∀ node : Pair R, node.asRule = r → P node) :
    Yields P (rule r p) :=
  (yields_any p).rule fun node hrule _ => hnode node hrule

end Yields

end Ips.Peg
