import Ips.PegReaders

/-!
# Texts cut into segments

A reader can also return how it cuts the text: the segments that it consumed,
each of some kind and with the text behind it.  The segments of a reader tile
what it consumes, so every character of it lies in exactly one of them.
-/

namespace Ips.Peg

variable {α κ : Type}

structure Segment (κ : Type) where
  kind : κ
  text : List Char
  rest : List Char
  deriving DecidableEq

/-- The text from the segment on. -/
def Segment.start (p : Segment κ) : List Char := p.text ++ p.rest

def textOf (ps : List (Segment κ)) : List Char := ps.flatMap Segment.text

/-- The segments lie one behind the other, from the first text up to the
second. -/
inductive Tiles : List Char → List (Segment κ) → List Char → Prop
  | nil (s : List Char) : Tiles s [] s
  | cons (p : Segment κ) {ps : List (Segment κ)} {t : List Char} :
      Tiles p.rest ps t → Tiles p.start (p :: ps) t

section Tilings

variable {s t u : List Char} {ps qs : List (Segment κ)}

theorem Tiles.append (h : Tiles s ps t) (h' : Tiles t qs u) :
    Tiles s (ps ++ qs) u := by
  induction h with
  | nil => exact h'
  | cons p _ ih => exact .cons p (ih h')

theorem Tiles.text_append (h : Tiles s ps t) : s = textOf ps ++ t := by
  induction h with
  | nil => rfl
  | cons p _ ih =>
      unfold Segment.start textOf
      rw [List.flatMap_cons, List.append_assoc]
      congr 1

theorem Tiles.rest_eq {p : Segment κ} (h : Tiles s (ps ++ p :: qs) t) :
    p.rest = textOf qs ++ t := by
  induction ps generalizing s with
  | nil =>
      cases h with
      | cons _ hrest => exact hrest.text_append
  | cons q ps ih =>
      cases h with
      | cons _ hrest => exact ih hrest

theorem Tiles.start_le (h : Tiles s ps t) :
    ∀ p ∈ ps, p.start.length ≤ s.length := by
  induction h with
  | nil => simp
  | cons p _ ih =>
      intro q hq
      rcases List.mem_cons.mp hq with rfl | hq
      · exact le_rfl
      · have hle := ih q hq
        simp only [Segment.start, List.length_append] at hle ⊢
        omega

theorem Tiles.pairwise (h : Tiles s ps t) :
    ps.Pairwise fun p q => q.start.length ≤ p.rest.length := by
  induction h with
  | nil => exact .nil
  | cons p hrest ih => exact .cons hrest.start_le ih

/-- The places of a segment, counted from the end of the text. -/
def Segment.Holds (p : Segment κ) (place : ℕ) : Prop :=
  p.rest.length < place ∧ place ≤ p.start.length

/-- No place lies in two segments. -/
theorem Tiles.eq_of_holds (h : Tiles s ps t) {p q : Segment κ} {place : ℕ}
    (hp : p ∈ ps) (hq : q ∈ ps) (hplace : p.Holds place)
    (hplace' : q.Holds place) : p = q := by
  have hdisjoint : ps.Pairwise fun a b =>
      a.Holds place → b.Holds place → a = b := by
    refine h.pairwise.imp ?_
    intro a b hle ha hb
    have hlt := ha.1
    have hge := hb.2
    omega
  have hflip : ps.Pairwise (flip fun a b =>
      a.Holds place → b.Holds place → a = b) := by
    refine hdisjoint.imp ?_
    intro a b hab hb ha
    exact (hab ha hb).symm
  exact List.Pairwise.forall_of_forall_of_flip (fun a _ _ _ => rfl) hdisjoint
    hflip hp hq hplace hplace'

end Tilings

/-- The segment around a character. -/
theorem exists_segment {ps : List (Segment κ)} {before after : List Char}
    {c : Char} (h : textOf ps = before ++ c :: after) :
    ∃ front p back first last,
      ps = front ++ p :: back ∧ p.text = first ++ c :: last ∧
      before = textOf front ++ first ∧ after = last ++ textOf back := by
  induction ps generalizing before with
  | nil => simp [textOf] at h
  | cons p ps ih =>
      have hsplit : p.text ++ textOf ps = before ++ c :: after := h
      rcases List.append_eq_append_iff.mp hsplit with
        ⟨w, hbefore, hrest⟩ | ⟨w, htext, hrest⟩
      · obtain ⟨front, q, back, first, last, rfl, hq, hw, hafter⟩ := ih hrest
        refine ⟨p :: front, q, back, first, last, rfl, hq, ?_, hafter⟩
        rw [hbefore, hw]
        simp [textOf]
      · cases w with
        | nil =>
            have htail : textOf ps = [] ++ c :: after := by
              simpa using hrest.symm
            obtain ⟨front, q, back, first, last, rfl, hq, hw, hafter⟩ :=
              ih htail
            refine ⟨p :: front, q, back, first, last, rfl, hq, ?_, hafter⟩
            have hempty : textOf front ++ first = [] := hw.symm
            rw [List.append_nil] at htext
            simp only [textOf, List.flatMap_cons, List.append_assoc] at hempty ⊢
            rw [hempty, List.append_nil, htext]
        | cons d w =>
            rw [List.cons_append, List.cons.injEq] at hrest
            obtain ⟨rfl, hafter⟩ := hrest
            exact ⟨[], p, ps, before, w, rfl, htext, rfl, hafter⟩

/-! ## Readers that cut -/

/-- The reader cuts what it consumes into segments with the property. -/
def Cuts (P : Segment κ → Prop) (r : Reader (List (Segment κ))) : Prop :=
  ∀ ⦃s ps t⦄, r s = some (ps, t) → Tiles s ps t ∧ ∀ p ∈ ps, P p

def readSegment (kind : κ) (r : Reader (List Char)) :
    Reader (List (Segment κ)) := fun s =>
  (r s).map fun x => ([⟨kind, x.1, x.2⟩], x.2)

def andThen (r r' : Reader (List α)) : Reader (List α) := fun s =>
  match r s with
  | none => none
  | some (xs, t) => (r' t).map fun x => (xs ++ x.1, x.2)

def readAll (r : Reader (List α)) : Reader (List α) := fun s =>
  some (repeatAll id r s)

/-- The text that a step consumes. -/
def readStep (step : List Char → Option (List Char)) : Reader (List Char) :=
  fun s => (step s).map fun t => (s.take (s.length - t.length), t)

theorem readStep_eq_some {step : List Char → Option (List Char)}
    (hstep : ∀ ⦃s t⦄, step s = some t → t <:+ s) {s w t : List Char}
    (h : readStep step s = some (w, t)) : step s = some t ∧ s = w ++ t := by
  obtain ⟨u, hu, heq⟩ := Option.map_eq_some_iff.mp h
  cases heq
  obtain ⟨w, rfl⟩ := hstep hu
  exact ⟨hu, by simp⟩

theorem readSegment_eq_some {kind : κ} {r : Reader (List Char)}
    {s t : List Char} {ps : List (Segment κ)}
    (h : readSegment kind r s = some (ps, t)) :
    ∃ w, r s = some (w, t) ∧ ps = [⟨kind, w, t⟩] := by
  obtain ⟨⟨w, u⟩, hread, heq⟩ := Option.map_eq_some_iff.mp h
  cases heq
  exact ⟨w, hread, rfl⟩

theorem andThen_eq_some {r r' : Reader (List α)} {s u : List Char}
    {zs : List α} (h : andThen r r' s = some (zs, u)) :
    ∃ xs t ys, r s = some (xs, t) ∧ r' t = some (ys, u) ∧ zs = xs ++ ys := by
  unfold andThen at h
  split at h
  · cases h
  · next xs t hread =>
      obtain ⟨⟨ys, v⟩, hread', heq⟩ := Option.map_eq_some_iff.mp h
      cases heq
      exact ⟨xs, t, ys, hread, hread', rfl⟩

theorem andThen_of_some {r r' : Reader (List α)} {s t : List Char}
    {xs : List α} (h : r s = some (xs, t)) :
    andThen r r' s = (r' t).map fun x => (xs ++ x.1, x.2) := by
  unfold andThen
  rw [h]

section Cutting

variable {P : Segment κ → Prop} {r r' : Reader (List (Segment κ))}

theorem cuts_readSegment {kind : κ} {r : Reader (List Char)}
    (hsplit : ∀ ⦃s w t⦄, r s = some (w, t) → s = w ++ t)
    (h : ∀ ⦃s w t⦄, r s = some (w, t) → P ⟨kind, w, t⟩) :
    Cuts P (readSegment kind r) := by
  intro s ps t hread
  obtain ⟨w, hw, rfl⟩ := readSegment_eq_some hread
  constructor
  · have hs : s = (⟨kind, w, t⟩ : Segment κ).start := hsplit hw
    rw [hs]
    exact .cons _ (.nil t)
  · intro p hp
    cases List.mem_singleton.mp hp
    exact h hw

theorem Cuts.mono {Q : Segment κ → Prop} (h : Cuts P r)
    (himp : ∀ p, P p → Q p) : Cuts Q r := by
  intro s ps t hread
  refine ⟨(h hread).1, ?_⟩
  intro p hp
  exact himp p ((h hread).2 p hp)

theorem Cuts.andThen (h : Cuts P r) (h' : Cuts P r') :
    Cuts P (andThen r r') := by
  intro s zs u hread
  obtain ⟨xs, t, ys, hxs, hys, rfl⟩ := andThen_eq_some hread
  refine ⟨(h hxs).1.append (h' hys).1, ?_⟩
  intro p hp
  rcases List.mem_append.mp hp with hp | hp
  · exact (h hxs).2 p hp
  · exact (h' hys).2 p hp

theorem Cuts.orElse (h : Cuts P r) (h' : Cuts P r') :
    Cuts P (orElse r r') := by
  intro s ps t hread
  rcases orElse_eq_some hread with hread | ⟨-, hread⟩
  · exact h hread
  · exact h' hread

theorem Cuts.readAll (h : Cuts P r) (hr : Consuming r) :
    Cuts P (readAll r) := by
  intro s ps t hread
  have hloop : Tiles s (repeatAll id r s).1 (repeatAll id r s).2 ∧
      ∀ p ∈ (repeatAll id r s).1, P p := by
    apply repeatAll_induction shrinking_id hr (fun s result =>
      Tiles s result.1 result.2 ∧ ∀ p ∈ result.1, P p)
    · intro s _
      exact ⟨.nil s, by simp⟩
    · intro s xs t hround ih
      refine ⟨(h hround).1.append ih.1, ?_⟩
      intro p hp
      rcases List.mem_append.mp hp with hp | hp
      · exact (h hround).2 p hp
      · exact ih.2 p hp
  have heq : repeatAll id r s = (ps, t) := Option.some.inj hread
  rw [heq] at hloop
  exact hloop

theorem Consuming.andThen_right {r r' : Reader (List α)}
    (hr : ∀ ⦃s xs t⦄, r s = some (xs, t) → t.length ≤ s.length)
    (hr' : Consuming r') : Consuming (andThen r r') := by
  intro s zs u hread
  obtain ⟨xs, t, ys, hxs, hys, -⟩ := andThen_eq_some hread
  have hle := hr hxs
  have hlt := hr' hys
  omega

end Cutting

end Ips.Peg
