import Mathlib.Data.Finmap
import Mathlib.Data.List.TakeWhile
import Mathlib.Tactic

/-!
# Results, text and maps of the source language

A call returns a value, returns an error, or panics.  Text is a list of
characters, a hash map is a finite map: two maps are equal when they hold the
same entries, and a path is its list of components.
-/

namespace Ips

inductive Outcome (ε α : Type) where
  | ok (value : α)
  | err (error : ε)
  | panic (message : String)
  deriving DecidableEq, Repr

namespace Outcome

variable {ε α β : Type}

def bind (x : Outcome ε α) (f : α → Outcome ε β) : Outcome ε β :=
  match x with
  | .ok value => f value
  | .err error => .err error
  | .panic message => .panic message

instance : Monad (Outcome ε) where
  pure := .ok
  bind := Outcome.bind

@[simp] theorem pure_eq (value : α) :
    (pure value : Outcome ε α) = .ok value := rfl

@[simp] theorem ok_bind (value : α) (f : α → Outcome ε β) :
    (Outcome.ok value >>= f) = f value := rfl

@[simp] theorem err_bind (error : ε) (f : α → Outcome ε β) :
    (Outcome.err error >>= f) = .err error := rfl

@[simp] theorem panic_bind (message : String) (f : α → Outcome ε β) :
    (Outcome.panic message >>= f) = .panic message := rfl

theorem bind_eq_ok_iff {x : Outcome ε α} {f : α → Outcome ε β} {b : β} :
    (x >>= f) = .ok b ↔ ∃ a, x = .ok a ∧ f a = .ok b := by
  cases x <;> simp

theorem bind_ne_err {x : Outcome ε α} {f : α → Outcome ε β} {error : ε}
    (hx : x ≠ .err error) (hf : ∀ a, f a ≠ .err error) :
    (x >>= f) ≠ .err error := by
  cases x with
  | ok value => exact hf value
  | err error' => simpa using hx
  | panic message => simp

theorem bind_ne_panic {x : Outcome ε α} {f : α → Outcome ε β}
    {message : String} (hx : x ≠ .panic message)
    (hf : ∀ a, f a ≠ .panic message) : (x >>= f) ≠ .panic message := by
  cases x with
  | ok value => exact hf value
  | err error => simp
  | panic message' => simpa using hx

theorem bind_assoc {γ : Type} (x : Outcome ε α) (f : α → Outcome ε β)
    (g : β → Outcome ε γ) :
    (x >>= f >>= g) = (x >>= fun a => f a >>= g) := by
  cases x <;> rfl

/-- `Result::map_err`. -/
def mapErr {δ : Type} (f : ε → δ) : Outcome ε α → Outcome δ α
  | .ok value => .ok value
  | .err error => .err (f error)
  | .panic message => .panic message

theorem mapErr_eq_ok_iff {δ : Type} {f : ε → δ} {x : Outcome ε α} {a : α} :
    x.mapErr f = .ok a ↔ x = .ok a := by
  cases x <;> simp [mapErr]

theorem mapErr_ne_panic {δ : Type} {f : ε → δ} {x : Outcome ε α}
    {message : String} (hx : x ≠ .panic message) :
    x.mapErr f ≠ .panic message := by
  cases x with
  | ok value => simp [mapErr]
  | err error => simp [mapErr]
  | panic message' => simpa [mapErr] using hx

/-- `Result::unwrap`. -/
def unwrap {δ : Type} : Except δ α → Outcome ε α
  | .ok value => .ok value
  | .error _ => .panic "called `Result::unwrap()` on an `Err` value"

/-- A `Result` that is a value for what comes next. -/
def kept {δ : Type} : Outcome ε α → Outcome δ (Except ε α)
  | .ok value => .ok (.ok value)
  | .err error => .ok (.error error)
  | .panic message => .panic message

/-- Two runs give two values, which are the same exactly under the condition,
or they stop in the same way. -/
def SameIff (condition : Prop) (x y : Outcome ε α) : Prop :=
  (∃ a b, x = .ok a ∧ y = .ok b ∧ (b = a ↔ condition)) ∨
    ((∀ a, x ≠ .ok a) ∧ y = x)

theorem SameIff.of_eq {condition : Prop} {x y : Outcome ε α} (h : y = x)
    (hcondition : condition) : SameIff condition x y := by
  cases x with
  | ok a => exact .inl ⟨a, a, rfl, h, by simp [hcondition]⟩
  | err e => exact .inr ⟨fun a ha => (by cases ha), h⟩
  | panic message => exact .inr ⟨fun a ha => (by cases ha), h⟩

theorem SameIff.congr {condition condition' : Prop} {x y : Outcome ε α}
    (h : SameIff condition x y) (hiff : condition ↔ condition') :
    SameIff condition' x y := by
  rcases h with ⟨a, b, hx, hy, hsame⟩ | hstop
  · exact .inl ⟨a, b, hx, hy, hsame.trans hiff⟩
  · exact .inr hstop

/-- What goes on in both runs keeps different values apart. -/
theorem SameIff.bind {condition : Prop} {x y : Outcome ε α}
    (h : SameIff condition x y) {f : α → Outcome ε β}
    (hf : ∀ a b, SameIff (b = a) (f a) (f b)) :
    SameIff condition (x >>= f) (y >>= f) := by
  rcases h with ⟨a, b, rfl, rfl, hsame⟩ | ⟨hstop, rfl⟩
  · exact (hf a b).congr hsame
  · refine .inr ⟨?_, rfl⟩
    intro c hc
    obtain ⟨a, ha, -⟩ := bind_eq_ok_iff.mp hc
    exact hstop a ha

theorem SameIff.of_bind {condition : Prop} (x : Outcome ε α)
    {f g : α → Outcome ε β} (h : ∀ a, SameIff condition (f a) (g a)) :
    SameIff condition (x >>= f) (x >>= g) := by
  cases x with
  | ok a => exact h a
  | err e => exact .inr ⟨fun c hc => (by cases hc), rfl⟩
  | panic message => exact .inr ⟨fun c hc => (by cases hc), rfl⟩

theorem SameIff.ok {condition : Prop} {a b : α} (h : b = a ↔ condition) :
    SameIff condition (.ok a : Outcome ε α) (.ok b) :=
  .inl ⟨a, b, rfl, rfl, h⟩

end Outcome

/-- Run a fallible step over a list, from left to right. -/
def Outcome.fold {ε α β : Type} (step : β → α → Outcome ε β) :
    β → List α → Outcome ε β
  | b, [] => .ok b
  | b, a :: rest => step b a >>= fun b' => Outcome.fold step b' rest

section Fold

variable {ε α β : Type} (step : β → α → Outcome ε β)

@[simp] theorem Outcome.fold_nil (b : β) :
    Outcome.fold step b [] = .ok b := rfl

@[simp] theorem Outcome.fold_cons (b : β) (a : α) (rest : List α) :
    Outcome.fold step b (a :: rest) =
      (step b a >>= fun b' => Outcome.fold step b' rest) := rfl

theorem Outcome.fold_append (b : β) (xs ys : List α) :
    Outcome.fold step b (xs ++ ys) =
      (Outcome.fold step b xs >>= fun b' => Outcome.fold step b' ys) := by
  induction xs generalizing b with
  | nil => rfl
  | cons x xs ih =>
      simp only [List.cons_append, Outcome.fold_cons, ih, Outcome.bind_assoc]

/-- A loop none of whose steps stops runs to its end. -/
theorem Outcome.fold_ok {as : List α}
    (h : ∀ b, ∀ a ∈ as, ∃ b', step b a = .ok b') (b : β) :
    ∃ b', Outcome.fold step b as = .ok b' := by
  induction as generalizing b with
  | nil => exact ⟨b, rfl⟩
  | cons a rest ih =>
      obtain ⟨b', hstep⟩ := h b a List.mem_cons_self
      rw [Outcome.fold_cons, hstep, Outcome.ok_bind]
      exact ih (fun b x hx => h b x (List.mem_cons_of_mem a hx)) b'

/-- When a step stops depending on its element only, the loop runs to its end
exactly when no element stops it. -/
theorem Outcome.fold_ok_iff {Q : α → Prop} {as : List α}
    (hstep : ∀ b, ∀ a ∈ as, (∃ b', step b a = .ok b') ↔ Q a) (b : β) :
    (∃ b', Outcome.fold step b as = .ok b') ↔ ∀ a ∈ as, Q a := by
  induction as generalizing b with
  | nil => simp
  | cons a rest ih =>
      have hfirst := hstep b a List.mem_cons_self
      have hrest : ∀ b, (∃ b', Outcome.fold step b rest = .ok b') ↔
          ∀ x ∈ rest, Q x :=
        ih fun b x hx => hstep b x (List.mem_cons_of_mem a hx)
      rw [List.forall_mem_cons, Outcome.fold_cons]
      constructor
      · rintro ⟨b', h⟩
        obtain ⟨c, hc, hmore⟩ := Outcome.bind_eq_ok_iff.mp h
        exact ⟨hfirst.mp ⟨c, hc⟩, (hrest c).mp ⟨b', hmore⟩⟩
      · rintro ⟨ha, hmore⟩
        obtain ⟨c, hc⟩ := hfirst.mpr ha
        rw [hc, Outcome.ok_bind]
        exact (hrest c).mpr hmore

theorem Outcome.fold_ok_or_err {error : ε} {as : List α}
    (hstep : ∀ b, ∀ a ∈ as, (∃ b', step b a = .ok b') ∨
      step b a = .err error) (b : β) :
    (∃ b', Outcome.fold step b as = .ok b') ∨
      Outcome.fold step b as = .err error := by
  induction as generalizing b with
  | nil => exact .inl ⟨b, rfl⟩
  | cons a rest ih =>
      rw [Outcome.fold_cons]
      rcases hstep b a List.mem_cons_self with ⟨c, hc⟩ | herr
      · rw [hc, Outcome.ok_bind]
        exact ih (fun b x hx => hstep b x (List.mem_cons_of_mem a hx)) c
      · rw [herr, Outcome.err_bind]
        exact .inr rfl

theorem Outcome.fold_ne_err {error : ε} {as : List α}
    (hstep : ∀ b, ∀ a ∈ as, step b a ≠ .err error) (b : β) :
    Outcome.fold step b as ≠ .err error := by
  induction as generalizing b with
  | nil => simp
  | cons a rest ih =>
      rw [Outcome.fold_cons]
      apply Outcome.bind_ne_err (hstep b a List.mem_cons_self)
      exact ih fun b x hx => hstep b x (List.mem_cons_of_mem a hx)

theorem Outcome.fold_ne_panic {message : String} {as : List α}
    (hstep : ∀ b, ∀ a ∈ as, step b a ≠ .panic message) (b : β) :
    Outcome.fold step b as ≠ .panic message := by
  induction as generalizing b with
  | nil => simp
  | cons a rest ih =>
      rw [Outcome.fold_cons]
      apply Outcome.bind_ne_panic (hstep b a List.mem_cons_self)
      exact ih fun b x hx => hstep b x (List.mem_cons_of_mem a hx)

/-- A loop whose steps either run or panic with one of the messages. -/
theorem Outcome.fold_ok_or_panic {M : String → Prop} {as : List α}
    (hstep : ∀ b, ∀ a ∈ as, (∃ b', step b a = .ok b') ∨
      ∃ message, M message ∧ step b a = .panic message) (b : β) :
    (∃ b', Outcome.fold step b as = .ok b') ∨
      ∃ message, M message ∧ Outcome.fold step b as = .panic message := by
  induction as generalizing b with
  | nil => exact .inl ⟨b, rfl⟩
  | cons a rest ih =>
      rw [Outcome.fold_cons]
      rcases hstep b a List.mem_cons_self with ⟨c, hc⟩ | ⟨message, hM, hpanic⟩
      · rw [hc, Outcome.ok_bind]
        exact ih (fun b x hx => hstep b x (List.mem_cons_of_mem a hx)) c
      · rw [hpanic, Outcome.panic_bind]
        exact .inr ⟨message, hM, rfl⟩

/-- Every element of a loop that runs to its end has been carried out. -/
theorem Outcome.exists_step_of_fold_ok {as : List α} {b b' : β}
    (h : Outcome.fold step b as = .ok b') {a : α} (ha : a ∈ as) :
    ∃ c c', step c a = .ok c' := by
  induction as generalizing b with
  | nil => cases ha
  | cons x rest ih =>
      rw [Outcome.fold_cons] at h
      obtain ⟨c, hc, hrest⟩ := Outcome.bind_eq_ok_iff.mp h
      rcases List.mem_cons.mp ha with rfl | ha
      · exact ⟨b, c, hc⟩
      · exact ih hrest ha

/-- What every step of a loop that runs to its end keeps, the loop keeps. -/
theorem Outcome.fold_invariant {P : β → Prop} {as : List α}
    (hstep : ∀ b, ∀ a ∈ as, ∀ b', P b → step b a = .ok b' → P b')
    {b b' : β} (hb : P b) (h : Outcome.fold step b as = .ok b') : P b' := by
  induction as generalizing b with
  | nil =>
      cases h
      exact hb
  | cons a rest ih =>
      rw [Outcome.fold_cons] at h
      rcases Outcome.bind_eq_ok_iff.mp h with ⟨c, hc, hrest⟩
      have hPc := hstep b a List.mem_cons_self c hb hc
      exact ih (fun b x hx => hstep b x (List.mem_cons_of_mem a hx)) hPc hrest

theorem Outcome.fold_mono {step' : β → α → Outcome ε β} {as : List α}
    {b b' : β} (hstep : ∀ b a b', step b a = .ok b' → step' b a = .ok b')
    (h : Outcome.fold step b as = .ok b') :
    Outcome.fold step' b as = .ok b' := by
  induction as generalizing b with
  | nil => exact h
  | cons a rest ih =>
      rw [Outcome.fold_cons] at h ⊢
      obtain ⟨c, hc, hrest⟩ := Outcome.bind_eq_ok_iff.mp h
      exact Outcome.bind_eq_ok_iff.mpr ⟨c, hstep b a c hc, ih hrest⟩

theorem Outcome.fold_pure (step : β → α → β) (b : β) (as : List α) :
    Outcome.fold (fun b a => (.ok (step b a) : Outcome ε β)) b as =
      .ok (as.foldl step b) := by
  induction as generalizing b with
  | nil => rfl
  | cons a rest ih => exact ih (step b a)

end Fold

abbrev Text := List Char

theorem exists_of_forall₂ {α β : Type} {R : α → β → Prop} {xs : List α}
    {ys : List β} (h : List.Forall₂ R xs ys) : ∀ x ∈ xs, ∃ y ∈ ys, R x y := by
  induction h with
  | nil => simp
  | cons hfirst _ ih =>
      intro x hx
      rcases List.mem_cons.mp hx with rfl | hx
      · exact ⟨_, List.mem_cons_self, hfirst⟩
      · obtain ⟨y, hy, hrel⟩ := ih x hx
        exact ⟨y, List.mem_cons_of_mem _ hy, hrel⟩

theorem exists_forall₂ {α β : Type} {R : α → β → Prop} {xs : List α}
    (h : ∀ x ∈ xs, ∃ y, R x y) : ∃ ys, List.Forall₂ R xs ys := by
  induction xs with
  | nil => exact ⟨[], .nil⟩
  | cons x xs ih =>
      obtain ⟨y, hy⟩ := h x List.mem_cons_self
      obtain ⟨ys, hys⟩ := ih fun z hz => h z (List.mem_cons_of_mem x hz)
      exact ⟨y :: ys, .cons hy hys⟩

/-- A check of every element of a list, by evaluation. -/
theorem forall_mem_of_all {α : Type} {P : α → Prop} [DecidablePred P]
    {as : List α} (h : as.all (fun a => decide (P a)) = true) :
    ∀ a ∈ as, P a := by
  simpa using h

/-- A character after text without it lies behind that text. -/
theorem append_eq_append_cons {c : Char} {s t before after : Text}
    (hs : c ∉ s) (h : s ++ t = before ++ c :: after) :
    ∃ rest, before = s ++ rest ∧ t = rest ++ c :: after := by
  rcases List.append_eq_append_iff.mp h with ⟨u, hu, ht⟩ | ⟨u, rfl, hu⟩
  · exact ⟨u, hu, ht⟩
  · cases u with
    | nil => exact ⟨[], by simp, hu.symm⟩
    | cons d u =>
        have hd : c = d := (List.cons.inj hu).1
        exact absurd (List.mem_append_right before List.mem_cons_self)
          (hd ▸ hs)

/-- The text in front of the first occurrence of a character. -/
theorem eq_of_append_cons_eq {c : Char} {s s' t t' : Text} (hs : c ∉ s)
    (hs' : c ∉ s') (h : s ++ c :: t = s' ++ c :: t') : s = s' := by
  obtain ⟨rest, heq, -⟩ := append_eq_append_cons hs h
  obtain ⟨rest', heq', -⟩ := append_eq_append_cons hs' h.symm
  have hlength := congrArg List.length heq
  have hlength' := congrArg List.length heq'
  rw [List.length_append] at hlength hlength'
  have hnil : rest = [] := List.eq_nil_of_length_eq_zero (by omega)
  rw [heq, hnil, List.append_nil]

/-- A match on the texts of an enumeration. -/
def ofText? {K : Type} (all : List K) (text : K → Text) (s : Text) :
    Option K :=
  all.find? fun k => text k = s

theorem ofText?_eq_some_iff {K : Type} {all : List K} {text : K → Text}
    (hall : ∀ k, k ∈ all) (hinj : Function.Injective text)
    {s : Text} {k : K} : ofText? all text s = some k ↔ text k = s := by
  unfold ofText?
  constructor
  · intro h
    simpa using List.find?_some h
  · intro h
    cases hfind : all.find? fun k => text k = s with
    | none =>
        have hnot := List.find?_eq_none.mp hfind k (hall k)
        simp [h] at hnot
    | some k' =>
        have hk' : text k' = s := by
          simpa using List.find?_some hfind
        rw [hinj (hk'.trans h.symm)]

abbrev HashMap (V : Type) := Finmap (fun _ : Text => V)

/-- Two paths are equal when their components are. -/
structure Path where
  absolute : Bool := false
  components : List Text := []
  deriving DecidableEq, Repr

def Path.root : Path := { absolute := true }

/-- `Path::parent`: there is none for the root and for the empty path. -/
def Path.parent (p : Path) : Option Path :=
  if p.components = [] then none
  else some { p with components := p.components.dropLast }

theorem forall_bne_of_not_mem {c : Char} {s : Text} (h : c ∉ s) :
    ∀ d ∈ s, (d != c) = true := by
  intro d hd
  simpa using ne_of_mem_of_not_mem hd h

theorem takeWhile_bne_eq_self_iff {c : Char} {s : Text} :
    s.takeWhile (· != c) = s ↔ c ∉ s := by
  rw [List.takeWhile_eq_self_iff]
  constructor
  · intro h hmem
    simpa using h c hmem
  · exact forall_bne_of_not_mem

/-- `str::split` at a character. -/
def splitAt (separator : Char) (s : Text) : List Text := s.splitOn separator

theorem splitAt_of_not_mem {separator : Char} {s : Text} (h : separator ∉ s) :
    splitAt separator s = [s] := List.splitOn_eq_singleton h

theorem splitAt_append_cons {separator : Char} {s : Text} (h : separator ∉ s)
    (t : Text) :
    splitAt separator (s ++ separator :: t) = s :: splitAt separator t :=
  List.splitOn_append_cons_self_of_not_mem h t

theorem mem_of_mem_splitAt {separator c : Char} {s piece : Text}
    (hpiece : piece ∈ splitAt separator s) (hc : c ∈ piece) :
    c ∈ s ∧ c ≠ separator := by
  unfold splitAt at hpiece
  induction s generalizing piece with
  | nil =>
      rw [List.splitOn_nil, List.mem_singleton] at hpiece
      rw [hpiece] at hc
      cases hc
  | cons d s ih =>
      rw [List.splitOn_cons_eq_if_modifyHead] at hpiece
      split_ifs at hpiece with hd
      · rcases List.mem_cons.mp hpiece with rfl | hpiece
        · cases hc
        · obtain ⟨hmem, hne⟩ := ih hpiece hc
          exact ⟨List.mem_cons_of_mem d hmem, hne⟩
      · cases hsplit : s.splitOn separator with
        | nil => exact absurd hsplit (List.splitOn_ne_nil _ _)
        | cons first rest =>
            rw [hsplit] at ih hpiece
            rw [List.modifyHead_cons] at hpiece
            rcases List.mem_cons.mp hpiece with rfl | hpiece
            · rcases List.mem_cons.mp hc with rfl | hc
              · exact ⟨List.mem_cons_self, by simpa using hd⟩
              · obtain ⟨hmem, hne⟩ := ih List.mem_cons_self hc
                exact ⟨List.mem_cons_of_mem d hmem, hne⟩
            · obtain ⟨hmem, hne⟩ :=
                ih (List.mem_cons_of_mem first hpiece) hc
              exact ⟨List.mem_cons_of_mem d hmem, hne⟩

theorem exists_splitAt_eq_cons (separator : Char) (s : Text) :
    ∃ rest, splitAt separator s =
      s.takeWhile (· != separator) :: rest := by
  unfold splitAt
  induction s with
  | nil => exact ⟨[], List.splitOn_nil _⟩
  | cons c s ih =>
      obtain ⟨rest, hrest⟩ := ih
      rw [List.splitOn_cons_eq_if_modifyHead, hrest, List.takeWhile_cons]
      by_cases hc : c = separator
      · simp [hc]
      · simp [hc]

/-- `str::replace` of single characters by nothing. -/
def removeChars (chars : List Char) (s : Text) : Text :=
  s.filter fun c => !chars.contains c

theorem mem_removeChars {chars : List Char} {s : Text} {c : Char} :
    c ∈ removeChars chars s ↔ c ∈ s ∧ c ∉ chars := by
  simp [removeChars]

theorem removeChars_append (chars : List Char) (s t : Text) :
    removeChars chars (s ++ t) = removeChars chars s ++ removeChars chars t := by
  simp [removeChars]

theorem removeChars_eq_self {chars : List Char} {s : Text}
    (hs : ∀ c ∈ chars, c ∉ s) : removeChars chars s = s := by
  unfold removeChars
  apply List.filter_eq_self.mpr
  intro c hc
  have hnot : c ∉ chars := fun hmem => hs c hmem hc
  simpa using hnot

/-- `char::is_whitespace`, the Unicode `White_Space` property. -/
def isWhitespace (c : Char) : Bool :=
  let n := c.toNat
  (9 ≤ n && n ≤ 13) || n == 0x20 || n == 0x85 || n == 0xA0 || n == 0x1680 ||
    (0x2000 ≤ n && n ≤ 0x200A) || n == 0x2028 || n == 0x2029 ||
    n == 0x202F || n == 0x205F || n == 0x3000

/-- `str::trim_end`. -/
def trimEnd (s : Text) : Text := (s.reverse.dropWhile isWhitespace).reverse

/-- `str::trim`. -/
def trim (s : Text) : Text := trimEnd (s.dropWhile isWhitespace)

theorem isWhitespace_of_printable {c : Char} (hlow : 33 ≤ c.toNat)
    (hhigh : c.toNat ≤ 126) : isWhitespace c = false := by
  simp only [isWhitespace, Bool.or_eq_false_iff, Bool.and_eq_false_iff,
    decide_eq_false_iff_not, beq_eq_false_iff_ne]
  omega

theorem trimEnd_eq_self {line : Text}
    (h : ∀ c, line.getLast? = some c → isWhitespace c = false) :
    trimEnd line = line := by
  unfold trimEnd
  cases hreverse : line.reverse with
  | nil =>
      rw [List.reverse_eq_nil_iff.mp hreverse]
      rfl
  | cons c t =>
      have hlast : line.getLast? = some c := by
        rw [List.getLast?_eq_head?_reverse, hreverse]
        rfl
      rw [List.dropWhile_cons, h c hlast]
      simp [← hreverse]

theorem trimEnd_append (s t : Text) :
    trimEnd (s ++ t) = if trimEnd t = [] then trimEnd s else s ++ trimEnd t := by
  unfold trimEnd
  rw [List.reverse_append, List.dropWhile_append]
  by_cases hnil : t.reverse.dropWhile isWhitespace = []
  · simp [hnil]
  · simp [hnil]

theorem trimEnd_eq_nil {s : Text} (h : ∀ c ∈ s, isWhitespace c = true) :
    trimEnd s = [] := by
  unfold trimEnd
  rw [List.reverse_eq_nil_iff, List.dropWhile_eq_nil_iff]
  intro c hc
  exact h c (List.mem_reverse.mp hc)

theorem trimEnd_append_blanks (s : Text) {t : Text}
    (h : ∀ c ∈ t, isWhitespace c = true) : trimEnd (s ++ t) = trimEnd s := by
  rw [trimEnd_append, if_pos (trimEnd_eq_nil h)]

theorem trimEnd_append_of_last {s : Text} (t : Text)
    (h : ∀ c, s.getLast? = some c → isWhitespace c = false) :
    trimEnd (s ++ t) = s ++ trimEnd t := by
  rw [trimEnd_append, trimEnd_eq_self h]
  split_ifs with hnil
  · rw [hnil, List.append_nil]
  · rfl

theorem intercalate_cons {α : Type} (x : α) (line : List α)
    (lines : List (List α)) :
    [x].intercalate (line :: lines) =
      line ++ lines.flatMap fun line => x :: line := by
  induction lines generalizing line with
  | nil => simp
  | cons next lines ih =>
      rw [List.intercalate_cons_cons, ih next]
      simp

end Ips
