import Ips.RustPrelude

/-!
# Programs that ask their environment

A program asks one request after the other.  A request fails or gets a reply,
the program goes on with the answer, and in the end it has an outcome.  What
the environment answers is left open: a run is any sequence of requests with
answers to them, so what holds of all runs holds in every environment and for
every interleaving with other programs.
-/

namespace Ips.Interaction

structure Interface where
  Request : Type
  Reply : Request → Type
  Failure : Request → Type

abbrev Interface.Answer (I : Interface) (request : I.Request) :=
  Except (I.Failure request) (I.Reply request)

structure Event (I : Interface) where
  request : I.Request
  answer : I.Answer request

inductive Prog (I : Interface) (ε α : Type) where
  | done (outcome : Outcome ε α)
  | ask (request : I.Request) (next : I.Answer request → Prog I ε α)

namespace Prog

variable {I : Interface} {ε α β : Type}

/-- What comes behind a program runs only when that ends with a value. -/
def bind : Prog I ε α → (α → Prog I ε β) → Prog I ε β
  | .done (.ok value), f => f value
  | .done (.err error), _ => .done (.err error)
  | .done (.panic message), _ => .done (.panic message)
  | .ask request next, f => .ask request fun answer => (next answer).bind f

instance : Monad (Prog I ε) where
  pure := fun value => .done (.ok value)
  bind := Prog.bind

theorem bind_assoc {γ : Type} (p : Prog I ε α) (f : α → Prog I ε β)
    (g : β → Prog I ε γ) :
    (p >>= f >>= g) = (p >>= fun a => f a >>= g) := by
  change (p.bind f).bind g = p.bind fun a => (f a).bind g
  induction p with
  | done outcome => cases outcome <;> rfl
  | ask request next ih => exact congrArg (Prog.ask request) (funext ih)

theorem pure_bind (a : α) (f : α → Prog I ε β) :
    ((pure a : Prog I ε α) >>= f) = f a := rfl

/-- A request whose failure ends the program with an error. -/
def attempt (request : I.Request) (onFailure : I.Failure request → ε) :
    Prog I ε (I.Reply request) :=
  .ask request fun answer =>
    match answer with
    | .ok reply => .done (.ok reply)
    | .error failure => .done (.err (onFailure failure))

def mapOutcome {δ : Type} (g : Outcome ε α → Outcome δ β) :
    Prog I ε α → Prog I δ β
  | .done outcome => .done (g outcome)
  | .ask request next => .ask request fun answer => (next answer).mapOutcome g

def mapErr {δ : Type} (f : ε → δ) (p : Prog I ε α) : Prog I δ α :=
  p.mapOutcome (.mapErr f)

/-- An error of the program is a value of what comes behind it. -/
def kept {δ : Type} (p : Prog I ε α) : Prog I δ (Except ε α) :=
  p.mapOutcome .kept

theorem bind_pure (p : Prog I ε α) : (p >>= pure) = p := by
  change p.bind pure = p
  induction p with
  | done outcome => cases outcome <;> rfl
  | ask request next ih => exact congrArg (Prog.ask request) (funext ih)

theorem bind_mapErr {δ : Type} (g : ε → δ) (p : Prog I ε α)
    (f : α → Prog I ε β) :
    (p >>= f).mapErr g = (p.mapErr g >>= fun a => (f a).mapErr g) := by
  change (p.bind f).mapErr g = (p.mapErr g).bind fun a => (f a).mapErr g
  unfold mapErr
  induction p with
  | done outcome => cases outcome <;> rfl
  | ask request next ih => exact congrArg (Prog.ask request) (funext ih)

/-- A loop over a list. -/
def fold (step : β → α → Prog I ε β) : β → List α → Prog I ε β
  | b, [] => pure b
  | b, a :: rest => step b a >>= fun b' => fold step b' rest

/-! ## Runs -/

inductive Runs : Prog I ε α → List (Event I) → Outcome ε α → Prop
  | done (outcome : Outcome ε α) : Runs (.done outcome) [] outcome
  | ask {request : I.Request} {next : I.Answer request → Prog I ε α}
      {events : List (Event I)} {outcome : Outcome ε α}
      (answer : I.Answer request) (h : Runs (next answer) events outcome) :
      Runs (.ask request next) (⟨request, answer⟩ :: events) outcome

section Rules

variable {p : Prog I ε α} {f : α → Prog I ε β} {events : List (Event I)}

theorem runs_done_iff {outcome outcome' : Outcome ε α} :
    Runs (.done outcome : Prog I ε α) events outcome' ↔
      events = [] ∧ outcome' = outcome := by
  constructor
  · rintro ⟨⟩
    exact ⟨rfl, rfl⟩
  · rintro ⟨rfl, rfl⟩
    exact .done outcome'

theorem runs_pure_iff {a : α} {outcome : Outcome ε α} :
    Runs (pure a : Prog I ε α) events outcome ↔
      events = [] ∧ outcome = .ok a :=
  runs_done_iff

theorem runs_ask_iff {request : I.Request}
    {next : I.Answer request → Prog I ε α} {outcome : Outcome ε α} :
    Runs (.ask request next) events outcome ↔
      ∃ answer rest, events = ⟨request, answer⟩ :: rest ∧
        Runs (next answer) rest outcome := by
  constructor
  · rintro ⟨⟩
    exact ⟨_, _, rfl, by assumption⟩
  · rintro ⟨answer, rest, rfl, h⟩
    exact .ask answer h

/-- A sequence ends with what its first part stops with, or it goes on behind
the value of that part. -/
theorem runs_bind_iff {outcome : Outcome ε β} :
    Runs (p >>= f) events outcome ↔
      (∃ first a rest, Runs p first (.ok a) ∧ Runs (f a) rest outcome ∧
        events = first ++ rest) ∨
      (∃ error, Runs p events (.err error) ∧ outcome = .err error) ∨
      ∃ message, Runs p events (.panic message) ∧
        outcome = .panic message := by
  change Runs (p.bind f) events outcome ↔ _
  induction p generalizing events with
  | done x =>
      cases x with
      | ok a => simp [bind, runs_done_iff]
      | err error => simp [bind, runs_done_iff]
      | panic message => simp [bind, runs_done_iff]
  | ask request next ih =>
      rw [bind, runs_ask_iff]
      constructor
      · rintro ⟨answer, rest, rfl, h⟩
        rcases (ih answer).mp h with ⟨first, a, rest', hp, hf, rfl⟩ |
            ⟨error, hp, ho⟩ | ⟨message, hp, ho⟩
        · exact .inl ⟨_, a, rest', .ask answer hp, hf, rfl⟩
        · exact .inr (.inl ⟨error, .ask answer hp, ho⟩)
        · exact .inr (.inr ⟨message, .ask answer hp, ho⟩)
      · rintro (⟨first, a, rest, hp, hf, rfl⟩ | ⟨error, hp, ho⟩ |
            ⟨message, hp, ho⟩)
        · obtain ⟨answer, first', rfl, hnext⟩ := runs_ask_iff.mp hp
          exact ⟨answer, _, rfl,
            (ih answer).mpr (.inl ⟨first', a, rest, hnext, hf, rfl⟩)⟩
        · obtain ⟨answer, rest, rfl, hnext⟩ := runs_ask_iff.mp hp
          exact ⟨answer, rest, rfl,
            (ih answer).mpr (.inr (.inl ⟨error, hnext, ho⟩))⟩
        · obtain ⟨answer, rest, rfl, hnext⟩ := runs_ask_iff.mp hp
          exact ⟨answer, rest, rfl,
            (ih answer).mpr (.inr (.inr ⟨message, hnext, ho⟩))⟩

theorem runs_bind_ok_iff {b : β} :
    Runs (p >>= f) events (.ok b) ↔
      ∃ first a rest, Runs p first (.ok a) ∧ Runs (f a) rest (.ok b) ∧
        events = first ++ rest := by
  rw [runs_bind_iff]
  simp

theorem runs_attempt_ok_iff {request : I.Request}
    {onFailure : I.Failure request → ε} {reply : I.Reply request} :
    Runs (attempt request onFailure) events (.ok reply) ↔
      events = [⟨request, .ok reply⟩] := by
  rw [attempt, runs_ask_iff]
  constructor
  · rintro ⟨answer, rest, rfl, h⟩
    cases answer with
    | ok reply' =>
        obtain ⟨rfl, heq⟩ := runs_done_iff.mp h
        cases heq
        rfl
    | error failure =>
        obtain ⟨-, heq⟩ := runs_done_iff.mp h
        cases heq
  · rintro rfl
    exact ⟨.ok reply, [], rfl, .done _⟩

/-- A request in front of the rest of a program. -/
theorem runs_attempt_bind_ok_iff {request : I.Request}
    {onFailure : I.Failure request → ε} {g : I.Reply request → Prog I ε β}
    {b : β} :
    Runs (attempt request onFailure >>= g) events (.ok b) ↔
      ∃ reply rest, events = ⟨request, .ok reply⟩ :: rest ∧
        Runs (g reply) rest (.ok b) := by
  rw [runs_bind_ok_iff]
  constructor
  · rintro ⟨first, reply, rest, hfirst, hrest, rfl⟩
    rw [runs_attempt_ok_iff.mp hfirst]
    exact ⟨reply, rest, rfl, hrest⟩
  · rintro ⟨reply, rest, rfl, hrest⟩
    exact ⟨_, reply, rest, runs_attempt_ok_iff.mpr rfl, hrest, rfl⟩

theorem runs_done_bind_ok_iff {x : Outcome ε α} {b : β} :
    Runs (.done x >>= f) events (.ok b) ↔
      ∃ a, x = .ok a ∧ Runs (f a) events (.ok b) := by
  rw [runs_bind_ok_iff]
  constructor
  · rintro ⟨first, a, rest, hfirst, hrest, rfl⟩
    obtain ⟨rfl, heq⟩ := runs_done_iff.mp hfirst
    exact ⟨a, heq.symm, hrest⟩
  · rintro ⟨a, rfl, hrest⟩
    exact ⟨[], a, events, .done _, hrest, rfl⟩

theorem runs_mapOutcome_iff {δ γ : Type} {g : Outcome ε α → Outcome δ γ}
    {outcome : Outcome δ γ} :
    Runs (p.mapOutcome g) events outcome ↔
      ∃ x, Runs p events x ∧ outcome = g x := by
  induction p generalizing events with
  | done x => simp [mapOutcome, runs_done_iff]
  | ask request next ih =>
      rw [mapOutcome, runs_ask_iff]
      constructor
      · rintro ⟨answer, rest, rfl, h⟩
        obtain ⟨x, hx, ho⟩ := (ih answer).mp h
        exact ⟨x, .ask answer hx, ho⟩
      · rintro ⟨x, hx, ho⟩
        obtain ⟨answer, rest, rfl, h⟩ := runs_ask_iff.mp hx
        exact ⟨answer, rest, rfl, (ih answer).mpr ⟨x, h, ho⟩⟩

theorem runs_mapErr_iff {δ : Type} {g : ε → δ} {outcome : Outcome δ α} :
    Runs (p.mapErr g) events outcome ↔
      ∃ x, Runs p events x ∧ outcome = x.mapErr g :=
  runs_mapOutcome_iff

theorem runs_mapErr_ok_iff {δ : Type} {g : ε → δ} {a : α} :
    Runs (p.mapErr g) events (.ok a) ↔ Runs p events (.ok a) := by
  rw [runs_mapErr_iff]
  constructor
  · rintro ⟨x, hx, ho⟩
    rwa [Outcome.mapErr_eq_ok_iff.mp ho.symm] at hx
  · intro h
    exact ⟨.ok a, h, rfl⟩

/-- When the rounds of a loop are described one by one, so is the loop. -/
theorem runs_fold_ok_iff {γ : Type} {step : β → α → Prog I ε β}
    {S : α → γ → Prop} {trace : γ → List (Event I)} {next : β → γ → β}
    (hstep : ∀ b a events b', Runs (step b a) events (.ok b') ↔
      ∃ c, S a c ∧ events = trace c ∧ b' = next b c)
    {as : List α} {b b' : β} :
    Runs (fold step b as) events (.ok b') ↔
      ∃ cs, List.Forall₂ S as cs ∧ events = cs.flatMap trace ∧
        b' = cs.foldl next b := by
  induction as generalizing b events with
  | nil =>
      rw [fold, runs_pure_iff]
      constructor
      · rintro ⟨rfl, heq⟩
        cases heq
        exact ⟨[], .nil, rfl, rfl⟩
      · rintro ⟨cs, hcs, rfl, rfl⟩
        cases hcs
        exact ⟨rfl, rfl⟩
  | cons a as ih =>
      rw [fold, runs_bind_ok_iff]
      constructor
      · rintro ⟨first, c, rest, hfirst, hrest, rfl⟩
        obtain ⟨part, hpart, rfl, rfl⟩ := (hstep _ _ _ _).mp hfirst
        obtain ⟨cs, hcs, rfl, rfl⟩ := ih.mp hrest
        exact ⟨part :: cs, .cons hpart hcs, rfl, rfl⟩
      · rintro ⟨cs, hcs, rfl, rfl⟩
        cases hcs with
        | @cons _ part _ cs hpart hcs =>
            exact ⟨trace part, next b part, cs.flatMap trace,
              (hstep _ _ _ _).mpr ⟨part, hpart, rfl, rfl⟩,
              ih.mpr ⟨cs, hcs, rfl, rfl⟩, rfl⟩

end Rules

/-! ## Requests of a kind -/

/-- All requests, whatever the answers are, are of a kind. -/
def Within (P : I.Request → Prop) : Prog I ε α → Prop
  | .done _ => True
  | .ask request next => P request ∧ ∀ answer, (next answer).Within P

section Kinds

variable {P : I.Request → Prop} {p : Prog I ε α}

/-- What comes behind a program may rely on the value that it ends with. -/
theorem Within.bind {f : α → Prog I ε β} (hp : p.Within P)
    (hf : ∀ a events, Runs p events (.ok a) → (f a).Within P) :
    (p >>= f).Within P := by
  change (p.bind f).Within P
  induction p with
  | done outcome =>
      cases outcome with
      | ok a => exact hf a [] (.done _)
      | err error => trivial
      | panic message => trivial
  | ask request next ih =>
      refine ⟨hp.1, ?_⟩
      intro answer
      apply ih answer (hp.2 answer)
      intro a events hrun
      exact hf a _ (.ask answer hrun)

theorem Within.mapOutcome {δ γ : Type} {g : Outcome ε α → Outcome δ γ}
    (hp : p.Within P) : (p.mapOutcome g).Within P := by
  induction p with
  | done outcome => trivial
  | ask request next ih =>
      exact ⟨hp.1, fun answer => ih answer (hp.2 answer)⟩

theorem Within.mapErr {δ : Type} {g : ε → δ} (hp : p.Within P) :
    (p.mapErr g).Within P :=
  hp.mapOutcome

theorem within_attempt {request : I.Request}
    {onFailure : I.Failure request → ε} (h : P request) :
    (attempt request onFailure).Within P := by
  refine ⟨h, ?_⟩
  intro answer
  cases answer <;> trivial

theorem within_attempt_bind {request : I.Request}
    {onFailure : I.Failure request → ε} {f : I.Reply request → Prog I ε β}
    (h : P request) (hf : ∀ reply, (f reply).Within P) :
    (attempt request onFailure >>= f).Within P :=
  (within_attempt h).bind fun reply _ _ => hf reply

theorem Within.fold {step : β → α → Prog I ε β} {as : List α}
    (hstep : ∀ b, ∀ a ∈ as, (step b a).Within P) (b : β) :
    (fold step b as).Within P := by
  induction as generalizing b with
  | nil => trivial
  | cons a as ih =>
      apply Within.bind (hstep b a List.mem_cons_self)
      rintro b' - -
      exact ih (fun b x hx => hstep b x (List.mem_cons_of_mem a hx)) b'

theorem Within.of_mem (h : p.Within P) {events : List (Event I)}
    {outcome : Outcome ε α} (hrun : Runs p events outcome) :
    ∀ e ∈ events, P e.request := by
  induction hrun with
  | done outcome => simp
  | ask answer _ ih =>
      rw [List.forall_mem_cons]
      exact ⟨h.1, ih (h.2 answer)⟩

/-- A request that the first part of a sequence never makes is made only when
that part has ended with a value, and behind all of its requests. -/
theorem Runs.exists_first {f : α → Prog I ε β} {before after : List (Event I)}
    {e : Event I} {outcome : Outcome ε β}
    (h : Runs (p >>= f) (before ++ e :: after) outcome) (hp : p.Within P)
    (he : ¬P e.request) :
    ∃ first a rest, Runs p first (.ok a) ∧ before = first ++ rest ∧
      Runs (f a) (rest ++ e :: after) outcome := by
  have hmem : e ∈ before ++ e :: after := by simp
  rcases runs_bind_iff.mp h with ⟨first, a, rest, hfirst, hrest, heq⟩ |
      ⟨error, hstop, -⟩ | ⟨message, hstop, -⟩
  · have hnot : e ∉ first := fun hmem => he (hp.of_mem hfirst e hmem)
    rcases List.append_eq_append_iff.mp heq with ⟨more, hmore, hafter⟩ |
        ⟨more, hmore, hafter⟩
    · cases more with
      | nil =>
          rw [List.append_nil] at hmore
          rw [List.nil_append] at hafter
          exact ⟨first, a, [], hfirst, by simp [hmore],
            by rw [List.nil_append, hafter]; exact hrest⟩
      | cons e' more =>
          have he' : e = e' := (List.cons.inj hafter).1
          rw [hmore, he'] at hnot
          simp at hnot
    · exact ⟨first, a, more, hfirst, hmore, hafter ▸ hrest⟩
  · exact absurd (hp.of_mem hstop e hmem) he
  · exact absurd (hp.of_mem hstop e hmem) he

/-- A request that is made first and not again. -/
theorem Runs.eq_first {request : I.Request}
    {next : I.Answer request → Prog I ε α} {before after : List (Event I)}
    {e : Event I} {outcome : Outcome ε α}
    (h : Runs (.ask request next) (before ++ e :: after) outcome)
    (hnext : ∀ answer, (next answer).Within P) (he : ¬P e.request) :
    before = [] ∧ e.request = request := by
  obtain ⟨answer, rest, heq, hrest⟩ := runs_ask_iff.mp h
  cases before with
  | nil =>
      cases heq
      exact ⟨rfl, rfl⟩
  | cons first before =>
      obtain ⟨-, rfl⟩ := List.cons.inj heq
      exact absurd ((hnext answer).of_mem hrest e (by simp)) he

end Kinds

/-! ## Answers that end a program -/

end Prog

/-- An outcome without a value. -/
inductive Stop (ε : Type) where
  | err (error : ε)
  | panic (message : String)

namespace Stop

variable {ε δ α : Type}

def outcome : Stop ε → Outcome ε α
  | .err error => .err error
  | .panic message => .panic message

def mapErr (f : ε → δ) : Stop ε → Stop δ
  | .err error => .err (f error)
  | .panic message => .panic message

theorem outcome_mapErr (f : ε → δ) (stop : Stop ε) :
    (stop.outcome : Outcome ε α).mapErr f = (stop.mapErr f).outcome := by
  cases stop <;> rfl

theorem outcome_injective {stop stop' : Stop ε}
    (h : (stop.outcome : Outcome ε α) = stop'.outcome) : stop = stop' := by
  cases stop <;> cases stop' <;> cases h <;> rfl

theorem outcome_ne_ok (stop : Stop ε) (a : α) : stop.outcome ≠ .ok a := by
  cases stop <;> simp [outcome]

theorem exists_of_ne_ok {x : Outcome ε α} (h : ∀ a, x ≠ .ok a) :
    ∃ stop : Stop ε, x = stop.outcome := by
  cases x with
  | ok a => exact absurd rfl (h a)
  | err error => exact ⟨.err error, rfl⟩
  | panic message => exact ⟨.panic message, rfl⟩

end Stop

namespace Prog

variable {I : Interface} {ε α β : Type}

/-- A program that gets an answer with a stop ends with it at once. -/
def FailFast (blame : Event I → Option (Stop ε)) : Prog I ε α → Prop
  | .done _ => True
  | .ask request next => ∀ answer, (next answer).FailFast blame ∧
      ∀ stop, blame ⟨request, answer⟩ = some stop →
        next answer = .done stop.outcome

/-- A program that ends without a value was stopped by its last answer, or it
stops on its own account. -/
def Explained (blame : Event I → Option (Stop ε)) (Rejects : Stop ε → Prop)
    (p : Prog I ε α) : Prop :=
  ∀ events stop, Runs p events stop.outcome →
    (∃ before e, events = before ++ [e] ∧ blame e = some stop) ∨ Rejects stop

/-- The answers that end the program are those that are blamed for it. -/
structure Accounted (blame : Event I → Option (Stop ε))
    (Rejects : Stop ε → Prop) (p : Prog I ε α) : Prop where
  failFast : p.FailFast blame
  explained : p.Explained blame Rejects

section Failures

variable {blame : Event I → Option (Stop ε)} {Rejects : Stop ε → Prop}
  {p : Prog I ε α}

/-- Nothing is asked behind an answer that is blamed. -/
theorem FailFast.of_mem (h : p.FailFast blame) {before after : List (Event I)}
    {e : Event I} {outcome : Outcome ε α}
    (hrun : Runs p (before ++ e :: after) outcome) {stop : Stop ε}
    (hstop : blame e = some stop) : after = [] ∧ outcome = stop.outcome := by
  induction before generalizing p with
  | nil =>
      cases p with
      | done x =>
          obtain ⟨heq, -⟩ := runs_done_iff.mp hrun
          cases heq
      | ask request next =>
          obtain ⟨answer, rest, heq, hnext⟩ := runs_ask_iff.mp hrun
          cases heq
          rw [(h answer).2 stop hstop] at hnext
          exact runs_done_iff.mp hnext
  | cons e' before ih =>
      cases p with
      | done x =>
          obtain ⟨heq, -⟩ := runs_done_iff.mp hrun
          cases heq
      | ask request next =>
          obtain ⟨answer, rest, heq, hnext⟩ := runs_ask_iff.mp hrun
          cases heq
          exact ih (h answer).1 hnext

theorem accounted_done {outcome : Outcome ε α}
    (h : ∀ stop : Stop ε, outcome = stop.outcome → Rejects stop) :
    (Prog.done outcome : Prog I ε α).Accounted blame Rejects := by
  refine ⟨trivial, ?_⟩
  intro events stop hrun
  exact .inr (h stop (runs_done_iff.mp hrun).2.symm)

theorem accounted_pure (a : α) :
    (pure a : Prog I ε α).Accounted blame Rejects :=
  accounted_done fun stop h => absurd h.symm (stop.outcome_ne_ok a)

theorem accounted_err {error : ε} (h : Rejects (.err error)) :
    (Prog.done (.err error) : Prog I ε α).Accounted blame Rejects := by
  refine accounted_done ?_
  rintro (error' | message) hstop
  · cases hstop
    exact h
  · cases hstop

theorem accounted_panic {message : String} (h : Rejects (.panic message)) :
    (Prog.done (.panic message) : Prog I ε α).Accounted blame Rejects := by
  refine accounted_done ?_
  rintro (error | message') hstop
  · cases hstop
  · cases hstop
    exact h

theorem FailFast.bind {f : α → Prog I ε β} (hp : p.FailFast blame)
    (hf : ∀ a events, Runs p events (.ok a) → (f a).FailFast blame) :
    (p >>= f).FailFast blame := by
  change (p.bind f).FailFast blame
  induction p with
  | done outcome =>
      cases outcome with
      | ok a => exact hf a [] (.done _)
      | err error => trivial
      | panic message => trivial
  | ask request next ih =>
      intro answer
      refine ⟨ih answer (hp answer).1 ?_, ?_⟩
      · intro a events hrun
        exact hf a _ (.ask answer hrun)
      · intro stop hstop
        change (next answer).bind f = _
        rw [(hp answer).2 stop hstop]
        cases stop <;> rfl

theorem Explained.bind {f : α → Prog I ε β}
    (hp : p.Explained blame Rejects)
    (hf : ∀ a events, Runs p events (.ok a) →
      (f a).Explained blame Rejects) :
    (p >>= f).Explained blame Rejects := by
  intro events stop hrun
  rcases runs_bind_iff.mp hrun with ⟨first, a, rest, hfirst, hrest, rfl⟩ |
      ⟨error, hstop, heq⟩ | ⟨message, hstop, heq⟩
  · rcases hf a first hfirst rest stop hrest with
      ⟨before, e, rfl, hblamed⟩ | hrejected
    · exact .inl ⟨first ++ before, e, (List.append_assoc _ _ _).symm, hblamed⟩
    · exact .inr hrejected
  · cases stop with
    | err error' =>
        cases heq
        exact hp events (.err error) hstop
    | panic message => cases heq
  · cases stop with
    | err error => cases heq
    | panic message' =>
        cases heq
        exact hp events (.panic message) hstop

theorem Accounted.bind {f : α → Prog I ε β}
    (hp : p.Accounted blame Rejects)
    (hf : ∀ a events, Runs p events (.ok a) →
      (f a).Accounted blame Rejects) :
    (p >>= f).Accounted blame Rejects :=
  ⟨hp.failFast.bind fun a events h => (hf a events h).failFast,
    hp.explained.bind fun a events h => (hf a events h).explained⟩

theorem Accounted.fold {step : β → α → Prog I ε β} {as : List α}
    (hstep : ∀ b, ∀ a ∈ as, (step b a).Accounted blame Rejects) (b : β) :
    (fold step b as).Accounted blame Rejects := by
  induction as generalizing b with
  | nil => exact accounted_pure b
  | cons a as ih =>
      apply Accounted.bind (hstep b a List.mem_cons_self)
      rintro b' - -
      exact ih (fun b x hx => hstep b x (List.mem_cons_of_mem a hx)) b'

/-- A request whose replies are looked at next: a reply is blamed when the
program ends there, or not and the program goes on. -/
theorem accounted_attempt_bind {request : I.Request}
    {onFailure : I.Failure request → ε} {f : I.Reply request → Prog I ε β}
    (hfail : ∀ failure, blame ⟨request, .error failure⟩ =
      some (.err (onFailure failure)))
    (hreply : ∀ reply,
      (blame ⟨request, .ok reply⟩ = none ∧
        (f reply).Accounted blame Rejects) ∨
      ∃ stop, blame ⟨request, .ok reply⟩ = some stop ∧
        f reply = .done stop.outcome) :
    (attempt request onFailure >>= f).Accounted blame Rejects := by
  constructor
  · intro answer
    cases answer with
    | ok reply =>
        change (f reply).FailFast blame ∧ ∀ stop, _ → f reply = _
        rcases hreply reply with ⟨hnone, hnext⟩ | ⟨stop, hblamed, heq⟩
        · refine ⟨hnext.failFast, ?_⟩
          intro stop hstop
          cases hnone.symm.trans hstop
        · rw [heq]
          refine ⟨trivial, ?_⟩
          intro stop' hstop
          cases hblamed.symm.trans hstop
          rfl
    | error failure =>
        refine ⟨trivial, ?_⟩
        intro stop hstop
        cases (hfail failure).symm.trans hstop
        rfl
  · intro events stop hrun
    obtain ⟨answer, rest, rfl, hnext⟩ := runs_ask_iff.mp hrun
    cases answer with
    | ok reply =>
        have hrest : Runs (f reply) rest stop.outcome := hnext
        rcases hreply reply with ⟨-, haccounted⟩ | ⟨stop', hblamed, heq⟩
        · rcases haccounted.explained rest stop hrest with
            ⟨before, e, rfl, hblamed⟩ | hrejected
          · exact .inl ⟨_ :: before, e, rfl, hblamed⟩
          · exact .inr hrejected
        · rw [heq] at hrest
          obtain ⟨rfl, hsame⟩ := runs_done_iff.mp hrest
          exact .inl ⟨[], _, rfl, Stop.outcome_injective hsame ▸ hblamed⟩
    | error failure =>
        obtain ⟨rfl, hsame⟩ := runs_done_iff.mp hnext
        have hstop : stop = .err (onFailure failure) :=
          Stop.outcome_injective hsame
        exact .inl ⟨[], _, rfl, hstop ▸ hfail failure⟩

theorem accounted_attempt {request : I.Request}
    {onFailure : I.Failure request → ε}
    (hfail : ∀ failure, blame ⟨request, .error failure⟩ =
      some (.err (onFailure failure)))
    (hreply : ∀ reply, blame ⟨request, .ok reply⟩ = none) :
    (attempt request onFailure).Accounted blame Rejects := by
  rw [← bind_pure (attempt request onFailure)]
  exact accounted_attempt_bind hfail fun reply =>
    .inl ⟨hreply reply, accounted_pure reply⟩

theorem FailFast.mapErr {δ : Type} {g : ε → δ} (hp : p.FailFast blame) :
    (p.mapErr g).FailFast fun e => (blame e).map (Stop.mapErr g) := by
  induction p with
  | done outcome => trivial
  | ask request next ih =>
      intro answer
      refine ⟨ih answer (hp answer).1, ?_⟩
      intro stop' hstop'
      obtain ⟨stop, hstop, rfl⟩ := Option.map_eq_some_iff.mp hstop'
      change (next answer).mapErr g = _
      rw [(hp answer).2 stop hstop]
      exact congrArg Prog.done (Stop.outcome_mapErr g stop)

/-- Only the requests that a program makes matter. -/
theorem FailFast.of_within {P : I.Request → Prop}
    {blame' : Event I → Option (Stop ε)} (hp : p.FailFast blame)
    (hwithin : p.Within P)
    (heq : ∀ e, P e.request → blame' e = blame e) :
    p.FailFast blame' := by
  induction p with
  | done outcome => trivial
  | ask request next ih =>
      intro answer
      refine ⟨ih answer (hp answer).1 (hwithin.2 answer), ?_⟩
      intro stop hstop
      rw [heq _ hwithin.1] at hstop
      exact (hp answer).2 stop hstop

theorem Accounted.mapErr {δ : Type} {g : ε → δ} {P : I.Request → Prop}
    {blame' : Event I → Option (Stop δ)} {Rejects' : Stop δ → Prop}
    (hp : p.Accounted blame Rejects) (hwithin : p.Within P)
    (hblame : ∀ e, P e.request → blame' e = (blame e).map (Stop.mapErr g))
    (hrejects : ∀ stop, Rejects stop → Rejects' (stop.mapErr g)) :
    (p.mapErr g).Accounted blame' Rejects' := by
  refine ⟨hp.failFast.mapErr.of_within hwithin.mapErr hblame, ?_⟩
  intro events stop hrun
  obtain ⟨x, hx, heq⟩ := runs_mapErr_iff.mp hrun
  have hne : ∀ a, x ≠ .ok a := by
    rintro a rfl
    exact stop.outcome_ne_ok a heq
  obtain ⟨stop', rfl⟩ := Stop.exists_of_ne_ok hne
  rw [Stop.outcome_mapErr] at heq
  rw [Stop.outcome_injective heq]
  rcases hp.explained events stop' hx with
    ⟨before, e, rfl, hblamed⟩ | hrejected
  · have hwithin' : P e.request := hwithin.of_mem hx e (by simp)
    exact .inl ⟨before, e, rfl, by rw [hblame e hwithin', hblamed]; rfl⟩
  · exact .inr (hrejects stop' hrejected)

end Failures

end Prog

/-! ## Environments -/

/-- An environment with a state answers every request. -/
abbrev Handler (I : Interface) (W : Type) :=
  (request : I.Request) → W → I.Answer request × W

namespace Prog

section Exec

variable {I : Interface} {ε α β W : Type} (handler : Handler I W)

def exec : Prog I ε α → W → Outcome ε α × W
  | .done outcome, w => (outcome, w)
  | .ask request next, w =>
      (next (handler request w).1).exec (handler request w).2

variable {handler}

theorem exec_attempt_of_ok {request : I.Request}
    {reply : I.Reply request} {w w' : W}
    (h : handler request w = (.ok reply, w'))
    (onFailure : I.Failure request → ε) :
    (attempt request onFailure).exec handler w = (.ok reply, w') := by
  unfold attempt exec
  rw [h]
  rfl

theorem exec_attempt_of_error {request : I.Request}
    {failure : I.Failure request} {w w' : W}
    (h : handler request w = (.error failure, w'))
    (onFailure : I.Failure request → ε) :
    (attempt request onFailure).exec handler w =
      ((Stop.err (onFailure failure)).outcome, w') := by
  unfold attempt exec
  rw [h]
  rfl

theorem exec_bind_of_ok {p : Prog I ε α} {w w' : W} {a : α}
    (h : p.exec handler w = (.ok a, w')) (f : α → Prog I ε β) :
    (p >>= f).exec handler w = (f a).exec handler w' := by
  change (p.bind f).exec handler w = _
  induction p generalizing w with
  | done outcome =>
      cases h
      rfl
  | ask request next ih => exact ih _ h

theorem exec_bind_of_stop {p : Prog I ε α} {w w' : W} {stop : Stop ε}
    (h : p.exec handler w = (stop.outcome, w')) (f : α → Prog I ε β) :
    (p >>= f).exec handler w = (stop.outcome, w') := by
  change (p.bind f).exec handler w = _
  induction p generalizing w with
  | done outcome =>
      cases h
      cases stop <;> rfl
  | ask request next ih => exact ih _ h

theorem exec_mapOutcome {δ : Type} (g : Outcome ε α → Outcome δ β)
    (p : Prog I ε α) (w : W) :
    (p.mapOutcome g).exec handler w =
      (g (p.exec handler w).1, (p.exec handler w).2) := by
  induction p generalizing w with
  | done outcome => rfl
  | ask request next ih => exact ih _ _

/-- What leaves the environment as it is has an outcome there, and the outcome
of a sequence is that of its parts. -/
theorem exec_bind_of_const {p : Prog I ε α} {x : Outcome ε α}
    {f : α → Prog I ε β} {g : α → Outcome ε β} {w : W}
    (hp : p.exec handler w = (x, w))
    (hf : ∀ a, (f a).exec handler w = (g a, w)) :
    (p >>= f).exec handler w = (x >>= g, w) := by
  cases x with
  | ok a =>
      rw [exec_bind_of_ok hp, hf]
      rfl
  | err error =>
      have hstop : p.exec handler w = ((Stop.err error).outcome, w) := hp
      exact exec_bind_of_stop hstop f
  | panic message =>
      have hstop : p.exec handler w = ((Stop.panic message).outcome, w) := hp
      exact exec_bind_of_stop hstop f

theorem exec_fold_of_const {step : β → α → Prog I ε β}
    {f : β → α → Outcome ε β} {w : W}
    (h : ∀ b a, (step b a).exec handler w = (f b a, w)) (as : List α)
    (b : β) : (fold step b as).exec handler w = (Outcome.fold f b as, w) := by
  induction as generalizing b with
  | nil => rfl
  | cons a as ih =>
      rw [fold, Outcome.fold_cons]
      exact exec_bind_of_const (h b a) ih

/-- A loop whose rounds do not stop. -/
theorem exec_fold_of_ok {step : β → α → Prog I ε β} {next : β → α → β}
    {change : W → α → W}
    (h : ∀ b a w, (step b a).exec handler w = (.ok (next b a), change w a))
    (as : List α) (b : β) (w : W) :
    (fold step b as).exec handler w =
      (.ok (as.foldl next b), as.foldl change w) := by
  induction as generalizing b w with
  | nil => rfl
  | cons a as ih =>
      rw [fold, exec_bind_of_ok (h b a w), ih]
      rfl

end Exec

end Prog

end Ips.Interaction
