import Ips.Macros
import Ips.PegNodes

/-!
# When the expansion of macros fails

The lines of a script are parsed and expanded one after the other, and the
elements of a line from left to right.  Each of them contributes the events
that stop the walk over the pairs, and `MacroParser::parse` ends as the first
event says.
-/

namespace Ips.Macros

open Peg

/-! ## Events -/

/-- What can go wrong on a line. -/
inductive Event where
  | rejected
  | undefined (macroName : Text)
  | function
  | optional
  deriving DecidableEq, Repr

def referenceEvents (macros : HashMap Text) (node : Pair Rule) : List Event :=
  if node.asRule = .macroName ∧ macros.lookup node.asStr = none then
    [.undefined node.asStr]
  else []

/-- The events of what stands between the text of a line.  Nothing in a
function is looked at. -/
def macroEvents (macros : HashMap Text) (node : Pair Rule) : List Event :=
  match node.asRule with
  | .function => [.function]
  | .specOptionalMacro => [.optional]
  | .specMacro => node.intoInner.flatMap (referenceEvents macros)
  | _ => []

def elementEvents (macros : HashMap Text) (node : Pair Rule) : List Event :=
  if node.asRule = .textWithMacros then
    node.intoInner.flatMap (macroEvents macros)
  else []

def lineEvents (macros : HashMap Text) (line : Text) : List Event :=
  match Peg.parse skip Grammar.file line with
  | none => [.rejected]
  | some pairs =>
      pairs.flatMap fun file => file.intoInner.flatMap (elementEvents macros)

def events (macros : HashMap Text) (rawString : Text) : List Event :=
  (lines rawString).flatMap (lineEvents macros)

/-! ## The nodes of a line -/

def IsReferenceNode (node : Pair Rule) : Prop :=
  node.asRule = .macroName ∨ node.asRule = .macroParameter

def IsMacroNode (node : Pair Rule) : Prop :=
  node.asRule = .function ∨ node.asRule = .specOptionalMacro ∨
    (node.asRule = .specMacro ∧ ∀ inner ∈ node.intoInner, IsReferenceNode inner)

def IsElementNode (node : Pair Rule) : Prop :=
  node.asRule = .text ∨ node.asRule = .EOI ∨
    (node.asRule = .textWithMacros ∧ ∀ inner ∈ node.intoInner, IsMacroNode inner)

theorem yields_macroName : Yields IsReferenceNode Grammar.macroName :=
  yields_rule _ fun _ hrule => .inl hrule

theorem yields_macroParameters :
    Yields IsReferenceNode Grammar.macroParameters := by
  apply Yields.rep
  apply yields_choice
  intro p hp
  simp only [List.mem_cons, List.not_mem_nil, or_false] at hp
  rcases hp with rfl | rfl
  · exact yields_str _
  · exact yields_rule _ fun _ hrule => .inr hrule

theorem yields_reference {ps : List (Parser Rule)}
    (h : ∀ p ∈ ps, (∃ w, p = str w) ∨ p = Grammar.macroName ∨
      p = Grammar.macroParameters) : Yields IsReferenceNode (seq ps) := by
  apply yields_seq
  intro p hp
  rcases h p hp with ⟨w, rfl⟩ | rfl | rfl
  · exact yields_str w
  · exact yields_macroName
  · exact yields_macroParameters

theorem yields_specMacro : Yields IsMacroNode Grammar.specMacro := by
  have hbody : Yields IsReferenceNode (choice
      [Grammar.specMacroWithParameters, Grammar.specMacroWithoutParameters]) := by
    apply yields_choice
    intro p hp
    simp only [List.mem_cons, List.not_mem_nil, or_false] at hp
    rcases hp with rfl | rfl
    · apply yields_choice
      intro p hp
      simp only [List.mem_cons, List.not_mem_nil, or_false] at hp
      rcases hp with rfl | rfl
      · exact yields_reference (by simp)
      · exact yields_reference (by simp)
    · apply yields_choice
      intro p hp
      simp only [List.mem_cons, List.not_mem_nil, or_false] at hp
      rcases hp with rfl | rfl
      · exact yields_reference (by simp)
      · exact yields_reference (by simp)
  exact hbody.rule fun _ hrule hinner => .inr (.inr ⟨hrule, hinner⟩)

theorem yields_textWithMacros :
    Yields IsElementNode Grammar.textWithMacros := by
  have hbody : Yields IsMacroNode (choice
      [Grammar.function, Grammar.specMacro, Grammar.specOptionalMacro]) := by
    apply yields_choice
    intro p hp
    simp only [List.mem_cons, List.not_mem_nil, or_false] at hp
    rcases hp with rfl | rfl | rfl
    · exact yields_rule _ fun _ hrule => .inl hrule
    · exact yields_specMacro
    · exact yields_rule _ fun _ hrule => .inr (.inl hrule)
  exact hbody.rule fun _ hrule hinner => .inr (.inr ⟨hrule, hinner⟩)

/-- The nodes of an accepted line are text, macros and the end of the line. -/
theorem yields_file : Yields (fun node : Pair Rule =>
    ∀ inner ∈ node.intoInner, IsElementNode inner) Grammar.file := by
  have htext : Yields IsElementNode Grammar.text :=
    yields_rule _ fun _ hrule => .inl hrule
  have hbody : Yields IsElementNode (seq [soi, rep Grammar.text,
      repOnce (choice [Grammar.text, Grammar.textWithMacros]),
      rep Grammar.text, Grammar.eoi]) := by
    apply yields_seq
    intro p hp
    simp only [List.mem_cons, List.not_mem_nil, or_false] at hp
    rcases hp with rfl | rfl | rfl | rfl | rfl
    · exact yields_soi
    · exact htext.rep
    · apply Yields.repOnce
      apply yields_choice
      intro p hp
      simp only [List.mem_cons, List.not_mem_nil, or_false] at hp
      rcases hp with rfl | rfl
      · exact htext
      · exact yields_textWithMacros
    · exact htext.rep
    · exact yields_rule _ fun _ hrule => .inr (.inl hrule)
  exact hbody.rule fun _ _ hinner => hinner

/-! ## The walk stops at the first event -/

def Event.outcome {α : Type} : Event → Outcome MacroParserError α
  | .rejected => .err .parserError
  | .undefined macroName => .err (.doesNotExist macroName)
  | .function => .panic (unexpected "inner match" .function)
  | .optional => .panic (unexpected "inner match" .specOptionalMacro)

/-- The result is that of the first event, or there is a value. -/
def Follows {α : Type} (result : Outcome MacroParserError α) :
    List Event → Prop
  | [] => ∃ value, result = .ok value
  | event :: _ => result = event.outcome

section Follows

variable {α β : Type} {found more : List Event}

theorem Follows.bind {result : Outcome MacroParserError α}
    {f : α → Outcome MacroParserError β} (h : Follows result found)
    (hf : ∀ value, Follows (f value) more) :
    Follows (result >>= f) (found ++ more) := by
  cases found with
  | nil =>
      obtain ⟨value, rfl⟩ := h
      exact hf value
  | cons event rest =>
      have heq : result = event.outcome := h
      subst heq
      cases event <;> rfl

theorem Follows.bind_ok {result : Outcome MacroParserError α}
    (h : Follows result found) (f : α → β) :
    Follows (result >>= fun value => .ok (f value)) found := by
  have hbind : Follows (result >>= fun value => .ok (f value)) (found ++ []) :=
    h.bind fun value => ⟨f value, rfl⟩
  rwa [List.append_nil] at hbind

theorem follows_fold {step : β → α → Outcome MacroParserError β}
    {eventsOf : α → List Event} {as : List α}
    (h : ∀ b, ∀ a ∈ as, Follows (step b a) (eventsOf a)) (b : β) :
    Follows (Outcome.fold step b as) (as.flatMap eventsOf) := by
  induction as generalizing b with
  | nil => exact ⟨b, rfl⟩
  | cons a rest ih =>
      rw [Outcome.fold_cons, List.flatMap_cons]
      apply (h b a List.mem_cons_self).bind
      exact ih fun b x hx => h b x (List.mem_cons_of_mem a hx)

end Follows

section Walk

variable (macros : HashMap Text)

theorem readMacroPair_follows {node : Pair Rule} (h : IsReferenceNode node)
    (replacedLine : Text) :
    Follows (readMacroPair macros replacedLine node)
      (referenceEvents macros node) := by
  unfold readMacroPair referenceEvents
  rcases h with hrule | hrule
  · rw [hrule]
    simp only [getVariable, true_and]
    cases macros.lookup node.asStr with
    | none => exact rfl
    | some value => exact ⟨_, rfl⟩
  · rw [hrule]
    exact ⟨_, rfl⟩

theorem readInner_follows {node : Pair Rule} (h : IsMacroNode node)
    (replacedLine : Text) :
    Follows (readInner macros replacedLine node) (macroEvents macros node) := by
  unfold readInner macroEvents
  rcases h with hrule | hrule | ⟨hrule, hinner⟩
  · rw [hrule]
    exact rfl
  · rw [hrule]
    exact rfl
  · rw [hrule]
    exact follows_fold
      (fun line inner hmem => readMacroPair_follows macros (hinner inner hmem)
        line) replacedLine

theorem readTestPair_follows {node : Pair Rule} (h : IsElementNode node)
    (replacedLine : Text) :
    Follows (readTestPair macros replacedLine node)
      (elementEvents macros node) := by
  unfold readTestPair elementEvents
  rcases h with hrule | hrule | ⟨hrule, hinner⟩
  · rw [hrule]
    exact ⟨_, rfl⟩
  · rw [hrule]
    exact ⟨_, rfl⟩
  · rw [hrule]
    exact follows_fold
      (fun line inner hmem => readInner_follows macros (hinner inner hmem)
        line) replacedLine

theorem replaceLine_follows (line : Text) :
    Follows (replaceLine macros line) (lineEvents macros line) := by
  unfold replaceLine lineEvents
  cases hparse : Peg.parse skip Grammar.file line with
  | none => exact rfl
  | some pairs =>
      have hnodes : ∀ file ∈ pairs, ∀ inner ∈ file.intoInner,
          IsElementNode inner := by
        obtain ⟨result, hread, rfl⟩ := Option.map_eq_some_iff.mp hparse
        exact yields_file rfl hread
      refine (follows_fold ?_ []).bind_ok trimEnd
      intro replacedLine file hfile
      exact follows_fold
        (fun line inner hmem => readTestPair_follows macros
          (hnodes file hfile inner hmem) line) replacedLine

theorem parse_follows (rawString : Text) :
    Follows (parse macros rawString) (events macros rawString) := by
  refine (follows_fold ?_ (0, [])).bind_ok Prod.snd
  intro state line _
  exact (replaceLine_follows macros line).bind_ok _

end Walk

/-- `MacroParser::parse` ends as the first event of the script says, and no
other arm of the walk that panics is reached. -/
theorem parse_first_event (macros : HashMap Text) (rawString : Text) :
    (parse macros rawString = .err .parserError ↔
      (events macros rawString).head? = some .rejected) ∧
    (∀ macroName, parse macros rawString = .err (.doesNotExist macroName) ↔
      (events macros rawString).head? = some (.undefined macroName)) ∧
    (∀ message, parse macros rawString = .panic message ↔
      ((events macros rawString).head? = some .function ∧
        message = unexpected "inner match" .function) ∨
      ((events macros rawString).head? = some .optional ∧
        message = unexpected "inner match" .specOptionalMacro)) ∧
    ((∃ out, parse macros rawString = .ok out) ↔
      events macros rawString = []) := by
  have hfollows := parse_follows macros rawString
  cases hevents : events macros rawString with
  | nil =>
      rw [hevents] at hfollows
      obtain ⟨out, hok⟩ := hfollows
      simp [hok]
  | cons event rest =>
      rw [hevents] at hfollows
      have hresult : parse macros rawString = event.outcome := hfollows
      rw [hresult]
      cases event with
      | rejected => simp [Event.outcome]
      | undefined macroName => simp [Event.outcome]
      | function => simp [Event.outcome, eq_comm]
      | optional => simp [Event.outcome, eq_comm]

/-- A line that the grammar rejects comes too late behind a function. -/
example : events ∅ "%(a) %b\n)".toList =
    [.function, .undefined "b".toList, .rejected] := by decide +kernel

end Ips.Macros
