import Ips.Makefile
import Ips.PegLines

/-!
# Reading a makefile without a parse tree

Direct readers for the items of a makefile.  The last theorem says that
`Makefile::parse_string` takes the items of the text one after the other.
-/

namespace Ips.Makefile

open Peg

/-! ## Blanks -/

theorem skip_eq_skipBlanks : skip = skipBlanks := skipWhitespace_blanks

theorem skip_eq (s : List Char) : skip s = s.dropWhile isBlank :=
  congrFun skip_eq_skipBlanks s

theorem skip_shrinking : Shrinking skip := by
  rw [skip_eq_skipBlanks]
  exact skipBlanks_shrinking

theorem headIs_skip (s : List Char) : headIs isBlank (skip s) = false := by
  rw [skip_eq_skipBlanks]
  exact headIs_skipBlanks s

theorem skip_of_head {s : List Char} (h : headIs isBlank s = false) :
    skip s = s := by
  rw [skip_eq_skipBlanks]
  exact skipBlanks_of_head h

@[simp] theorem skip_skip (s : List Char) : skip (skip s) = skip s :=
  skip_of_head (headIs_skip s)

theorem skip_suffix (s : List Char) : skip s <:+ s := by
  rw [skip_eq_skipBlanks]
  exact skipBlanks_suffix s

/-! ## Tokens -/

variable (upper : UppercaseTable)

def isNameChar (c : Char) : Bool :=
  upper.contains c || (('0' ≤ c && c ≤ '9') || (c == '_' || c == '.'))

/-- Whether the text goes on with the end of a definition. -/
def endsDefine (s : List Char) : Bool :=
  match readNewline s with
  | none => false
  | some t => "endef".toList.isPrefixOf t

def isDefined (s : List Char) : Bool := !s.isEmpty && !endsDefine s

def makefileContext (size : ℕ) : Context := ⟨.nonAtomic, size, skip⟩

@[simp] theorem gap_makefileContext (size : ℕ) :
    (makefileContext size).gap = skip := rfl

theorem variableName_eq (size : ℕ) (s : List Char) :
    Grammar.variableName upper (makefileContext size) s =
      some ([leaf .variableName (size - s.length)
        (s.takeWhile (isNameChar upper))], s.dropWhile (isNameChar upper)) := by
  have hchar : ReadsOne (Grammar.variableNameCharacter upper)
      (headIs (isNameChar upper)) :=
    ((readsOne_charIf _).choice_cons ((readsOne_charIf _).choice_cons
      ((readsOne_str (by decide)).choice_cons
        (readsOne_choice_single (readsOne_str (by decide)))))).rule _
  have h : Grammar.variableName upper (makefileContext size) s = _ :=
    hchar.rep.atomicRule_eq (readRun_splits _) .variableName rfl s
  rw [h]
  simp [readRun, makefileContext]

theorem variableValue_eq (size : ℕ) (s : List Char) :
    Grammar.variableValue (makefileContext size) s =
      some ([leaf .variableValue (size - s.length) (restOfLine s)],
        afterLine s) := by
  have hchar : ReadsOne Grammar.variableValueCharacter
      (headIs fun c => !isNewlineChar c) := readsOne_notNewline.rule _
  have h : Grammar.variableValue (makefileContext size) s = _ :=
    hchar.rep.atomicRule_eq (readRun_splits _) .variableValue rfl s
  rw [h]
  simp [readRun, restOfLine, afterLine, makefileContext]

theorem defineValue_eq (size : ℕ) (s : List Char) :
    Grammar.defineValue (makefileContext size) s =
      some ([leaf .defineValue (size - s.length) (takeTails isDefined s)],
        dropTails isDefined s) := by
  have hend : ∀ (ctx : Context) (s : List Char),
      (Grammar.defineEndKeyword ctx.atomically s).isNone = !endsDefine s := by
    intro ctx s
    unfold Grammar.defineEndKeyword endsDefine
    simp only [seq, newline_eq, gap_atomically, id]
    cases readNewline s with
    | none => rfl
    | some t =>
        simp only [Option.map_some, str]
        by_cases h : "endef".toList.isPrefixOf t = true
        · rw [if_pos h, h]
          rfl
        · rw [if_neg h, Bool.eq_false_iff.mpr h]
          rfl
  have hchar : ReadsOne Grammar.defineValueCharacter isDefined :=
    (readsOne_negPred_any _ hend).rule _
  have h : Grammar.defineValue (makefileContext size) s = _ :=
    hchar.rep.atomicRule_eq (readRun_splits _) .defineValue rfl s
  rw [h]
  rfl

/-! ## Items -/

inductive Item where
  | newline
  | comment
  | define (name value : Text)
  | assignment (name : Text) (mode : VariableMode) (value : Text)
  | inclusion (value : Text)
  | target
  deriving DecidableEq

def readComment : List Char → Option (List Char)
  | '#' :: t => readNewline (afterLine t)
  | _ => none

/-- The operator of an assignment. -/
def readOperator : List Char → Option (VariableMode × List Char)
  | '=' :: t => some (.set, t)
  | '+' :: '=' :: t => some (.add, t)
  | _ => none

def readAssignment (s : List Char) : Option (Item × List Char) :=
  match readOperator (skip (s.dropWhile (isNameChar upper))) with
  | none => none
  | some (mode, t) =>
      some (.assignment (s.takeWhile (isNameChar upper)) mode
        (restOfLine (skip t)), afterLine (skip t))

def readInclusion (s : List Char) : Option (Item × List Char) :=
  match readWords ["include"] s with
  | none => none
  | some (_, t) =>
      some (.inclusion (restOfLine (skip t)), afterLine (skip t))

/-- The name of a target runs over everything up to the next colon, line
breaks included. -/
def readTarget (s : List Char) : Option (Item × List Char) :=
  if headIs (· == ':') s then none
  else
    match skip s with
    | [] => none
    | _ :: t =>
        match t.dropWhile (· != ':') with
        | [] => none
        | _ :: u => some (.target, afterLine (skip u))

/-- The part of a definition after its name. -/
def readDefinition (s : List Char) : Option (Text × List Char) :=
  match s with
  | '=' :: t =>
      match readNewline (skip t) with
      | none => none
      | some u =>
          match readNewline (skip (dropTails isDefined (skip u))) with
          | none => none
          | some v =>
              match readWords ["endef"] (skip v) with
              | none => none
              | some (_, w) => some (takeTails isDefined (skip u), w)
  | _ => none

def readDefine (s : List Char) : Option (Item × List Char) :=
  match readWords ["define"] s with
  | none => none
  | some (_, t) =>
      match readDefinition
          (skip ((skip t).dropWhile (isNameChar upper))) with
      | none => none
      | some (value, u) =>
          some (.define ((skip t).takeWhile (isNameChar upper)) value, u)

def readItem : Reader (List Item) := fun s =>
  match readNewline s with
  | some t => some ([.newline], t)
  | none =>
      match readComment s with
      | some t => some ([.comment], t)
      | none =>
          match readDefine upper s with
          | some (item, t) => some ([item], t)
          | none =>
              match readAssignment upper s with
              | some (item, t) => some ([item], t)
              | none =>
                  match readInclusion s with
                  | some (item, t) => some ([item], t)
                  | none =>
                      match readTarget s with
                      | some (item, t) => some ([item], t)
                      | none => none

/-- What an item does to the makefile.  The mode of an assignment is not seen:
the rules of the two operators leave no node. -/
def addItem (m : Makefile) : Item → Makefile
  | .newline => m
  | .comment => m
  | .define name value => insertVariable m (name, { values := [value] })
  | .assignment name _ value => insertVariable m (name, { values := [value] })
  | .inclusion value => { m with includes := m.includes ++ [value] }
  | .target => m

def MeansItems (pairs : List (Pair Rule)) (items : List Item) : Prop :=
  ∀ m, Outcome.fold readMakefilePair m pairs = .ok (items.foldl addItem m)

theorem MeansItems.append
    (xs xs' : List (Pair Rule)) (ys ys' : List Item)
    (h : MeansItems xs ys) (h' : MeansItems xs' ys') :
    MeansItems (xs ++ xs') (ys ++ ys') := by
  intro m
  rw [Outcome.fold_append, h m, Outcome.ok_bind, h', List.foldl_append]

/-! ## The rules and their readers -/

theorem commentCharacter_eq (size : ℕ) (s : List Char) :
    Grammar.commentCharacter (makefileContext size) s =
      if headIs isNewlineChar s then none
      else
        match skip s with
        | [] => none
        | _ :: t => some ([], t) := by
  have hn := readNewline_isNone s
  unfold Grammar.commentCharacter
  simp only [seq, negPred, newline_eq, gap_makefileContext]
  cases hread : readNewline s with
  | some t =>
      rw [hread] at hn
      have hhead : headIs isNewlineChar s = true := by
        simpa using hn.symm
      rw [if_pos hhead]
      rfl
  | none =>
      rw [hread] at hn
      have hhead : headIs isNewlineChar s = false := by
        simpa using hn.symm
      rw [hhead]
      cases hskip : skip s with
      | nil => simp [any, charIf, hskip]
      | cons c t => simp [any, charIf, hskip]

theorem targetCharacter_eq (size : ℕ) (s : List Char) :
    (Grammar.targetCharacter (makefileContext size) s = none ∧
      (headIs (· == ':') s = true ∨ skip s = [])) ∨
    ∃ node c t, Grammar.targetCharacter (makefileContext size) s =
        some ([node], t) ∧
      headIs (· == ':') s = false ∧ skip s = c :: t := by
  have hstr : (str ":" : Parser Rule) (makefileContext size) s =
      if headIs (· == ':') s then some ([], s.tail) else none :=
    (readsOne_str (R := Rule) (w := ":") (c := ':') rfl).2
      (makefileContext size) s
  cases hhead : headIs (· == ':') s with
  | true =>
      rw [if_pos hhead] at hstr
      left
      refine ⟨rule_of_none ?_, .inl rfl⟩
      simp only [seq, negPred, hstr]
  | false =>
      rw [hhead, if_neg Bool.false_ne_true] at hstr
      cases hskip : skip s with
      | nil =>
          left
          refine ⟨rule_of_none ?_, .inr rfl⟩
          simp only [seq, negPred, hstr, gap_makefileContext, hskip]
          rfl
      | cons c t =>
          right
          have hbody : seq [negPred (str ":"), any] (makefileContext size) s =
              some (([] : List (Pair Rule)), t) := by
            simp only [seq, negPred, hstr, gap_makefileContext, hskip]
            rfl
          exact ⟨_, c, t, rule_of_some rfl hbody, rfl, rfl⟩

theorem blank_not_colon (c : Char) (h : isBlank c = true) :
    (c == ':') = false := by
  simp only [isBlank, Bool.or_eq_true, beq_iff_eq] at h
  rcases h with rfl | rfl <;> rfl

theorem skip_eq_fun : skip = fun s => s.dropWhile isBlank := funext skip_eq

theorem commentCharacter_consuming (size : ℕ) :
    Consuming (Grammar.commentCharacter (makefileContext size)) := by
  intro s xs t hread
  rw [commentCharacter_eq] at hread
  have hle := skip_shrinking s
  split_ifs at hread
  cases hskip : skip s with
  | nil =>
      rw [hskip] at hread
      cases hread
  | cons c u =>
      rw [hskip] at hread hle
      cases hread
      rw [List.length_cons] at hle
      omega

theorem comment_loop (size : ℕ) (s : List Char) :
    (repeatAll skip (Grammar.commentCharacter (makefileContext size)) s).1 =
        [] ∧
      skip (repeatAll skip
        (Grammar.commentCharacter (makefileContext size)) s).2 =
          afterLine s := by
  have hconsuming := commentCharacter_consuming size
  constructor
  · apply repeatAll_induction skip_shrinking hconsuming
      (fun _ result => result.1 = [])
    · intro s _
      rfl
    · intro s xs t hread ih
      rw [commentCharacter_eq] at hread
      split_ifs at hread
      split at hread
      · cases hread
      · cases hread
        exact ih
  · have huntil : ReadsUntil isBlank isNewlineChar
        (Grammar.commentCharacter (makefileContext size)) := by
      intro s hs
      rw [commentCharacter_eq, skip_of_head hs]
      cases s with
      | nil => exact .inl ⟨rfl, .inl rfl⟩
      | cons c t =>
          cases hc : isNewlineChar c with
          | true => exact .inl ⟨by simp [headIs, hc], .inr hc⟩
          | false => exact .inr ⟨[], c, t, by simp [headIs, hc], rfl, hc⟩
    have h := huntil.gap_repeatAll blank_not_newline hconsuming s
    rw [skip_eq_fun]
    exact h

theorem commentString_eq (size : ℕ) (s : List Char) :
    Grammar.commentString (makefileContext size) s =
      (readComment s).map fun t => ([], t) := by
  unfold Grammar.commentString
  simp only [seq, rep, gap_makefileContext]
  cases s with
  | nil => rfl
  | cons c t =>
      by_cases hc : c = '#'
      · subst c
        have hstar := star_gap skip_shrinking (commentCharacter_consuming size)
          skip_skip t
        have hloop := comment_loop size t
        have hstr : (str "#" : Parser Rule) (makefileContext size) ('#' :: t) =
            some ([], t) := rfl
        rw [hstr]
        dsimp only
        rw [hstar.1, hstar.2, hloop.1, hloop.2, newline_eq]
        change _ = (readNewline (afterLine t)).map _
        cases readNewline (afterLine t) with
        | none => rfl
        | some u => rfl
      · have hread : readComment (c :: t) = none := by
          unfold readComment
          split
          · next heq =>
              cases heq
              exact absurd rfl hc
          · rfl
        have hstr : (str "#" : Parser Rule) (makefileContext size) (c :: t) =
            none := by
          simp [str, Ne.symm hc]
        rw [hstr, hread]
        rfl

theorem targetCharacter_consuming (size : ℕ) :
    Consuming (Grammar.targetCharacter (makefileContext size)) := by
  intro s xs t hread
  have hle := skip_shrinking s
  rcases targetCharacter_eq size s with ⟨hnone, -⟩ |
    ⟨node, c, u, hsome, -, hskip⟩
  · rw [hnone] at hread
    cases hread
  · rw [hsome] at hread
    cases hread
    rw [hskip, List.length_cons] at hle
    omega

theorem target_loop (size : ℕ) (s : List Char) :
    skip (repeatAll skip
      (Grammar.targetCharacter (makefileContext size)) s).2 =
        s.dropWhile (· != ':') := by
  have huntil : ReadsUntil isBlank (· == ':')
      (Grammar.targetCharacter (makefileContext size)) := by
    intro s hs
    rcases targetCharacter_eq size s with ⟨hnone, hstop⟩ |
      ⟨node, c, t, hsome, hcolon, hskip⟩
    · rw [skip_of_head hs] at hstop
      exact .inl ⟨hnone, hstop.symm⟩
    · rw [skip_of_head hs] at hskip
      subst s
      exact .inr ⟨[node], c, t, hsome, rfl, hcolon⟩
  have h := huntil.gap_repeatAll blank_not_colon
    (targetCharacter_consuming size) s
  rw [skip_eq_fun]
  exact h

theorem targetName_eq {size : ℕ} {s t : List Char} {node : Pair Rule}
    (hread : Grammar.targetCharacter (makefileContext size) s =
      some ([node], t)) :
    ∃ nodes u, Grammar.targetName (makefileContext size) s =
      some (nodes, u) ∧ skip u = t.dropWhile (· != ':') := by
  have hstar := star_gap skip_shrinking (targetCharacter_consuming size)
    skip_skip t
  have hbody : repOnce Grammar.targetCharacter (makefileContext size) s =
      some ([node] ++ (star skip
        (Grammar.targetCharacter (makefileContext size)) (skip t)).1,
        (star skip (Grammar.targetCharacter (makefileContext size))
          (skip t)).2) := by
    simp only [repOnce, seq, rep, hread, gap_makefileContext]
  refine ⟨_, _, rule_of_some rfl hbody, ?_⟩
  rw [hstar.2, target_loop]

/-- Rules that are read as one item: they fail together, and the node of the
rule means the item. -/
def ReadsItem (p : Reader (List (Pair Rule)))
    (r : List Char → Option (Item × List Char)) : Prop :=
  ∀ s, (p s = none ∧ r s = none) ∨
    ∃ pairs item t, p s = some (pairs, t) ∧ r s = some (item, t) ∧
      MeansItems pairs [item]

theorem target_readsItem (size : ℕ) :
    ReadsItem (Grammar.target (makefileContext size)) readTarget := by
  intro s
  unfold readTarget
  rcases targetCharacter_eq size s with ⟨hnone, hstop⟩ |
    ⟨node, c, t, hsome, hcolon, hskip⟩
  · left
    have hname : Grammar.targetName (makefileContext size) s = none := by
      apply rule_of_none
      simp only [repOnce, seq, hnone]
    constructor
    · apply rule_of_none
      simp only [seq, hname]
    · rcases hstop with hhead | hskip
      · rw [if_pos hhead]
      · rw [hskip]
        split_ifs
        · rfl
        · rfl
  · rcases targetName_eq hsome with ⟨nodes, u, hread, hu⟩
    rw [hcolon, hskip]
    simp only [Bool.false_eq_true, if_false]
    cases hdrop : t.dropWhile (· != ':') with
    | nil =>
        left
        refine ⟨rule_of_none ?_, rfl⟩
        simp only [seq, hread, gap_makefileContext, hu, hdrop]
        rfl
    | cons d v =>
        right
        have hd : d = ':' := by
          have hhead := headIs_dropWhile (· != ':') t
          rw [hdrop] at hhead
          simpa [headIs] using hhead
        subst d
        have hbody : seq [Grammar.targetName, str ":", Grammar.variableValue]
            (makefileContext size) s =
              some (nodes ++ ([] ++ [leaf .variableValue
                (size - (skip v).length) (restOfLine (skip v))]),
                afterLine (skip v)) := by
          have hstr : (str ":" : Parser Rule) (makefileContext size)
              (':' :: v) = some ([], v) := rfl
          simp only [seq, hread, gap_makefileContext, hu, hdrop, hstr,
            variableValue_eq]
        exact ⟨_, .target, _, rule_of_some rfl hbody, rfl, fun m => rfl⟩

theorem include_readsItem (size : ℕ) :
    ReadsItem (Grammar.includeRule (makefileContext size)) readInclusion := by
  intro s
  unfold readInclusion
  have hstr := str_eq "include" (makefileContext size) (R := Rule) s
  cases hread : readWords ["include"] s with
  | none =>
      rw [hread] at hstr
      left
      refine ⟨rule_of_none ?_, rfl⟩
      simp only [seq, hstr, Option.map_none]
  | some result =>
      rw [hread] at hstr
      right
      have hbody : seq [str "include", Grammar.variableValue]
          (makefileContext size) s =
            some ([] ++ [leaf .variableValue (size - (skip result.2).length)
              (restOfLine (skip result.2))], afterLine (skip result.2)) := by
        simp only [seq, hstr, Option.map_some, gap_makefileContext,
          variableValue_eq]
      exact ⟨_, _, _, rule_of_some rfl hbody, rfl, fun m => rfl⟩

theorem operator_eq (size : ℕ) (s : List Char) :
    choice [Grammar.variableSet, Grammar.variableAdd] (makefileContext size) s =
      (readOperator s).map fun x => ([], x.2) := by
  unfold readOperator Grammar.variableSet Grammar.variableAdd
  split
  · rfl
  · rfl
  · next hset hadd =>
      cases s with
      | nil => rfl
      | cons c t =>
          have hc : ¬ '=' = c := by
            intro h
            exact hset t (by rw [h])
          cases t with
          | nil => simp [choice, str, hc]
          | cons d u =>
              have hcd : ¬ ('+' = c ∧ '=' = d) := by
                rintro ⟨h, h'⟩
                exact hadd u (by rw [h, h'])
              simp [choice, str, hc, hcd]

theorem variable_readsItem (size : ℕ) :
    ReadsItem (Grammar.variableRule upper (makefileContext size))
      (readAssignment upper) := by
  intro s
  unfold readAssignment
  have hoperator := operator_eq size (skip (s.dropWhile (isNameChar upper)))
  cases hread : readOperator (skip (s.dropWhile (isNameChar upper))) with
  | none =>
      rw [hread] at hoperator
      left
      refine ⟨rule_of_none ?_, rfl⟩
      simp only [seq, variableName_eq, gap_makefileContext, hoperator,
        Option.map_none]
  | some result =>
      rw [hread] at hoperator
      right
      have hbody : seq [Grammar.variableName upper,
          choice [Grammar.variableSet, Grammar.variableAdd],
          opt Grammar.variableValue] (makefileContext size) s =
            some ([leaf .variableName (size - s.length)
                (s.takeWhile (isNameChar upper))] ++ ([] ++
              [leaf .variableValue (size - (skip result.2).length)
                (restOfLine (skip result.2))]),
              afterLine (skip result.2)) := by
        simp only [seq, variableName_eq, gap_makefileContext, hoperator,
          Option.map_some, opt, variableValue_eq]
      exact ⟨_, _, _, rule_of_some rfl hbody, rfl, fun m => rfl⟩

theorem defineEndKeyword_eq (size : ℕ) (s : List Char) :
    Grammar.defineEndKeyword (makefileContext size) s =
      match readNewline s with
      | none => none
      | some v => (readWords ["endef"] (skip v)).map fun x => ([], x.2) := by
  unfold Grammar.defineEndKeyword
  simp only [seq, newline_eq, gap_makefileContext, str_eq]
  cases readNewline s with
  | none => rfl
  | some v =>
      dsimp only [Option.map_some]
      cases readWords ["endef"] (skip v) with
      | none => rfl
      | some result => rfl

theorem definition_eq (size : ℕ) (s : List Char) :
    ∃ start, seq [Grammar.variableSet, newline, Grammar.defineValue,
        Grammar.defineEndKeyword] (makefileContext size) s =
      (readDefinition s).map fun x =>
        ([leaf .defineValue start x.1], x.2) := by
  unfold readDefinition Grammar.variableSet
  split
  · next t =>
      refine ⟨size - (match readNewline (skip t) with
        | none => 0
        | some u => (skip u).length), ?_⟩
      have hstr : (str "=" : Parser Rule) (makefileContext size) ('=' :: t) =
          some ([], t) := rfl
      simp only [seq, hstr, gap_makefileContext, newline_eq]
      cases readNewline (skip t) with
      | none => rfl
      | some u =>
          simp only [Option.map_some, defineValue_eq, defineEndKeyword_eq]
          cases readNewline (skip (dropTails isDefined (skip u))) with
          | none => rfl
          | some v =>
              dsimp only
              cases readWords ["endef"] (skip v) with
              | none => rfl
              | some result => rfl
  · next hequals =>
      refine ⟨0, ?_⟩
      have hstr : (str "=" : Parser Rule) (makefileContext size) s = none := by
        cases s with
        | nil => rfl
        | cons c t =>
            have hc : ¬ '=' = c := by
              intro h
              exact hequals t (by rw [h])
            simp [str, hc]
      simp only [seq, hstr]
      rfl

theorem define_readsItem (size : ℕ) :
    ReadsItem (Grammar.define upper (makefileContext size))
      (readDefine upper) := by
  intro s
  unfold readDefine
  have hstr := str_eq "define" (makefileContext size) (R := Rule) s
  cases hread : readWords ["define"] s with
  | none =>
      rw [hread] at hstr
      left
      refine ⟨rule_of_none ?_, rfl⟩
      simp only [seq, Grammar.defineKeyword, hstr, Option.map_none]
  | some result =>
      rw [hread] at hstr
      rcases definition_eq size
        (skip ((skip result.2).dropWhile (isNameChar upper))) with
        ⟨start, hdefinition⟩
      have hseq : seq [Grammar.defineKeyword, Grammar.variableName upper,
          Grammar.variableSet, newline, Grammar.defineValue,
          Grammar.defineEndKeyword] (makefileContext size) s =
            match readDefinition
                (skip ((skip result.2).dropWhile (isNameChar upper))) with
            | none => none
            | some (value, u) =>
                some ([leaf .variableName (size - (skip result.2).length)
                    ((skip result.2).takeWhile (isNameChar upper)),
                  leaf .defineValue start value], u) := by
        rw [seq_cons, Grammar.defineKeyword, hstr]
        dsimp only [Option.map_some]
        rw [seq_cons, gap_makefileContext, variableName_eq]
        dsimp only
        rw [hdefinition]
        cases readDefinition
            (skip ((skip result.2).dropWhile (isNameChar upper))) with
        | none => rfl
        | some found => rfl
      dsimp only
      cases hfound : readDefinition
          (skip ((skip result.2).dropWhile (isNameChar upper))) with
      | none =>
          rw [hfound] at hseq
          exact .inl ⟨rule_of_none hseq, rfl⟩
      | some found =>
          rw [hfound] at hseq
          exact .inr ⟨_, _, _, rule_of_some rfl hseq, rfl, fun m => rfl⟩

/-! ## Whole makefiles -/

theorem item_simulates (size : ℕ) :
    Simulates MeansItems
      (choice [newline, Grammar.commentString, Grammar.define upper,
        Grammar.variableRule upper, Grammar.includeRule, Grammar.target]
        (makefileContext size)) (readItem upper) := by
  intro s
  simp only [choice, newline_eq, commentString_eq]
  unfold readItem
  cases readNewline s with
  | some t => exact .some ⟨fun m => rfl, rfl⟩
  | none =>
      dsimp only [Option.map_none]
      cases readComment s with
      | some t => exact .some ⟨fun m => rfl, rfl⟩
      | none =>
          dsimp only [Option.map_none]
          rcases define_readsItem upper size s with ⟨hp, hr⟩ |
            ⟨pairs, item, t, hp, hr, hmeans⟩
          · rw [hp, hr]
            rcases variable_readsItem upper size s with ⟨hp, hr⟩ |
              ⟨pairs, item, t, hp, hr, hmeans⟩
            · rw [hp, hr]
              rcases include_readsItem size s with ⟨hp, hr⟩ |
                ⟨pairs, item, t, hp, hr, hmeans⟩
              · rw [hp, hr]
                rcases target_readsItem size s with ⟨hp, hr⟩ |
                  ⟨pairs, item, t, hp, hr, hmeans⟩
                · rw [hp, hr]
                  exact .none
                · rw [hp, hr]
                  exact .some ⟨hmeans, rfl⟩
              · rw [hp, hr]
                exact .some ⟨hmeans, rfl⟩
            · rw [hp, hr]
              exact .some ⟨hmeans, rfl⟩
          · rw [hp, hr]
            exact .some ⟨hmeans, rfl⟩

theorem readOperator_suffix {s t : List Char} {mode : VariableMode}
    (h : readOperator s = some (mode, t)) :
    t <:+ s ∧ t.length < s.length := by
  unfold readOperator at h
  split at h
  · cases h
    exact ⟨List.suffix_cons _ _, by simp⟩
  · cases h
    exact ⟨(List.suffix_cons _ _).trans (List.suffix_cons _ _), by simp⟩
  · cases h

/-- Everything that reading an assignment does. -/
theorem readAssignment_eq_some {s t : List Char} {item : Item}
    (h : readAssignment upper s = some (item, t)) :
    ∃ mode u,
      readOperator (skip (s.dropWhile (isNameChar upper))) = some (mode, u) ∧
      item = .assignment (s.takeWhile (isNameChar upper)) mode
        (restOfLine (skip u)) ∧
      t = afterLine (skip u) := by
  unfold readAssignment at h
  split at h
  · cases h
  · next mode u hop =>
      cases h
      exact ⟨mode, u, hop, rfl, rfl⟩

theorem readAssignment_suffix {s t : List Char} {item : Item}
    (h : readAssignment upper s = some (item, t)) :
    t <:+ s ∧ t.length < s.length := by
  rcases readAssignment_eq_some upper h with ⟨mode, u, hop, -, rfl⟩
  have hu := readOperator_suffix hop
  have hs : skip (s.dropWhile (isNameChar upper)) <:+ s :=
    (skip_suffix _).trans (List.dropWhile_suffix _)
  have ht : afterLine (skip u) <:+ u := (afterLine_suffix _).trans (skip_suffix u)
  refine ⟨ht.trans (hu.1.trans hs), ?_⟩
  have h₁ := ht.length_le
  have h₂ := hs.length_le
  omega

theorem readWord_suffix {w : String} {s x t : List Char}
    (hw : 0 < w.toList.length) (h : readWords [w] s = some (x, t)) :
    t <:+ s ∧ t.length < s.length := by
  have hsplit := readWords_splits _ h
  rcases readWords_mem h with ⟨word, hmem, hx⟩
  cases List.mem_singleton.mp hmem
  refine ⟨⟨x, hsplit.symm⟩, ?_⟩
  rw [hsplit, hx, List.length_append]
  omega

theorem readInclusion_suffix {s t : List Char} {item : Item}
    (h : readInclusion s = some (item, t)) :
    t <:+ s ∧ t.length < s.length := by
  unfold readInclusion at h
  split at h
  · cases h
  · next u hword =>
      cases h
      have hu := readWord_suffix (by decide) hword
      have ht : afterLine (skip u) <:+ u :=
        (afterLine_suffix _).trans (skip_suffix u)
      exact ⟨ht.trans hu.1, lt_of_le_of_lt ht.length_le hu.2⟩

/-- Everything that reading a target does. -/
theorem readTarget_eq_some {s t : List Char} {item : Item}
    (h : readTarget s = some (item, t)) :
    ∃ c u v, headIs (· == ':') s = false ∧ skip s = c :: u ∧
      u.dropWhile (· != ':') = ':' :: v ∧ item = .target ∧
      t = afterLine (skip v) := by
  unfold readTarget at h
  split_ifs at h with hcolon
  split at h
  · cases h
  · next c u hskip =>
      split at h
      · cases h
      · next d v hdrop =>
          cases h
          have hd : d = ':' := by
            have hhead := headIs_dropWhile (· != ':') u
            rw [hdrop] at hhead
            simpa [headIs] using hhead
          subst d
          exact ⟨c, u, v, by simpa using hcolon, hskip, hdrop, rfl, rfl⟩

theorem readTarget_suffix {s t : List Char} {item : Item}
    (h : readTarget s = some (item, t)) :
    t <:+ s ∧ t.length < s.length := by
  rcases readTarget_eq_some h with ⟨c, u, v, -, hskip, hdrop, -, rfl⟩
  have h₁ : c :: u <:+ s := hskip ▸ skip_suffix s
  have h₂ : ':' :: v <:+ u := hdrop ▸ List.dropWhile_suffix _
  have h₃ : afterLine (skip v) <:+ v :=
    (afterLine_suffix _).trans (skip_suffix v)
  have h₄ : afterLine (skip v) <:+ u := h₃.trans ((List.suffix_cons _ _).trans h₂)
  refine ⟨h₄.trans ((List.suffix_cons _ _).trans h₁), ?_⟩
  have hle := h₁.length_le
  have hle' := h₄.length_le
  rw [List.length_cons] at hle
  omega

theorem dropTails_suffix (ok : List Char → Bool) (s : List Char) :
    dropTails ok s <:+ s := ⟨takeTails ok s, takeTails_append_dropTails ok s⟩

/-- Everything that reading a definition does after its name. -/
theorem readDefinition_eq_some {s w value : List Char}
    (h : readDefinition s = some (value, w)) :
    ∃ t u v word, s = '=' :: t ∧ readNewline (skip t) = some u ∧
      value = takeTails isDefined (skip u) ∧
      readNewline (skip (dropTails isDefined (skip u))) = some v ∧
      readWords ["endef"] (skip v) = some (word, w) := by
  unfold readDefinition at h
  split at h
  · next t =>
      split at h
      · cases h
      · next u hu =>
          split at h
          · cases h
          · next v hv =>
              split at h
              · cases h
              · next word w hword =>
                  cases h
                  exact ⟨t, u, v, word, rfl, hu, rfl, hv, hword⟩
  · cases h

theorem readDefine_eq_some {s t : List Char} {item : Item}
    (h : readDefine upper s = some (item, t)) :
    ∃ word u value, readWords ["define"] s = some (word, u) ∧
      readDefinition (skip ((skip u).dropWhile (isNameChar upper))) =
        some (value, t) ∧
      item = .define ((skip u).takeWhile (isNameChar upper)) value := by
  unfold readDefine at h
  split at h
  · cases h
  · next word u hword =>
      split at h
      · cases h
      · next value v hvalue =>
          cases h
          exact ⟨word, u, value, hword, hvalue, rfl⟩

theorem readDefine_suffix {s t : List Char} {item : Item}
    (h : readDefine upper s = some (item, t)) :
    t <:+ s ∧ t.length < s.length := by
  rcases readDefine_eq_some upper h with ⟨word, u, value, hword, hdef, -⟩
  rcases readDefinition_eq_some hdef with
    ⟨t', u', v, word', hs, hu', -, hv, hword'⟩
  have h₁ := readWord_suffix (by decide) hword
  have h₂ : '=' :: t' <:+ u := by
    rw [← hs]
    exact (skip_suffix _).trans
      ((List.dropWhile_suffix _).trans (skip_suffix u))
  have h₃ : u' <:+ t' := (readNewline_suffix hu').trans (skip_suffix t')
  have h₄ : v <:+ u' := (readNewline_suffix hv).trans ((skip_suffix _).trans
    ((dropTails_suffix _ _).trans (skip_suffix u')))
  have h₅ : t <:+ v :=
    (readWord_suffix (by decide) hword').1.trans (skip_suffix v)
  have ht : t <:+ u := h₅.trans (h₄.trans (h₃.trans
    ((List.suffix_cons _ _).trans h₂)))
  exact ⟨ht.trans h₁.1, lt_of_le_of_lt ht.length_le h₁.2⟩

theorem readComment_suffix {s t : List Char} (h : readComment s = some t) :
    t <:+ s ∧ t.length < s.length := by
  unfold readComment at h
  split at h
  · next u =>
      have hn := readNewline_suffix h
      have hu : t <:+ u := hn.trans (afterLine_suffix u)
      refine ⟨hu.trans (List.suffix_cons _ _), ?_⟩
      have hle := hu.length_le
      rw [List.length_cons]
      omega
  · cases h

/-- One item is read, by one of the six readers. -/
theorem readItem_eq_some {s t : List Char} {items : List Item}
    (h : readItem upper s = some (items, t)) :
    (readNewline s = some t ∧ items = [.newline]) ∨
    (readNewline s = none ∧ readComment s = some t ∧ items = [.comment]) ∨
    ∃ item, items = [item] ∧ readNewline s = none ∧ readComment s = none ∧
      (readDefine upper s = some (item, t) ∨
        readAssignment upper s = some (item, t) ∨
        readInclusion s = some (item, t) ∨ readTarget s = some (item, t)) := by
  unfold readItem at h
  split at h
  · next hn =>
      cases h
      exact .inl ⟨hn, rfl⟩
  · next hn =>
      split at h
      · next hc =>
          cases h
          exact .inr (.inl ⟨hn, hc, rfl⟩)
      · next hc =>
          right
          right
          split at h
          · next hd =>
              cases h
              exact ⟨_, rfl, hn, hc, .inl hd⟩
          · split at h
            · next ha =>
                cases h
                exact ⟨_, rfl, hn, hc, .inr (.inl ha)⟩
            · split at h
              · next hi =>
                  cases h
                  exact ⟨_, rfl, hn, hc, .inr (.inr (.inl hi))⟩
              · split at h
                · next ht =>
                    cases h
                    exact ⟨_, rfl, hn, hc, .inr (.inr (.inr ht))⟩
                · cases h

theorem readItem_suffix_lt {s t : List Char} {items : List Item}
    (h : readItem upper s = some (items, t)) :
    t <:+ s ∧ t.length < s.length := by
  rcases readItem_eq_some upper h with ⟨hn, -⟩ | ⟨-, hc, -⟩ |
    ⟨item, -, -, -, hd | ha | hi | ht⟩
  · exact ⟨readNewline_suffix hn, readNewline_length_lt hn⟩
  · exact readComment_suffix hc
  · exact readDefine_suffix upper hd
  · exact readAssignment_suffix upper ha
  · exact readInclusion_suffix hi
  · exact readTarget_suffix ht

theorem readItem_consuming : Consuming (readItem upper) :=
  fun _ _ _ h => (readItem_suffix_lt upper h).2

theorem readItem_ne_nil {s t : List Char} {items : List Item}
    (h : readItem upper s = some (items, t)) : items ≠ [] := by
  rcases readItem_eq_some upper h with ⟨-, rfl⟩ | ⟨-, -, rfl⟩ | ⟨item, rfl, -⟩
  · simp
  · simp
  · simp

def readMakefile (content : List Char) : Option (List Item) :=
  readDocument skip (readItem upper) content

/-- `Makefile::parse_string` rejects what is no list of items and otherwise
takes the items of the text in order. -/
theorem parseString_eq (content : Text) :
    parseString upper content =
      match readMakefile upper content with
      | none => .err .parserError
      | some items => .ok (items.foldl addItem new) := by
  unfold parseString readMakefile parse Grammar.makefile Grammar.eoi
  rcases (item_simulates upper content.length).document content .EOI
      (fun m => rfl) MeansItems.append skip_shrinking skip_skip
      (readItem_consuming upper) (fun _ _ _ => readItem_ne_nil upper) with
    ⟨hnone, hparse⟩ | ⟨items, pairs, hitems, hparse, hmeans⟩
  · rw [rule_of_none hparse, hnone]
    rfl
  · rw [rule_of_some rfl hparse, hitems]
    have hpairs : Outcome.fold readMakefilePair new
        (pairs ++ [leaf .EOI content.length []]) =
          .ok (items.foldl addItem new) := by
      rw [Outcome.fold_append, hmeans new]
      rfl
    simp only [Option.map_some, Outcome.fold_cons, Outcome.fold_nil, readPair,
      parseMakefile, hpairs]
    rfl

end Ips.Makefile
