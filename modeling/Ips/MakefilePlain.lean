import Ips.MakefileAssignments

/-!
# Plain makefiles

Blank lines, comments, assignments `NAME=VALUE`, includes and definitions, each
ended by a line feed.  The parser reads these items one after the other,
whatever their order.
-/

namespace Ips.Makefile

open Peg

def OneLine (s : Text) : Prop := ∀ c ∈ s, isNewlineChar c = false

/-- The body of a definition: it must not start with a blank, which would be
skipped, or hold the end of the definition. -/
structure IsBody (body : Text) : Prop where
  no_return : '\r' ∉ body
  head : headIs isBlank body = false
  no_end : ¬ '\n' :: "endef".toList <:+: body

inductive PlainItem where
  | blank (blanks : Text) (isBlank : Blanks blanks)
  | comment (text : Text) (oneLine : OneLine text)
  | assignment (name value : Text) (isName : IsName name)
      (oneLine : OneLine value) (head : headIs isBlank value = false)
  | inclusion (path : Text) (ne_nil : path ≠ []) (oneLine : OneLine path)
      (head : headIs isBlank path = false)
  | define (name body : Text) (isName : IsName name) (isBody : IsBody body)

namespace PlainItem

def render : PlainItem → Text
  | .blank blanks _ => blanks ++ ['\n']
  | .comment text _ => '#' :: (text ++ ['\n'])
  | .assignment name value _ _ _ => name ++ '=' :: (value ++ ['\n'])
  | .inclusion path _ _ _ => "include".toList ++ ' ' :: (path ++ ['\n'])
  | .define name body _ _ =>
      "define".toList ++ ' ' :: (name ++ ' ' :: '=' :: '\n' ::
        (body ++ '\n' :: ("endef".toList ++ ['\n'])))

/-- The value that an item gives to a name. -/
def valueFor (name : Text) : PlainItem → Option Text
  | .assignment name' value _ _ _ => if name' = name then some value else none
  | .define name' body _ _ => if name' = name then some body else none
  | _ => none

def path? : PlainItem → Option Text
  | .inclusion path _ _ _ => some path
  | _ => none

end PlainItem

/-- The value of the last item for a name. -/
def lastValue (items : List PlainItem) (name : Text) : Option Text :=
  items.reverse.findSome? (PlainItem.valueFor name)

/-! ## Reading an item -/

variable (upper : UppercaseTable)

/-- The items read where a plain item stands: most plain items leave their
line feed to the next round. -/
def PlainItem.reads : PlainItem → List Item
  | .blank _ _ => [.newline]
  | .comment _ _ => [.comment]
  | .assignment name value _ _ _ => [.assignment name .set value, .newline]
  | .inclusion path _ _ _ => [.inclusion path, .newline]
  | .define name body _ _ => [.define name body, .newline]

theorem readItem_lineFeed {blanks : Text} (h : Blanks blanks)
    (t : List Char) :
    readItem upper (skip (blanks ++ '\n' :: t)) = some ([.newline], t) := by
  rw [skip_blanks_append h, skip_of_head rfl]
  rfl

theorem readItem_comment {text : Text} (h : OneLine text) (t : List Char) :
    readItem upper (skip ('#' :: (text ++ '\n' :: t))) =
      some ([.comment], t) := by
  have hend : EndOfLine ('\n' :: t) := .inr rfl
  have hcomment : readComment ('#' :: (text ++ '\n' :: t)) = some t := by
    change readNewline (afterLine (text ++ '\n' :: t)) = some t
    rw [(hend.restOfLine h).2]
    rfl
  rw [skip_of_head rfl]
  unfold readItem
  rw [hcomment]
  rfl

theorem blanks_space : Blanks [' '] := by simp [Blanks, isBlank]

theorem skip_space (t : List Char) : skip (' ' :: t) = skip t :=
  skip_blanks_append blanks_space t

theorem skip_value {value : Text} (hhead : headIs isBlank value = false)
    (t : List Char) : skip (value ++ '\n' :: t) = value ++ '\n' :: t := by
  apply skip_of_head
  cases value with
  | nil => rfl
  | cons c w => exact hhead

theorem readItem_plainAssignment {name value : Text} (hname : IsName name)
    (hline : OneLine value) (hhead : headIs isBlank value = false)
    (t : List Char) :
    readItem upper (skip (name ++ '=' :: (value ++ '\n' :: t))) =
      some ([.assignment name .set value], '\n' :: t) := by
  have hend : EndOfLine ('\n' :: t) := .inr rfl
  have hnone : Blanks [] := by simp [Blanks]
  have hread := readItem_assignment upper hname hnone
    (readOperator_render .set (value ++ '\n' :: t))
  rw [skip_value hhead, (hend.restOfLine hline).1,
    (hend.restOfLine hline).2] at hread
  have htext : name ++ ([] ++ (operatorText .set ++ (value ++ '\n' :: t))) =
      name ++ '=' :: (value ++ '\n' :: t) := rfl
  rw [htext] at hread
  rw [hread.1, hread.2]

theorem readItem_inclusion {path : Text} (hline : OneLine path)
    (hhead : headIs isBlank path = false) (t : List Char) :
    readItem upper (skip ("include".toList ++ ' ' :: (path ++ '\n' :: t))) =
      some ([.inclusion path], '\n' :: t) := by
  have hend : EndOfLine ('\n' :: t) := .inr rfl
  have hskip : skip (' ' :: (path ++ '\n' :: t)) = path ++ '\n' :: t := by
    rw [skip_space, skip_value hhead]
  have hinclude : readInclusion
      ("include".toList ++ ' ' :: (path ++ '\n' :: t)) =
        some (.inclusion path, '\n' :: t) := by
    unfold readInclusion
    rw [readWords_append (by simp) (by simp)]
    dsimp only
    rw [hskip, (hend.restOfLine hline).1, (hend.restOfLine hline).2]
  -- An assignment with an empty name would need an operator here.
  have hassign : readAssignment upper
      ("include".toList ++ ' ' :: (path ++ '\n' :: t)) = none := by
    have hi : isNameChar upper 'i' = false :=
      isNameChar_of_ascii upper (by decide)
    unfold readAssignment
    have hdrop : ("include".toList ++ ' ' :: (path ++ '\n' :: t)).dropWhile
        (isNameChar upper) =
          "include".toList ++ ' ' :: (path ++ '\n' :: t) := by
      rw [← dropTails_headIs]
      exact dropTails_eq_self hi
    rw [hdrop, skip_of_head rfl]
    rfl
  have hdefine : readDefine upper
      ("include".toList ++ ' ' :: (path ++ '\n' :: t)) = none := rfl
  rw [skip_of_head rfl]
  unfold readItem
  rw [hdefine, hassign, hinclude]
  rfl

/-! ## Reading a definition -/

theorem prefix_of_prefix_append {w v u : Text} {c : Char}
    (h : w <+: v ++ c :: u) (hc : c ∉ w) : w <+: v := by
  rcases List.prefix_or_prefix_of_prefix h (List.prefix_append v (c :: u)) with
    hw | ⟨x, rfl⟩
  · exact hw
  · cases x with
    | nil => simp
    | cons d x =>
        have htail : d :: x <+: c :: u := (List.prefix_append_right_inj v).mp h
        have hd : d = c := (List.cons_prefix_cons.mp htail).1
        exact absurd (by simp [hd]) hc

theorem isDefined_body {c : Char} {w : Text} (hreturn : c ≠ '\r')
    (hend : ¬ '\n' :: "endef".toList <:+: c :: w) (t : List Char) :
    isDefined (c :: (w ++ '\n' :: t)) = true := by
  have hends : endsDefine (c :: (w ++ '\n' :: t)) = false := by
    by_cases hc : c = '\n'
    · subst hc
      have hnot : ¬ "endef".toList <+: w ++ '\n' :: t := by
        intro h
        apply hend
        have hw := prefix_of_prefix_append h (by decide)
        exact (List.cons_prefix_cons.mpr ⟨rfl, hw⟩).isInfix
      change "endef".toList.isPrefixOf (w ++ '\n' :: t) = false
      rw [Bool.eq_false_iff]
      intro h
      exact hnot (List.isPrefixOf_iff_prefix.mp h)
    · have hnone : readNewline (c :: (w ++ '\n' :: t)) = none := by
        rw [readNewline_eq_none_iff]
        simp [headIs, isNewlineChar, hc, hreturn]
      unfold endsDefine
      rw [hnone]
  unfold isDefined
  rw [hends]
  rfl

theorem takeTails_body {body : Text} (hreturn : '\r' ∉ body)
    (hend : ¬ '\n' :: "endef".toList <:+: body) (t : List Char) :
    takeTails isDefined (body ++ '\n' :: ("endef".toList ++ t)) = body ∧
      dropTails isDefined (body ++ '\n' :: ("endef".toList ++ t)) =
        '\n' :: ("endef".toList ++ t) := by
  induction body with
  | nil => exact ⟨takeTails_eq_nil rfl, dropTails_eq_self rfl⟩
  | cons c w ih =>
      have hc : c ≠ '\r' := by
        intro h
        exact hreturn (by simp [h])
      have hok := isDefined_body hc hend ("endef".toList ++ t)
      have htail := ih (fun h => hreturn (List.mem_cons_of_mem c h))
        (fun h => hend (h.trans (List.suffix_cons c w).isInfix))
      constructor
      · rw [List.cons_append, takeTails, if_pos hok, htail.1]
      · rw [List.cons_append, dropTails, if_pos hok, htail.2]

theorem readDefinition_body {body : Text} (h : IsBody body) (t : List Char) :
    readDefinition ('=' :: '\n' ::
        (body ++ '\n' :: ("endef".toList ++ t))) = some (body, t) := by
  have htails := takeTails_body h.no_return h.no_end t
  have hbreak : readNewline (skip ('\n' ::
      (body ++ '\n' :: ("endef".toList ++ t)))) =
        some (body ++ '\n' :: ("endef".toList ++ t)) := by
    rw [skip_of_head rfl]
    rfl
  have hend : readNewline (skip ('\n' :: ("endef".toList ++ t))) =
      some ("endef".toList ++ t) := by
    rw [skip_of_head rfl]
    rfl
  have hword : readWords ["endef"] (skip ("endef".toList ++ t)) =
      some ("endef".toList, t) := by
    rw [skip_of_head rfl]
    exact readWords_append (by simp) (by simp) t
  unfold readDefinition
  split
  · next heq =>
      cases heq
      rw [hbreak]
      dsimp only
      rw [skip_value h.head, htails.1, htails.2, hend]
      dsimp only
      rw [hword]
  · next hne => exact absurd rfl (hne _)

theorem readItem_define {name body : Text} (hname : IsName name)
    (hbody : IsBody body) (t : List Char) :
    readItem upper (skip ("define".toList ++ ' ' :: (name ++ ' ' :: '=' ::
        '\n' :: (body ++ '\n' :: ("endef".toList ++ t))))) =
      some ([.define name body], t) := by
  have hall : ∀ c ∈ name, isNameChar upper c = true := fun c hc =>
    isNameChar_of_isAsciiNameChar upper (hname.chars c hc)
  have hblank : isNameChar upper ' ' = false :=
    isNameChar_of_ascii upper (by decide)
  generalize htext : '\n' :: (body ++ '\n' :: ("endef".toList ++ t)) = text
  have hskip : skip (' ' :: (name ++ ' ' :: '=' :: text)) =
      name ++ ' ' :: '=' :: text := by
    have hitem := readItem_assignment upper hname blanks_space
      (readOperator_render .set text)
    rw [skip_space]
    exact hitem.1
  have htake : (name ++ ' ' :: '=' :: text).takeWhile (isNameChar upper) =
      name := by
    rw [List.takeWhile_append_of_pos hall, List.takeWhile_cons, hblank]
    simp
  have hdrop : (name ++ ' ' :: '=' :: text).dropWhile (isNameChar upper) =
      ' ' :: '=' :: text := by
    rw [List.dropWhile_append_of_pos hall, List.dropWhile_cons, hblank]
    simp
  have hequals : skip (' ' :: '=' :: text) = '=' :: text := by
    rw [skip_space]
    exact skip_of_head rfl
  have hdefine : readDefine upper
      ("define".toList ++ ' ' :: (name ++ ' ' :: '=' :: text)) =
        some (.define name body, t) := by
    unfold readDefine
    rw [readWords_append (by simp) (by simp)]
    dsimp only
    rw [hskip, hdrop, htake, hequals, ← htext, readDefinition_body hbody]
  rw [skip_of_head rfl]
  unfold readItem
  rw [hdefine]
  rfl

/-! ## Reading the items -/

/-- Reading goes over a plain item, whatever follows it. -/
theorem repeatAll_plainItem (item : PlainItem) (t : List Char) :
    repeatAll skip (readItem upper) (item.render ++ t) =
      (item.reads ++ (repeatAll skip (readItem upper) t).1,
        (repeatAll skip (readItem upper) t).2) := by
  have hround : ∀ {s u : List Char} {xs : List Item},
      readItem upper (skip s) = some (xs, u) →
      repeatAll skip (readItem upper) s =
        (xs ++ (repeatAll skip (readItem upper) u).1,
          (repeatAll skip (readItem upper) u).2) := fun h =>
    repeatAll_of_some skip_shrinking (readItem_consuming upper) h
  have hnone : Blanks [] := by simp [Blanks]
  have hfeed := hround (readItem_lineFeed upper hnone t)
  rw [List.nil_append] at hfeed
  cases item with
  | blank blanks hblanks =>
      have hrender : (PlainItem.blank blanks hblanks).render ++ t =
          blanks ++ '\n' :: t := by
        unfold PlainItem.render
        simp only [List.append_assoc, List.cons_append, List.nil_append]
      rw [hrender, hround (readItem_lineFeed upper hblanks t)]
      rfl
  | comment text hline =>
      have hrender : (PlainItem.comment text hline).render ++ t =
          '#' :: (text ++ '\n' :: t) := by
        unfold PlainItem.render
        simp only [List.append_assoc, List.cons_append, List.nil_append]
      rw [hrender, hround (readItem_comment upper hline t)]
      rfl
  | assignment name value hname hline hhead =>
      have hrender : (PlainItem.assignment name value hname hline hhead).render
          ++ t = name ++ '=' :: (value ++ '\n' :: t) := by
        unfold PlainItem.render
        simp only [List.append_assoc, List.cons_append, List.nil_append]
      rw [hrender,
        hround (readItem_plainAssignment upper hname hline hhead t), hfeed]
      rfl
  | inclusion path hne hline hhead =>
      have hrender : (PlainItem.inclusion path hne hline hhead).render ++ t =
          "include".toList ++ ' ' :: (path ++ '\n' :: t) := by
        unfold PlainItem.render
        simp only [List.append_assoc, List.cons_append, List.nil_append]
      rw [hrender, hround (readItem_inclusion upper hline hhead t), hfeed]
      rfl
  | define name body hname hbody =>
      have hrender : (PlainItem.define name body hname hbody).render ++ t =
          "define".toList ++ ' ' :: (name ++ ' ' :: '=' :: '\n' ::
            (body ++ '\n' :: ("endef".toList ++ '\n' :: t))) := by
        unfold PlainItem.render
        simp only [List.append_assoc, List.cons_append, List.nil_append]
      rw [hrender, hround (readItem_define upper hname hbody ('\n' :: t)),
        hfeed]
      rfl

def renderItems (items : List PlainItem) : Text :=
  items.flatMap PlainItem.render

theorem repeatAll_plainItems (items : List PlainItem) :
    repeatAll skip (readItem upper) (renderItems items) =
      (items.flatMap PlainItem.reads, []) := by
  induction items with
  | nil =>
      exact repeatAll_of_none skip_shrinking (readItem_consuming upper)
        (by rw [renderItems, List.flatMap_nil, skip_of_head rfl]; rfl)
  | cons item items ih =>
      have hcons : renderItems (item :: items) =
          item.render ++ renderItems items := rfl
      rw [hcons, repeatAll_plainItem, ih, List.flatMap_cons]

theorem parseString_renderItems (first : PlainItem) (rest : List PlainItem) :
    parseString upper (renderItems (first :: rest)) =
      .ok (((first :: rest).flatMap PlainItem.reads).foldl addItem new) := by
  have hne : (first :: rest).flatMap PlainItem.reads ≠ [] := by
    rw [List.flatMap_cons]
    cases first <;> exact List.cons_ne_nil _ _
  rw [parseString_eq]
  unfold readMakefile readDocument
  rw [repeatAll_plainItems]
  dsimp only
  rw [if_pos ⟨hne, skip_of_head rfl⟩]

/-! ## What is stored -/

theorem lastValue_append_singleton (items : List PlainItem)
    (item : PlainItem) (name : Text) :
    lastValue (items ++ [item]) name =
      (item.valueFor name).or (lastValue items name) := by
  unfold lastValue
  rw [List.reverse_append, List.reverse_singleton, List.singleton_append,
    List.findSome?_cons]
  cases item.valueFor name with
  | none => rfl
  | some value => rfl

theorem lookup_insertVariable_or (m : Makefile) (key value name : Text) :
    (insertVariable m (key, { values := [value] })).variableMap.lookup name =
      ((if key = name then some value else none).map fun value =>
        ({ values := [value] } : MakefileVariable)).or
          (m.variableMap.lookup name) := by
  rw [lookup_insertVariable]
  split_ifs
  · rfl
  · rfl

theorem lookup_reads (m : Makefile) (item : PlainItem) (name : Text) :
    (item.reads.foldl addItem m).variableMap.lookup name =
      ((item.valueFor name).map fun value =>
        ({ values := [value] } : MakefileVariable)).or
          (m.variableMap.lookup name) := by
  cases item with
  | blank blanks hblanks => rfl
  | comment text hline => rfl
  | assignment key value _ _ _ => exact lookup_insertVariable_or m key value name
  | inclusion path _ _ _ => rfl
  | define key body _ _ => exact lookup_insertVariable_or m key body name

theorem lookup_items (items : List PlainItem) (name : Text) :
    ((items.flatMap PlainItem.reads).foldl addItem
        new).variableMap.lookup name =
      (lastValue items name).map fun value => { values := [value] } := by
  induction items using List.reverseRecOn with
  | nil => rfl
  | append_singleton items item ih =>
      rw [List.flatMap_append, List.foldl_append, List.flatMap_singleton,
        lookup_reads, ih, lastValue_append_singleton]
      cases item.valueFor name with
      | none => rfl
      | some value => rfl

theorem includes_reads (m : Makefile) (item : PlainItem) :
    (item.reads.foldl addItem m).includes =
      m.includes ++ item.path?.toList := by
  cases item with
  | blank blanks hblanks => exact (List.append_nil _).symm
  | comment text hline => exact (List.append_nil _).symm
  | assignment key value _ _ _ => exact (List.append_nil _).symm
  | inclusion path _ _ _ => rfl
  | define key body _ _ => exact (List.append_nil _).symm

theorem includes_items (items : List PlainItem) :
    ((items.flatMap PlainItem.reads).foldl addItem new).includes =
      items.filterMap PlainItem.path? := by
  induction items using List.reverseRecOn with
  | nil => rfl
  | append_singleton items item ih =>
      rw [List.flatMap_append, List.foldl_append, List.flatMap_singleton,
        includes_reads, ih, List.filterMap_append]
      cases h : item.path? with
      | none => simp [h]
      | some path => simp [h]

/-- `Makefile::parse_string` reads every plain makefile as written: each name
has the value of its last item, and the includes are kept in order. -/
theorem parseString_plain (first : PlainItem) (rest : List PlainItem) :
    ∃ m, parseString upper (renderItems (first :: rest)) = .ok m ∧
      (∀ name, m.variableMap.lookup name =
        (lastValue (first :: rest) name).map fun value =>
          { values := [value] }) ∧
      m.includes = (first :: rest).filterMap PlainItem.path? :=
  ⟨_, parseString_renderItems upper first rest,
    lookup_items (first :: rest), includes_items (first :: rest)⟩

end Ips.Makefile
