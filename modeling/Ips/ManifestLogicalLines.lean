import Ips.ManifestKeywords
import Ips.ManifestSegments

/-!
# One action per logical line

A line break inside an action should be escaped by a backslash or stand inside
a quoted value.  Comments break this: a comment ends with its line break and is
skipped inside an action as well, so that the action goes on with the next
line.
-/

namespace Ips.Manifest

open Peg

/-! ## Line breaks in the text of a node -/

/-- The place lies in a value or payload of the node that starts with a double
quote. -/
def InQuotes (node : Pair Rule) (place : ℕ) : Prop :=
  ∃ value ∈ valueNodes node, value.asStr.head? = some '\"' ∧
    value.start ≤ place ∧ place < value.start + value.asStr.length

/-- The line break at the character ends the text. -/
def Terminates (c : Char) (after : List Char) : Prop :=
  after = [] ∨ c = '\r' ∧ after = ['\n']

/-- A backslash stands directly in front of the line break; CR LF is one line
break. -/
def Escaped (before : List Char) (c : Char) : Prop :=
  before.getLast? = some '\\' ∨ c = '\n' ∧ ['\\', '\r'] <:+ before

/-- Outside double quotes and apart from the line break at its end, every line
break in the text of the node is escaped. -/
def OnOneLine (node : Pair Rule) : Prop :=
  ∀ before c after, node.asStr = before ++ c :: after →
    isNewlineChar c = true →
      InQuotes node (node.start + before.length) ∨ Terminates c after ∨
        Escaped before c

/-! ## Comments inside an action -/

/-- The last character of the segment in front of its line break. -/
def endsInBackslash (p : Segment SegmentKind) : Bool :=
  (p.text.takeWhile fun c => !isNewlineChar c).getLast? == some '\\'

/-- The comment takes no line break away: its own one follows a backslash, or
it stands at the end of the whole text. -/
def KeepsLines (p : Segment SegmentKind) : Prop :=
  p.kind = .comment → p.rest = [] ∨ endsInBackslash p = true

instance (p : Segment SegmentKind) : Decidable (KeepsLines p) :=
  inferInstanceAs (Decidable (_ → _))

/-- Every comment that is skipped inside the action at the start of the text
keeps the lines. -/
def CommentsKeepLines (s : List Char) : Prop :=
  ∀ p ∈ segmentsOf s, KeepsLines p

instance (s : List Char) : Decidable (CommentsKeepLines s) :=
  inferInstanceAs (Decidable (∀ p ∈ segmentsOf s, KeepsLines p))

/-! ## Line breaks -/

def IsBreak (nl : List Char) : Prop :=
  nl = ['\n'] ∨ nl = ['\r', '\n'] ∨ nl = ['\r']

theorem readNewline_cases {u t : List Char} (h : readNewline u = some t) :
    ∃ nl, u = nl ++ t ∧ IsBreak nl ∧ (nl = ['\r'] → t.head? ≠ some '\n') := by
  unfold readNewline at h
  split at h
  · cases h
    exact ⟨['\n'], rfl, .inl rfl, by simp⟩
  · cases h
    exact ⟨['\r', '\n'], rfl, .inr (.inl rfl), by simp⟩
  · next v hv =>
      cases h
      refine ⟨['\r'], rfl, .inr (.inr rfl), ?_⟩
      intro _ hhead
      cases t with
      | nil => cases hhead
      | cons c w =>
          cases hhead
          exact hv w rfl
  · cases h

/-- Where a line break stands behind a text of one line. -/
theorem break_cases {w nl first last : List Char} {c : Char}
    (hw : OneLine w) (hnl : IsBreak nl) (hc : isNewlineChar c = true)
    (h : w ++ nl = first ++ c :: last) :
    (first = w ∧ Terminates c last) ∨
      first = w ++ ['\r'] ∧ c = '\n' ∧ last = [] := by
  have hnot : c ∉ w := by
    intro hmem
    have hline := hw c hmem
    rw [hc] at hline
    cases hline
  obtain ⟨x, rfl, hrest⟩ := append_eq_append_cons hnot h
  rcases hnl with rfl | rfl | rfl
  · cases x with
    | nil =>
        cases hrest
        exact .inl ⟨by simp, .inl rfl⟩
    | cons d x => simp at hrest
  · cases x with
    | nil =>
        cases hrest
        exact .inl ⟨by simp, .inr ⟨rfl, rfl⟩⟩
    | cons d x =>
        cases x with
        | nil =>
            cases hrest
            exact .inr ⟨rfl, rfl, rfl⟩
        | cons e x => simp at hrest
  · cases x with
    | nil =>
        cases hrest
        exact .inl ⟨by simp, .inl rfl⟩
    | cons d x => simp at hrest

/-! ## The segments of a node -/

/-- A node with the segments of its text. -/
structure CutNode (size : ℕ) (s t : List Char) (ps : List (Segment SegmentKind))
    (node : Pair Rule) : Prop where
  read : actionSegments s = some (ps, t)
  size_le : s.length ≤ size
  start : node.start = size - s.length
  asStr : node.asStr = textOf ps
  values : valueNodes node = (ps.filter isValue).map (valueLeaf size)

section Nodes

variable {size : ℕ} {s t : List Char} {node : Pair Rule}
  {front back : List (Segment SegmentKind)} {p : Segment SegmentKind}

theorem CutNode.tiles {ps : List (Segment SegmentKind)}
    (h : CutNode size s t ps node) : Tiles s ps t :=
  (actionSegments_tiles h.read).1

/-- A character of a segment stands in quotes when the segment is a quoted
value. -/
theorem CutNode.inQuotes_iff (h : CutNode size s t (front ++ p :: back) node)
    {first last : List Char} {c : Char} (htext : p.text = first ++ c :: last) :
    InQuotes node (node.start + (textOf front ++ first).length) ↔
      isValue p = true ∧ p.text.head? = some '\"' := by
  have hrest := h.tiles.rest_eq
  have hlength := congrArg List.length h.tiles.text_append
  have hsize := h.size_le
  have hp : p ∈ front ++ p :: back := by simp
  have hstart : p.start.length = p.text.length + p.rest.length :=
    List.length_append
  have hlen : p.text.length = first.length + (last.length + 1) := by
    rw [htext, List.length_append, List.length_cons]
  have hfront : s.length = (textOf front).length + p.start.length := by
    rw [hlength, hstart, hrest]
    simp only [textOf, List.flatMap_append, List.flatMap_cons,
      List.length_append]
    omega
  unfold InQuotes
  rw [h.start, h.values]
  constructor
  · rintro ⟨value, hvalue, hquote, hle, hlt⟩
    obtain ⟨q, hq, rfl⟩ := List.mem_map.mp hvalue
    obtain ⟨hq, hkind⟩ := List.mem_filter.mp hq
    have hqle := h.tiles.start_le q hq
    have hqlen : q.start.length = q.text.length + q.rest.length :=
      List.length_append
    simp only [valueLeaf, leaf, List.length_append] at hle hlt
    have hholds : q.Holds (p.start.length - first.length) := by
      constructor
      · omega
      · omega
    have heq : p = q := by
      refine h.tiles.eq_of_holds hp hq ?_ hholds
      constructor
      · omega
      · omega
    rw [heq]
    exact ⟨hkind, hquote⟩
  · rintro ⟨hkind, hquote⟩
    refine ⟨valueLeaf size p,
      List.mem_map_of_mem (List.mem_filter.mpr ⟨hp, hkind⟩), hquote, ?_, ?_⟩
    · simp only [valueLeaf, leaf, List.length_append]
      omega
    · simp only [valueLeaf, leaf, List.length_append]
      omega

/-- Nothing follows the terminator. -/
theorem CutNode.back_eq_nil (h : CutNode size s t (front ++ p :: back) node)
    (hkind : p.kind = .terminator) : back = [] := by
  obtain ⟨body, u, w, hbody, -, -, heq⟩ := actionSegments_eq_some h.read
  by_contra hback
  obtain ⟨init, q, rfl⟩ := List.eq_nil_or_concat back |>.resolve_left hback
  rw [List.concat_eq_append, ← List.cons_append, ← List.append_assoc] at heq
  have hinit := (List.append_inj' heq rfl).1
  have hmem : p ∈ body := by
    rw [← hinit]
    simp
  exact ((cuts_bodySegments hbody).2 p hmem).1 hkind

end Nodes

/-- The text of a segment that ends with a line break. -/
theorem text_of_break {p : Segment SegmentKind} {w u : List Char}
    (hstart : p.start = w ++ u) (hu : readNewline u = some p.rest) :
    ∃ nl, p.text = w ++ nl ∧ IsBreak nl ∧
      (nl = ['\r'] → p.rest.head? ≠ some '\n') := by
  obtain ⟨nl, rfl, hnl, hlone⟩ := readNewline_cases hu
  refine ⟨nl, ?_, hnl, hlone⟩
  have hsplit : p.text ++ p.rest = (w ++ nl) ++ p.rest := by
    rw [List.append_assoc, ← hstart]
    rfl
  exact List.append_cancel_right hsplit

theorem IsBreak.head {nl : List Char} (h : IsBreak nl) :
    ∃ c last, nl = c :: last ∧ isNewlineChar c = true := by
  rcases h with rfl | rfl | rfl
  · exact ⟨_, _, rfl, rfl⟩
  · exact ⟨_, _, rfl, rfl⟩
  · exact ⟨_, _, rfl, rfl⟩

theorem endsInBackslash_iff {p : Segment SegmentKind} {w nl : List Char}
    (htext : p.text = '#' :: w ++ nl) (hw : OneLine w) (hnl : IsBreak nl) :
    endsInBackslash p = true ↔ ('#' :: w).getLast? = some '\\' := by
  obtain ⟨c, last, rfl, hc⟩ := hnl.head
  have hall : ∀ d ∈ '#' :: w, (!isNewlineChar d) = true := by
    intro d hd
    rcases List.mem_cons.mp hd with rfl | hd
    · rfl
    · rw [hw d hd]
      rfl
  have htake : p.text.takeWhile (fun d => !isNewlineChar d) = '#' :: w := by
    rw [htext, List.takeWhile_append_of_pos hall]
    simp [hc]
  unfold endsInBackslash
  rw [htake, beq_iff_eq]

theorem escaped_append {front w : List Char} {c : Char}
    (h : w.getLast? = some '\\') : Escaped (front ++ w) c := by
  left
  rw [List.getLast?_append, h]
  rfl

theorem escaped_crlf {front w : List Char} (h : w.getLast? = some '\\') :
    Escaped (front ++ (w ++ ['\r'])) '\n' := by
  obtain ⟨x, rfl⟩ := List.getLast?_eq_some_iff.mp h
  exact .inr ⟨rfl, front ++ x, by simp⟩

section Lines

variable {size : ℕ} {s t : List Char} {node : Pair Rule}
  {front back : List (Segment SegmentKind)} {p : Segment SegmentKind}
  {first last : List Char} {c : Char}

/-- A line break in a segment that keeps the lines. -/
theorem CutNode.break_kept (h : CutNode size s t (front ++ p :: back) node)
    (htext : p.text = first ++ c :: last) (hc : isNewlineChar c = true)
    (hkeeps : KeepsLines p) :
    InQuotes node (node.start + (textOf front ++ first).length) ∨
      Terminates c (last ++ textOf back) ∨ Escaped (textOf front ++ first) c := by
  have hshaped := (actionSegments_tiles h.read).2 p (by simp)
  have hline : ¬ OneLine p.text := by
    intro hline
    have hfalse := hline c (by rw [htext]; simp)
    rw [hc] at hfalse
    cases hfalse
  unfold Shaped at hshaped
  cases hkind : p.kind with
  | word =>
      rw [hkind] at hshaped
      exact absurd hshaped hline
  | value =>
      rw [hkind] at hshaped
      refine .inl ((h.inQuotes_iff htext).mpr ⟨?_, hshaped.resolve_right hline⟩)
      simp [isValue, hkind]
  | payload =>
      rw [hkind] at hshaped
      refine .inl ((h.inQuotes_iff htext).mpr ⟨?_, hshaped.resolve_right hline⟩)
      simp [isValue, hkind]
  | blank =>
      rw [hkind] at hshaped
      obtain ⟨u, hstart, hu⟩ := hshaped.resolve_left hline
      obtain ⟨nl, hnltext, hnl, -⟩ :=
        text_of_break (w := ['\\']) hstart hu
      rw [hnltext] at htext
      rcases break_cases (by simp [OneLine, isNewlineChar]) hnl hc htext with
        ⟨rfl, -⟩ | ⟨rfl, rfl, -⟩
      · exact .inr (.inr (escaped_append rfl))
      · exact .inr (.inr (escaped_crlf rfl))
  | comment =>
      rw [hkind] at hshaped
      obtain ⟨w, u, hstart, hw, hu⟩ := hshaped
      obtain ⟨nl, hnltext, hnl, -⟩ :=
        text_of_break (w := '#' :: w) hstart hu
      have hcases := break_cases (w := '#' :: w) ?_ hnl hc
        (hnltext.symm.trans htext)
      · rcases hkeeps hkind with hend | hend
        · have hback : textOf back = [] := by
            have hrest := h.tiles.rest_eq
            rw [hend] at hrest
            exact (List.append_eq_nil_iff.mp hrest.symm).1
          rw [hback, List.append_nil]
          rcases hcases with ⟨-, hterm⟩ | ⟨-, -, rfl⟩
          · exact .inr (.inl hterm)
          · exact .inr (.inl (.inl rfl))
        · rw [endsInBackslash_iff hnltext hw hnl] at hend
          rcases hcases with ⟨rfl, -⟩ | ⟨rfl, rfl, -⟩
          · exact .inr (.inr (escaped_append hend))
          · exact .inr (.inr (escaped_crlf hend))
      · intro d hd
        rcases List.mem_cons.mp hd with rfl | hd
        · rfl
        · exact hw d hd
  | terminator =>
      rw [hkind] at hshaped
      have hback := h.back_eq_nil hkind
      subst hback
      have hu : readNewline p.start = some p.rest := by
        refine (readTerminator_cases hshaped).resolve_right ?_
        rintro ⟨hempty, -⟩
        rw [Segment.start, htext] at hempty
        simp at hempty
      obtain ⟨nl, hnltext, hnl, -⟩ := text_of_break (w := []) rfl hu
      rcases break_cases (w := []) (by simp [OneLine]) hnl hc
        (hnltext.symm.trans htext) with ⟨-, hterm⟩ | ⟨-, -, rfl⟩
      · refine .inr (.inl ?_)
        rwa [textOf, List.flatMap_nil, List.append_nil]
      · exact .inr (.inl (.inl rfl))

/-- The end of an action that ends with an empty terminator is the end of the
text. -/
theorem CutNode.rest_eq_nil (h : CutNode size s t (front ++ p :: back) node)
    (hkind : p.kind ≠ .terminator) (hback : textOf back = []) :
    p.rest = [] := by
  obtain ⟨body, u, w, -, hterm, rfl, heq⟩ := actionSegments_eq_some h.read
  have hlast : (front ++ p :: back).getLast? =
      some ⟨.terminator, w, t⟩ := by
    rw [heq]
    simp
  have hmem : (⟨.terminator, w, t⟩ : Segment SegmentKind) ∈ back := by
    rw [List.getLast?_append, List.getLast?_cons] at hlast
    cases hb : back.getLast? with
    | none =>
        rw [hb] at hlast
        cases hlast
        exact absurd rfl hkind
    | some q =>
        rw [hb] at hlast
        cases hlast
        exact List.mem_of_getLast? hb
  have hw : w = [] := by
    unfold textOf at hback
    exact List.flatMap_eq_nil_iff.mp hback _ hmem
  have hnil : t = [] := by
    subst hw
    rcases readTerminator_cases hterm with hn | ⟨-, hempty⟩
    · have hlt := readNewline_length_lt hn
      simp at hlt
    · exact hempty
  rw [h.tiles.rest_eq, hback, hnil]
  rfl

/-- A comment that takes a line break away puts the action on two lines. -/
theorem CutNode.keepsLines (h : CutNode size s t (front ++ p :: back) node)
    (hone : OnOneLine node) : KeepsLines p := by
  intro hkind
  have hshaped := (actionSegments_tiles h.read).2 p (by simp)
  unfold Shaped at hshaped
  rw [hkind] at hshaped
  obtain ⟨w, u, hstart, hw, hu⟩ := hshaped
  obtain ⟨nl, hnltext, hnl, hlone⟩ := text_of_break (w := '#' :: w) hstart hu
  rw [endsInBackslash_iff hnltext hw hnl]
  obtain ⟨c, last, rfl, hc⟩ := hnl.head
  have hasStr : node.asStr =
      (textOf front ++ '#' :: w) ++ c :: (last ++ textOf back) := by
    rw [h.asStr]
    simp [textOf, hnltext]
  have hnot : p.kind ≠ .terminator := by
    rw [hkind]
    decide
  rcases hone _ _ _ hasStr hc with hquotes | hterm | hescaped
  · have hvalue := ((h.inQuotes_iff hnltext).mp hquotes).1
    simp [isValue, hkind] at hvalue
  · left
    apply h.rest_eq_nil hnot
    rcases hterm with hempty | ⟨rfl, hlf⟩
    · exact (List.append_eq_nil_iff.mp hempty).2
    · cases last with
      | nil =>
          have hrest := h.tiles.rest_eq
          rw [List.nil_append] at hlf
          rw [hlf] at hrest
          exact absurd (by rw [hrest]; rfl) (hlone rfl)
      | cons d last =>
          have hempty := (List.cons.inj hlf).2
          exact (List.append_eq_nil_iff.mp hempty).2
  · right
    have hlast : (textOf front ++ '#' :: w).getLast? = ('#' :: w).getLast? :=
      List.getLast?_append_of_ne_nil _ (List.cons_ne_nil _ _)
    rcases hescaped with hslash | ⟨-, x, hx⟩
    · rwa [hlast] at hslash
    · -- the last character of the comment's line is no CR
      rw [← hx, List.getLast?_append] at hlast
      have hmem : '\r' ∈ '#' :: w := List.mem_of_getLast? hlast.symm
      rcases List.mem_cons.mp hmem with hhash | hmem
      · cases hhash
      · exact absurd (hw _ hmem) (by decide)

end Lines

/-- The text of the node lies on one line exactly when the comments inside it
keep the lines. -/
theorem CutNode.onOneLine_iff {size : ℕ} {s t : List Char} {node : Pair Rule}
    {ps : List (Segment SegmentKind)} (h : CutNode size s t ps node) :
    OnOneLine node ↔ ∀ p ∈ ps, KeepsLines p := by
  constructor
  · intro hone p hp
    obtain ⟨front, back, rfl⟩ := List.append_of_mem hp
    exact h.keepsLines hone
  · intro hkeeps before c after hasStr hc
    rw [h.asStr] at hasStr
    obtain ⟨front, p, back, first, last, rfl, htext, rfl, rfl⟩ :=
      exists_segment hasStr
    exact h.break_kept htext hc (hkeeps p (by simp))

theorem AtPlace.cutNode {content : List Char} {node : Pair Rule}
    {place : Place} (h : AtPlace content.length node place)
    (hplace : place.start <:+ content) :
    ∃ ps, CutNode content.length place.start place.stop ps node := by
  obtain ⟨ps, hread, hvalues⟩ := action_values content.length h.parsed
  refine ⟨ps, ⟨hread, hplace.length_le, h.isNode.start, ?_, hvalues⟩⟩
  rw [h.isNode.asStr]
  exact take_of_append (actionSegments_tiles hread).1.text_append

/-! ## Texts that the grammar accepts -/

/-- The action of a node lies on one logical line exactly when the comments
that are skipped inside it keep the lines. -/
theorem parse_onOneLine_iff {content : Text} {pairs : List (Pair Rule)}
    (h : parse skip Grammar.manifest content = some pairs) :
    ∀ node ∈ actionNodes pairs,
      (OnOneLine node ↔ CommentsKeepLines (content.drop node.start)) := by
  rcases parse_places content with ⟨-, hnone⟩ |
    ⟨nodes, places, hsome, -, hnodes, hplaces⟩
  · rw [hnone] at h
    cases h
  · rw [hsome] at h
    cases h
    intro node hnode
    obtain ⟨place, hplace, hat⟩ := exists_of_forall₂ hnodes node hnode
    have hsuffix := (hplaces place hplace).1
    obtain ⟨ps, hcut⟩ := hat.cutNode hsuffix
    have hdrop : content.drop node.start = place.start := by
      rw [hcut.start, drop_of_suffix hsuffix]
    have hsegments : segmentsOf place.start = ps := by
      unfold segmentsOf
      rw [hcut.read]
      rfl
    rw [hcut.onOneLine_iff, hdrop]
    unfold CommentsKeepLines
    rw [hsegments]

theorem parse_onOneLine_continued :
    ∃ node, actionNodes ((parse skip Grammar.manifest
        "dir path=usr \\\n owner=root\n# end\n".toList).getD []) = [node] ∧
      OnOneLine node := by
  have hsome : (parse skip Grammar.manifest
      "dir path=usr \\\n owner=root\n# end\n".toList).isSome = true := by
    decide +kernel
  have hone : (actionNodes ((parse skip Grammar.manifest
      "dir path=usr \\\n owner=root\n# end\n".toList).getD [])).length = 1 := by
    decide +kernel
  have hkeeps : ∀ node ∈ actionNodes ((parse skip Grammar.manifest
      "dir path=usr \\\n owner=root\n# end\n".toList).getD []),
      CommentsKeepLines ("dir path=usr \\\n owner=root\n# end\n".toList.drop
        node.start) := by
    decide +kernel
  obtain ⟨pairs, hpairs⟩ := Option.isSome_iff_exists.mp hsome
  obtain ⟨node, hnode⟩ := List.length_eq_one_iff.mp hone
  have hmem := List.mem_singleton_self node
  rw [← hnode] at hmem
  refine ⟨node, hnode, ?_⟩
  have hnodes := parse_onOneLine_iff hpairs node
  rw [hpairs] at hmem hkeeps
  exact (hnodes hmem).mpr (hkeeps node hmem)

/-- A comment behind an action joins it with the next line. -/
theorem parse_onOneLine_commented :
    ¬ ∀ content pairs, parse skip Grammar.manifest content = some pairs →
        ∀ node ∈ actionNodes pairs, OnOneLine node := by
  intro h
  have hsome : (parse skip Grammar.manifest
      "dir path=usr # x\nowner=root\n".toList).isSome = true := by
    decide +kernel
  obtain ⟨pairs, hpairs⟩ := Option.isSome_iff_exists.mp hsome
  have hmixed : ∃ node ∈ actionNodes ((parse skip Grammar.manifest
      "dir path=usr # x\nowner=root\n".toList).getD []),
      node.asStr = "dir path=usr # x".toList ++ '\n' :: "owner=root\n".toList ∧
      ∀ value ∈ valueNodes node, value.asStr.head? ≠ some '\"' := by
    decide +kernel
  rw [hpairs] at hmixed
  obtain ⟨node, hnode, hasStr, hvalues⟩ := hmixed
  rcases h _ _ hpairs node hnode _ _ _ hasStr rfl with
    ⟨value, hvalue, hquote, -⟩ | hterm | hescaped
  · exact hvalues value hvalue hquote
  · exact absurd hterm (by unfold Terminates; decide)
  · exact absurd hescaped (by unfold Escaped; decide)

end Ips.Manifest
