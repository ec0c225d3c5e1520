import Ips.ManifestNodes

/-!
# Keywords of actions

The grammar takes the keyword at the start of an action and does not
ask what follows it.  The first word of an action is a keyword exactly when a
blank, a line break or a backslash stands behind the keyword.
-/

namespace Ips.Manifest

open Peg

def isDelimiter (c : Char) : Bool :=
  c == ' ' || (c == '\t' || (c == '\r' || (c == '\n' || c == '\\')))

/-- The text up to the first blank, line break or backslash. -/
def firstWord (s : Text) : Text := s.takeWhile fun c => !isDelimiter c

/-- Behind the keyword of the node a word cannot go on. -/
def KeywordDelimited (content : Text) (node : Pair Rule) : Prop :=
  headIs (fun c => !isDelimiter c)
    (content.drop (node.start + (childText .actionName node).length)) = false

instance (content : Text) (node : Pair Rule) :
    Decidable (KeywordDelimited content node) :=
  inferInstanceAs (Decidable (_ = _))

theorem keywords_not_delimiter :
    ∀ name ∈ keywords.map String.toList, ∀ c ∈ name,
      (!isDelimiter c) = true := by
  have hall : ∀ name ∈ keywords.map String.toList,
      name.all (fun c => !isDelimiter c) = true := by
    decide
  intro name hname
  exact List.all_eq_true.mp (hall name hname)

/-- No keyword begins another one. -/
theorem keywords_prefix_free :
    ∀ name ∈ keywords.map String.toList,
      ∀ other ∈ keywords.map String.toList,
        name <+: other → name = other := by
  decide

theorem firstWord_append {name : Text}
    (hname : name ∈ keywords.map String.toList) (rest : Text) :
    firstWord (name ++ rest) = name ++ firstWord rest :=
  List.takeWhile_append_of_pos (keywords_not_delimiter name hname)

theorem firstWord_eq_nil_iff (s : Text) :
    firstWord s = [] ↔ headIs (fun c => !isDelimiter c) s = false := by
  cases s with
  | nil => simp [firstWord, headIs]
  | cons c t => simp [firstWord, headIs, List.takeWhile_cons]

theorem firstWord_mem_iff {name : Text}
    (hname : name ∈ keywords.map String.toList) (rest : Text) :
    firstWord (name ++ rest) ∈ keywords.map String.toList ↔
      headIs (fun c => !isDelimiter c) rest = false := by
  rw [firstWord_append hname, ← firstWord_eq_nil_iff]
  constructor
  · intro hword
    have heq := keywords_prefix_free name hname _ hword (List.prefix_append _ _)
    simpa using heq
  · intro hnil
    rw [hnil, List.append_nil]
    exact hname

theorem drop_of_suffix {s content : List Char} (h : s <:+ content) :
    content.drop (content.length - s.length) = s := by
  obtain ⟨w, rfl⟩ := h
  simp

theorem IsActionNode.firstWord_iff {content s t : List Char} {act : Action}
    {node : Pair Rule} (h : IsActionNode content.length s t act node)
    (hs : s <:+ content) :
    firstWord (content.drop node.start) ∈ keywords.map String.toList ↔
      KeywordDelimited content node := by
  obtain ⟨more, hread, -⟩ := h.actionName
  have hsplit := readWords_splits _ hread
  have hdrop : content.drop node.start = s := by
    rw [h.start, drop_of_suffix hs]
  unfold KeywordDelimited
  rw [← List.drop_drop, hdrop]
  conv_lhs => rw [hsplit]
  conv_rhs => rw [hsplit, List.drop_left]
  exact firstWord_mem_iff (keyword_of_read hread) more

/-- In a text that is read, the first word of an action is a keyword exactly
when the keyword of its node is delimited. -/
theorem parseString_firstWord_iff {content : Text} {m : Manifest}
    (hok : parseString content = .ok m) :
    ∃ pairs, parse skip Grammar.manifest content = some pairs ∧
      ∀ node ∈ actionNodes pairs,
        (firstWord (content.drop node.start) ∈ keywords.map String.toList ↔
          KeywordDelimited content node) := by
  rcases parse_places content with ⟨hactions, -⟩ |
    ⟨pairs, places, hsome, -, hnodes, hplaces⟩
  · rw [parseString_eq_actions, hactions] at hok
    cases hok
  · refine ⟨pairs, hsome, fun node hnode => ?_⟩
    obtain ⟨place, hplace, hat⟩ := exists_of_forall₂ hnodes node hnode
    exact hat.isNode.firstWord_iff (hplaces place hplace).1

theorem parseString_firstWord_dir :
    ∃ pairs, parse skip Grammar.manifest "dir path=usr\n".toList = some pairs ∧
      ∀ node ∈ actionNodes pairs,
        firstWord ("dir path=usr\n".toList.drop node.start) ∈
          keywords.map String.toList := by
  have hok : parseString "dir path=usr\n".toList =
      .ok { directories := [{ path := "usr".toList }] } := by decide +kernel
  obtain ⟨pairs, hparse, hiff⟩ := parseString_firstWord_iff hok
  have hall : ∀ node ∈ actionNodes ((parse skip Grammar.manifest
      "dir path=usr\n".toList).getD []),
      KeywordDelimited "dir path=usr\n".toList node := by decide +kernel
  rw [hparse] at hall
  exact ⟨pairs, hparse, fun node hnode =>
    (hiff node hnode).mpr (hall node hnode)⟩

/-- The word `dirpath=usr` is read as a directory. -/
theorem parseString_firstWord_glued :
    ¬ ∀ content m pairs, parseString content = .ok m →
        parse skip Grammar.manifest content = some pairs →
        ∀ node ∈ actionNodes pairs,
          firstWord (content.drop node.start) ∈ keywords.map String.toList := by
  intro h
  have hok : parseString "dirpath=usr\n".toList =
      .ok { directories := [{ path := "usr".toList }] } := by decide +kernel
  have hnot : ¬ ∀ node ∈ actionNodes ((parse skip Grammar.manifest
      "dirpath=usr\n".toList).getD []),
      firstWord ("dirpath=usr\n".toList.drop node.start) ∈
        keywords.map String.toList := by decide +kernel
  cases hparse : parse skip Grammar.manifest "dirpath=usr\n".toList with
  | none =>
      rw [hparse] at hnot
      exact hnot (by simp [actionNodes])
  | some pairs =>
      rw [hparse] at hnot
      exact hnot (h _ _ pairs hok hparse)

end Ips.Manifest
