import Ips.Makefile

/-!
# Merging makefiles

`Makefile::merge` takes the variables of another makefile one by one, in the
order in which its hash map happens to yield them.  What becomes of a variable
depends on its two entries only, so this order does not matter.
-/

namespace Ips.Makefile

abbrev Entry := (_ : Text) × MakefileVariable

def mergeVariable (vars : HashMap MakefileVariable) (entry : Entry) :
    HashMap MakefileVariable :=
  match entry.2.mode with
  | .add =>
      match vars.lookup entry.1 with
      | some v =>
          vars.insert entry.1
            { v with
              values := v.values ++ entry.2.values
              mode := entry.2.mode }
      | none => vars.insert entry.1 entry.2
  | .set => vars.insert entry.1 entry.2

def mergeEntries (vars : HashMap MakefileVariable)
    (entries : List Entry) : HashMap MakefileVariable :=
  entries.foldl mergeVariable vars

/-! ## One variable at a time -/

/-- The variable that an entry leaves behind. -/
def combine (old : Option MakefileVariable) (var : MakefileVariable) :
    MakefileVariable :=
  match old, var.mode with
  | some v, .add => { v with values := v.values ++ var.values, mode := .add }
  | _, _ => var

/-- The entry of a merged makefile for a name, from the two entries for it. -/
def mergeLookup (old new : Option MakefileVariable) :
    Option MakefileVariable :=
  match new with
  | none => old
  | some var => some (combine old var)

theorem mergeVariable_eq (vars : HashMap MakefileVariable)
    (entry : Entry) :
    mergeVariable vars entry =
      vars.insert entry.1
        (combine (vars.lookup entry.1) entry.2) := by
  unfold mergeVariable combine
  cases hmode : entry.2.mode with
  | add =>
      cases vars.lookup entry.1 with
      | none => rfl
      | some v => rfl
  | set =>
      cases vars.lookup entry.1 with
      | none => rfl
      | some v => rfl

theorem lookup_mergeEntries (vars : HashMap MakefileVariable)
    {entries : List Entry} (hkeys : entries.NodupKeys) (name : Text) :
    (mergeEntries vars entries).lookup name =
      mergeLookup (vars.lookup name) (entries.dlookup name) := by
  induction entries generalizing vars with
  | nil => rfl
  | cons entry entries ih =>
      have hnodup := List.nodupKeys_cons.mp hkeys
      have hstep : mergeEntries vars (entry :: entries) =
          mergeEntries (mergeVariable vars entry) entries := rfl
      rw [hstep, ih _ hnodup.2, mergeVariable_eq]
      by_cases hname : name = entry.1
      · subst hname
        have hnone : entries.dlookup entry.1 = none :=
          List.dlookup_eq_none.mpr hnodup.1
        have hsome : (entry :: entries).dlookup entry.1 = some entry.2 :=
          List.dlookup_cons_eq entries entry.1 entry.2
        rw [hnone, hsome, Finmap.lookup_insert]
        rfl
      · have hne : (entry :: entries).dlookup name = entries.dlookup name :=
          List.dlookup_cons_ne entries entry hname
        rw [hne, Finmap.lookup_insert_of_ne _ hname]

theorem mergeEntries_perm (vars : HashMap MakefileVariable)
    (xs ys : AList fun _ : Text => MakefileVariable)
    (h : xs.entries.Perm ys.entries) :
    mergeEntries vars xs.entries = mergeEntries vars ys.entries := by
  apply Finmap.ext_lookup
  intro name
  rw [lookup_mergeEntries vars xs.nodupKeys,
    lookup_mergeEntries vars ys.nodupKeys,
    List.perm_dlookup name xs.nodupKeys h]

/-- `Makefile::merge`. -/
def merge (m other : Makefile) : Makefile :=
  { m with
    variableMap := other.variableMap.liftOn
      (fun entries => mergeEntries m.variableMap entries.entries)
      (mergeEntries_perm m.variableMap) }

theorem lookup_merge (m other : Makefile) (name : Text) :
    (m.merge other).variableMap.lookup name =
      mergeLookup (m.variableMap.lookup name)
        (other.variableMap.lookup name) := by
  unfold merge
  induction other.variableMap using Finmap.induction_on with
  | H entries =>
      rw [Finmap.liftOn_toFinmap, Finmap.lookup_toFinmap]
      exact lookup_mergeEntries m.variableMap entries.nodupKeys name

/-! ## Orders of iteration -/

/-- An order in which a hash map can yield its variables. -/
structure Iterates (vars : HashMap MakefileVariable) (entries : List Entry) :
    Prop where
  nodupKeys : entries.NodupKeys
  mem_iff : ∀ name var, ⟨name, var⟩ ∈ entries ↔ vars.lookup name = some var

/-- One round of the loop of `merge` on the makefile that is changed and the
one that is read. -/
def mergeStep (state : Makefile × Makefile) (entry : Entry) :
    Makefile × Makefile :=
  ({ state.1 with variableMap := mergeVariable state.1.variableMap entry },
    state.2)

/-- The loop runs over a copy of the variables, in the order given. -/
def mergeIn (m other : Makefile) (entries : List Entry) :
    Makefile × Makefile :=
  entries.foldl mergeStep (m, other)

theorem mergeIn_eq (m other : Makefile) (entries : List Entry) :
    mergeIn m other entries =
      ({ m with variableMap := mergeEntries m.variableMap entries },
        other) := by
  unfold mergeIn mergeEntries
  induction entries generalizing m with
  | nil => rfl
  | cons entry entries ih =>
      rw [List.foldl_cons, List.foldl_cons]
      exact ih { m with variableMap := mergeVariable m.variableMap entry }

theorem Iterates.dlookup_eq {vars : HashMap MakefileVariable}
    {entries : List Entry} (h : Iterates vars entries) (name : Text) :
    entries.dlookup name = vars.lookup name := by
  apply Option.ext
  intro var
  rw [← h.mem_iff]
  exact List.mem_dlookup_iff h.nodupKeys

theorem iterates_entries (order : AList fun _ : Text => MakefileVariable) :
    Iterates order.toFinmap order.entries := by
  refine ⟨order.nodupKeys, ?_⟩
  intro name var
  rw [Finmap.lookup_toFinmap]
  exact (List.mem_dlookup_iff order.nodupKeys).symm

theorem mergeIn_fst_eq_merge (m : Makefile) {other : Makefile}
    {entries : List Entry} (h : Iterates other.variableMap entries) :
    (mergeIn m other entries).1 = m.merge other := by
  have hvariables : mergeEntries m.variableMap entries =
      (m.merge other).variableMap := by
    apply Finmap.ext_lookup
    intro name
    rw [lookup_mergeEntries m.variableMap h.nodupKeys, h.dlookup_eq,
      lookup_merge]
  rw [mergeIn_eq, hvariables]
  rfl

/-! ## Grouping -/

theorem combine_set (old : Option MakefileVariable) {var : MakefileVariable}
    (h : var.mode = .set) : combine old var = var := by
  unfold combine
  rw [h]
  cases old <;> rfl

theorem combine_add (v : MakefileVariable) {var : MakefileVariable}
    (h : var.mode = .add) :
    combine (some v) var =
      { v with values := v.values ++ var.values, mode := .add } := by
  unfold combine
  rw [h]

/-- Every order leads to the same makefile, and the entry for a name is found
from the two entries for it. -/
theorem mergeIn_pointwise (a b : Makefile) {entries : List Entry}
    (h : Iterates b.variableMap entries) :
    (mergeIn a b entries).1 = a.merge b ∧
      (mergeIn a b entries).2 = b ∧
      (mergeIn a b entries).1.path = a.path ∧
      (mergeIn a b entries).1.includes = a.includes ∧
      ∀ name,
        (b.variableMap.lookup name = none →
          (mergeIn a b entries).1.variableMap.lookup name =
            a.variableMap.lookup name) ∧
        ∀ vb, b.variableMap.lookup name = some vb →
          (vb.mode = .set ∨ a.variableMap.lookup name = none →
            (mergeIn a b entries).1.variableMap.lookup name = some vb) ∧
          ∀ va, a.variableMap.lookup name = some va → vb.mode ≠ .set →
            (mergeIn a b entries).1.variableMap.lookup name =
              some { va with
                values := va.values ++ vb.values
                mode := .add } := by
  have hmerge := mergeIn_fst_eq_merge a h
  refine ⟨hmerge, by rw [mergeIn_eq], by rw [mergeIn_eq], by rw [mergeIn_eq],
    ?_⟩
  intro name
  rw [hmerge, lookup_merge]
  refine ⟨fun hnone => by rw [hnone]; rfl, ?_⟩
  intro vb hvb
  rw [hvb]
  constructor
  · rintro (hset | hnone)
    · exact congrArg some (combine_set _ hset)
    · rw [hnone]
      rfl
  · intro va hva hmode
    have hadd : vb.mode = .add := by
      cases hvb : vb.mode with
      | add => rfl
      | set => exact absurd hvb hmode
    rw [hva]
    exact congrArg some (combine_add va hadd)

/-- The variables `B = 2` and `A += 3`, yielded in this order. -/
def twoVariables : AList fun _ : Text => MakefileVariable where
  entries :=
    [⟨['B'], { values := [['2']], mode := .set }⟩,
      ⟨['A'], { values := [['3']], mode := .add }⟩]
  nodupKeys := by simp [List.NodupKeys]

theorem mergeIn_pointwise_twoVariables :
    (mergeIn (insertVariable new (['A'], { values := [['1']] }))
        { variableMap := twoVariables.toFinmap }
        twoVariables.entries).1.variableMap.lookup ['A'] =
      some { values := [['1'], ['3']], mode := .add } := by
  have hpointwise := mergeIn_pointwise
    (insertVariable new (['A'], { values := [['1']] }))
    { variableMap := twoVariables.toFinmap } (iterates_entries twoVariables)
  have hadd := (hpointwise.2.2.2.2 ['A']).2
    { values := [['3']], mode := .add } (by decide +kernel)
  exact hadd.2 { values := [['1']] } (by decide +kernel) (by decide)

/-- Three entries for a name can be grouped either way, unless values set by
the second and extended by the third are there to be added to the first. -/
theorem combine_assoc_iff (va vb vc : MakefileVariable) :
    combine (some (combine (some va) vb)) vc =
        combine (some va) (combine (some vb) vc) ↔
      (vb.mode = .set → vc.mode = .add →
        va.values = [] ∧ va.key = vb.key) := by
  cases hc : vc.mode with
  | set =>
      rw [combine_set _ hc, combine_set _ hc, combine_set _ hc]
      simp
  | add =>
      have hmode : (combine (some vb) vc).mode = .add := by
        rw [combine_add _ hc]
      rw [combine_add va hmode, combine_add _ hc, combine_add _ hc]
      cases hb : vb.mode with
      | set =>
          rw [combine_set _ hb]
          constructor
          · intro h _ _
            simp only [MakefileVariable.mk.injEq, and_true] at h
            exact ⟨List.self_eq_append_left.mp h.2, h.1.symm⟩
          · intro h
            have hva := h rfl rfl
            rw [hva.1, hva.2, List.nil_append]
      | add =>
          rw [combine_add _ hb]
          simp

theorem mergeLookup_assoc_iff (a b c : Option MakefileVariable) :
    mergeLookup (mergeLookup a b) c = mergeLookup a (mergeLookup b c) ↔
      ∀ va vb vc, a = some va → b = some vb → c = some vc →
        vb.mode = .set → vc.mode = .add →
        va.values = [] ∧ va.key = vb.key := by
  cases c with
  | none => simp [mergeLookup]
  | some vc =>
      cases b with
      | none =>
          have h : combine none vc = vc := rfl
          simp [mergeLookup, h]
      | some vb =>
          cases a with
          | none =>
              have h : ∀ var, combine none var = var := fun var => rfl
              simp [mergeLookup, h]
          | some va =>
              simp only [mergeLookup, Option.some.injEq]
              rw [combine_assoc_iff]
              constructor
              · intro h va' vb' vc' ha hb hc
                subst ha hb hc
                exact h
              · intro h
                exact h va vb vc rfl rfl rfl

/-- A makefile with one variable. -/
def single (name value : Text) (mode : VariableMode) : Makefile :=
  insertVariable new (name, { values := [value], mode := mode })

end Ips.Makefile
