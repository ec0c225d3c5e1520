import Mathlib.Data.Fintype.Card
import Mathlib.Data.Set.Finite.Basic
import Mathlib.Logic.Relation
import Mathlib.Order.WellFounded

/-!
# Recursion along a relation

A recursion that follows a relation from a start ends when the start is
accessible.  When only finitely many points can be reached, this says that no
cycle can be reached.
-/

namespace Ips

open Relation

variable {α : Type*} {r : α → α → Prop} {a b : α}

/-- Some cycle of the relation can be reached. -/
def ReachesCycle (r : α → α → Prop) (a : α) : Prop :=
  ∃ b, ReflTransGen r a b ∧ TransGen r b b

theorem acc_of_reflTransGen (hacc : Acc (Function.swap r) a)
    (hab : ReflTransGen r a b) : Acc (Function.swap r) b := by
  induction hab with
  | refl => exact hacc
  | tail _ hstep ih => exact ih.inv hstep

theorem not_transGen_self_of_acc (hacc : Acc (Function.swap r) a) :
    ¬ TransGen r a a := by
  have hswap : Acc (TransGen (Function.swap r)) a := hacc.transGen
  clear hacc
  intro hcycle
  induction hswap with
  | intro x _ ih => exact ih x (transGen_swap.mpr hcycle) hcycle

theorem not_reachesCycle_of_acc (hacc : Acc (Function.swap r) a) :
    ¬ ReachesCycle r a := by
  rintro ⟨b, hab, hcycle⟩
  exact not_transGen_self_of_acc (acc_of_reflTransGen hacc hab) hcycle

/-- Among finitely many points, without a cycle there is no endless path. -/
theorem acc_of_not_reachesCycle
    (hfinite : {b | ReflTransGen r a b}.Finite)
    (hcycle : ¬ ReachesCycle r a) : Acc (Function.swap r) a := by
  let S := {b | ReflTransGen r a b}
  have : Finite S := hfinite
  let below : S → S → Prop := fun x y => TransGen r y.1 x.1
  have : IsTrans S below := ⟨fun x y z hxy hyz => hyz.trans hxy⟩
  have : Std.Irrefl below := ⟨fun x hx => hcycle ⟨x.1, x.2, hx⟩⟩
  have hwf : WellFounded below := Finite.wellFounded_of_trans_of_irrefl below
  have hall : ∀ x : S, Acc (Function.swap r) x.1 := by
    intro x
    induction x using hwf.induction with
    | _ x ih =>
        apply Acc.intro
        intro c hc
        exact ih ⟨c, x.2.tail hc⟩ (.single hc)
  exact hall ⟨a, .refl⟩

/-- A bound for each element of a list gives a bound for all of them. -/
theorem exists_common_bound {P : ℕ → α → Prop}
    (hmono : ∀ n m x, n ≤ m → P n x → P m x) {xs : List α}
    (h : ∀ x ∈ xs, ∃ n, P n x) : ∃ n, ∀ x ∈ xs, P n x := by
  induction xs with
  | nil => exact ⟨0, by simp⟩
  | cons x xs ih =>
      obtain ⟨n, hn⟩ := h x List.mem_cons_self
      obtain ⟨m, hm⟩ := ih fun y hy => h y (List.mem_cons_of_mem x hy)
      refine ⟨max n m, ?_⟩
      intro y hy
      rcases List.mem_cons.mp hy with rfl | hy
      · exact hmono n _ y (le_max_left n m) hn
      · exact hmono m _ y (le_max_right n m) (hm y hy)

end Ips
