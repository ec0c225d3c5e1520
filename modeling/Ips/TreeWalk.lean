import Mathlib.Data.List.TakeDrop
import Mathlib.Data.List.Infix

/-!
# Walks in a tree

A node of a tree is given by the names on the way to it from the root.  A walk
goes up, where the root is its own parent, or down by a name.  Seen from its
start, a walk is described by how far it has climbed above the start and by the
names of the way down from there; this decides whether it ends below the start.
-/

namespace Ips.TreeWalk

variable {α : Type}

inductive Move (α : Type) where
  | up
  | down (name : α)
  deriving DecidableEq

def Move.apply (node : List α) : Move α → List α
  | .up => node.dropLast
  | .down name => node ++ [name]

def walk (start : List α) (moves : List (Move α)) : List α :=
  moves.foldl Move.apply start

structure Trace (α : Type) where
  climbed : ℕ := 0
  names : List α := []

def Trace.extend (t : Trace α) : Move α → Trace α
  | .up =>
      match t.names with
      | [] => { t with climbed := t.climbed + 1 }
      | _ :: _ => { t with names := t.names.dropLast }
  | .down name => { t with names := t.names ++ [name] }

def trace (moves : List (Move α)) : Trace α := moves.foldl Trace.extend {}

/-- The node that a trace leads to from a start. -/
def Trace.target (start : List α) (t : Trace α) : List α :=
  start.take (start.length - t.climbed) ++ t.names

theorem Trace.target_extend (start : List α) (t : Trace α) (move : Move α) :
    (t.extend move).target start = move.apply (t.target start) := by
  cases move with
  | down name => simp [extend, target, Move.apply]
  | up =>
      unfold extend target Move.apply
      cases t.names with
      | nil =>
          dsimp only
          rw [List.append_nil, List.append_nil, List.dropLast_eq_take,
            List.take_take, List.length_take]
          congr 1
          omega
      | cons name names =>
          exact (List.dropLast_append_of_ne_nil (by simp)).symm

theorem walk_eq_target (start : List α) (moves : List (Move α)) :
    walk start moves = (trace moves).target start := by
  unfold walk trace
  induction moves using List.reverseRecOn with
  | nil => simp [Trace.target]
  | append_singleton moves move ih =>
      rw [List.foldl_append, List.foldl_append, List.foldl_cons,
        List.foldl_nil, List.foldl_cons, List.foldl_nil,
        Trace.target_extend, ih]

/-- A walk ends below its start exactly when the names that it climbed out of
are spelled again on its way down. -/
theorem prefix_walk_iff (start : List α) (moves : List (Move α)) :
    start <+: walk start moves ↔
      start.drop (start.length - (trace moves).climbed) <+:
        (trace moves).names := by
  rw [walk_eq_target, Trace.target]
  nth_rewrite 1 [← List.take_append_drop
    (start.length - (trace moves).climbed) start]
  exact List.prefix_append_right_inj _

theorem walk_root (moves : List (Move α)) :
    walk [] moves = (trace moves).names := by
  rw [walk_eq_target, Trace.target, List.take_nil, List.nil_append]

theorem climbed_of_no_up {moves : List (Move α)} (h : Move.up ∉ moves) :
    (trace moves).climbed = 0 := by
  unfold trace
  induction moves using List.reverseRecOn with
  | nil => rfl
  | append_singleton moves move ih =>
      rw [List.foldl_append, List.foldl_cons, List.foldl_nil]
      cases move with
      | up => simp at h
      | down name => exact ih fun hmem => h (by simp [hmem])

theorem walk_of_no_up {moves : List (Move α)} (h : Move.up ∉ moves)
    (start : List α) : walk start moves = start ++ (trace moves).names := by
  rw [walk_eq_target, Trace.target, climbed_of_no_up h, Nat.sub_zero,
    List.take_length]

end Ips.TreeWalk
