/-
Bounded queues: what a queue with room for a number of elements answers to the
operations on it.

* **`accepted_eq_returned`** — the elements that a run accepts are those that it
  returns, in order, followed by those that it leaves in the queue.
-/
import Mathlib.Data.List.Basic
import Mathlib.Tactic.Common

namespace Queue

variable {α : Type*}

inductive Op (α : Type*)
  | add (element : α)
  | remove
  deriving DecidableEq

/-- The answer to an operation: whether an element was taken, or the element returned. -/
inductive Answer (α : Type*)
  | added (ok : Bool)
  | removed (element : Option α)
  deriving DecidableEq

/-- A queue for `capacity` elements. -/
def step (capacity : ℕ) (queue : List α) : Op α → List α × Answer α
  | .add element =>
    if queue.length < capacity then (queue ++ [element], .added true) else (queue, .added false)
  | .remove => (queue.tail, .removed queue.head?)

/-- A run of any machine that answers operations, with its answers. -/
def run {σ : Type*} (step : σ → Op α → σ × Answer α) : σ → List (Op α) → σ × List (Answer α)
  | s, [] => (s, [])
  | s, op :: ops => ((run step (step s op).1 ops).1, (step s op).2 :: (run step (step s op).1 ops).2)

/-- The elements of the adds that were answered with success. -/
def accepted : List (Op α) → List (Answer α) → List α
  | .add element :: ops, .added true :: answers => element :: accepted ops answers
  | _ :: ops, _ :: answers => accepted ops answers
  | _, _ => []

/-- The elements that were returned. -/
def returned (answers : List (Answer α)) : List α :=
  answers.filterMap fun
    | .removed element => element
    | .added _ => none

section Run

variable {σ : Type*} (step : σ → Op α → σ × Answer α)

theorem run_append (s : σ) (ops ops' : List (Op α)) :
    run step s (ops ++ ops') =
      ((run step (run step s ops).1 ops').1,
        (run step s ops).2 ++ (run step (run step s ops).1 ops').2) := by
  induction ops generalizing s with
  | nil => rfl
  | cons op ops ih =>
    rw [List.cons_append, run, ih]
    rfl

end Run

theorem accepted_eq_returned (capacity : ℕ) (queue : List α) (ops : List (Op α)) :
    queue ++ accepted ops (run (step capacity) queue ops).2 =
      returned (run (step capacity) queue ops).2 ++ (run (step capacity) queue ops).1 := by
  induction ops generalizing queue with
  | nil => exact List.append_nil queue
  | cons op ops ih =>
    cases op with
    | add element =>
      rw [run, step]
      split_ifs with hlt
      · have h := ih (queue ++ [element])
        rwa [List.append_assoc] at h
      · exact ih queue
    | remove =>
      rw [run, step]
      cases queue with
      | nil => exact ih []
      | cons x queue => exact congrArg (List.cons x) (ih queue)

/-- As many removes as there are elements return them all. -/
theorem run_removes (capacity : ℕ) {queue : List α} {n : ℕ} (hn : queue.length ≤ n) :
    (run (step capacity) queue (List.replicate n .remove)).1 = [] := by
  induction n generalizing queue with
  | zero => exact List.length_eq_zero_iff.mp (Nat.le_zero.mp hn)
  | succ n ih =>
    rw [List.replicate_succ, run, step]
    refine ih ?_
    rw [List.length_tail]
    omega

theorem length_run_le {capacity : ℕ} {queue : List α} (h : queue.length ≤ capacity)
    (ops : List (Op α)) : (run (step capacity) queue ops).1.length ≤ capacity := by
  induction ops generalizing queue with
  | nil => exact h
  | cons op ops ih =>
    rw [run]
    refine ih ?_
    cases op with
    | add element =>
      rw [step]
      split_ifs with hlt
      · rw [List.length_append]
        exact hlt
      · exact h
    | remove =>
      rw [step, List.length_tail]
      omega

/-- When the queue has been emptied, what was accepted is what was returned. -/
theorem accepted_eq_returned_of_removes (capacity : ℕ) (ops : List (Op α)) :
    accepted (ops ++ List.replicate capacity .remove)
        (run (step capacity) [] (ops ++ List.replicate capacity .remove)).2 =
      returned (run (step capacity) [] (ops ++ List.replicate capacity .remove)).2 := by
  have h := accepted_eq_returned capacity [] (ops ++ List.replicate capacity .remove)
  have hempty : (run (step capacity) [] (ops ++ List.replicate capacity .remove)).1 = [] := by
    rw [run_append]
    exact run_removes capacity (length_run_le (Nat.zero_le _) ops)
  rwa [hempty, List.append_nil, List.nil_append] at h

end Queue
