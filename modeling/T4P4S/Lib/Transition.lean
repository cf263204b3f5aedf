/-
Systems that take step after step, and what holds in every state they reach.

* **`System.Inductive.reachable`** — what holds at the start and is kept by each
  step holds in every reachable state;
* **`eventually_not_of_rank`** — a condition ends for good, if a rank that never rises
  falls again and again as long as it holds.
-/
import Mathlib.Order.Monotone.Basic
import Mathlib.Order.WellFounded
import Mathlib.Tactic.Common

namespace Transition

/-- The states a system may start in, and the steps it may take. -/
structure System (σ : Type*) where
  init : σ → Prop
  step : σ → σ → Prop

namespace System

variable {σ : Type*} {S : System σ}

variable (S) in
/-- The states that some run gets to. -/
inductive Reachable : σ → Prop
  | init {s : σ} (h : S.init s) : Reachable s
  | step {s s' : σ} (hs : Reachable s) (h : S.step s s') : Reachable s'

variable (S) in
/-- `P` holds at the start and is kept by every step. -/
structure Inductive (P : σ → Prop) : Prop where
  init : ∀ s, S.init s → P s
  step : ∀ s s', P s → S.step s s' → P s'

theorem Inductive.reachable {P : σ → Prop} (hP : S.Inductive P) {s : σ} (hs : S.Reachable s) :
    P s := by
  induction hs with
  | init h => exact hP.init _ h
  | step _ h ih => exact hP.step _ _ ih h

end System

/-! ### Ranks -/

theorem eventually_not_of_rank {σ : Type*} {P : σ → Prop} (rank : σ → ℕ) {run : ℕ → σ}
    (hle : ∀ n, rank (run (n + 1)) ≤ rank (run n))
    (hlt : ∀ n, P (run n) → ∃ m ≥ n, rank (run (m + 1)) < rank (run m)) :
    ∃ N, ∀ n ≥ N, ¬ P (run n) := by
  have hanti : Antitone fun n => rank (run n) := antitone_nat_of_succ_le hle
  -- From where the rank is lowest, it cannot fall any more.
  refine ⟨Function.argmin fun n => rank (run n), ?_⟩
  intro n hn hP
  obtain ⟨m, hm, hfall⟩ := hlt n hP
  have hmin := Function.argmin_le (fun n => rank (run n)) (m + 1)
  have hmax := hanti (le_trans hn hm)
  exact absurd (hfall.trans_le hmax) (not_lt.mpr hmin)

end Transition
