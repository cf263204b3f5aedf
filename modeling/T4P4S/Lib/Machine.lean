/-
Machines that take one step after another until they stop, and two runs of such a
machine side by side.

* **`Machine.run_invariant`** — what each step keeps holds where a run ends;
* **`Machine.run_rel`** — two runs stay related, and stop together, when each step
  from related states leads to related states.  The step may be taken to meet a
  condition, if the condition holds along both runs.
-/
import Mathlib.Data.Nat.Notation
import Mathlib.Tactic.Common

/-- A machine: where it stops, and its step, `none` if it gets stuck. -/
structure Machine (σ : Type*) where
  stopped : σ → Bool
  step : σ → Option σ

namespace Machine

/-! ### Results that are related -/

section Rel

variable {α β γ δ : Type*} {r : α → β → Prop} {r' : γ → δ → Prop} {x : Option α} {y : Option β}

theorem rel_map {f : α → γ} {g : β → δ} (h : Option.Rel r x y)
    (hfg : ∀ a b, r a b → r' (f a) (g b)) : Option.Rel r' (x.map f) (y.map g) := by
  cases h with
  | none => exact .none
  | some hr => exact .some (hfg _ _ hr)

end Rel

/-! ### Runs -/

variable {σ : Type*} (M : Machine σ)

/-- The state in which the machine stops, if it does so in less than `fuel` steps. -/
def run : ℕ → σ → Option σ
  | 0, _ => none
  | fuel + 1, s => if M.stopped s then some s else (M.step s).bind (run fuel)

theorem run_succ (fuel : ℕ) (s : σ) :
    M.run (fuel + 1) s = if M.stopped s then some s else (M.step s).bind (M.run fuel) :=
  rfl

/-- `P` holds in each state of the run, the last one included. -/
def Along (P : σ → Prop) : ℕ → σ → Prop
  | 0, _ => True
  | fuel + 1, s => P s ∧ (M.stopped s = false → ∀ s' ∈ M.step s, Along P fuel s')

instance Along.decidable (P : σ → Prop) [DecidablePred P] :
    (fuel : ℕ) → (s : σ) → Decidable (M.Along P fuel s)
  | 0, _ => isTrue trivial
  | fuel + 1, s =>
    have := Along.decidable P fuel
    inferInstanceAs (Decidable (P s ∧ (_ → ∀ s' ∈ M.step s, M.Along P fuel s')))

variable {M}

theorem run_invariant {P : σ → Prop} (hstep : ∀ s s', P s → M.step s = some s' → P s') :
    ∀ {fuel : ℕ} {s s' : σ}, P s → M.run fuel s = some s' → P s' := by
  intro fuel
  induction fuel with
  | zero => intro s s' _ hrun; cases hrun
  | succ fuel ih =>
    intro s s' hs hrun
    rw [run_succ] at hrun
    split at hrun
    · rwa [← Option.some_inj.mp hrun]
    · obtain ⟨s₁, hs₁, hrest⟩ := Option.bind_eq_some_iff.mp hrun
      exact ih (hstep s s₁ hs hs₁) hrest

/-- Two runs side by side.  The states in which they stop are related, and `P` holds
in both. -/
theorem run_rel {R : σ → σ → Prop} {P : σ → Prop}
    (hstopped : ∀ s₁ s₂, R s₁ s₂ → M.stopped s₁ = M.stopped s₂)
    (hstep : ∀ s₁ s₂, R s₁ s₂ → M.stopped s₁ = false → P s₁ → P s₂ →
      Option.Rel R (M.step s₁) (M.step s₂)) :
    ∀ {fuel : ℕ} {s₁ s₂ : σ}, R s₁ s₂ → M.Along P fuel s₁ → M.Along P fuel s₂ →
      Option.Rel (fun s₁ s₂ => R s₁ s₂ ∧ M.stopped s₁ = true ∧ P s₁ ∧ P s₂)
        (M.run fuel s₁) (M.run fuel s₂) := by
  intro fuel
  induction fuel with
  | zero => intro s₁ s₂ _ _ _; exact .none
  | succ fuel ih =>
    rintro s₁ s₂ hR ⟨hP₁, hrest₁⟩ ⟨hP₂, hrest₂⟩
    have hsame := hstopped s₁ s₂ hR
    rw [run_succ, run_succ, ← hsame]
    cases hstop : M.stopped s₁ with
    | true => exact .some ⟨hR, hstop, hP₁, hP₂⟩
    | false =>
      have hsteps := hstep s₁ s₂ hR hstop hP₁ hP₂
      rw [hsame] at hstop
      generalize h₁ : M.step s₁ = o₁ at hsteps ⊢
      generalize h₂ : M.step s₂ = o₂ at hsteps ⊢
      cases hsteps with
      | none => exact .none
      | some hR' => exact ih hR' (hrest₁ (hsame ▸ hstop) _ h₁) (hrest₂ hstop _ h₂)

end Machine
