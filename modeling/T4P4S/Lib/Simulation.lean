/-
Systems whose steps show events, and when one of them does what another one allows.

* **`Simulates.trace`** — what a system shows, a system that simulates it shows too.
-/
import Mathlib.Data.List.Basic
import Mathlib.Tactic.Common

namespace Transition

/-- The states a system may start in, and the steps it may take; a step with the label
`none` shows nothing. -/
structure LabelledSystem (σ E : Type*) where
  init : σ → Prop
  step : σ → Option E → σ → Prop

namespace LabelledSystem

variable {σ τ E : Type*} (S : LabelledSystem σ E) (A : LabelledSystem τ E)

/-- The events that some run shows, and the state it gets to. -/
inductive Trace : List E → σ → Prop
  | init {s : σ} (h : S.init s) : Trace [] s
  | step {tr : List E} {s s' : σ} {l : Option E} (ht : Trace tr s) (h : S.step s l s') :
      Trace (tr ++ l.toList) s'

/-- Each step of `S` is a step of `A` with the same label, or is not seen at all. -/
structure Simulates (R : σ → τ → Prop) : Prop where
  init : ∀ s, S.init s → ∃ a, A.init a ∧ R s a
  step : ∀ s l s' a, R s a → S.step s l s' →
    ∃ a', (A.step a l a' ∨ l = none ∧ a' = a) ∧ R s' a'

variable {S A}

theorem Simulates.trace {R : σ → τ → Prop} (h : S.Simulates A R) {tr : List E} {s : σ}
    (ht : S.Trace tr s) : ∃ a, A.Trace tr a ∧ R s a := by
  induction ht with
  | init hs =>
    obtain ⟨a, ha, hR⟩ := h.init _ hs
    exact ⟨a, .init ha, hR⟩
  | step _ hstep ih =>
    obtain ⟨a, ha, hR⟩ := ih
    obtain ⟨a', hstep' | ⟨rfl, rfl⟩, hR'⟩ := h.step _ _ _ _ hR hstep
    · exact ⟨a', .step ha hstep', hR'⟩
    · refine ⟨a', ?_, hR'⟩
      rw [Option.toList_none, List.append_nil]
      exact ha

end LabelledSystem

end Transition
