/-
Programs whose operations may fail, run side by side with what they should do.

* **`Agrees.iff_along`** — a run agrees with its specification exactly if a condition
  holds of each operation, in the state that the specification is in, when that is so
  for single operations;
* **`foldlM_of_step`** — what every step keeps while it succeeds, the run keeps;
* **`along_congr`** — two conditions are the same along a run if they are in the states
  that satisfy an invariant of it.
-/
import Mathlib.Data.Nat.Notation
import Mathlib.Tactic.Common

namespace Lockstep

variable {σ τ α : Type*}

/-! ### Partial maps and folds -/

section Cells

variable {f : ℕ → Option α} {l : List α}

theorem map_range_eq (h : ∀ i < l.length, f i = l[i]?) :
    (List.range l.length).map f = l.map some := by
  refine List.ext_getElem (by rw [List.length_map, List.length_map, List.length_range]) ?_
  intro i _ hi
  rw [List.length_map] at hi
  rw [List.getElem_map, List.getElem_map, List.getElem_range, h i hi, List.getElem?_eq_getElem hi]

theorem filterMap_range_eq (h : ∀ i < l.length, f i = l[i]?) :
    (List.range l.length).filterMap f = l := by
  have hmap := congrArg (List.filterMap id) (map_range_eq h)
  rwa [List.filterMap_map, List.filterMap_map, Function.id_comp, Function.id_comp,
    List.filterMap_some] at hmap

theorem mapM_range_eq_some (h : ∀ i < l.length, f i = l[i]?) :
    (List.range l.length).mapM f = some l := by
  have hmap := congrArg (List.mapM (m := Option) id) (map_range_eq h)
  rw [List.mapM_map, List.mapM_map, Function.id_comp, Function.id_comp] at hmap
  refine hmap.trans ((List.mapM_pure (m := Option) (f := id)).trans ?_)
  rw [List.map_id]
  rfl

end Cells

/-- What each step can keep while it succeeds, the whole run keeps. -/
theorem foldlM_of_step {f : σ → α → Option σ} {P : σ → Prop} {l : List α}
    (hstep : ∀ a ∈ l, ∀ s, P s → ∃ s', f s a = some s' ∧ P s') {s : σ} (hs : P s) :
    ∃ s', l.foldlM f s = some s' ∧ P s' := by
  induction l generalizing s with
  | nil => exact ⟨s, rfl, hs⟩
  | cons a l ih =>
    obtain ⟨s₁, hs₁, hP₁⟩ := hstep a List.mem_cons_self s hs
    obtain ⟨s', hs', hP'⟩ := ih (fun b hb => hstep b (List.mem_cons_of_mem a hb)) hP₁
    refine ⟨s', ?_, hP'⟩
    rw [List.foldlM_cons, hs₁]
    exact hs'

/-! ### Runs and their specification -/

section Agrees

variable (step : σ → α → Option σ) (spec : τ → α → τ) (R : τ → σ → Prop)

/-- Each operation succeeds, and leads to a state related to the one it should lead to. -/
def Agrees : List α → τ → σ → Prop
  | [], _, _ => True
  | a :: l, t, s => ∃ s', step s a = some s' ∧ R (spec t a) s' ∧ Agrees l (spec t a) s'

/-- The condition holds of each operation, in the state in which it is made. -/
def Along (ok : τ → α → Prop) : List α → τ → Prop
  | [], _ => True
  | a :: l, t => ok t a ∧ Along ok l (spec t a)

instance Along.decidable (ok : τ → α → Prop) [∀ t a, Decidable (ok t a)] :
    (l : List α) → (t : τ) → Decidable (Along spec ok l t)
  | [], _ => isTrue trivial
  | a :: l, t =>
    have := Along.decidable ok l (spec t a)
    inferInstanceAs (Decidable (ok t a ∧ Along spec ok l (spec t a)))

variable {step spec R}

/-- A condition that does not look at the state. -/
theorem along_const {ok : α → Prop} {l : List α} {t : τ} :
    Along spec (fun _ => ok) l t ↔ ∀ a ∈ l, ok a := by
  induction l generalizing t with
  | nil => exact ⟨fun _ a ha => absurd ha List.not_mem_nil, fun _ => trivial⟩
  | cons a l ih =>
    rw [List.forall_mem_cons]
    exact and_congr_right fun _ => ih

theorem along_append {ok : τ → α → Prop} {l l' : List α} {t : τ} :
    Along spec ok (l ++ l') t ↔ Along spec ok l t ∧ Along spec ok l' (l.foldl spec t) := by
  induction l generalizing t with
  | nil => exact ⟨fun h => ⟨trivial, h⟩, And.right⟩
  | cons a l ih => exact (and_congr_right fun _ => ih).trans and_assoc.symm

/-- What a condition implies in the states that satisfy an invariant, it implies along the
run. -/
theorem Along.imp {P : τ → Prop} {ok ok' : τ → α → Prop}
    (hok : ∀ t a, P t → ok t a → ok' t a) (hstep : ∀ t a, P t → ok t a → P (spec t a))
    {l : List α} {t : τ} (hP : P t) (h : Along spec ok l t) :
    Along spec ok' l t ∧ P (l.foldl spec t) := by
  induction l generalizing t with
  | nil => exact ⟨trivial, hP⟩
  | cons a l ih =>
    obtain ⟨hoka, hrest⟩ := h
    obtain ⟨hrest', hend⟩ := ih (hstep t a hP hoka) hrest
    exact ⟨⟨hok t a hP hoka, hrest'⟩, hend⟩

/-- Two conditions that say the same in all states that the run can get to. -/
theorem along_congr {P : τ → Prop} {ok ok' : τ → α → Prop}
    (hok : ∀ t a, P t → (ok t a ↔ ok' t a)) (hstep : ∀ t a, P t → ok t a → P (spec t a))
    {l : List α} {t : τ} (hP : P t) : Along spec ok l t ↔ Along spec ok' l t := by
  constructor
  · exact fun h => (h.imp (fun t a hPt => (hok t a hPt).mp) hstep hP).1
  · intro h
    have hstep' : ∀ t a, P t → ok' t a → P (spec t a) := fun t a hPt hoka =>
      hstep t a hPt ((hok t a hPt).mpr hoka)
    exact (h.imp (fun t a hPt => (hok t a hPt).mpr) hstep' hP).1

theorem Agrees.iff_along {ok : τ → α → Prop}
    (hok : ∀ t s a, R t s → ((∃ s', step s a = some s' ∧ R (spec t a) s') ↔ ok t a))
    {l : List α} {t : τ} {s : σ} (hR : R t s) :
    Agrees step spec R l t s ↔ Along spec ok l t := by
  induction l generalizing t s with
  | nil => exact Iff.rfl
  | cons a l ih =>
    constructor
    · rintro ⟨s', hs', hR', hrest⟩
      exact ⟨(hok t s a hR).mp ⟨s', hs', hR'⟩, (ih hR').mp hrest⟩
    · rintro ⟨hoka, hrest⟩
      obtain ⟨s', hs', hR'⟩ := (hok t s a hR).mpr hoka
      exact ⟨s', hs', hR', (ih hR').mpr hrest⟩

end Agrees

end Lockstep
