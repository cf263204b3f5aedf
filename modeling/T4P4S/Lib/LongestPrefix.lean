/-
The longest of the rules that match.

`best m len rules` is the rule, among those of the list that satisfy `m`, of
greatest `len`; of several such rules it is the first one.  With the rules of a
prefix table listed from the newest to the oldest, it is the rule that a lookup
finds.

* **`best_eq_some_iff`**, **`best_eq_none_iff`** — which rule it is;
* **`best_map`**, **`best_congr`** — the rules may be written in another way.
-/
import Mathlib.Order.Basic
import Mathlib.Order.Nat
import Mathlib.Tactic.Common

namespace LongestPrefix

variable {ρ σ : Type*}

def best (m : ρ → Bool) (len : ρ → ℕ) : List ρ → Option ρ
  | [] => none
  | r :: rules =>
    match best m len rules with
    | none => if m r then some r else none
    | some r' => if m r && decide (len r' ≤ len r) then some r else some r'

@[simp] theorem best_nil (m : ρ → Bool) (len : ρ → ℕ) : best m len [] = none := rfl

theorem best_cons (m : ρ → Bool) (len : ρ → ℕ) (r : ρ) (rules : List ρ) :
    best m len (r :: rules) =
      match best m len rules with
      | none => if m r then some r else none
      | some r' => if m r && decide (len r' ≤ len r) then some r else some r' :=
  rfl

theorem best_map (f : σ → ρ) (m : ρ → Bool) (len : ρ → ℕ) (rules : List σ) :
    best m len (rules.map f) =
      (best (fun r => m (f r)) (fun r => len (f r)) rules).map f := by
  induction rules with
  | nil => rfl
  | cons r rules ih =>
    rw [List.map_cons, best_cons, best_cons, ih]
    cases best (fun r => m (f r)) (fun r => len (f r)) rules with
    | none =>
      show (if m (f r) then _ else _) = Option.map f (if m (f r) then _ else _)
      split_ifs <;> rfl
    | some r' =>
      show (if m (f r) && decide (len (f r') ≤ len (f r)) then _ else _) =
        Option.map f (if m (f r) && decide (len (f r') ≤ len (f r)) then _ else _)
      split_ifs <;> rfl

theorem best_congr {m m' : ρ → Bool} {len : ρ → ℕ} {rules : List ρ}
    (h : ∀ r ∈ rules, m r = m' r) : best m len rules = best m' len rules := by
  induction rules with
  | nil => rfl
  | cons r rules ih =>
    rw [best_cons, best_cons, ih fun x hx => h x (List.mem_cons_of_mem r hx), h r List.mem_cons_self]

theorem best_eq_none_iff {m : ρ → Bool} {len : ρ → ℕ} {rules : List ρ} :
    best m len rules = none ↔ ∀ r ∈ rules, m r = false := by
  induction rules with
  | nil => simp
  | cons r rules ih =>
    rw [best_cons, List.forall_mem_cons, ← ih]
    cases best m len rules with
    | none =>
      show (if m r then some r else none) = none ↔ _
      cases m r <;> simp
    | some r' =>
      show (if m r && decide (len r' ≤ len r) then some r else some r') = none ↔ _
      split_ifs <;> simp

/-- The best rule matches, is at least as long as every other rule that matches,
and longer than those before it. -/
theorem best_eq_some {m : ρ → Bool} {len : ρ → ℕ} {rules : List ρ} {r : ρ}
    (h : best m len rules = some r) :
    ∃ newer older, rules = newer ++ r :: older ∧ m r = true ∧
      (∀ x ∈ newer, m x = true → len x < len r) ∧
      ∀ x ∈ older, m x = true → len x ≤ len r := by
  induction rules generalizing r with
  | nil => simp at h
  | cons y rules ih =>
    rw [best_cons] at h
    cases hrest : best m len rules with
    | none =>
      -- No older rule matches, so the newest one is the best if it matches.
      have hno := best_eq_none_iff.mp hrest
      simp only [hrest, Option.ite_none_right_eq_some, Option.some.injEq] at h
      obtain ⟨hm, rfl⟩ := h
      refine ⟨[], rules, rfl, hm, by simp, ?_⟩
      intro x hx hmx
      rw [hno x hx] at hmx
      contradiction
    | some r' =>
      obtain ⟨newer, older, hrules, hm', hnewer, holder⟩ := ih hrest
      simp only [hrest] at h
      -- The newest rule wins over the best of the others if it is at least as long.
      by_cases hy : m y && decide (len r' ≤ len y)
      · rw [if_pos hy] at h
        obtain rfl := Option.some.inj h
        obtain ⟨hmy, hlen⟩ := Bool.and_eq_true_iff.mp hy
        have hlen' := of_decide_eq_true hlen
        refine ⟨[], rules, rfl, hmy, by simp, ?_⟩
        intro x hx hmx
        rw [hrules, List.mem_append, List.mem_cons] at hx
        rcases hx with hx | rfl | hx
        · exact (Nat.le_of_lt (hnewer x hx hmx)).trans hlen'
        · exact hlen'
        · exact (holder x hx hmx).trans hlen'
      · rw [if_neg hy] at h
        obtain rfl := Option.some.inj h
        refine ⟨y :: newer, older, by rw [hrules]; rfl, hm', ?_, holder⟩
        rw [List.forall_mem_cons]
        refine ⟨?_, hnewer⟩
        intro hmy
        simp only [hmy, Bool.true_and, decide_eq_true_eq] at hy
        exact not_le.mp hy

theorem best_eq_some_iff {m : ρ → Bool} {len : ρ → ℕ} {rules : List ρ} {r : ρ} :
    best m len rules = some r ↔
      ∃ newer older, rules = newer ++ r :: older ∧ m r = true ∧
        (∀ x ∈ newer, m x = true → len x < len r) ∧
        ∀ x ∈ older, m x = true → len x ≤ len r := by
  refine ⟨best_eq_some, ?_⟩
  rintro ⟨newer, older, rfl, hm, hnewer, holder⟩
  have hfrom : best m len (r :: older) = some r := by
    rw [best_cons]
    cases hrest : best m len older with
    | none => exact if_pos hm
    | some r' =>
      obtain ⟨n, o, ho, hm', -⟩ := best_eq_some hrest
      have hle := holder r' (by simp [ho]) hm'
      simp [hm, hle]
  -- the rules in front of it are shorter or do not match
  induction newer with
  | nil => exact hfrom
  | cons y newer ih =>
    rw [List.forall_mem_cons] at hnewer
    have hy : (m y && decide (len r ≤ len y)) = false := by
      cases hmy : m y with
      | false => rfl
      | true => simpa using hnewer.1 hmy
    rw [List.cons_append, best_cons, ih hnewer.2]
    exact if_neg (by simp [hy])

end LongestPrefix
