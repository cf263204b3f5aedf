/-
Backtracking matchers for regular expressions with named groups.

`run` gives all the matches in front of a text in the order in which backtracking tries them,
so the match that such a matcher returns is the first one.

* **`Picks`** — a match, and what holds of those tried before it; the rules `Picks.seq`,
  `Picks.alt_left`, … find the match of an expression from those of its parts.
* `find?_of_picks` — a match with none before it is the one returned.
* `mem_run_seq`, `mem_run_many`, … — what a match has taken.
-/
import Mathlib.Data.List.Basic
import Mathlib.Tactic.Common

namespace Regex

variable {α γ : Type}

/-- A match: what the groups took, what was taken in all, and the text behind it. -/
structure Match (α γ : Type) where
  caps : List (γ × List α)
  taken : List α
  rest : List α

namespace Match

/-- `n` behind `m`. -/
def andThen (m n : Match α γ) : Match α γ := ⟨m.caps ++ n.caps, m.taken ++ n.taken, n.rest⟩

def capture (g : γ) (m : Match α γ) : Match α γ := { m with caps := (g, m.taken) :: m.caps }

/-- What the group took; nothing, where it took no part. -/
def group [BEq γ] (m : Match α γ) (g : γ) : List α := (m.caps.lookup g).getD []

@[simp] theorem capture_rest (g : γ) (m : Match α γ) : (m.capture g).rest = m.rest := rfl

end Match

/-- A regular expression with groups `γ`.  `many` repeats one character class, greedily, and
`ahead` tests the text that is left. -/
inductive Re (α γ : Type)
  | eps
  | char (p : α → Bool)
  | many (p : α → Bool)
  | seq (r r' : Re α γ)
  | alt (r r' : Re α γ)
  | group (g : γ) (r : Re α γ)
  | ahead (p : List α → Bool)

namespace Re

/-- A greedy option. -/
def opt (r : Re α γ) : Re α γ := alt r eps

/-- One or more characters of a class, greedily. -/
def plus (p : α → Bool) : Re α γ := seq (char p) (many p)

/-- A fixed text. -/
def lit [BEq α] : List α → Re α γ
  | [] => eps
  | c :: s => seq (char (· == c)) (lit s)

end Re

open Re

/-- The greedy repetition: the longest one first. -/
def runMany (p : α → Bool) : List α → List (Match α γ)
  | [] => [⟨[], [], []⟩]
  | c :: s =>
    if p c then (runMany p s).map (Match.andThen ⟨[], [c], s⟩) ++ [⟨[], [], c :: s⟩]
    else [⟨[], [], c :: s⟩]

/-- The matches in front of a text, in the order in which they are tried. -/
def run : Re α γ → List α → List (Match α γ)
  | eps, s => [⟨[], [], s⟩]
  | char _, [] => []
  | char p, c :: s => if p c then [⟨[], [c], s⟩] else []
  | many p, s => runMany p s
  | seq r r', s => (run r s).flatMap fun m => (run r' m.rest).map m.andThen
  | alt r r', s => run r s ++ run r' s
  | group g r, s => (run r s).map (Match.capture g)
  | ahead p, s => if p s then [⟨[], [], s⟩] else []

theorem runMany_cons (p : α → Bool) (c : α) (s : List α) :
    runMany (γ := γ) p (c :: s) =
      if p c then (runMany p s).map (Match.andThen ⟨[], [c], s⟩) ++ [⟨[], [], c :: s⟩]
      else [⟨[], [], c :: s⟩] :=
  rfl

section

variable (r r' : Re α γ) (s : List α)

theorem run_char_cons (p : α → Bool) (c : α) :
    run (γ := γ) (char p) (c :: s) = if p c then [⟨[], [c], s⟩] else [] :=
  rfl

theorem run_many (p : α → Bool) : run (γ := γ) (many p) s = runMany p s := rfl

theorem run_seq :
    run (seq r r') s = (run r s).flatMap fun m => (run r' m.rest).map m.andThen :=
  rfl

theorem run_alt : run (alt r r') s = run r s ++ run r' s := rfl

theorem run_group (g : γ) : run (group g r) s = (run r s).map (Match.capture g) := rfl

end

/-- The match that is found. -/
def find? (r : Re α γ) (s : List α) : Option (Match α γ) := (run r s).head?

/-! ### What a match has taken -/

variable {r r' : Re α γ} {s : List α} {m : Match α γ} {p : α → Bool}

theorem mem_run_seq :
    m ∈ run (seq r r') s ↔ ∃ x ∈ run r s, ∃ y ∈ run r' x.rest, x.andThen y = m := by
  simp only [run_seq, List.mem_flatMap, List.mem_map]

theorem mem_run_alt : m ∈ run (alt r r') s ↔ m ∈ run r s ∨ m ∈ run r' s := List.mem_append

theorem mem_run_group {g : γ} : m ∈ run (group g r) s ↔ ∃ x ∈ run r s, x.capture g = m :=
  List.mem_map

theorem mem_run_char : m ∈ run (char p) s ↔ ∃ c, p c ∧ s = c :: m.rest ∧ m = ⟨[], [c], m.rest⟩ := by
  cases s with
  | nil => exact iff_of_false List.not_mem_nil fun ⟨_, _, h, _⟩ => nomatch h
  | cons c s =>
    rw [run_char_cons]
    constructor
    · intro h
      split at h
      · next hc =>
        obtain rfl := List.mem_singleton.mp h
        exact ⟨c, hc, rfl, rfl⟩
      · exact absurd h List.not_mem_nil
    · rintro ⟨d, hd, heq, hm⟩
      obtain ⟨rfl, rfl⟩ := List.cons.inj heq
      rw [if_pos hd]
      exact List.mem_singleton.mpr hm

theorem mem_run_many (h : m ∈ run (many p) s) :
    s = m.taken ++ m.rest ∧ (∀ c ∈ m.taken, p c) ∧ m.caps = [] := by
  rw [run_many] at h
  induction s generalizing m with
  | nil =>
    obtain rfl := List.mem_singleton.mp h
    exact ⟨rfl, fun c hc => absurd hc List.not_mem_nil, rfl⟩
  | cons c s ih =>
    have hstop : m = ⟨[], [], c :: s⟩ →
        c :: s = m.taken ++ m.rest ∧ (∀ c ∈ m.taken, p c) ∧ m.caps = [] := by
      rintro rfl
      exact ⟨rfl, fun c hc => absurd hc List.not_mem_nil, rfl⟩
    rw [runMany_cons] at h
    split at h
    · next hc =>
      rcases List.mem_append.mp h with h | h
      · obtain ⟨x, hx, rfl⟩ := List.mem_map.mp h
        obtain ⟨rfl, hall, hcaps⟩ := ih hx
        exact ⟨rfl, List.forall_mem_cons.mpr ⟨hc, hall⟩, hcaps⟩
      · exact hstop (List.mem_singleton.mp h)
    · exact hstop (List.mem_singleton.mp h)

theorem mem_run_plus (h : m ∈ run (plus p) s) :
    s = m.taken ++ m.rest ∧ m.taken ≠ [] ∧ ∀ c ∈ m.taken, p c := by
  obtain ⟨x, hx, y, hy, rfl⟩ := mem_run_seq.mp h
  obtain ⟨c, hc, rfl, hxeq⟩ := mem_run_char.mp hx
  obtain ⟨hrest, hall, -⟩ := mem_run_many hy
  rw [hxeq, Match.andThen]
  exact ⟨congrArg (c :: ·) hrest, List.cons_ne_nil _ _, List.forall_mem_cons.mpr ⟨hc, hall⟩⟩

/-- Nothing is matched where the first character is in no class that may come first. -/
theorem run_char_nil (hs : ∀ c ∈ s.head?, ¬ p c) : run (char (γ := γ) p) s = [] := by
  cases s with
  | nil => rfl
  | cons c s => exact if_neg (hs c rfl)

theorem run_seq_nil (h : run r s = []) (r' : Re α γ) : run (seq r r') s = [] := by
  rw [run_seq, h, List.flatMap_nil]

theorem run_lit_nil [BEq α] [LawfulBEq α] {c : α} (hs : s.head? ≠ some c) (t : List α) :
    run (lit (γ := γ) (c :: t)) s = [] :=
  run_seq_nil (run_char_nil fun _ hd heq => hs (hd.trans (congrArg some (beq_iff_eq.mp heq)))) _

theorem mem_run_lit [BEq α] [LawfulBEq α] {t : List α} (h : m ∈ run (lit t) s) :
    s = t ++ m.rest := by
  induction t generalizing s m with
  | nil =>
    obtain rfl := List.mem_singleton.mp h
    rfl
  | cons c t ih =>
    obtain ⟨x, hx, y, hy, rfl⟩ := mem_run_seq.mp h
    obtain ⟨_, hd, hs, -⟩ := mem_run_char.mp hx
    rw [hs, beq_iff_eq.mp hd, ih hy]
    rfl

/-! ### The match that is found -/

/-- `m` is a match, and `P` holds of the ones tried before it. -/
def Picks (r : Re α γ) (s : List α) (P : Match α γ → Prop) (m : Match α γ) : Prop :=
  ∃ before behind, run r s = before ++ m :: behind ∧ ∀ x ∈ before, P x

theorem find?_of_picks (h : Picks r s (fun _ => False) m) : find? r s = some m := by
  obtain ⟨before, behind, hrun, hbefore⟩ := h
  have hnil : before = [] := List.eq_nil_iff_forall_not_mem.mpr hbefore
  rw [find?, hrun, hnil]
  rfl

namespace Picks

variable {P Q : Match α γ → Prop}

theorem mono (h : Picks r s P m) (hPQ : ∀ x, P x → Q x) : Picks r s Q m := by
  obtain ⟨before, behind, hrun, hbefore⟩ := h
  exact ⟨before, behind, hrun, fun x hx => hPQ x (hbefore x hx)⟩

theorem of_run (h : run r s = [m]) : Picks r s P m :=
  ⟨[], [], h, fun _ hx => absurd hx List.not_mem_nil⟩

theorem eps : Picks eps s P ⟨[], [], s⟩ := of_run rfl

theorem char {c : α} (hc : p c) (s : List α) : Picks (char p) (c :: s) P ⟨[], [c], s⟩ :=
  of_run (if_pos hc)

theorem ahead {p : List α → Bool} (hs : p s) : Picks (ahead p) s P ⟨[], [], s⟩ :=
  of_run (if_pos hs)

/-- Behind an earlier match of the first part all matches of the second one are earlier, too. -/
theorem seq {n : Match α γ}
    (hm : Picks r s (fun x => ∀ y ∈ run r' x.rest, P (x.andThen y)) m)
    (hn : Picks r' m.rest (fun y => P (m.andThen y)) n) :
    Picks (seq r r') s P (m.andThen n) := by
  obtain ⟨before, behind, hrun, hbefore⟩ := hm
  obtain ⟨before', behind', hrun', hbefore'⟩ := hn
  refine ⟨before.flatMap (fun x => (run r' x.rest).map x.andThen) ++ before'.map m.andThen,
    behind'.map m.andThen ++ behind.flatMap fun x => (run r' x.rest).map x.andThen, ?_, ?_⟩
  · rw [run_seq, hrun, List.flatMap_append, List.flatMap_cons, hrun', List.map_append, List.map_cons]
    simp only [List.append_assoc, List.cons_append]
  · intro z hz
    rcases List.mem_append.mp hz with hz | hz
    · obtain ⟨x, hx, hz⟩ := List.mem_flatMap.mp hz
      obtain ⟨y, hy, rfl⟩ := List.mem_map.mp hz
      exact hbefore x hx y hy
    · obtain ⟨y, hy, rfl⟩ := List.mem_map.mp hz
      exact hbefore' y hy

theorem alt_left (h : Picks r s P m) (r' : Re α γ) : Picks (alt r r') s P m := by
  obtain ⟨before, behind, hrun, hbefore⟩ := h
  refine ⟨before, behind ++ run r' s, ?_, hbefore⟩
  rw [run_alt, hrun, List.append_assoc, List.cons_append]

theorem alt_right (hr : ∀ x ∈ run r s, P x) (h : Picks r' s P m) : Picks (alt r r') s P m := by
  obtain ⟨before, behind, hrun, hbefore⟩ := h
  refine ⟨run r s ++ before, behind, ?_, fun x hx => ?_⟩
  · rw [run_alt, hrun, List.append_assoc]
  · rcases List.mem_append.mp hx with hx | hx
    · exact hr x hx
    · exact hbefore x hx

theorem opt_some (h : Picks r s P m) : Picks (opt r) s P m := alt_left h _

theorem opt_none (hr : ∀ x ∈ run r s, P x) : Picks (opt r) s P ⟨[], [], s⟩ := alt_right hr eps

theorem group {g : γ} (h : Picks r s (fun x => P (x.capture g)) m) :
    Picks (group g r) s P (m.capture g) := by
  obtain ⟨before, behind, hrun, hbefore⟩ := h
  refine ⟨before.map (Match.capture g), behind.map (Match.capture g), ?_, fun x hx => ?_⟩
  · rw [run_group, hrun, List.map_append, List.map_cons]
  · obtain ⟨y, hy, rfl⟩ := List.mem_map.mp hx
    exact hbefore y hy

/-- The repetition may end in front of `s`, if `P` holds of those that go on. -/
theorem many {u : List α} (hu : ∀ c ∈ u, p c)
    (hs : ∀ v w, v ≠ [] → s = v ++ w → (∀ c ∈ v, p c) → P ⟨[], u ++ v, w⟩) :
    Picks (many p) (u ++ s) P ⟨[], u, s⟩ := by
  induction u generalizing P with
  | nil =>
    cases s with
    | nil => exact of_run rfl
    | cons c s =>
      by_cases hc : p c
      · refine ⟨(runMany p s).map (Match.andThen ⟨[], [c], s⟩), [], if_pos hc, fun x hx => ?_⟩
        obtain ⟨y, hy, rfl⟩ := List.mem_map.mp hx
        obtain ⟨rfl, hall, hcaps⟩ := mem_run_many hy
        have hP := hs (c :: y.taken) y.rest (List.cons_ne_nil _ _) rfl
          (List.forall_mem_cons.mpr ⟨hc, hall⟩)
        rwa [Match.andThen, hcaps]
      · exact of_run (if_neg hc)
  | cons c u ih =>
    obtain ⟨hc, hu⟩ := List.forall_mem_cons.mp hu
    obtain ⟨before, behind, hrun, hbefore⟩ :=
      ih (P := fun x => P (Match.andThen ⟨[], [c], u ++ s⟩ x)) hu hs
    refine ⟨before.map (Match.andThen ⟨[], [c], u ++ s⟩),
      behind.map (Match.andThen ⟨[], [c], u ++ s⟩) ++ [⟨[], [], c :: (u ++ s)⟩], ?_, ?_⟩
    · have hmany : runMany p (u ++ s) = before ++ ⟨[], u, s⟩ :: behind := hrun
      rw [List.cons_append, run_many, runMany_cons, if_pos hc, hmany, List.map_append, List.map_cons,
        List.append_assoc, List.cons_append]
      rfl
    · intro x hx
      obtain ⟨y, hy, rfl⟩ := List.mem_map.mp hx
      exact hbefore y hy

/-- The repetition that takes all there is. -/
theorem many_all {u : List α} (hu : ∀ c ∈ u, p c) (hs : ∀ c ∈ s.head?, ¬ p c) :
    Picks (Re.many p) (u ++ s) P ⟨[], u, s⟩ := by
  refine many hu fun v w hv heq hall => absurd ?_ (hs (v.head hv) ?_)
  · exact hall _ (List.head_mem hv)
  · rw [heq, List.head?_append_of_ne_nil _ hv, List.head?_eq_some_head hv]
    rfl

theorem plus {u : List α} (hne : u ≠ []) (hu : ∀ c ∈ u, p c)
    (hs : ∀ v w, v ≠ [] → s = v ++ w → (∀ c ∈ v, p c) → P ⟨[], u ++ v, w⟩) :
    Picks (Re.plus p) (u ++ s) P ⟨[], u, s⟩ := by
  cases u with
  | nil => exact absurd rfl hne
  | cons c u =>
    obtain ⟨hc, hu⟩ := List.forall_mem_cons.mp hu
    exact seq (char hc (u ++ s)) (many hu hs)

theorem lit [BEq α] [LawfulBEq α] (t s : List α) : Picks (lit t) (t ++ s) P ⟨[], t, s⟩ := by
  induction t generalizing P with
  | nil => exact eps
  | cons c t ih => exact seq (char (beq_self_eq_true c) (t ++ s)) ih

end Picks

end Regex
