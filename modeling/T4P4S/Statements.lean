/-
The code that is generated for statements.  An expression leaves its temporaries in a
buffer, and the buffer is written out in front of the text that
`format_statement` returns, or in front of the next `if`.

* **`gen_scoped`** — a statement uses only temporaries that have been declared iff no
  `if` or `switch` of a block comes after one that has temporaries (`Placed`);
* **`gen_run`** — if moreover no statement of a block changes what a temporary of a later
  one reads (`Ordered`), then the code does what the statements do one after another.
-/
import T4P4S.Arith
import T4P4S.Lib.CStmt

open CInt

namespace T4P4S

/-! ### Statements -/

/-- Statements over the expressions `E`.  A block is made of `empty` and `seq`, an `if`
without an `else` has an empty one. -/
inductive Stmt (E V F T : Type) : Kind → Type
  | empty : Stmt E V F T .stmt
  | seq (first second : Stmt E V F T .stmt) : Stmt E V F T .stmt
  | assignment (left : V) (right : Head E F T) : Stmt E V F T .stmt
  | methodCall (m : Head E F T) : Stmt E V F T .stmt
  | ifStatement (condition : Head E F T) (ifTrue ifFalse : Stmt E V F T .stmt) : Stmt E V F T .stmt
  | switchStatement (expression : Head E F T) (cases : Stmt E V F T .cases) : Stmt E V F T .stmt
  | noCase : Stmt E V F T .cases
  | case (label : ℤ) (statement : Stmt E V F T .stmt) (rest : Stmt E V F T .cases) :
    Stmt E V F T .cases
  | default (statement : Stmt E V F T .stmt) : Stmt E V F T .cases

variable {E V F T σ : Type} {k : Kind}

namespace Stmt

/-- The statements one after another, when `value` evaluates what they contain.  Cases also
get the value that is switched on. -/
def exec (M : Effects σ V F T) (value : σ → Head E F T → Option (ℤ × σ)) :
    {k : Kind} → Stmt E V F T k → ℤ → σ → Option σ
  | _, empty, _, s => some s
  | _, seq a b, v, s => (exec M value a v s).bind fun s' => exec M value b v s'
  | _, assignment x h, _, s => (value s h).map fun r => M.write x r.1 r.2
  | _, methodCall h, _, s => (value s h).map fun r => r.2
  | _, ifStatement h a b, v, s => (value s h).bind fun r =>
    if r.1 ≠ 0 then exec M value a v r.2 else exec M value b v r.2
  | _, switchStatement h cs, _, s => (value s h).bind fun r => exec M value cs r.1 r.2
  | _, noCase, _, s => some s
  | _, case l a rest, v, s => if v = l then exec M value a v s else exec M value rest v s
  | _, default a, v, s => exec M value a v s

section Exec

variable {M : Effects σ V F T} {value : σ → Head E F T → Option (ℤ × σ)} {h : Head E F T}
  {a b : Stmt E V F T .stmt} {cs : Stmt E V F T .cases} {v : ℤ} {s : σ}

theorem exec_seq : (seq a b).exec M value v s =
    (a.exec M value v s).bind fun s' => b.exec M value v s' := rfl

theorem exec_assignment {x : V} : (assignment x h).exec M value v s =
    (value s h).map fun r => M.write x r.1 r.2 := rfl

theorem exec_methodCall : (methodCall h : Stmt E V F T .stmt).exec M value v s =
    (value s h).map fun r => r.2 := rfl

theorem exec_if : (ifStatement h a b).exec M value v s = (value s h).bind fun r =>
    if r.1 ≠ 0 then a.exec M value v r.2 else b.exec M value v r.2 := rfl

theorem exec_switch : (switchStatement h cs).exec M value v s =
    (value s h).bind fun r => cs.exec M value r.1 r.2 := rfl

theorem exec_case {l : ℤ} : (case l a cs).exec M value v s =
    if v = l then a.exec M value v s else cs.exec M value v s := rfl

end Exec

/-- Statements have a result if their values have one. -/
theorem exec_isSome {M : Effects σ V F T} {value : σ → Head E F T → Option (ℤ × σ)}
    (hvalue : ∀ s h, (value s h).isSome = true) (a : Stmt E V F T k) (v : ℤ) (s : σ) :
    ∃ s', a.exec M value v s = some s' := by
  have hsome := fun s h => Option.isSome_iff_exists.mp (hvalue s h)
  induction a generalizing v s with
  | empty => exact ⟨s, rfl⟩
  | seq a b iha ihb =>
    obtain ⟨s₁, h₁⟩ := iha v s
    obtain ⟨s₂, h₂⟩ := ihb v s₁
    exact ⟨s₂, by rw [exec_seq, h₁, Option.bind_some, h₂]⟩
  | assignment x h =>
    obtain ⟨r, hr⟩ := hsome s h
    exact ⟨_, by rw [exec_assignment, hr, Option.map_some]⟩
  | methodCall h =>
    obtain ⟨r, hr⟩ := hsome s h
    exact ⟨_, by rw [exec_methodCall, hr, Option.map_some]⟩
  | ifStatement h a b iha ihb =>
    obtain ⟨r, hr⟩ := hsome s h
    rw [exec_if, hr, Option.bind_some]
    split
    · exact iha v r.2
    · exact ihb v r.2
  | switchStatement h cs ih =>
    obtain ⟨r, hr⟩ := hsome s h
    rw [exec_switch, hr, Option.bind_some]
    exact ih r.1 r.2
  | noCase => exact ⟨s, rfl⟩
  | case l a rest iha ihrest =>
    rw [exec_case]
    split
    · exact iha v s
    · exact ihrest v s
  | default a ih => exact ih v s

/-- The variables that may be changed. -/
def Changes (M : Effects σ V F T) (x : V) : {k : Kind} → Stmt E V F T k → Prop
  | _, empty => False
  | _, seq a b => Changes M x a ∨ Changes M x b
  | _, assignment y h => x = y ∨ h.Changes M x
  | _, methodCall h => h.Changes M x
  | _, ifStatement h a b => h.Changes M x ∨ Changes M x a ∨ Changes M x b
  | _, switchStatement h cs => h.Changes M x ∨ Changes M x cs
  | _, noCase => False
  | _, case _ a rest => Changes M x a ∨ Changes M x rest
  | _, default a => Changes M x a

/-! ### The generator -/

/-- `gen_format_statement`, with the buffer before and after it and the next name.  An `if`
writes out the buffer, together with the temporaries of its condition; its branches and
the cases of a `switch` are formatted by `format_statement`. -/
def gen : {k : Kind} → Stmt (Expr V) V F T k → List (Decl V) → ℕ →
    Code V F T k × List (Decl V) × ℕ
  | _, empty, buffer, n => (.empty, buffer, n)
  | _, seq a b, buffer, n =>
    let p := gen a buffer n
    let q := gen b p.2.1 p.2.2
    (.seq p.1 q.1, q.2)
  | _, assignment x h, buffer, n =>
    let p := h.hoist n
    (.assign x p.2, buffer ++ p.1, n + p.1.length)
  | _, methodCall h, buffer, n =>
    let p := h.hoist n
    (.eval p.2, buffer ++ p.1, n + p.1.length)
  | _, ifStatement h a b, buffer, n =>
    let p := h.hoist n
    let q := gen a [] (n + p.1.length)
    let r := gen b [] q.2.2
    (.seq (.decls (buffer ++ p.1)) (.ite p.2 (.seq (.decls q.2.1) q.1) (.seq (.decls r.2.1) r.1)),
      [], r.2.2)
  -- the buffer is written out by the first case, behind its label
  | _, switchStatement h cs, buffer, n =>
    let p := h.hoist n
    let q := gen cs (buffer ++ p.1) (n + p.1.length)
    (.switch p.2 q.1, q.2)
  | _, noCase, buffer, n => (.noCase, buffer, n)
  | _, case l a rest, buffer, n =>
    let p := gen a buffer n
    let q := gen rest [] p.2.2
    (.case l (.seq (.decls p.2.1) p.1) q.1, q.2)
  | _, default a, buffer, n =>
    let p := gen a buffer n
    (.default (.seq (.decls p.2.1) p.1), [], p.2.2)

/-- `format_statement` -/
def format (s : Stmt (Expr V) V F T .stmt) (n : ℕ) : Code V F T .stmt :=
  .seq (.decls (s.gen [] n).2.1) (s.gen [] n).1

/-! ### What is left in the buffer -/

/-- The buffer is written out. -/
def flushes : {k : Kind} → Stmt E V F T k → Bool
  | _, seq a b => flushes a || flushes b
  | _, ifStatement _ _ _ => true
  | _, switchStatement _ cs => flushes cs
  | _, case _ _ _ => true
  | _, default _ => true
  | _, _ => false

/-- The temporaries that a statement leaves in an empty buffer. -/
def own (s : Stmt (Expr V) V F T k) (n : ℕ) : List (Decl V) := (s.gen [] n).2.1

/-- The next name. -/
def next (s : Stmt (Expr V) V F T k) (n : ℕ) : ℕ := (s.gen [] n).2.2

theorem gen_seq (a b : Stmt (Expr V) V F T .stmt) (buffer : List (Decl V)) (n : ℕ) :
    (seq a b).gen buffer n =
      (.seq (a.gen buffer n).1 (b.gen (a.gen buffer n).2.1 (a.gen buffer n).2.2).1,
        (b.gen (a.gen buffer n).2.1 (a.gen buffer n).2.2).2) := rfl

theorem gen_if (h : Head (Expr V) F T) (a b : Stmt (Expr V) V F T .stmt)
    (buffer : List (Decl V)) (n : ℕ) :
    ((ifStatement h a b).gen buffer n).1 =
      .seq (.decls (buffer ++ (h.hoist n).1)) (.ite (h.hoist n).2
        (a.format (n + (h.hoist n).1.length))
        (b.format (a.next (n + (h.hoist n).1.length)))) := rfl

theorem gen_switch (h : Head (Expr V) F T) (cs : Stmt (Expr V) V F T .cases)
    (buffer : List (Decl V)) (n : ℕ) :
    (switchStatement h cs).gen buffer n =
      (.switch (h.hoist n).2 (cs.gen (buffer ++ (h.hoist n).1) (n + (h.hoist n).1.length)).1,
        (cs.gen (buffer ++ (h.hoist n).1) (n + (h.hoist n).1.length)).2) := rfl

theorem gen_case (l : ℤ) (a : Stmt (Expr V) V F T .stmt) (rest : Stmt (Expr V) V F T .cases)
    (buffer : List (Decl V)) (n : ℕ) :
    (case l a rest).gen buffer n =
      (.case l (.seq (.decls (a.gen buffer n).2.1) (a.gen buffer n).1)
        (rest.gen [] (a.gen buffer n).2.2).1, (rest.gen [] (a.gen buffer n).2.2).2) := rfl

theorem gen_default (a : Stmt (Expr V) V F T .stmt) (buffer : List (Decl V)) (n : ℕ) :
    (default a).gen buffer n =
      (.default (.seq (.decls (a.gen buffer n).2.1) (a.gen buffer n).1), [],
        (a.gen buffer n).2.2) := rfl

/-- **A statement leaves its own temporaries behind those of the buffer, or writes the
buffer out.** -/
theorem gen_snd (s : Stmt (Expr V) V F T k) (buffer : List (Decl V)) (n : ℕ) :
    (s.gen buffer n).2 = ((if s.flushes then [] else buffer) ++ s.own n, s.next n) := by
  induction s generalizing buffer n with
  | empty => simp [gen, own, next, flushes]
  | seq a b iha ihb =>
    have hown : (seq a b).own n = (if b.flushes then [] else a.own n) ++ b.own (a.next n) := by
      rw [own, gen_seq, ihb]
      rfl
    have hnext : (seq a b).next n = b.next (a.next n) := by
      rw [next, gen_seq, ihb]
      rfl
    rw [gen_seq, ihb, iha, hown, hnext, flushes]
    cases a.flushes <;> cases b.flushes <;> simp
  | assignment x h => simp [gen, own, next, flushes]
  | methodCall h => simp [gen, own, next, flushes]
  | ifStatement h a b iha ihb => simp [gen, own, next, flushes]
  | switchStatement h cs ih =>
    rw [own, next, gen_switch, gen_switch, ih, ih, flushes, List.nil_append]
    cases cs.flushes <;> simp
  | noCase => simp [gen, own, next, flushes]
  | case l a rest iha ihrest =>
    rw [own, next, gen_case, gen_case, iha, iha]
    simp [flushes]
  | default a ih =>
    rw [own, next, gen_default, gen_default, ih, ih]
    simp [flushes]

theorem own_seq (a b : Stmt (Expr V) V F T .stmt) (n : ℕ) :
    (seq a b).own n = (if b.flushes then [] else a.own n) ++ b.own (a.next n) := by
  rw [own, gen_seq, gen_snd]
  rfl

theorem next_seq (a b : Stmt (Expr V) V F T .stmt) (n : ℕ) :
    (seq a b).next n = b.next (a.next n) := by
  rw [next, gen_seq, gen_snd]
  rfl

theorem own_switch (h : Head (Expr V) F T) (cs : Stmt (Expr V) V F T .cases) (n : ℕ) :
    (switchStatement h cs).own n =
      (if cs.flushes then [] else (h.hoist n).1) ++ cs.own (n + (h.hoist n).1.length) := by
  rw [own, gen_switch, gen_snd, List.nil_append]

theorem next_switch (h : Head (Expr V) F T) (cs : Stmt (Expr V) V F T .cases) (n : ℕ) :
    (switchStatement h cs).next n = cs.next (n + (h.hoist n).1.length) := by
  rw [next, gen_switch, gen_snd]

theorem next_case (l : ℤ) (a : Stmt (Expr V) V F T .stmt) (rest : Stmt (Expr V) V F T .cases)
    (n : ℕ) : (case l a rest).next n = rest.next (a.next n) := rfl

/-- Cases leave nothing. -/
theorem own_cases (s : Stmt (Expr V) V F T k) (hk : k = .cases) (n : ℕ) : s.own n = [] := by
  induction s generalizing n with
  | noCase => rfl
  | case l a rest _ ih => exact ih rfl _
  | default a => rfl
  | empty => cases hk
  | seq a b => cases hk
  | assignment x h => cases hk
  | methodCall h => cases hk
  | ifStatement h a b => cases hk
  | switchStatement h cs => cases hk

/-- What is left in the buffer is declared under names that are given out by the statement,
and uses nothing else. -/
structure Owned (s : Stmt (Expr V) V F T k) (n : ℕ) : Prop where
  le_next : n ≤ s.next n
  mem_names : ∀ m ∈ Decl.names (s.own n), n ≤ m ∧ m < s.next n
  wellScoped : Decl.Scoped [] (s.own n)

theorem owned (s : Stmt (Expr V) V F T k) (n : ℕ) : s.Owned n := by
  have hhead : ∀ (h : Head (Expr V) F T) n, ∀ m ∈ Decl.names (h.hoist n).1,
      n ≤ m ∧ m < n + (h.hoist n).1.length := fun h n m hm => (h.hoist_hoisted n).mem_names hm
  induction s generalizing n with
  | empty => exact ⟨le_rfl, nofun, trivial⟩
  | seq a b iha ihb =>
    have ha := iha n
    have hb := ihb (a.next n)
    refine ⟨?_, fun m hm => ?_, ?_⟩
    · rw [next_seq]
      exact ha.le_next.trans hb.le_next
    · rw [next_seq]
      rw [own_seq, Decl.names_append, List.mem_append] at hm
      rcases hm with hm | hm
      · split at hm
        · exact absurd hm List.not_mem_nil
        · have := ha.mem_names m hm
          have := hb.le_next
          omega
      · have := hb.mem_names m hm
        have := ha.le_next
        omega
    · rw [own_seq, Decl.scoped_append]
      refine ⟨?_, hb.wellScoped.mono (List.nil_subset _)⟩
      split
      · trivial
      · exact ha.wellScoped
  | assignment x h =>
    exact ⟨Nat.le_add_right _ _, hhead h n, (h.hoist_hoisted n).wellScoped⟩
  | methodCall h =>
    exact ⟨Nat.le_add_right _ _, hhead h n, (h.hoist_hoisted n).wellScoped⟩
  | ifStatement h a b iha ihb =>
    refine ⟨?_, nofun, trivial⟩
    exact (Nat.le_add_right n _).trans ((iha _).le_next.trans (ihb _).le_next)
  | switchStatement h cs ih =>
    have hcs := ih (n + (h.hoist n).1.length)
    refine ⟨?_, fun m hm => ?_, ?_⟩
    · rw [next_switch]
      exact (Nat.le_add_right n _).trans hcs.le_next
    · rw [next_switch]
      rw [own_switch, own_cases cs rfl, List.append_nil] at hm
      split at hm
      · exact absurd hm List.not_mem_nil
      · have := hhead h n m hm
        have := hcs.le_next
        omega
    · rw [own_switch, own_cases cs rfl, List.append_nil]
      split
      · trivial
      · exact (h.hoist_hoisted n).wellScoped
  | noCase => exact ⟨le_rfl, nofun, trivial⟩
  | case l a rest iha ihrest =>
    refine ⟨(iha n).le_next.trans (ihrest _).le_next, fun m hm => ?_, ?_⟩
    · rw [own_cases _ rfl] at hm
      exact absurd hm List.not_mem_nil
    · rw [own_cases _ rfl]
      trivial
  | default a ih => exact ⟨(ih n).le_next, nofun, trivial⟩

/-! ### Where temporaries are declared -/

def hasTmp (h : Head (Expr V) F T) : Bool := h.exprs.any fun e => !e.inits.isEmpty

/-- Temporaries of the statement are still in the buffer after it. -/
def leaves : {k : Kind} → Stmt (Expr V) V F T k → Bool
  | _, seq a b => leaves b || (leaves a && !b.flushes)
  | _, assignment _ h => hasTmp h
  | _, methodCall h => hasTmp h
  | _, switchStatement h cs => hasTmp h && !cs.flushes
  | _, _ => false

/-- In a block, no statement that writes the buffer out comes after one with temporaries,
and the value of a `switch` has no temporaries. -/
def Placed : {k : Kind} → Stmt (Expr V) V F T k → Prop
  | _, seq a b => Placed a ∧ Placed b ∧ ¬ (a.leaves = true ∧ b.flushes = true)
  | _, ifStatement _ a b => Placed a ∧ Placed b
  | _, switchStatement h cs => ¬ (hasTmp h = true ∧ cs.flushes = true) ∧ Placed cs
  | _, case _ a rest => Placed a ∧ Placed rest
  | _, default a => Placed a
  | _, _ => True

instance decidablePlaced : {k : Kind} → (s : Stmt (Expr V) V F T k) → Decidable s.Placed
  | _, seq a b =>
    let _ := decidablePlaced a
    let _ := decidablePlaced b
    inferInstanceAs (Decidable (_ ∧ _ ∧ ¬ (_ ∧ _)))
  | _, ifStatement _ a b =>
    let _ := decidablePlaced a
    let _ := decidablePlaced b
    inferInstanceAs (Decidable (_ ∧ _))
  | _, switchStatement _ cs =>
    let _ := decidablePlaced cs
    inferInstanceAs (Decidable (¬ (_ ∧ _) ∧ _))
  | _, case _ a rest =>
    let _ := decidablePlaced a
    let _ := decidablePlaced rest
    inferInstanceAs (Decidable (_ ∧ _))
  | _, default a => decidablePlaced a
  | _, empty => isTrue trivial
  | _, assignment _ _ => isTrue trivial
  | _, methodCall _ => isTrue trivial
  | _, noCase => isTrue trivial

/-- The temporaries in the buffer that the statement has used. -/
def used : {k : Kind} → Stmt (Expr V) V F T k → ℕ → List ℕ
  | _, seq a b, n => (if b.flushes then [] else used a n) ++ used b (a.next n)
  | _, assignment _ h, n => Code.uses (h.hoist n).2
  | _, methodCall h, n => Code.uses (h.hoist n).2
  | _, switchStatement h cs, n => if cs.flushes then [] else Code.uses (h.hoist n).2
  | _, _, _ => []

theorem hasTmp_eq_false_iff (h : Head (Expr V) F T) (n : ℕ) :
    hasTmp h = false ↔ (h.hoist n).1 = [] := by
  rw [Code.hoist_eq_nil_iff, hasTmp, List.any_eq_false]
  simp

theorem own_eq_nil_iff (s : Stmt (Expr V) V F T k) (n : ℕ) :
    s.own n = [] ↔ s.leaves = false := by
  induction s generalizing n with
  | seq a b iha ihb =>
    simp only [own_seq, leaves, List.append_eq_nil_iff, ihb, Bool.or_eq_false_iff]
    cases b.flushes <;> simp [iha, and_comm]
  | assignment x h => exact (hasTmp_eq_false_iff h n).symm
  | methodCall h => exact (hasTmp_eq_false_iff h n).symm
  | switchStatement h cs ih =>
    rw [own_switch, own_cases cs rfl, List.append_nil, leaves]
    cases cs.flushes <;> simp [hasTmp_eq_false_iff h n]
  | empty => exact iff_of_true rfl rfl
  | ifStatement h a b => exact iff_of_true rfl rfl
  | noCase => exact iff_of_true rfl rfl
  | case l a rest => exact iff_of_true (own_cases _ rfl n) rfl
  | default a => exact iff_of_true rfl rfl

/-- What is left in the buffer is also used. -/
theorem used_eq_nil_iff (s : Stmt (Expr V) V F T k) (n : ℕ) : s.used n = [] ↔ s.own n = [] := by
  induction s generalizing n with
  | seq a b iha ihb =>
    rw [used, own_seq, List.append_eq_nil_iff, List.append_eq_nil_iff, ihb]
    cases b.flushes <;> simp [iha]
  | assignment x h => exact Code.uses_eq_nil_iff h n
  | methodCall h => exact Code.uses_eq_nil_iff h n
  | switchStatement h cs ih =>
    rw [used, own_switch, own_cases cs rfl, List.append_nil]
    cases cs.flushes <;> simp [Code.uses_eq_nil_iff h n]
  | empty => exact iff_of_true rfl rfl
  | ifStatement h a b => exact iff_of_true rfl rfl
  | noCase => exact iff_of_true rfl rfl
  | case l a rest => exact iff_of_true rfl (own_cases _ rfl n)
  | default a => exact iff_of_true rfl rfl

theorem used_subset (s : Stmt (Expr V) V F T k) (n : ℕ) :
    s.used n ⊆ Decl.names (s.own n) := by
  induction s generalizing n with
  | seq a b iha ihb =>
    rw [used, own_seq, Decl.names_append]
    refine List.append_subset.mpr ⟨?_, fun m hm => List.mem_append_right _ (ihb _ hm)⟩
    split
    · exact List.nil_subset _
    · exact fun m hm => List.mem_append_left _ (iha n hm)
  | assignment x h => exact Code.uses_subset h n
  | methodCall h => exact Code.uses_subset h n
  | switchStatement h cs ih =>
    rw [used, own_switch, own_cases cs rfl, List.append_nil]
    split
    · exact List.nil_subset _
    · exact Code.uses_subset h n
  | empty => exact List.nil_subset _
  | ifStatement h a b => exact List.nil_subset _
  | noCase => exact List.nil_subset _
  | case l a rest => exact List.nil_subset _
  | default a => exact List.nil_subset _

/-- A buffer that is complete: it uses only what it declares, under names below `n`. -/
structure Complete (buffer : List (Decl V)) (n : ℕ) : Prop where
  wellScoped : Decl.Scoped [] buffer
  lt : ∀ m ∈ Decl.names buffer, m < n

theorem complete_nil (n : ℕ) : Complete ([] : List (Decl V)) n := ⟨trivial, nofun⟩

theorem Complete.hoist {buffer : List (Decl V)} {n : ℕ} (hb : Complete buffer n)
    (h : Head (Expr V) F T) : Complete (buffer ++ (h.hoist n).1) (n + (h.hoist n).1.length) := by
  have hh := h.hoist_hoisted n
  refine ⟨Decl.scoped_append.mpr ⟨hb.wellScoped, hh.wellScoped.mono (List.nil_subset _)⟩, ?_⟩
  intro m hm
  rw [Decl.names_append, List.mem_append] at hm
  rcases hm with hm | hm
  · have := hb.lt m hm
    omega
  · exact (hh.mem_names hm).2

theorem Complete.gen {buffer : List (Decl V)} {n : ℕ} (hb : Complete buffer n)
    (s : Stmt (Expr V) V F T k) : Complete (s.gen buffer n).2.1 (s.next n) := by
  have hs := s.owned n
  rw [gen_snd]
  refine ⟨Decl.scoped_append.mpr ⟨?_, hs.wellScoped.mono (List.nil_subset _)⟩, fun m hm => ?_⟩
  · split
    · trivial
    · exact hb.wellScoped
  · rw [Decl.names_append, List.mem_append] at hm
    rcases hm with hm | hm
    · split at hm
      · exact absurd hm List.not_mem_nil
      · exact (hb.lt m hm).trans_le hs.le_next
    · exact (hs.mem_names m hm).2

/-- What is declared in front of a later statement has an earlier name. -/
theorem declared_lt {s : Stmt (Expr V) V F T k} {buffer : List (Decl V)} {n : ℕ}
    (hb : Complete buffer n) : ∀ m ∈ (s.gen buffer n).1.declared, m < s.next n := by
  induction s generalizing buffer n with
  | seq a b iha ihb =>
    intro m hm
    have hb' := hb.gen a
    have hle := (b.owned (a.next n)).le_next
    rw [gen_seq, Code.declared, List.mem_append] at hm
    rw [next_seq]
    rcases hm with hm | hm
    · exact (iha hb m hm).trans_le hle
    · rw [gen_snd a] at hm hb'
      exact ihb hb' m hm
  | ifStatement h a b iha ihb =>
    intro m hm
    have hm : m ∈ Decl.names (buffer ++ (h.hoist n).1) ++ [] := hm
    rw [List.append_nil] at hm
    have := (hb.hoist h).lt m hm
    exact this.trans_le ((a.owned _).le_next.trans (b.owned _).le_next)
  | empty => exact nofun
  | assignment x h => exact nofun
  | methodCall h => exact nofun
  | switchStatement h cs => exact nofun
  | noCase => exact nofun
  | case l a rest => exact nofun
  | default a => exact nofun

/-- What the generator has to do with the names of `D`: those that `s` declares itself are
not among them, unless they are left in the buffer. -/
def Foreign (s : Stmt (Expr V) V F T k) (n : ℕ) (D : List ℕ) : Prop :=
  ∀ m ∈ D, n ≤ m → m < s.next n → m ∈ Decl.names (s.own n)

/-- A statement with the buffer in front of it. -/
theorem scoped_format {s : Stmt (Expr V) V F T .stmt} {buffer : List (Decl V)} {n : ℕ}
    {D : List ℕ} (hb : Complete buffer n) (hD : ∀ m ∈ D, m < n ∨ s.next n ≤ m)
    (ih : ∀ D', s.Foreign n D' →
      ((s.gen buffer n).1.Scoped D' ↔ s.Placed ∧ s.used n ⊆ D')) :
    (Code.seq (.decls (s.gen buffer n).2.1) (s.gen buffer n).1).Scoped D ↔ s.Placed := by
  have hnames : Decl.names (s.gen buffer n).2.1 =
      Decl.names (if s.flushes then [] else buffer) ++ Decl.names (s.own n) := by
    rw [gen_snd, Decl.names_append]
  have hforeign : s.Foreign n (D ++ Decl.names (s.gen buffer n).2.1) := by
    intro m hm hle hlt
    rw [hnames, List.mem_append, List.mem_append] at hm
    rcases hm with hm | hm | hm
    · have := hD m hm
      omega
    · split at hm
      · exact absurd hm List.not_mem_nil
      · have := hb.lt m hm
        omega
    · exact hm
  have hused : s.used n ⊆ D ++ Decl.names (s.gen buffer n).2.1 := by
    intro m hm
    rw [hnames]
    exact List.mem_append_right _ (List.mem_append_right _ (s.used_subset n hm))
  have hdecls : Decl.Scoped D (s.gen buffer n).2.1 :=
    (hb.gen s).wellScoped.mono (List.nil_subset _)
  rw [Code.scoped_seq, Code.scoped_decls, Code.declared_decls, ih _ hforeign]
  exact ⟨fun h => h.2.1, fun h => ⟨hdecls, h, hused⟩⟩

/-- No name of a list is used if all of them are foreign. -/
theorem subset_iff_eq_nil {l D : List ℕ} (h : ∀ m ∈ l, m ∉ D) : l ⊆ D ↔ l = [] := by
  constructor
  · intro hsub
    exact List.eq_nil_iff_forall_not_mem.mpr fun m hm => h m hm (hsub hm)
  · rintro rfl
    exact List.nil_subset _

/-- **A statement uses only declared temporaries iff it is `Placed`, and those are declared
that it leaves in the buffer.** -/
theorem gen_scoped (s : Stmt (Expr V) V F T k) {buffer : List (Decl V)} {n : ℕ} {D : List ℕ}
    (hb : Complete buffer n) (hD : s.Foreign n D) :
    (s.gen buffer n).1.Scoped D ↔ s.Placed ∧ s.used n ⊆ D := by
  induction s generalizing buffer n D with
  | empty => exact iff_of_true trivial ⟨trivial, List.nil_subset _⟩
  | seq a b iha ihb =>
    have ha := a.owned n
    have hb' := b.owned (a.next n)
    have hdecl := declared_lt (s := a) hb
    have hmem : ∀ m ∈ D, n ≤ m → m < b.next (a.next n) →
        m ∈ Decl.names (if b.flushes then [] else a.own n) ∨
          m ∈ Decl.names (b.own (a.next n)) := by
      intro m hm hle hlt
      have := hD m hm hle (by rwa [next_seq])
      rwa [own_seq, Decl.names_append, List.mem_append] at this
    have hDa : a.Foreign n D := by
      intro m hm hle hlt
      rcases hmem m hm hle (hlt.trans_le hb'.le_next) with h | h
      · split at h
        · exact absurd h List.not_mem_nil
        · exact h
      · have := (hb'.mem_names m h).1
        omega
    have hDb : b.Foreign (a.next n) (D ++ (a.gen buffer n).1.declared) := by
      intro m hm hle hlt
      rcases List.mem_append.mp hm with hm | hm
      · rcases hmem m hm (ha.le_next.trans hle) hlt with h | h
        · split at h
          · exact absurd h List.not_mem_nil
          · have := (ha.mem_names m h).2
            omega
        · exact h
      · have := hdecl m hm
        omega
    have hafter := hb.gen a
    have hIHb := ihb hafter hDb
    have hused : b.used (a.next n) ⊆ D ++ (a.gen buffer n).1.declared ↔ b.used (a.next n) ⊆ D := by
      constructor
      · intro h m hm
        rcases List.mem_append.mp (h hm) with h | h
        · exact h
        · have := hdecl m h
          have := (hb'.mem_names m (b.used_subset _ hm)).1
          omega
      · exact fun h m hm => List.mem_append_left _ (h hm)
    have hcode : ((seq a b).gen buffer n).1 =
        .seq (a.gen buffer n).1 (b.gen (a.gen buffer n).2.1 (a.next n)).1 := by
      rw [gen_seq, show (a.gen buffer n).2.2 = a.next n by rw [gen_snd]]
    rw [hcode, Code.scoped_seq, iha hb hDa, hIHb, hused, Placed, used]
    cases hfl : b.flushes with
    | false =>
      rw [if_neg Bool.false_ne_true, List.append_subset]
      simp only [Bool.false_eq_true, and_false, not_false_eq_true, and_true]
      tauto
    | true =>
      -- what `a` leaves is declared too late
      have hnot : ∀ m ∈ a.used n, m ∉ D := by
        intro m hm hmD
        have hrange := ha.mem_names m (a.used_subset n hm)
        rcases hmem m hmD hrange.1 (hrange.2.trans_le hb'.le_next) with h | h
        · rw [hfl] at h
          exact absurd h List.not_mem_nil
        · have := (hb'.mem_names m h).1
          omega
      rw [subset_iff_eq_nil hnot, used_eq_nil_iff, own_eq_nil_iff, if_pos rfl, List.nil_append,
        ← Bool.not_eq_true]
      tauto
  | assignment x h => exact ⟨fun h => ⟨trivial, h⟩, fun h => h.2⟩
  | methodCall h => exact ⟨fun h => ⟨trivial, h⟩, fun h => h.2⟩
  | ifStatement h a b iha ihb =>
    have hhoist := hb.hoist h
    have hlea := (a.owned (n + (h.hoist n).1.length)).le_next
    have hleb := (b.owned (a.next (n + (h.hoist n).1.length))).le_next
    have hnames : ∀ m ∈ D ++ Decl.names (buffer ++ (h.hoist n).1),
        m < n + (h.hoist n).1.length ∨ (ifStatement h a b).next n ≤ m := by
      intro m hm
      rcases List.mem_append.mp hm with hm | hm
      · have := hD m hm
        rcases lt_or_ge m n with hlt | hge
        · omega
        · exact .inr (not_lt.mp fun hlt => absurd (this hge hlt) List.not_mem_nil)
      · exact .inl (hhoist.lt m hm)
    have hnext : (ifStatement h a b).next n = b.next (a.next (n + (h.hoist n).1.length)) := rfl
    rw [hnext] at hnames
    have ha : (a.format (n + (h.hoist n).1.length)).Scoped
        (D ++ Decl.names (buffer ++ (h.hoist n).1)) ↔ a.Placed :=
      scoped_format (complete_nil _) (fun m hm => (hnames m hm).imp_right hleb.trans)
        fun D' hD' => iha (complete_nil _) hD'
    have hb' : (b.format (a.next (n + (h.hoist n).1.length))).Scoped
        (D ++ Decl.names (buffer ++ (h.hoist n).1)) ↔ b.Placed :=
      scoped_format (complete_nil _) (fun m hm => (hnames m hm).imp_left fun h => h.trans_le hlea)
        fun D' hD' => ihb (complete_nil _) hD'
    have huses : Code.uses (h.hoist n).2 ⊆ D ++ Decl.names (buffer ++ (h.hoist n).1) := by
      intro m hm
      rw [Decl.names_append]
      exact List.mem_append_right _ (List.mem_append_right _ (Code.uses_subset h n hm))
    have hdecls := hhoist.wellScoped.mono (List.nil_subset D)
    rw [gen_if, Code.scoped_seq, Code.scoped_decls, Code.scoped_ite, Code.declared_decls, ha, hb']
    exact ⟨fun h => ⟨h.2.2, List.nil_subset _⟩, fun h => ⟨hdecls, huses, h.1⟩⟩
  | switchStatement h cs ih =>
    have hcs := own_cases cs rfl (n + (h.hoist n).1.length)
    have hown := own_switch h cs n
    rw [hcs, List.append_nil] at hown
    have hmem : ∀ m ∈ D, n ≤ m → m < cs.next (n + (h.hoist n).1.length) →
        cs.flushes = false ∧ m ∈ Decl.names (h.hoist n).1 := by
      intro m hm hle hlt
      have := hD m hm hle (by rwa [next_switch])
      rw [hown] at this
      split at this
      · exact absurd this List.not_mem_nil
      · next hfl => exact ⟨Bool.eq_false_of_not_eq_true hfl, this⟩
    have hforeign : cs.Foreign (n + (h.hoist n).1.length) D := by
      intro m hm hle hlt
      have := (h.hoist_hoisted n).mem_names (hmem m hm (by omega) hlt).2
      omega
    have hused : cs.used (n + (h.hoist n).1.length) ⊆ D := by
      have := cs.used_subset (n + (h.hoist n).1.length)
      rw [hcs] at this
      exact fun m hm => absurd (this hm) List.not_mem_nil
    rw [gen_switch, Code.scoped_switch, ih (hb.hoist h) hforeign, Placed, used]
    cases hfl : cs.flushes with
    | false => simp [hused, and_comm]
    | true =>
      -- what the value uses is declared in the first case
      have hnot : ∀ m ∈ Code.uses (h.hoist n).2, m ∉ D := by
        intro m hm hmD
        have hrange := (h.hoist_hoisted n).mem_names (Code.uses_subset h n hm)
        have hle := (cs.owned (n + (h.hoist n).1.length)).le_next
        have := (hmem m hmD hrange.1 (by omega)).1
        rw [hfl] at this
        cases this
      rw [subset_iff_eq_nil hnot, Code.uses_eq_nil_iff, ← hasTmp_eq_false_iff]
      simp [hused]
  | noCase => exact iff_of_true trivial ⟨trivial, List.nil_subset _⟩
  | case l a rest iha ihrest =>
    have hlea := (a.owned n).le_next
    have hle := (rest.owned (a.next n)).le_next
    have hnames : ∀ m ∈ D, m < n ∨ rest.next (a.next n) ≤ m := by
      intro m hm
      rcases lt_or_ge m n with hlt | hge
      · exact .inl hlt
      · refine .inr (not_lt.mp fun hlt => ?_)
        have := hD m hm hge hlt
        rw [own_cases _ rfl] at this
        exact absurd this List.not_mem_nil
    have ha := scoped_format hb (fun m hm => (hnames m hm).imp_right hle.trans)
      fun D' hD' => iha hb hD'
    have hforeign : rest.Foreign (a.next n) D := by
      intro m hm hge hlt
      have := hnames m hm
      omega
    have hcode : ((case l a rest).gen buffer n).1 =
        .case l (.seq (.decls (a.gen buffer n).2.1) (a.gen buffer n).1)
          (rest.gen [] (a.next n)).1 := by
      rw [gen_case, show (a.gen buffer n).2.2 = a.next n by rw [gen_snd]]
    have hused : rest.used (a.next n) ⊆ D := by
      have := rest.used_subset (a.next n)
      rw [own_cases rest rfl] at this
      exact fun m hm => absurd (this hm) List.not_mem_nil
    rw [hcode, Code.scoped_case, ha, ihrest (complete_nil _) hforeign]
    exact ⟨fun h => ⟨⟨h.1, h.2.1⟩, List.nil_subset _⟩, fun h => ⟨h.1.1, h.1.2, hused⟩⟩
  | default a ih =>
    have hnames : ∀ m ∈ D, m < n ∨ a.next n ≤ m := by
      intro m hm
      rcases lt_or_ge m n with hlt | hge
      · exact .inl hlt
      · exact .inr (not_lt.mp fun hlt => absurd (hD m hm hge hlt) List.not_mem_nil)
    have ha := scoped_format hb hnames fun D' hD' => ih hb hD'
    rw [gen_default, Code.scoped_default, ha]
    exact ⟨fun h => ⟨h, List.nil_subset _⟩, fun h => h.1⟩

/-- **The code of a statement uses only declared temporaries iff the statement is
`Placed`.** -/
theorem format_scoped_iff (s : Stmt (Expr V) V F T .stmt) (n : ℕ) :
    (s.format n).Scoped [] ↔ s.Placed :=
  scoped_format (complete_nil n) nofun fun _ hD => s.gen_scoped (complete_nil n) hD

/-! ### The order of evaluation -/

/-- The variables that are read by the temporaries that are left in the buffer. -/
def pending : {k : Kind} → Stmt (Expr V) V F T k → List V
  | _, seq a b => (if b.flushes then [] else pending a) ++ pending b
  | _, assignment _ h => h.exprs.flatMap Expr.tmpVars
  | _, methodCall h => h.exprs.flatMap Expr.tmpVars
  | _, switchStatement h cs => if cs.flushes then [] else h.exprs.flatMap Expr.tmpVars
  | _, _ => []

/-- In a block, no statement changes what is read by a temporary of a later one that is
declared at the start of the block. -/
def Ordered (M : Effects σ V F T) : {k : Kind} → Stmt (Expr V) V F T k → Prop
  | _, seq a b => Ordered M a ∧ Ordered M b ∧ ∀ x ∈ b.pending, ¬ a.Changes M x
  | _, ifStatement _ a b => Ordered M a ∧ Ordered M b
  | _, switchStatement _ cs => Ordered M cs
  | _, case _ a rest => Ordered M a ∧ Ordered M rest
  | _, default a => Ordered M a
  | _, _ => True

section Decide

variable [DecidableEq V] (M : Effects σ V F T)

instance decidableChanges (x : V) : {k : Kind} → (s : Stmt E V F T k) → Decidable (s.Changes M x)
  | _, seq a b =>
    let _ := decidableChanges x a
    let _ := decidableChanges x b
    inferInstanceAs (Decidable (_ ∨ _))
  | _, assignment y h => inferInstanceAs (Decidable (x = y ∨ h.Changes M x))
  | _, methodCall h => inferInstanceAs (Decidable (h.Changes M x))
  | _, ifStatement h a b =>
    let _ := decidableChanges x a
    let _ := decidableChanges x b
    inferInstanceAs (Decidable (h.Changes M x ∨ _ ∨ _))
  | _, switchStatement h cs =>
    let _ := decidableChanges x cs
    inferInstanceAs (Decidable (h.Changes M x ∨ _))
  | _, case _ a rest =>
    let _ := decidableChanges x a
    let _ := decidableChanges x rest
    inferInstanceAs (Decidable (_ ∨ _))
  | _, default a => decidableChanges x a
  | _, empty => isFalse id
  | _, noCase => isFalse id

instance decidableOrdered : {k : Kind} → (s : Stmt (Expr V) V F T k) → Decidable (s.Ordered M)
  | _, seq a b =>
    let _ := decidableOrdered a
    let _ := decidableOrdered b
    inferInstanceAs (Decidable (_ ∧ _ ∧ ∀ x ∈ b.pending, ¬ a.Changes M x))
  | _, ifStatement _ a b =>
    let _ := decidableOrdered a
    let _ := decidableOrdered b
    inferInstanceAs (Decidable (_ ∧ _))
  | _, switchStatement _ cs => decidableOrdered cs
  | _, case _ a rest =>
    let _ := decidableOrdered a
    let _ := decidableOrdered rest
    inferInstanceAs (Decidable (_ ∧ _))
  | _, default a => decidableOrdered a
  | _, empty => isTrue trivial
  | _, assignment _ _ => isTrue trivial
  | _, methodCall _ => isTrue trivial
  | _, noCase => isTrue trivial

end Decide

theorem mem_pending {s : Stmt (Expr V) V F T k} {n : ℕ} {x : V}
    (hx : Decl.Reads (s.own n) x) : x ∈ s.pending := by
  have hhead : ∀ {h : Head (Expr V) F T} {n}, Decl.Reads (h.hoist n).1 x →
      x ∈ h.exprs.flatMap Expr.tmpVars := by
    intro h n hx
    obtain ⟨e, he, hx⟩ := (h.hoist_hoisted n).reads x hx
    exact List.mem_flatMap.mpr ⟨e, he, hx⟩
  induction s generalizing n with
  | seq a b iha ihb =>
    obtain ⟨d, hd, hx⟩ := hx
    rw [own_seq, List.mem_append] at hd
    refine List.mem_append.mpr (hd.imp (fun hd => ?_) fun hd => ihb ⟨d, hd, hx⟩)
    split at hd
    · exact absurd hd List.not_mem_nil
    · next hfl =>
      rw [if_neg hfl]
      exact iha ⟨d, hd, hx⟩
  | assignment y h => exact hhead hx
  | methodCall h => exact hhead hx
  | switchStatement h cs ih =>
    obtain ⟨d, hd, hx⟩ := hx
    rw [own_switch, own_cases cs rfl, List.append_nil] at hd
    split at hd
    · exact absurd hd List.not_mem_nil
    · next hfl =>
      rw [pending, if_neg hfl]
      exact hhead ⟨d, hd, hx⟩
  | case l a rest =>
    obtain ⟨d, hd, -⟩ := hx
    rw [own_cases _ rfl] at hd
    exact absurd hd List.not_mem_nil
  | empty => exact absurd hx.choose_spec.1 List.not_mem_nil
  | ifStatement h a b => exact absurd hx.choose_spec.1 List.not_mem_nil
  | noCase => exact absurd hx.choose_spec.1 List.not_mem_nil
  | default a => exact absurd hx.choose_spec.1 List.not_mem_nil

section Run

variable {M : Effects σ V F T}

theorem read_exec {value : σ → Head E F T → Option (ℤ × σ)} {x : V}
    (hvalue : ∀ {s h r}, value s h = some r → ¬ h.Changes M x → M.read r.2 x = M.read s x)
    {a : Stmt E V F T k} {v : ℤ} {s s' : σ} (hexec : a.exec M value v s = some s')
    (hx : ¬ a.Changes M x) : M.read s' x = M.read s x := by
  induction a generalizing v s s' with
  | empty =>
    cases hexec
    rfl
  | seq a b iha ihb =>
    obtain ⟨s₁, ha, hb⟩ := Option.bind_eq_some_iff.mp hexec
    rw [Changes, not_or] at hx
    rw [ihb hb hx.2, iha ha hx.1]
  | assignment y h =>
    obtain ⟨r, hr, rfl⟩ := Option.map_eq_some_iff.mp hexec
    rw [Changes, not_or] at hx
    rw [M.read_write hx.1, hvalue hr hx.2]
  | methodCall h =>
    obtain ⟨r, hr, rfl⟩ := Option.map_eq_some_iff.mp hexec
    exact hvalue hr hx
  | ifStatement h a b iha ihb =>
    obtain ⟨r, hr, hexec⟩ := Option.bind_eq_some_iff.mp hexec
    rw [Changes, not_or, not_or] at hx
    rw [← hvalue hr hx.1]
    split at hexec
    · exact iha hexec hx.2.1
    · exact ihb hexec hx.2.2
  | switchStatement h cs ih =>
    obtain ⟨r, hr, hexec⟩ := Option.bind_eq_some_iff.mp hexec
    rw [Changes, not_or] at hx
    rw [← hvalue hr hx.1]
    exact ih hexec hx.2
  | noCase =>
    cases hexec
    rfl
  | case l a rest iha ihrest =>
    rw [Changes, not_or] at hx
    rw [exec] at hexec
    split at hexec
    · exact iha hexec hx.1
    · exact ihrest hexec hx.2
  | default a ih => exact ih hexec hx

theorem read_run {x : V} {a : Stmt (Expr V) V F T k} {v : ℤ} {s s' : σ}
    (hexec : a.exec M (Head.run M) v s = some s') (hx : ¬ a.Changes M x) :
    M.read s' x = M.read s x :=
  read_exec (fun hr hx => Head.read_exec (Head.run_eq_some.mp hr).2 hx) hexec hx

/-- The value of a statement's expression, once its declarations have been run. -/
theorem eval_of_run {s : σ} {h : Head (Expr V) F T} {r : ℤ × σ} {n : ℕ} {t : ℕ → ℤ}
    (hr : h.run M s = some r) (hinit : Init (M.read s) (h.hoist n).1 t) :
    (h.hoist n).2.eval M (Sum.elim (M.read s) t) s = some r := by
  rw [Head.eval_hoist M hinit]
  exact (Head.run_eq_some.mp hr).2

theorem ready_of_run {s : σ} {h : Head (Expr V) F T} {r : ℤ × σ} (hr : h.run M s = some r)
    (n : ℕ) : Ready (M.read s) (h.hoist n).1 :=
  (h.hoist_hoisted n).ready (M.read s) (Head.run_eq_some.mp hr).1

/-- What the code of a statement does: it can be run once the temporaries that it leaves in
the buffer have their values, and changes no others than those it writes out itself. -/
structure Runs (M : Effects σ V F T) (a : Stmt (Expr V) V F T k) (buffer : List (Decl V)) (n : ℕ)
    (v : ℤ) (s s' : σ) : Prop where
  ready : Ready (M.read s) (a.own n)
  run : ∀ t, Init (M.read s) (a.own n) t → ∃ t', (a.gen buffer n).1.run M v s t = some (s', t') ∧
    ∀ m, m < n ∨ a.next n ≤ m ∨ m ∈ Decl.names (a.own n) → t' m = t m

/-- The code with the buffer in front of it. -/
theorem Runs.format {a : Stmt (Expr V) V F T .stmt} {n : ℕ} {v : ℤ} {s s' : σ}
    (h : a.Runs M [] n v s s') (t : ℕ → ℤ) :
    ∃ t', (a.format n).run M v s t = some (s', t') ∧ ∀ m, m < n ∨ a.next n ≤ m → t' m = t m := by
  obtain ⟨t₁, hrun₁, hinit, hother₁⟩ := h.ready t
  obtain ⟨t₂, hrun₂, hother₂⟩ := h.run t₁ hinit
  refine ⟨t₂, ?_, fun m hm => ?_⟩
  · rw [Stmt.format, Code.run_seq, Code.run_decls, show (a.gen [] n).2.1 = a.own n from rfl, hrun₁]
    exact hrun₂
  · rw [hother₂ m (hm.imp_right .inl), hother₁ m fun hmem => ?_]
    have := (a.owned n).mem_names m hmem
    omega

/-- **In a statement that is placed and ordered, the temporaries that are evaluated ahead
of time have the values of their own time.** -/
theorem gen_run {a : Stmt (Expr V) V F T k} (hplaced : a.Placed) (hordered : a.Ordered M)
    {buffer : List (Decl V)} {n : ℕ} (hbuffer : a.flushes = true → buffer = []) {v : ℤ} {s s' : σ}
    (hexec : a.exec M (Head.run M) v s = some s') : a.Runs M buffer n v s s' := by
  induction a generalizing buffer n v s s' with
  | empty =>
    cases hexec
    exact ⟨Ready.nil, fun t _ => ⟨t, rfl, fun _ _ => rfl⟩⟩
  | seq a b iha ihb =>
    obtain ⟨s₁, hexeca, hexecb⟩ := Option.bind_eq_some_iff.mp hexec
    obtain ⟨hpa, hpb, hlate⟩ := hplaced
    obtain ⟨hoa, hob, hchanges⟩ := hordered
    have ha := a.owned n
    have hb := b.owned (a.next n)
    have hfresh : ∀ m ∈ Decl.names (b.own (a.next n)), a.next n ≤ m := fun m hm =>
      (hb.mem_names m hm).1
    -- if `b` writes the buffer out, there is nothing of `a` in it
    have hown : (seq a b).own n = a.own n ++ b.own (a.next n) := by
      rw [own_seq]
      split
      · next hfl =>
        rw [(own_eq_nil_iff a n).mpr (Bool.eq_false_of_not_eq_true fun hl => hlate ⟨hl, hfl⟩)]
      · rfl
    have hbuffera : a.flushes = true → buffer = [] := fun hfl => hbuffer (by rw [flushes, hfl]; rfl)
    have hbufferb : b.flushes = true → (a.gen buffer n).2.1 = [] := by
      intro hfl
      rw [gen_snd, hbuffer (by rw [flushes, hfl, Bool.or_true]), ite_self,
        (own_eq_nil_iff a n).mpr (Bool.eq_false_of_not_eq_true fun hl => hlate ⟨hl, hfl⟩)]
      rfl
    have hruna := iha hpa hoa (n := n) hbuffera hexeca
    have hrunb := ihb hpb hob (n := a.next n) hbufferb hexecb
    -- what the temporaries of `b` read is the same before and after `a`
    have hread : ∀ x, Decl.Reads (b.own (a.next n)) x → M.read s x = M.read s₁ x := fun x hx =>
      (read_run hexeca (hchanges x (mem_pending hx))).symm
    have hgen : ((seq a b).gen buffer n).1 =
        .seq (a.gen buffer n).1 (b.gen (a.gen buffer n).2.1 (a.next n)).1 := by
      rw [gen_seq, show (a.gen buffer n).2.2 = a.next n by rw [gen_snd]]
    refine ⟨?_, fun t hinit => ?_⟩
    · rw [hown]
      refine hruna.ready.append (hrunb.ready.congr hb.wellScoped fun x hx => (hread x hx).symm)
        ha.wellScoped fun m hm hm' => ?_
      have := (ha.mem_names m hm).2
      have := hfresh m hm'
      omega
    · rw [hown] at hinit
      obtain ⟨hinita, hinitb⟩ := Init.append.mp hinit
      obtain ⟨t₁, ht₁, hother₁⟩ := hruna.run t hinita
      obtain ⟨t₂, ht₂, hother₂⟩ := hrunb.run t₁
        (hinitb.congr hb.wellScoped hread fun m hm => (hother₁ m (.inr (.inl (hfresh m hm)))).symm)
      refine ⟨t₂, ?_, fun m hm => ?_⟩
      · rw [hgen, Code.run_seq, ht₁]
        exact ht₂
      · have hle := ha.le_next
        have hle' := hb.le_next
        rw [next_seq, hown, Decl.names_append, List.mem_append] at hm
        rcases hm with hm | hm | hm | hm
        · rw [hother₂ m (.inl (hm.trans_le hle)), hother₁ m (.inl hm)]
        · rw [hother₂ m (.inr (.inl hm)), hother₁ m (.inr (.inl (hle'.trans hm)))]
        · rw [hother₂ m (.inl (ha.mem_names m hm).2), hother₁ m (.inr (.inr hm))]
        · rw [hother₂ m (.inr (.inr hm)), hother₁ m (.inr (.inl (hfresh m hm)))]
  | assignment x h =>
    obtain ⟨r, hr, rfl⟩ := Option.map_eq_some_iff.mp hexec
    refine ⟨ready_of_run hr n, fun t hinit => ⟨t, ?_, fun _ _ => rfl⟩⟩
    change (Code.assign x (h.hoist n).2).run M v s t = _
    rw [Code.run_assign, eval_of_run hr hinit, Option.map_some]
  | methodCall h =>
    obtain ⟨r, hr, rfl⟩ := Option.map_eq_some_iff.mp hexec
    refine ⟨ready_of_run hr n, fun t hinit => ⟨t, ?_, fun _ _ => rfl⟩⟩
    change (Code.eval (h.hoist n).2).run M v s t = _
    rw [Code.run_eval, eval_of_run hr hinit, Option.map_some]
  | ifStatement h a b iha ihb =>
    obtain ⟨r, hr, hexec⟩ := Option.bind_eq_some_iff.mp hexec
    obtain rfl := hbuffer rfl
    have hlea := (a.owned (n + (h.hoist n).1.length)).le_next
    have hleb := (b.owned (a.next (n + (h.hoist n).1.length))).le_next
    refine ⟨Ready.nil, fun t _ => ?_⟩
    obtain ⟨t₁, hdecls, hinit, hother⟩ := ready_of_run hr n t
    have hbranch : ∃ t₂, (if r.1 ≠ 0 then (a.format (n + (h.hoist n).1.length)).run M v r.2 t₁ else
        (b.format (a.next (n + (h.hoist n).1.length))).run M v r.2 t₁) = some (s', t₂) := by
      split at hexec
      · next hne =>
        obtain ⟨t₂, ht₂, -⟩ := (iha hplaced.1 hordered.1 (fun _ => rfl) hexec).format t₁
        exact ⟨t₂, by rw [if_pos hne, ht₂]⟩
      · next heq =>
        obtain ⟨t₂, ht₂, -⟩ := (ihb hplaced.2 hordered.2 (fun _ => rfl) hexec).format t₁
        exact ⟨t₂, by rw [if_neg heq, ht₂]⟩
    obtain ⟨t₂, ht₂⟩ := hbranch
    refine ⟨t₁, ?_, fun m hm => hother m fun hmem => ?_⟩
    · rw [gen_if, Code.run_seq, Code.run_decls, List.nil_append, hdecls, Option.map_some,
        Option.bind_some, Code.run_ite, eval_of_run hr hinit, Option.bind_some, ht₂]
      rfl
    · have := (h.hoist_hoisted n).mem_names hmem
      rcases hm with hm | hm | hm
      · omega
      · have : b.next (a.next (n + (h.hoist n).1.length)) ≤ m := hm
        omega
      · exact absurd hm List.not_mem_nil
  | switchStatement h cs ih =>
    obtain ⟨r, hr, hexec⟩ := Option.bind_eq_some_iff.mp hexec
    have hcs := own_cases cs rfl (n + (h.hoist n).1.length)
    have hown : (switchStatement h cs).own n = (h.hoist n).1 := by
      rw [own_switch, hcs, List.append_nil]
      split
      · next hfl =>
        refine ((hasTmp_eq_false_iff h n).mp (Bool.eq_false_of_not_eq_true fun ht => ?_)).symm
        exact hplaced.1 ⟨ht, hfl⟩
      · rfl
    have hbuffer' : cs.flushes = true → buffer ++ (h.hoist n).1 = [] := by
      intro hfl
      have hnil := own_switch h cs n
      rw [hown, hcs, if_pos hfl] at hnil
      rw [hbuffer hfl, hnil]
      rfl
    have hrun := ih hplaced.2 hordered (n := n + (h.hoist n).1.length) hbuffer' hexec
    refine ⟨hown ▸ ready_of_run hr n, fun t hinit => ⟨t, ?_, fun _ _ => rfl⟩⟩
    rw [hown] at hinit
    obtain ⟨t₁, ht₁, -⟩ := hrun.run t (by rw [hcs]; exact Init.nil)
    rw [gen_switch, Code.run_switch, eval_of_run hr hinit, Option.bind_some, ht₁]
    rfl
  | noCase =>
    cases hexec
    exact ⟨Ready.nil, fun t _ => ⟨t, rfl, fun _ _ => rfl⟩⟩
  | case l a rest iha ihrest =>
    obtain rfl := hbuffer rfl
    have hown := own_cases (case l a rest) rfl n
    have hlea := (a.owned n).le_next
    have hle := (rest.owned (a.next n)).le_next
    have hgen : ((case l a rest).gen [] n).1 = .case l (a.format n) (rest.gen [] (a.next n)).1 := rfl
    rw [exec] at hexec
    refine ⟨by rw [hown]; exact Ready.nil, fun t _ => ?_⟩
    rw [hgen, Code.run_case, next_case, hown]
    split at hexec
    · next heq =>
      obtain ⟨t₁, ht₁, hother⟩ := (iha hplaced.1 hordered.1 (fun _ => rfl) hexec).format t
      refine ⟨t₁, by rw [if_pos heq, ht₁], fun m hm => hother m ?_⟩
      rcases hm with hm | hm | hm
      · exact .inl hm
      · exact .inr (hle.trans hm)
      · exact absurd hm List.not_mem_nil
    · next hne =>
      have hrest := ihrest hplaced.2 hordered.2 (n := a.next n) (fun _ => rfl) hexec
      obtain ⟨t₁, ht₁, hother⟩ := hrest.run t (by rw [own_cases rest rfl]; exact Init.nil)
      refine ⟨t₁, by rw [if_neg hne, ht₁], fun m hm => hother m ?_⟩
      rcases hm with hm | hm | hm
      · exact .inl (hm.trans_le hlea)
      · exact .inr (.inl hm)
      · exact absurd hm List.not_mem_nil
  | default a ih =>
    obtain rfl := hbuffer rfl
    refine ⟨Ready.nil, fun t _ => ?_⟩
    obtain ⟨t₁, ht₁, hother⟩ := (ih hplaced hordered (fun _ => rfl) hexec).format t
    refine ⟨t₁, ht₁, fun m hm => hother m ?_⟩
    rcases hm with hm | hm | hm
    · exact .inl hm
    · exact .inr hm
    · exact absurd hm List.not_mem_nil

/-- **The code of a statement does what its parts do one after another.** -/
theorem format_run {a : Stmt (Expr V) V F T .stmt} (hplaced : a.Placed) (hordered : a.Ordered M)
    {v : ℤ} {s s' : σ} (hexec : a.exec M (Head.run M) v s = some s') (n : ℕ) (t : ℕ → ℤ) :
    ∃ t', (a.format n).run M v s t = some (s', t') := by
  obtain ⟨t', ht', -⟩ := (gen_run hplaced hordered (n := n) (fun _ => rfl) hexec).format t
  exact ⟨t', ht'⟩

end Run

/-! ### Bodies -/

/-- The components of a body one after another. -/
def block (body : List (Stmt E V F T .stmt)) : Stmt E V F T .stmt := body.foldr seq empty

/-- The functions `control_stage_…`, one for each component of a control. -/
def stages : List (Stmt (Expr V) V F T .stmt) → ℕ → List (Code V F T .stmt)
  | [], _ => []
  | c :: body, n => c.format n :: stages body (c.next n)

/-- The stages are called one after another.  The local variables of each hold whatever is
on the stack before. -/
def runStages (M : Effects σ V F T) (stack : ℕ → ℕ → ℤ) :
    List (Code V F T .stmt) → σ → Option σ
  | [], s => some s
  | c :: codes, s => (c.run M 0 s (stack codes.length)).bind fun r => runStages M stack codes r.1

theorem runStages_cons {M : Effects σ V F T} {stack : ℕ → ℕ → ℤ} {c : Code V F T .stmt}
    {codes : List (Code V F T .stmt)} {s : σ} :
    runStages M stack (c :: codes) s =
      (c.run M 0 s (stack codes.length)).bind fun r => runStages M stack codes r.1 := rfl

/-- The body of `action_code_…`: each component has been formatted alone. -/
def actionCode : List (Stmt (Expr V) V F T .stmt) → ℕ → Code V F T .stmt
  | [], _ => .empty
  | c :: body, n => .seq (c.format n) (actionCode body (c.next n))

/-- **All temporaries of a control are declared iff its components are `Placed`.** -/
theorem stages_scoped_iff (body : List (Stmt (Expr V) V F T .stmt)) (n : ℕ) :
    (∀ c ∈ stages body n, c.Scoped []) ↔ ∀ a ∈ body, a.Placed := by
  induction body generalizing n with
  | nil => exact iff_of_true nofun nofun
  | cons a body ih =>
    rw [List.forall_mem_cons, ← ih (a.next n), ← format_scoped_iff a n]
    exact List.forall_mem_cons

theorem action_scoped_iff (body : List (Stmt (Expr V) V F T .stmt)) {n : ℕ} {D : List ℕ}
    (hD : ∀ m ∈ D, m < n) : (actionCode body n).Scoped D ↔ ∀ a ∈ body, a.Placed := by
  induction body generalizing n D with
  | nil => exact iff_of_true trivial nofun
  | cons a body ih =>
    have hcomplete := complete_nil (V := V) n
    have hformat : (a.format n).Scoped D ↔ a.Placed :=
      scoped_format hcomplete (fun m hm => .inl (hD m hm)) fun _ hD' => a.gen_scoped hcomplete hD'
    have hdeclared : ∀ m ∈ D ++ (a.format n).declared, m < a.next n := by
      intro m hm
      rcases List.mem_append.mp hm with hm | hm
      · exact (hD m hm).trans_le (a.owned n).le_next
      · rcases List.mem_append.mp hm with hm | hm
        · exact ((a.owned n).mem_names m hm).2
        · exact declared_lt hcomplete m hm
    rw [List.forall_mem_cons, ← ih hdeclared, ← hformat]
    rfl

section Run

variable {M : Effects σ V F T} {body : List (Stmt (Expr V) V F T .stmt)}

theorem block_cons (a : Stmt E V F T .stmt) (body : List (Stmt E V F T .stmt)) :
    block (a :: body) = seq a (block body) := rfl

/-- **The stages of a control do what its components do one after another.** -/
theorem stages_run (hplaced : ∀ a ∈ body, a.Placed) (hordered : ∀ a ∈ body, a.Ordered M) {s s' : σ}
    (hexec : (block body).exec M (Head.run M) 0 s = some s') (n : ℕ) (stack : ℕ → ℕ → ℤ) :
    runStages M stack (stages body n) s = some s' := by
  induction body generalizing n s with
  | nil => exact hexec
  | cons a body ih =>
    rw [block_cons, exec_seq] at hexec
    obtain ⟨s₁, ha, hexec⟩ := Option.bind_eq_some_iff.mp hexec
    obtain ⟨hpa, hp⟩ := List.forall_mem_cons.mp hplaced
    obtain ⟨hoa, ho⟩ := List.forall_mem_cons.mp hordered
    obtain ⟨t', ht'⟩ := format_run hpa hoa ha n (stack (stages body (a.next n)).length)
    rw [stages, runStages_cons, ht', Option.bind_some]
    exact ih hp ho hexec _

/-- **The code of an action does what its components do one after another.** -/
theorem actionCode_run (hplaced : ∀ a ∈ body, a.Placed) (hordered : ∀ a ∈ body, a.Ordered M)
    {s s' : σ} (hexec : (block body).exec M (Head.run M) 0 s = some s') (n : ℕ) (t : ℕ → ℤ) :
    ∃ t', (actionCode body n).run M 0 s t = some (s', t') := by
  induction body generalizing n s t with
  | nil =>
    cases hexec
    exact ⟨t, rfl⟩
  | cons a body ih =>
    rw [block_cons, exec_seq] at hexec
    obtain ⟨s₁, ha, hexec⟩ := Option.bind_eq_some_iff.mp hexec
    obtain ⟨hpa, hp⟩ := List.forall_mem_cons.mp hplaced
    obtain ⟨hoa, ho⟩ := List.forall_mem_cons.mp hordered
    obtain ⟨t₁, ht₁⟩ := format_run hpa hoa ha n t
    obtain ⟨t₂, ht₂⟩ := ih hp ho hexec (a.next n) t₁
    exact ⟨t₂, by rw [actionCode, Code.run_seq, ht₁, Option.bind_some, ht₂]⟩

/-! ### Blocks of assignments -/

/-- A block of assignments. -/
def assignments (as : List (V × Expr V)) : Stmt (Expr V) V F T .stmt :=
  block (as.map fun a => assignment a.1 (.expr a.2))

theorem assignments_cons (a : V × Expr V) (as : List (V × Expr V)) :
    (assignments (a :: as) : Stmt (Expr V) V F T .stmt) =
      seq (assignment a.1 (.expr a.2)) (assignments as) := rfl

/-- The values `vs` are assigned. -/
def assignAll (M : Effects σ V F T) (as : List (V × Expr V)) (vs : List ℤ) (s : σ) : σ :=
  (as.zip vs).foldl (fun s p => M.write p.1.1 p.2 s) s

theorem flushes_assignments (as : List (V × Expr V)) :
    (assignments as : Stmt (Expr V) V F T .stmt).flushes = false := by
  induction as with
  | nil => rfl
  | cons a as ih =>
    rw [assignments_cons, flushes, ih]
    rfl

/-- The code of a block of assignments, once its temporaries have the values of `s₀`. -/
theorem assignments_run {s₀ : σ} {as : List (V × Expr V)} {vs : List ℤ}
    (hdirect : ∀ a ∈ as, a.2.direct = [])
    (hvs : List.Forall₂ (fun a v => a.2.run (M.read s₀) = some v) as vs) (v : ℤ)
    (buffer : List (Decl V)) (n : ℕ) :
    Ready (M.read s₀) ((assignments as : Stmt (Expr V) V F T .stmt).own n) ∧
      ∀ (s : σ) (t : ℕ → ℤ),
        Init (M.read s₀) ((assignments as : Stmt (Expr V) V F T .stmt).own n) t →
          ((assignments as : Stmt (Expr V) V F T .stmt).gen buffer n).1.run M v s t =
            some (assignAll M as vs s, t) := by
  induction hvs generalizing buffer n with
  | nil => exact ⟨Ready.nil, fun s t _ => rfl⟩
  | @cons a w as vs ha _ ih =>
    obtain ⟨hda, hdas⟩ := List.forall_mem_cons.mp hdirect
    obtain ⟨hok, heval⟩ := (Expr.run_eq_some _).mp ha
    have hh := a.2.hoist_hoisted n
    have hb := (assignments as : Stmt (Expr V) V F T .stmt).owned (n + (a.2.hoist n).1.length)
    have hown : (assignments (a :: as) : Stmt (Expr V) V F T .stmt).own n =
        (a.2.hoist n).1 ++
          (assignments as : Stmt (Expr V) V F T .stmt).own (n + (a.2.hoist n).1.length) := by
      rw [assignments_cons, own_seq, flushes_assignments]
      rfl
    obtain ⟨hready, hrun⟩ := ih hdas (buffer ++ (a.2.hoist n).1) (n + (a.2.hoist n).1.length)
    rw [hown]
    refine ⟨?_, fun s t hinit => ?_⟩
    · refine (hh.ready _ fun e he => ?_).append hready hh.wellScoped fun m hm hm' => ?_
      · exact List.mem_singleton.mp he ▸ hok
      · have := (hh.mem_names hm).2
        have := (hb.mem_names m hm').1
        omega
    · obtain ⟨hinita, hinitb⟩ := Init.append.mp hinit
      obtain ⟨⟨hval, -⟩, -⟩ := List.forall₂_cons.mp (hh.eval _ t hinita)
      -- what is left of the source reads no variables
      have hresult : (a.2.hoist n).2.eval (Sum.elim (M.read s) t) = some w := by
        rw [← heval, ← hval]
        refine eval_elim_congr (fun x hx => ?_) fun _ _ => rfl
        have := Expr.mem_direct hx
        rw [hda] at this
        exact absurd this List.not_mem_nil
      have hassign : (Code.assign a.1 (.expr (a.2.hoist n).2) : Code V F T .stmt).run M v s t =
          some (M.write a.1 w s, t) := by
        rw [Code.run_assign, Head.eval, Head.exec, hresult]
        rfl
      rw [assignments_cons, gen_seq, Code.run_seq]
      change ((Code.assign a.1 (.expr (a.2.hoist n).2) : Code V F T .stmt).run M v s t).bind _ = _
      rw [hassign, Option.bind_some]
      exact hrun (M.write a.1 w s) t hinitb

/-- **Assignments of one block whose sources are in temporaries are made all at once.** -/
theorem assignments_simultaneous {s : σ} {as : List (V × Expr V)} {vs : List ℤ}
    (hdirect : ∀ a ∈ as, a.2.direct = [])
    (hvs : List.Forall₂ (fun a v => a.2.run (M.read s) = some v) as vs) (v : ℤ) (n : ℕ)
    (t : ℕ → ℤ) : ∃ t',
      ((assignments as : Stmt (Expr V) V F T .stmt).format n).run M v s t =
        some (assignAll M as vs s, t') := by
  obtain ⟨hready, hrun⟩ := assignments_run (F := F) (T := T) hdirect hvs v [] n
  obtain ⟨t', ht', hinit, -⟩ := hready t
  refine ⟨t', ?_⟩
  rw [Stmt.format, Code.run_seq, Code.run_decls,
    show ((assignments as : Stmt (Expr V) V F T .stmt).gen [] n).2.1 = (assignments as).own n from rfl,
    ht']
  exact hrun s t' hinit

end Run

end Stmt

end T4P4S
