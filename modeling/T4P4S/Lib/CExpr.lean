/-
C integer expressions, for an `int` of 32 and a `long` of 64 bits.

An operand is promoted to `int` or `unsigned int`, the operands of an operator are
converted to one type, and the operator is undefined where the standard and the
compilers leave it so: a signed result that its type does not have, and a shift by
the width of the type or more.  (What a left shift moves out of a signed value is
dropped, and a negative value is shifted right with its sign.)  An expression
may use temporaries, which are initialised before it is evaluated.

* **`Expr.eval_inRange`** — a value is one of the type of its expression;
* **`Expr.run_bin`**, **`Expr.run_tmp`**, … — the value of an expression, its
  temporaries included, from the values of its parts.
-/
import T4P4S.Lib.CInt

namespace CInt

/-! ### Types -/

/-- The types of promoted operands. -/
inductive CType
  | int
  | uint
  | long
  deriving DecidableEq

namespace CType

def bits : CType → ℕ
  | int => 32
  | uint => 32
  | long => 64

def isSigned : CType → Bool
  | int => true
  | uint => false
  | long => true

def InRange (t : CType) (v : ℤ) : Prop := CInt.InRange t.bits t.isSigned v

instance (t : CType) (v : ℤ) : Decidable (t.InRange v) :=
  inferInstanceAs (Decidable (CInt.InRange _ _ _))

/-- The conversion to the type. -/
def conv (t : CType) (v : ℤ) : ℤ := wrap t.bits t.isSigned v

/-- The type that two operands are converted to. -/
def join : CType → CType → CType
  | int, int => int
  | long, _ => long
  | _, long => long
  | _, _ => uint

/-- The result of an arithmetic operator. -/
def arith (t : CType) (v : ℤ) : Option ℤ :=
  if t.isSigned = true ∧ ¬ t.InRange v then none else some (t.conv v)

variable {t : CType} {v : ℤ}

theorem bits_pos (t : CType) : 0 < t.bits := by
  cases t <;> decide

theorem le_bits (t : CType) : 32 ≤ t.bits := by
  cases t <;> decide

theorem conv_inRange (t : CType) (v : ℤ) : t.InRange (t.conv v) :=
  wrap_inRange t.bits_pos t.isSigned v

theorem conv_of_inRange (h : t.InRange v) : t.conv v = v :=
  wrap_of_inRange t.bits_pos h

theorem conv_modEq (t : CType) (v : ℤ) : t.conv v ≡ v [ZMOD 2 ^ 32] :=
  modEq_pow (wrap_modEq t.bits t.isSigned v) t.le_bits

/-- The conversion keeps what the type has, and nothing else. -/
theorem conv_eq_self_iff : t.conv v = v ↔ t.InRange v :=
  ⟨fun h => h ▸ t.conv_inRange v, conv_of_inRange⟩

theorem arith_eq_some {w : ℤ} :
    t.arith v = some w ↔ (t.isSigned = true → t.InRange v) ∧ t.conv v = w := by
  rw [arith]
  by_cases h : t.isSigned = true ∧ ¬ t.InRange v
  · rw [if_pos h]
    exact ⟨nofun, fun hv => absurd (hv.1 h.1) h.2⟩
  · rw [if_neg h, Option.some_inj]
    refine ⟨fun hv => ⟨?_, hv⟩, fun hv => hv.2⟩
    intro hs
    by_contra hr
    exact h ⟨hs, hr⟩

@[simp] theorem join_self (t : CType) : join t t = t := by
  cases t <;> rfl

theorem join_int_left (t : CType) : join int t = t := by
  cases t <;> rfl

/-- A value that is not negative survives the conversion to the common type. -/
theorem InRange.join_of_nonneg {t₁ t₂ : CType} (h : t₁.InRange v ∨ t₂.InRange v) (hv : 0 ≤ v) :
    (join t₁ t₂).InRange v := by
  have hmono : ∀ {t t' : CType}, t.InRange v → (t.bits < t'.bits ∨ t' = uint ∨ t = t') →
      (t = long → t' = long) → t'.InRange v := by
    intro t t' ht htt' hlong
    cases t <;> cases t' <;> simp_all [InRange, bits, isSigned] <;> omega
  rcases h with h | h <;> cases t₁ <;> cases t₂ <;> simp only [join] <;>
    first | exact h | exact hmono h (by decide) (by decide)

theorem InRange.toLong (h : t.InRange v) : long.InRange v := by
  cases t with
  | int => exact @CInt.InRange.toSigned 32 64 true v h (by decide)
  | uint => exact @CInt.InRange.toSigned 32 64 false v h (by decide)
  | long => exact h

/-- A signed common type has the values of both operands. -/
theorem InRange.join_of_signed {t₁ t₂ : CType} (h : t₁.InRange v ∨ t₂.InRange v)
    (hs : (join t₁ t₂).isSigned = true) : (join t₁ t₂).InRange v := by
  rcases h with h | h <;> cases t₁ <;> cases t₂ <;> simp only [join] at hs ⊢ <;>
    first
    | exact h
    | exact h.toLong
    | cases hs

/-- The result of an operator on operands that are converted to the common type. -/
theorem arith_conv {t₁ t₂ : CType} {f : ℤ → ℤ → ℤ} {x y w : ℤ} (hx : t₁.InRange x)
    (hy : t₂.InRange y)
    (hf : ∀ {n a a' b b' : ℤ}, a ≡ a' [ZMOD n] → b ≡ b' [ZMOD n] → f a b ≡ f a' b' [ZMOD n]) :
    (join t₁ t₂).arith (f ((join t₁ t₂).conv x) ((join t₁ t₂).conv y)) = some w ↔
      ((join t₁ t₂).isSigned = true → (join t₁ t₂).InRange (f x y)) ∧
        (join t₁ t₂).conv (f x y) = w := by
  rw [arith_eq_some]
  by_cases hs : (join t₁ t₂).isSigned = true
  · rw [conv_of_inRange (InRange.join_of_signed (.inl hx) hs),
      conv_of_inRange (InRange.join_of_signed (.inr hy) hs)]
  · have hcongr : (join t₁ t₂).conv (f ((join t₁ t₂).conv x) ((join t₁ t₂).conv y)) =
        (join t₁ t₂).conv (f x y) :=
      wrap_congr (bits_pos _) (hf (wrap_modEq _ _ _) (wrap_modEq _ _ _))
    rw [hcongr]
    exact and_congr_left' ⟨fun _ h => absurd h hs, fun _ h => absurd h hs⟩

end CType

/-- The types of variables: `int8_t`, `uint8_t`, … -/
structure Storage where
  bits : ℕ
  isSigned : Bool
  bits_eq : bits = 8 ∨ bits = 16 ∨ bits = 32
  deriving DecidableEq

namespace Storage

def InRange (s : Storage) (v : ℤ) : Prop := CInt.InRange s.bits s.isSigned v

def conv (s : Storage) (v : ℤ) : ℤ := wrap s.bits s.isSigned v

/-- The type of an operand that is stored so. -/
def promote (s : Storage) : CType := if s.bits = 32 ∧ s.isSigned = false then .uint else .int

theorem bits_pos (s : Storage) : 0 < s.bits := by
  have := s.bits_eq
  omega

theorem conv_inRange (s : Storage) (v : ℤ) : s.InRange (s.conv v) :=
  wrap_inRange s.bits_pos s.isSigned v

theorem conv_of_inRange {s : Storage} {v : ℤ} (h : s.InRange v) : s.conv v = v :=
  wrap_of_inRange s.bits_pos h

/-- Promotion keeps the value. -/
theorem InRange.promote {s : Storage} {v : ℤ} (h : s.InRange v) : s.promote.InRange v := by
  obtain ⟨bits, isSigned, hbits⟩ := s
  rw [InRange] at h
  rcases hbits with rfl | rfl | rfl <;> cases isSigned
  all_goals
    simp [Storage.promote, CType.InRange, CType.bits, CType.isSigned] at h ⊢
    omega

end Storage

/-! ### Expressions -/

inductive BinOp
  | add
  | sub
  | mul
  | bit (op : BitOp)
  | shl
  | shr
  | gt
  deriving DecidableEq

namespace BinOp

/-- The type of the result. -/
def type (ta tb : CType) : BinOp → CType
  | shl => ta
  | shr => ta
  | gt => .int
  | _ => ta.join tb

/-- The result on promoted operands. -/
def eval (ta tb : CType) (x y : ℤ) : BinOp → Option ℤ
  | add => (ta.join tb).arith ((ta.join tb).conv x + (ta.join tb).conv y)
  | sub => (ta.join tb).arith ((ta.join tb).conv x - (ta.join tb).conv y)
  | mul => (ta.join tb).arith ((ta.join tb).conv x * (ta.join tb).conv y)
  | bit op => some (bitwise op (ta.join tb).bits (ta.join tb).isSigned x y)
  | shl => if 0 ≤ y ∧ y < ta.bits then some (ta.conv (x * 2 ^ y.toNat)) else none
  | shr => if 0 ≤ y ∧ y < ta.bits then some (x / 2 ^ y.toNat) else none
  | gt => some (if (ta.join tb).conv y < (ta.join tb).conv x then 1 else 0)

theorem eval_inRange {ta tb : CType} {x y w : ℤ} {op : BinOp} (hx : ta.InRange x)
    (h : op.eval ta tb x y = some w) : (op.type ta tb).InRange w := by
  have harith : ∀ {v}, (ta.join tb).arith v = some w → (ta.join tb).InRange w := fun hv =>
    (CType.arith_eq_some.mp hv).2 ▸ CType.conv_inRange _ _
  cases op with
  | add => exact harith h
  | sub => exact harith h
  | mul => exact harith h
  | bit op =>
    cases h
    exact bitwise_inRange op (CType.bits_pos _) _ x y
  | shl =>
    obtain ⟨-, h⟩ := Option.ite_none_right_eq_some.mp h
    cases h
    exact ta.conv_inRange _
  | shr =>
    obtain ⟨-, h⟩ := Option.ite_none_right_eq_some.mp h
    cases h
    exact hx.ediv_pow _
  | gt =>
    cases h
    simp only [type, CType.InRange, CType.bits, CType.isSigned, inRange_true]
    split <;> decide

end BinOp

/-- Expressions over the variables `V`.  `tmp s e` is a temporary that is initialised
with `e` before the whole expression is evaluated. -/
inductive Expr (V : Type)
  | lit (t : CType) (v : ℤ)
  | var (s : Storage) (x : V)
  | neg (e : Expr V)
  | compl (e : Expr V)
  | bin (op : BinOp) (a b : Expr V)
  | cast (s : Storage) (e : Expr V)
  | tmp (s : Storage) (e : Expr V)
  | cond (c a b : Expr V)

namespace Expr

variable {V : Type}

def type : Expr V → CType
  | lit t _ => t
  | var s _ => s.promote
  | neg e => e.type
  | compl e => e.type
  | bin op a b => op.type a.type b.type
  | cast s _ => s.promote
  | tmp s _ => s.promote
  | cond _ a b => a.type.join b.type

/-- The value when the temporaries have been initialised; `none` is undefined. -/
def eval (env : V → ℤ) : Expr V → Option ℤ
  | lit t v => some (t.conv v)
  | var s x => some (s.conv (env x))
  | neg e => (eval env e).bind fun v => e.type.arith (-v)
  | compl e => (eval env e).map fun v => e.type.conv (-v - 1)
  | bin op a b => (eval env a).bind fun x => (eval env b).bind fun y => op.eval a.type b.type x y
  | cast s e => (eval env e).map s.conv
  | tmp s e => (eval env e).map s.conv
  | cond c a b => (eval env c).bind fun v =>
    ((if v ≠ 0 then eval env a else eval env b)).map (a.type.join b.type).conv

/-- What the temporaries are initialised with. -/
def inits : Expr V → List (Expr V)
  | lit _ _ => []
  | var _ _ => []
  | neg e => inits e
  | compl e => inits e
  | bin _ a b => inits a ++ inits b
  | cast _ e => inits e
  | tmp _ e => inits e ++ [e]
  | cond c a b => inits c ++ (inits a ++ inits b)

/-- All temporaries can be initialised. -/
def InitsOk (env : V → ℤ) (e : Expr V) : Prop := ∀ i ∈ e.inits, (i.eval env).isSome = true

instance (env : V → ℤ) (e : Expr V) : Decidable (e.InitsOk env) :=
  inferInstanceAs (Decidable (∀ i ∈ e.inits, _))

/-- The value of an expression, with its temporaries. -/
def run (env : V → ℤ) (e : Expr V) : Option ℤ := if e.InitsOk env then e.eval env else none

theorem eval_inRange (env : V → ℤ) (e : Expr V) : ∀ {v : ℤ}, e.eval env = some v →
    e.type.InRange v := by
  induction e with
  | lit t v => 
    intro w h
    cases h
    exact t.conv_inRange v
  | var s x =>
    intro w h
    cases h
    exact (s.conv_inRange _).promote
  | neg e ih =>
    intro w h
    obtain ⟨v, -, hw⟩ := Option.bind_eq_some_iff.mp h
    rw [← (CType.arith_eq_some.mp hw).2]
    exact e.type.conv_inRange _
  | compl e ih =>
    intro w h
    obtain ⟨v, -, rfl⟩ := Option.map_eq_some_iff.mp h
    exact e.type.conv_inRange _
  | bin op a b iha ihb =>
    intro w h
    obtain ⟨x, hx, h⟩ := Option.bind_eq_some_iff.mp h
    obtain ⟨y, -, h⟩ := Option.bind_eq_some_iff.mp h
    exact BinOp.eval_inRange (iha hx) h
  | cast s e ih =>
    intro w h
    obtain ⟨v, -, rfl⟩ := Option.map_eq_some_iff.mp h
    exact (s.conv_inRange _).promote
  | tmp s e ih =>
    intro w h
    obtain ⟨v, -, rfl⟩ := Option.map_eq_some_iff.mp h
    exact (s.conv_inRange _).promote
  -- Both branches are converted to the common type.
  | cond c a b ihc iha ihb =>
    intro w h
    obtain ⟨v, -, h⟩ := Option.bind_eq_some_iff.mp h
    obtain ⟨u, -, rfl⟩ := Option.map_eq_some_iff.mp h
    exact (a.type.join b.type).conv_inRange _

/-! ### The value of an expression from the values of its parts -/

variable (env : V → ℤ)

theorem run_of_initsOk {e : Expr V} (h : e.InitsOk env) : e.run env = e.eval env := if_pos h

theorem run_of_not_initsOk {e : Expr V} (h : ¬ e.InitsOk env) : e.run env = none := if_neg h

theorem run_eq_some {e : Expr V} {v : ℤ} :
    e.run env = some v ↔ e.InitsOk env ∧ e.eval env = some v :=
  Option.ite_none_right_eq_some

/-- An expression that has the temporaries of its part and is evaluated from it. -/
theorem run_of_part {e part : Expr V} {f : ℤ → Option ℤ} (hinits : e.inits = part.inits)
    (heval : e.eval env = (part.eval env).bind f) : e.run env = (part.run env).bind f := by
  have hok : e.InitsOk env ↔ part.InitsOk env := by
    unfold InitsOk
    rw [hinits]
  by_cases h : part.InitsOk env
  · rw [run_of_initsOk env (hok.mpr h), run_of_initsOk env h, heval]
  · rw [run_of_not_initsOk env fun h' => h (hok.mp h'), run_of_not_initsOk env h]
    rfl

@[simp] theorem run_lit (t : CType) (v : ℤ) : (lit t v : Expr V).run env = some (t.conv v) :=
  run_of_initsOk env fun _ hi => absurd hi List.not_mem_nil

@[simp] theorem run_var (s : Storage) (x : V) : (var s x).run env = some (s.conv (env x)) :=
  run_of_initsOk env fun _ hi => absurd hi List.not_mem_nil

theorem run_neg (e : Expr V) :
    (neg e).run env = (e.run env).bind fun v => e.type.arith (-v) :=
  run_of_part env rfl rfl

theorem run_compl (e : Expr V) :
    (compl e).run env = (e.run env).map fun v => e.type.conv (-v - 1) := by
  rw [Option.map_eq_bind]
  exact run_of_part env rfl Option.map_eq_bind

theorem run_cast (s : Storage) (e : Expr V) : (cast s e).run env = (e.run env).map s.conv := by
  rw [Option.map_eq_bind]
  exact run_of_part env rfl Option.map_eq_bind

theorem run_tmp (s : Storage) (e : Expr V) : (tmp s e).run env = (e.run env).map s.conv := by
  have hinits : (tmp s e).InitsOk env ↔ e.InitsOk env ∧ (e.eval env).isSome = true :=
    List.forall_mem_append.trans (and_congr_right' List.forall_mem_singleton)
  have heval : (tmp s e).eval env = (e.eval env).map s.conv := rfl
  by_cases h : e.InitsOk env
  · rw [run_of_initsOk env h]
    cases he : e.eval env with
    | none =>
      refine run_of_not_initsOk env fun h' => ?_
      rw [he] at hinits
      exact absurd (hinits.mp h').2 Bool.false_ne_true
    | some v =>
      rw [run_of_initsOk env (hinits.mpr ⟨h, by rw [he]; rfl⟩), heval, he]
  · rw [run_of_not_initsOk env h, run_of_not_initsOk env fun h' => h (hinits.mp h').1]
    rfl

theorem run_bin (op : BinOp) (a b : Expr V) :
    (bin op a b).run env =
      (a.run env).bind fun x => (b.run env).bind fun y => op.eval a.type b.type x y := by
  have hinits : (bin op a b).InitsOk env ↔ a.InitsOk env ∧ b.InitsOk env :=
    List.forall_mem_append
  have heval : (bin op a b).eval env =
      (a.eval env).bind fun x => (b.eval env).bind fun y => op.eval a.type b.type x y := rfl
  by_cases ha : a.InitsOk env
  · by_cases hb : b.InitsOk env
    · rw [run_of_initsOk env (hinits.mpr ⟨ha, hb⟩), run_of_initsOk env ha,
        run_of_initsOk env hb, heval]
    · rw [run_of_not_initsOk env fun h => hb (hinits.mp h).2, run_of_not_initsOk env hb]
      cases a.run env <;> rfl
  · rw [run_of_not_initsOk env fun h => ha (hinits.mp h).1, run_of_not_initsOk env ha]
    rfl

/-- Only one branch is evaluated, but the temporaries of both are initialised. -/
theorem run_cond {c a b : Expr V} {v : ℤ} (hc : c.run env = some v) (ha : a.InitsOk env)
    (hb : b.InitsOk env) :
    (cond c a b).run env =
      (if v ≠ 0 then a.eval env else b.eval env).map (a.type.join b.type).conv := by
  obtain ⟨hinits, hv⟩ := (run_eq_some env).mp hc
  have hall : (cond c a b).InitsOk env :=
    List.forall_mem_append.mpr ⟨hinits, List.forall_mem_append.mpr ⟨ha, hb⟩⟩
  have heval : (cond c a b).eval env = (c.eval env).bind fun v =>
      (if v ≠ 0 then a.eval env else b.eval env).map (a.type.join b.type).conv := rfl
  rw [run_of_initsOk env hall, heval, hv, Option.bind_some]

end Expr

end CInt
