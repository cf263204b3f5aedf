/-
The C expression that is generated for an expression over `bit<w>` and `int<w>`.

The operands of an operator are C expressions in their turn; a result of type
`bit<w>` is masked, one of type `int<w>` is cast, and some are left as they are.

* **`masking_run`**, **`complexOp_run`** — a masked or cast result is the one of the
  P4 type, whatever the C type of the operation is;
* **`genExpr_correct_iff`** — all parts of an expression have the value that P4 says
  iff none of its operators is used where C computes something else (`NodeSafe`);
* **`shl_not_correct`** — a shift by 32.
-/
import Mathlib.Tactic.Ring
import T4P4S.Lib.CExpr
import T4P4S.Packet

open CInt

namespace T4P4S

/-! ### Expressions -/

/-- `bit<w>` for at most 32 bits, `int<8>`, `int<16>` and `int<32>`. -/
structure BitsType where
  size : ℕ
  isSigned : Bool
  size_mem : if isSigned then size = 8 ∨ size = 16 ∨ size = 32 else 1 ≤ size ∧ size ≤ 32
  deriving DecidableEq

namespace BitsType

def InRange (t : BitsType) (v : ℤ) : Prop := CInt.InRange t.size t.isSigned v

instance (t : BitsType) (v : ℤ) : Decidable (t.InRange v) :=
  inferInstanceAs (Decidable (CInt.InRange _ _ _))

/-- The value modulo `2 ^ size`. -/
def wrap (t : BitsType) (v : ℤ) : ℤ := CInt.wrap t.size t.isSigned v

theorem size_pos (t : BitsType) : 0 < t.size := by
  have := t.size_mem
  split at this <;> omega

theorem size_le (t : BitsType) : t.size ≤ 32 := by
  have := t.size_mem
  split at this <;> omega

theorem wrap_inRange (t : BitsType) (v : ℤ) : t.InRange (t.wrap v) :=
  CInt.wrap_inRange t.size_pos t.isSigned v

theorem wrap_of_inRange {t : BitsType} {v : ℤ} (h : t.InRange v) : t.wrap v = v :=
  CInt.wrap_of_inRange t.size_pos h

theorem wrap_congr {t : BitsType} {a b : ℤ} (h : a ≡ b [ZMOD 2 ^ 32]) : t.wrap a = t.wrap b :=
  CInt.wrap_congr t.size_pos (modEq_pow h t.size_le)

/-- `format_type`: the C type of a variable. -/
def storage (t : BitsType) : Storage where
  bits := sizeup t.size false
  isSigned := t.isSigned
  bits_eq := by
    have := t.size_le
    simp only [sizeup, Bool.false_eq_true, if_false]
    split_ifs <;> omega

theorem size_le_bits (t : BitsType) : t.size ≤ t.storage.bits := by
  have := t.size_le
  simp only [storage, sizeup, Bool.false_eq_true, if_false]
  split_ifs <;> omega

theorem InRange.storage {t : BitsType} {v : ℤ} (h : t.InRange v) : t.storage.InRange v :=
  h.mono t.size_le_bits

/-- A signed type is one of C. -/
theorem storage_conv_of_signed {t : BitsType} (h : t.isSigned = true) (v : ℤ) :
    t.storage.conv v = t.wrap v := by
  have hsize : t.storage.bits = t.size := by
    have := t.size_mem
    rw [if_pos h] at this
    rcases this with hs | hs | hs <;> simp [BitsType.storage, sizeup, hs]
  rw [Storage.conv, hsize, wrap]
  rfl

end BitsType

inductive ArithOp
  | add
  | sub
  | mul
  | bit (op : BitOp)
  deriving DecidableEq

/-- The result in P4, before it is reduced. -/
def ArithOp.apply (t : BitsType) (x y : ℤ) : ArithOp → ℤ
  | .add => x + y
  | .sub => x - y
  | .mul => x * y
  | .bit op => bitwise op t.size t.isSigned x y

/-- The expressions of a type.  `base` is how a constant is written; the amount of a
shift is unsigned, and a cast changes the size or the sign. -/
inductive P4Expr : BitsType → Type
  | const {t : BitsType} (base : ℕ) (value : ℤ) (h : t.InRange value) : P4Expr t
  | var {t : BitsType} (x : ℕ) : P4Expr t
  | neg {t : BitsType} (e : P4Expr t) : P4Expr t
  | cmpl {t : BitsType} (e : P4Expr t) : P4Expr t
  | bin {t : BitsType} (op : ArithOp) (left right : P4Expr t) : P4Expr t
  | shl {t u : BitsType} (left : P4Expr t) (right : P4Expr u) (hu : u.isSigned = false) : P4Expr t
  | shr {t u : BitsType} (left : P4Expr t) (right : P4Expr u) (hu : u.isSigned = false) : P4Expr t
  | concat {t u : BitsType} (left : P4Expr t) (right : P4Expr u) (r : BitsType)
    (hsize : r.size = t.size + u.size) (hsign : r.isSigned = t.isSigned) : P4Expr r
  | cast {t : BitsType} (e : P4Expr t) (u : BitsType)
    (h : t.isSigned = u.isSigned ∨ t.size = u.size) : P4Expr u

/-- An assignment of values to the variables. -/
abbrev Vars := (t : BitsType) → ℕ → { v : ℤ // t.InRange v }

namespace P4Expr

/-- The value in P4. -/
def value (env : Vars) : {t : BitsType} → P4Expr t → ℤ
  | _, const _ v _ => v
  | t, var x => env t x
  | t, neg e => t.wrap (-value env e)
  | t, cmpl e => t.wrap (-value env e - 1)
  | t, bin op l r => t.wrap (op.apply t (value env l) (value env r))
  | t, shl l r _ => t.wrap (value env l * 2 ^ (value env r).toNat)
  -- rounded down, so that a negative value keeps its sign
  | _, shr l r _ => value env l / 2 ^ (value env r).toNat
  | _, @concat _ u l r _ _ _ => value env l * 2 ^ u.size + value env r % 2 ^ u.size
  | _, cast e u _ => u.wrap (value env e)

theorem value_inRange (env : Vars) {t : BitsType} (e : P4Expr t) : t.InRange (e.value env) := by
  induction e with
  | const base v h => exact h
  | var x => exact (env _ x).2
  | neg e ih => exact BitsType.wrap_inRange _ _
  | cmpl e ih => exact BitsType.wrap_inRange _ _
  | bin op l r ihl ihr => exact BitsType.wrap_inRange _ _
  | shl l r hu ihl ihr => exact BitsType.wrap_inRange _ _
  | shr l r hu ihl ihr => exact ihl.ediv_pow _
  | @concat t u l r s hsize hsign ihl ihr =>
    rw [value, BitsType.InRange, hsize, hsign]
    have hpos : (0 : ℤ) < 2 ^ u.size := by positivity
    exact ihl.mul_pow_add t.size_pos (Int.emod_nonneg _ hpos.ne') (Int.emod_lt_of_pos _ hpos)
  | cast e u h ih => exact BitsType.wrap_inRange _ _

end P4Expr

/-! ### The generator -/

/-- The C variables: those of P4. -/
abbrev CVar := BitsType × ℕ

abbrev CExpr := CInt.Expr CVar

/-- What is written as a decimal, hexadecimal or binary constant has this C type. -/
@[irreducible] def litType (base : ℕ) (v : ℤ) : CType :=
  if v < 2 ^ 31 then .int else if (base = 16 ∨ base = 2) ∧ v < 2 ^ 32 then .uint else .long

/-- `gen_fmt_Constant`.  There is no C for a sign behind `0x` or `0b`. -/
def fmtConstant (base : ℕ) (v : ℤ) : Option CExpr :=
  if 0 ≤ v then some (.lit (litType base v) v)
  else if base = 16 ∨ base = 2 then none
  else some (.neg (.lit (litType base (-v)) (-v)))

def decimal (v : ℤ) : CExpr := .lit (litType 10 v) v

/-- `gen_format_type_mask` -/
def typeMask (t : BitsType) : Option CExpr :=
  if t.isSigned then none
  else some (.tmp t.storage (.lit (litType 16 (2 ^ t.size - 1)) (2 ^ t.size - 1)))

/-- `gen_casting` -/
def casting (t : BitsType) (e : CExpr) : CExpr := .tmp t.storage (.cast t.storage e)

/-- `gen_masking` -/
def masking (t : BitsType) (e : CExpr) : Option CExpr :=
  (typeMask t).map fun mask =>
    .bin (.bit .and) mask (.tmp t.storage (.cast t.storage (casting t e)))

/-- `gen_fmt_ComplexOp`, of an operator whose left operand has the type of the result. -/
def complexOp (t : BitsType) (op : BinOp) (left right : CExpr) : Option CExpr :=
  let opexpr : CExpr := .bin op (.cast t.storage left) right
  if t.isSigned then some (.cast t.storage opexpr) else masking t opexpr

/-- The binary operators of `gen_fmt_Operator` that keep the type.  Whether the bitwise
ones are among its simple or its complex operators is said by a table outside of the
sources, `simple`. -/
def genBin (simple : Bool) (t : BitsType) (left right : CExpr) : ArithOp → Option CExpr
  | .add => complexOp t .add left right
  -- an unsigned operand is negated first, modulo `2 ^ size`
  | .sub =>
    if t.isSigned then complexOp t .sub left right
    else masking t (.bin .add left (.bin .sub (decimal (2 ^ t.size)) right))
  | .mul => complexOp t .mul left right
  | .bit op =>
    if simple then some (.bin (.bit op) left right) else complexOp t (.bit op) left right

/-- The text of a negative constant starts with its sign. -/
def startsWithSign {t : BitsType} : P4Expr t → Bool
  | .const _ v _ => decide (v < 0)
  | _ => false

/-- `gen_format_expr`, `none` for an error.  There is no C for two signs in a row. -/
def genExpr (simple : Bool) : {t : BitsType} → P4Expr t → Option CExpr
  | _, .const base v _ => fmtConstant base v
  | t, .var x => some (.var t.storage (t, x))
  | t, .neg e => (genExpr simple e).bind fun fe =>
    if t.isSigned then (if startsWithSign e then none else some (.neg fe))
    else masking t (.bin .sub (decimal (2 ^ t.size)) fe)
  | t, .cmpl e => (genExpr simple e).bind fun fe => masking t (.compl fe)
  | t, .bin op l r => (genExpr simple l).bind fun left => (genExpr simple r).bind fun right =>
    genBin simple t left right op
  | t, .shl l r _ => (genExpr simple l).bind fun left => (genExpr simple r).bind fun right =>
    complexOp t .shl left right
  | t, .shr l r _ => (genExpr simple l).bind fun left => (genExpr simple r).bind fun right =>
    -- the result of the check is 0 whatever the sign, and the width itself passes
    if t.isSigned then
      some (.cond (.bin .gt right (decimal t.size)) (decimal 0) (.bin .shr left right))
    else
      complexOp t .shr left right
  | _, @P4Expr.concat _ u l r _ _ _ => (genExpr simple l).bind fun left =>
    (genExpr simple r).map fun right =>
      .bin (.bit .or) (.bin .shl left (decimal u.size)) right
  | _, @P4Expr.cast t e u _ => (genExpr simple e).bind fun src =>
    -- a wider unsigned type holds the value as it is
    if t.isSigned = u.isSigned then
      if u.isSigned then some (.cast u.storage src)
      else if u.size < t.size then masking u src else some src
    else if t.isSigned then masking u src
    else some (.cast u.storage src)

/-! ### Masked and cast results -/

theorem litType_inRange (base : ℕ) {v : ℤ} (hlo : 0 ≤ v) (hhi : v < 2 ^ 63) :
    (litType base v).InRange v := by
  rw [litType]
  split_ifs with h1 h2 <;>
    simp only [CType.InRange, CType.bits, CType.isSigned, inRange_true, inRange_false] <;>
    omega

theorem pow_size_le (t : BitsType) : (1 : ℤ) ≤ 2 ^ t.size ∧ (2 : ℤ) ^ t.size ≤ 2 ^ 32 :=
  ⟨one_le_pow₀ (by decide), pow_le_pow_two t.size_le⟩

theorem decimal_inRange {v : ℤ} (hlo : 0 ≤ v) (hhi : v < 2 ^ 63) :
    (decimal v).type.InRange v := by
  rw [decimal, Expr.type]
  exact litType_inRange 10 hlo hhi

theorem run_decimal (env : CVar → ℤ) {v : ℤ} (hlo : 0 ≤ v) (hhi : v < 2 ^ 63) :
    (decimal v).run env = some v := by
  rw [decimal, Expr.run_lit, CType.conv_of_inRange (litType_inRange 10 hlo hhi)]

/-- **A masked expression has the value of the expression modulo `2 ^ w`.** -/
theorem masking_run (env : CVar → ℤ) {t : BitsType} {e c : CExpr} (h : masking t e = some c) :
    c.run env = (e.run env).map t.wrap := by
  obtain ⟨mask, hmask, rfl⟩ := Option.map_eq_some_iff.mp h
  rw [typeMask] at hmask
  split at hmask
  · cases hmask
  next hsigned =>
  rw [Option.some_inj] at hmask
  subst hmask
  rw [Bool.not_eq_true] at hsigned
  have hpow := pow_size_le t
  have hstorage : ∀ v, t.storage.conv v = wrap t.storage.bits false v := fun v => by
    rw [Storage.conv, show t.storage.isSigned = false from hsigned]
  have hmaskRange : CInt.InRange t.storage.bits false (2 ^ t.size - 1) := by
    have : (2 : ℤ) ^ t.size ≤ 2 ^ t.storage.bits := pow_le_pow_two t.size_le_bits
    rw [inRange_false]
    omega
  have hmaskVal : t.storage.conv ((litType 16 (2 ^ t.size - 1)).conv (2 ^ t.size - 1)) =
      2 ^ t.size - 1 := by
    rw [CType.conv_of_inRange (litType_inRange 16 (by omega) (by omega)), hstorage,
      wrap_of_inRange t.storage.bits_pos hmaskRange]
  have hjoin : t.storage.promote.join t.storage.promote = t.storage.promote := by
    cases t.storage.promote <;> rfl
  simp only [Expr.run_bin, Expr.run_tmp, Expr.run_lit, Expr.run_cast, casting, Option.map_some,
    Option.bind_some, hmaskVal]
  cases e.run env with
  | none => rfl
  | some x =>
    -- three conversions to the C type are one
    have hconv : t.storage.conv (t.storage.conv (t.storage.conv (t.storage.conv x))) =
        wrap t.storage.bits false x := by
      simp only [hstorage, wrap_wrap t.storage.bits_pos le_rfl]
    simp only [Option.map_some, Option.bind_some, hconv, BinOp.eval, Expr.type, hjoin]
    have hx := wrap_inRange t.storage.bits_pos false x
    rw [bitwise_widen .and t.storage.bits_pos hmaskRange hx,
      bitwise_mask t.size_le_bits t.storage.bits_pos hx]
    have hmod : wrap t.storage.bits false x % 2 ^ t.size = t.wrap x := by
      have := @wrap_wrap t.size t.storage.bits false false x t.size_pos t.size_le_bits
      rw [BitsType.wrap, hsigned, ← this]
      rfl
    rw [hmod]
    have hrange : t.storage.promote.InRange (t.wrap x) :=
      Storage.InRange.promote (BitsType.wrap_inRange t x).storage
    exact congrArg some (CType.conv_of_inRange hrange)

/-- **A result that is masked or cast is the one of the P4 type.** -/
theorem complexOp_run (env : CVar → ℤ) {t : BitsType} {op : BinOp} {left right c : CExpr}
    (h : complexOp t op left right = some c) :
    c.run env = ((Expr.bin op (.cast t.storage left) right).run env).map t.wrap := by
  rw [complexOp] at h
  split at h
  · next hsigned =>
    rw [Option.some_inj] at h
    subst h
    rw [Expr.run_cast, funext (BitsType.storage_conv_of_signed hsigned)]
  · exact masking_run env h

/-! ### When the operators are right -/

/-- The values of the C variables. -/
def Vars.toC (env : Vars) (x : CVar) : ℤ := env x.1 x.2

/-- The generated expression has the value that P4 says. -/
def Correct (simple : Bool) (env : Vars) {t : BitsType} (e : P4Expr t) : Prop :=
  ∀ c, genExpr simple e = some c → c.run env.toC = some (e.value env)

/-- The C type of a binary operator, from those of its operands. -/
def binType (simple : Bool) (t : BitsType) (tl tr : CType) : ArithOp → CType
  | .bit _ => if simple then tl.join tr else t.storage.promote
  | _ => t.storage.promote

/-- The C type of the generated expression. -/
def ctype (simple : Bool) : {t : BitsType} → P4Expr t → CType
  | _, .const base v _ => litType base |v|
  | t, .var _ => t.storage.promote
  | t, .neg e => if t.isSigned then ctype simple e else t.storage.promote
  | t, .cmpl _ => t.storage.promote
  | t, .bin op l r => binType simple t (ctype simple l) (ctype simple r) op
  | t, .shl _ _ _ => t.storage.promote
  | t, .shr l _ _ => if t.isSigned then ctype simple l else t.storage.promote
  | _, .concat l r _ _ _ => (ctype simple l).join (ctype simple r)
  | _, @P4Expr.cast t e u _ =>
    if t.isSigned = u.isSigned ∧ u.isSigned = false ∧ t.size ≤ u.size then ctype simple e
    else u.storage.promote

/-- An operator on operands `x` and `y`, the left one cast to its type: no signed
overflow, and for a bitwise operator that is not cast a result of the C type. -/
def BinSafe (simple : Bool) (t : BitsType) (tl tr : CType) (x y : ℤ) (op : ArithOp) : Prop :=
  match op with
  | .bit _ => simple = true → (tl.join tr).InRange (op.apply t x y)
  | op => (op = .sub → t.isSigned = true) → (t.storage.promote.join tr).isSigned = true →
    (t.storage.promote.join tr).InRange (op.apply t x y)

/-- The amount `k` of a shift to the right: less than the width of the C type, and
more than the width of a signed type only for values that are not negative. -/
def ShrSafe (t : BitsType) (tl : CType) (x k : ℤ) : Prop :=
  if t.isSigned then (k ≤ t.size → k < tl.bits) ∧ (t.size < k → 0 ≤ x) else k < 32

/-- The operands of a concatenation, the right one of `n` bits: the C type has the
result, and the right operand is not negative, or else its ones meet ones. -/
def ConcatSafe (tl tr : CType) (n : ℕ) (x y : ℤ) : Prop :=
  if 0 ≤ y then
    (tl.join tr).InRange (x * 2 ^ n + y) ∧ (tl.join tr = .long → tl.InRange (x * 2 ^ n))
  else if tl.join tr = .uint then x + 1 = 2 ^ (32 - n)
  else x = -1

/-- The operator at the root is used where C computes what P4 says. -/
def NodeSafe (simple : Bool) (env : Vars) : {t : BitsType} → P4Expr t → Prop
  | _, .const _ _ _ => True
  | _, .var _ => True
  | t, .neg e => t.isSigned = true →
    e.value env ≠ -2 ^ (t.size - 1) ∧ (ctype simple e = .uint → e.value env = 0)
  | _, .cmpl _ => True
  | t, .bin op l r =>
    BinSafe simple t (ctype simple l) (ctype simple r) (l.value env) (r.value env) op
  | _, .shl _ r _ => r.value env < 32
  | t, .shr l r _ => ShrSafe t (ctype simple l) (l.value env) (r.value env)
  | _, @P4Expr.concat _ u l r _ _ _ =>
    ConcatSafe (ctype simple l) (ctype simple r) u.size (l.value env) (r.value env)
  | _, .cast _ _ _ => True

/-- All parts of an expression have a property. -/
def P4Expr.All (P : {t : BitsType} → P4Expr t → Prop) : {t : BitsType} → P4Expr t → Prop
  | _, .const b v h => P (P4Expr.const b v h)
  | t, .var x => P (@P4Expr.var t x)
  | _, .neg e => P (P4Expr.neg e) ∧ All P e
  | _, .cmpl e => P (P4Expr.cmpl e) ∧ All P e
  | _, .bin op l r => P (P4Expr.bin op l r) ∧ All P l ∧ All P r
  | _, .shl l r hu => P (P4Expr.shl l r hu) ∧ All P l ∧ All P r
  | _, .shr l r hu => P (P4Expr.shr l r hu) ∧ All P l ∧ All P r
  | _, .concat l r s hsize hsign => P (P4Expr.concat l r s hsize hsign) ∧ All P l ∧ All P r
  | _, .cast e u h => P (P4Expr.cast e u h) ∧ All P e

/-- What is known of the code of an operand that is right. -/
structure Operand (env : Vars) (t : BitsType) (c : CExpr) (v : ℤ) : Prop where
  run : c.run env.toC = some v
  inRange : t.InRange v
  c_inRange : c.type.InRange v

theorem Operand.of_correct {simple : Bool} {env : Vars} {t : BitsType} {e : P4Expr t} {c : CExpr}
    (hc : genExpr simple e = some c) (h : Correct simple env e) :
    Operand env t c (e.value env) := by
  have hrun := h c hc
  refine ⟨hrun, e.value_inRange env, ?_⟩
  exact c.eval_inRange env.toC ((Expr.run_eq_some env.toC).mp hrun).2

theorem masking_type {t : BitsType} {e c : CExpr} (h : masking t e = some c) :
    c.type = t.storage.promote := by
  obtain ⟨mask, hmask, rfl⟩ := Option.map_eq_some_iff.mp h
  rw [typeMask] at hmask
  split at hmask
  · cases hmask
  · cases hmask
    exact CType.join_self _

theorem complexOp_type {t : BitsType} {op : BinOp} {left right c : CExpr}
    (h : complexOp t op left right = some c) : c.type = t.storage.promote := by
  rw [complexOp] at h
  split at h
  · cases h
    rfl
  · exact masking_type h

theorem genBin_type {simple : Bool} {t : BitsType} {op : ArithOp} {left right c : CExpr}
    (h : genBin simple t left right op = some c) :
    c.type = binType simple t left.type right.type op := by
  cases op with
  | add => exact complexOp_type h
  | mul => exact complexOp_type h
  | sub =>
    rw [genBin] at h
    split at h
    · exact complexOp_type h
    · exact masking_type h
  | bit op =>
    cases simple with
    | false => exact complexOp_type h
    | true =>
      cases h
      rfl

theorem ctype_eq {simple : Bool} {t : BitsType} {e : P4Expr t} : ∀ {c : CExpr},
    genExpr simple e = some c → c.type = ctype simple e := by
  induction e with
  -- A literal has the type of its absolute value, as C has no negative literals.
  | const base v hv =>
    intro c hc
    rw [genExpr, fmtConstant] at hc
    rw [ctype]
    split at hc
    · next hpos =>
      cases hc
      rw [abs_of_nonneg hpos]
      rfl
    · next hneg =>
      split at hc
      · cases hc
      · cases hc
        rw [abs_of_neg (not_le.mp hneg)]
        rfl
  | var x =>
    intro c hc
    cases hc
    rfl
  | @neg t e ih =>
    intro c hc
    obtain ⟨fe, he, hc⟩ := Option.bind_eq_some_iff.mp hc
    rw [ctype]
    split at hc
    · next hs =>
      obtain ⟨-, hc⟩ := Option.ite_none_left_eq_some.mp hc
      cases hc
      rw [if_pos hs, ← ih he]
      rfl
    · next hs =>
      rw [if_neg hs]
      exact masking_type hc
  | cmpl e ih =>
    intro c hc
    obtain ⟨fe, he, hc⟩ := Option.bind_eq_some_iff.mp hc
    exact masking_type hc
  | bin op l r ihl ihr =>
    intro c hc
    obtain ⟨left, hl, hc⟩ := Option.bind_eq_some_iff.mp hc
    obtain ⟨right, hr, hc⟩ := Option.bind_eq_some_iff.mp hc
    rw [genBin_type hc, ctype, ihl hl, ihr hr]
  | shl l r hu ihl ihr =>
    intro c hc
    obtain ⟨left, hl, hc⟩ := Option.bind_eq_some_iff.mp hc
    obtain ⟨right, hr, hc⟩ := Option.bind_eq_some_iff.mp hc
    exact complexOp_type hc
  | shr l r hu ihl ihr =>
    intro c hc
    obtain ⟨left, hl, hc⟩ := Option.bind_eq_some_iff.mp hc
    obtain ⟨right, hr, hc⟩ := Option.bind_eq_some_iff.mp hc
    rw [ctype]
    split at hc
    · next hs =>
      cases hc
      -- `(r >= s) ? 0 : (l >> r)`: the 0 is an `int` and does not change the type of the other.
      have hzero : (decimal 0 : CExpr).type = .int := by
        rw [decimal, Expr.type, litType, if_pos (by decide)]
      rw [if_pos hs, ← ihl hl, Expr.type, hzero]
      exact CType.join_int_left _
    · next hs =>
      rw [if_neg hs]
      exact complexOp_type hc
  | concat l r s hsize hsign ihl ihr =>
    intro c hc
    obtain ⟨left, hl, hc⟩ := Option.bind_eq_some_iff.mp hc
    obtain ⟨right, hr, rfl⟩ := Option.map_eq_some_iff.mp hc
    rw [ctype, ← ihl hl, ← ihr hr]
    rfl
  -- A mask has the type of the mask, a cast that of the storage, and no code that of `e`.
  | @cast t e u h ih =>
    intro c hc
    obtain ⟨src, he, hc⟩ := Option.bind_eq_some_iff.mp hc
    rw [ctype]
    split at hc
    · next hsign =>
      split at hc
      · next hs =>
        cases hc
        rw [if_neg (by simp [hs])]
        rfl
      · next hs =>
        split at hc
        · rw [if_neg (by omega)]
          exact masking_type hc
        · cases hc
          rw [if_pos ⟨hsign, by simpa using hs, by omega⟩]
          exact ih he
    · next hsign =>
      rw [if_neg fun h => hsign h.1]
      split at hc
      · exact masking_type hc
      · cases hc
        rfl

section Nodes

variable {env : Vars} {t u : BitsType} {l r c : CExpr} {x y : ℤ}

/-- The C type of the operation of `gen_fmt_ComplexOp`, with its operands. -/
theorem complexOp_operands {op : BinOp} (hl : Operand env t l x) (hr : Operand env u r y)
    (hc : complexOp t op l r = some c) :
    c.run env.toC = (op.eval t.storage.promote r.type x y).map t.wrap := by
  rw [complexOp_run env.toC hc, Expr.run_bin, Expr.run_cast, hl.run, hr.run]
  simp only [Option.map_some, Option.bind_some, Storage.conv_of_inRange hl.inRange.storage]
  rfl

/-- Addition, subtraction and multiplication in a C type, masked or cast. -/
theorem arith_node {f : ℤ → ℤ → ℤ} (hl : Operand env t l x) (hr : Operand env u r y)
    {w : Option ℤ} (hw : w = (t.storage.promote.join r.type).arith
      (f ((t.storage.promote.join r.type).conv x) ((t.storage.promote.join r.type).conv y)))
    (hf : ∀ {n a a' b b' : ℤ}, a ≡ a' [ZMOD n] → b ≡ b' [ZMOD n] → f a b ≡ f a' b' [ZMOD n]) :
    w.map t.wrap = some (t.wrap (f x y)) ↔
      ((t.storage.promote.join r.type).isSigned = true →
        (t.storage.promote.join r.type).InRange (f x y)) := by
  have harith := fun v => @CType.arith_conv t.storage.promote r.type f x y v
    hl.inRange.storage.promote hr.c_inRange hf
  -- the P4 type cuts the result, so only an overflow that is undefined can be wrong
  rw [hw]
  constructor
  · intro h
    obtain ⟨v, hv, -⟩ := Option.map_eq_some_iff.mp h
    exact ((harith v).mp hv).1
  · intro h
    rw [(harith _).mpr ⟨h, rfl⟩, Option.map_some, BitsType.wrap_congr (CType.conv_modEq _ _)]

theorem inRange_of_unsigned (hu : t.isSigned = false) {v : ℤ} (h : t.InRange v) :
    0 ≤ v ∧ v < 2 ^ t.size := by
  rw [BitsType.InRange, hu] at h
  exact inRange_false.mp h

/-- `2 ^ w` as a constant: an `int` only if it is small. -/
theorem litType_pow (t : BitsType) : (litType 10 (2 ^ t.size) = .int → (2 : ℤ) ^ t.size ≤ 2 ^ 30) ∧
    ∀ {v : ℤ}, 0 ≤ v → v ≤ 2 ^ t.size → (litType 10 (2 ^ t.size)).InRange v := by
  have hpow := pow_size_le t
  by_cases hlt : (2 : ℤ) ^ t.size < 2 ^ 31
  · rw [litType, if_pos hlt]
    refine ⟨fun _ => pow_le_pow_two ?_, ?_⟩
    · have := (pow_lt_pow_iff_right₀ (by decide : (1 : ℤ) < 2)).mp hlt
      omega
    · intro hv hle
      simp only [CType.InRange, CType.bits, CType.isSigned, inRange_true]
      omega
  · rw [litType, if_neg hlt, if_neg (by simp)]
    refine ⟨fun h => CType.noConfusion h, ?_⟩
    intro hv hle
    simp only [CType.InRange, CType.bits, CType.isSigned, inRange_true]
    omega

/-- `2 ^ w - y`, with which the generator negates. -/
theorem run_pow_sub (hu : t.isSigned = false) (hr : Operand env t r y) :
    (Expr.bin .sub (decimal (2 ^ t.size)) r).run env.toC = some (2 ^ t.size - y) ∧
      ∃ ts : CType, (Expr.bin .sub (decimal (2 ^ t.size)) r).type = ts ∧
        (ts = .int → (2 : ℤ) ^ t.size ≤ 2 ^ 30) ∧ ts.InRange (2 ^ t.size - y) := by
  have hpow := pow_size_le t
  obtain ⟨hlo, hhi⟩ := inRange_of_unsigned hu hr.inRange
  have hrun := @run_decimal env.toC (2 ^ t.size) (by omega) (by omega)
  obtain ⟨hint, hlit⟩ := litType_pow t
  -- of the type of the constant no more is needed
  rw [decimal] at hrun ⊢
  generalize litType 10 (2 ^ t.size) = tc at hint hlit hrun ⊢
  have hrange : (tc.join r.type).InRange (2 ^ t.size - y) :=
    CType.InRange.join_of_nonneg (.inl (hlit (by omega) (by omega))) (by omega)
  have harith := (@CType.arith_conv _ _ (· - ·) _ _ (2 ^ t.size - y) (hlit (by omega) le_rfl)
    hr.c_inRange Int.ModEq.sub).mpr ⟨fun _ => hrange, CType.conv_of_inRange hrange⟩
  refine ⟨?_, tc.join r.type, rfl, fun htype => hint ?_, hrange⟩
  · rw [Expr.run_bin, hrun, hr.run, Option.bind_some, Option.bind_some]
    exact harith
  · -- only a constant of type `int` has a sum of type `int`
    revert htype
    cases tc <;> cases r.type <;> simp [CType.join]

/-- Unsigned subtraction adds the negated operand. -/
theorem sub_unsigned_node (hu : t.isSigned = false) (hl : Operand env t l x)
    (hr : Operand env t r y)
    (hc : masking t (.bin .add l (.bin .sub (decimal (2 ^ t.size)) r)) = some c) :
    c.run env.toC = some (t.wrap (x - y)) := by
  obtain ⟨hsub, ts, hts, hint, hrange⟩ := run_pow_sub hu hr
  have hpow := pow_size_le t
  obtain ⟨hxlo, hxhi⟩ := inRange_of_unsigned hu hl.inRange
  obtain ⟨hylo, hyhi⟩ := inRange_of_unsigned hu hr.inRange
  generalize Expr.bin BinOp.sub (decimal (2 ^ t.size)) r = inner at hc hsub hts
  -- in an `int` the width is below 31, and a `long` is wide enough for any
  have hsum : (l.type.join ts).isSigned = true →
      (l.type.join ts).InRange (x + (2 ^ t.size - y)) := by
    intro _
    cases hjoin : l.type.join ts with
    | int =>
      have htype : ts = .int := by
        revert hjoin
        cases l.type <;> cases ts <;> simp [CType.join]
      have := hint htype
      simp only [CType.InRange, CType.bits, CType.isSigned, inRange_true]
      omega
    | uint => simp_all [CType.isSigned]
    | long =>
      simp only [CType.InRange, CType.bits, CType.isSigned, inRange_true]
      omega
  rw [masking_run env.toC hc, Expr.run_bin, hl.run, hsub, Option.bind_some, Option.bind_some,
    hts, BinOp.eval, (CType.arith_conv hl.c_inRange hrange Int.ModEq.add).mpr ⟨hsum, rfl⟩,
    Option.map_some, BitsType.wrap_congr (CType.conv_modEq _ _)]
  refine congrArg some (CInt.wrap_congr t.size_pos (Int.modEq_iff_dvd.mpr ⟨-1, by ring⟩))

/-- The negation of an unsigned value. -/
theorem neg_unsigned_node (hu : t.isSigned = false) (hr : Operand env t r y)
    (hc : masking t (.bin .sub (decimal (2 ^ t.size)) r) = some c) :
    c.run env.toC = some (t.wrap (-y)) := by
  rw [masking_run env.toC hc, (run_pow_sub hu hr).1, Option.map_some]
  exact congrArg some (CInt.wrap_congr t.size_pos (Int.modEq_iff_dvd.mpr ⟨-1, by ring⟩))

/-- The negation of a signed value, which is not cast. -/
theorem neg_signed_node (hs : t.isSigned = true) (hr : Operand env t r y) :
    (Expr.neg r).run env.toC = some (t.wrap (-y)) ↔
      y ≠ -2 ^ (t.size - 1) ∧ (r.type = .uint → y = 0) := by
  have hpow : (1 : ℤ) ≤ 2 ^ (t.size - 1) := one_le_pow₀ (by decide)
  have hpow' : (2 : ℤ) ^ (t.size - 1) ≤ 2 ^ 31 := by
    have := t.size_le
    exact pow_le_pow_two (by omega)
  have hy : -2 ^ (t.size - 1) ≤ y ∧ y < 2 ^ (t.size - 1) := by
    have := hr.inRange
    rw [BitsType.InRange, hs] at this
    exact inRange_true.mp this
  have hrange : t.InRange (-y) ↔ y ≠ -2 ^ (t.size - 1) := by
    rw [BitsType.InRange, hs, inRange_true]
    omega
  rw [Expr.run_neg, hr.run, Option.bind_some, CType.arith_eq_some]
  by_cases hmin : y = -2 ^ (t.size - 1)
  · -- the least value: its negation is no value of the type
    have hwrap : t.wrap (-y) ≠ -y := fun h => hrange.mp (h ▸ t.wrap_inRange (-y)) hmin
    refine ⟨fun ⟨hin, heq⟩ => ?_, fun h => absurd hmin h.1⟩
    cases htype : r.type with
    | uint =>
      have := hr.c_inRange
      rw [htype] at this
      simp only [CType.InRange, CType.bits, CType.isSigned, inRange_false] at this
      omega
    | int =>
      rw [htype] at hin heq
      exact absurd (heq.symm.trans (CType.conv_of_inRange (hin rfl))) hwrap
    | long =>
      rw [htype] at hin heq
      exact absurd (heq.symm.trans (CType.conv_of_inRange (hin rfl))) hwrap
  · rw [BitsType.wrap_of_inRange (hrange.mpr hmin), CType.conv_eq_self_iff]
    cases htype : r.type with
    | uint =>
      have := hr.c_inRange
      rw [htype] at this
      simp only [CType.InRange, CType.bits, CType.isSigned, inRange_false] at this ⊢
      simp only [Bool.false_eq_true, false_implies, true_and, ne_eq, hmin, not_false_eq_true,
        true_implies]
      omega
    | int =>
      simp only [CType.InRange, CType.bits, CType.isSigned, inRange_true, reduceCtorEq,
        false_implies, and_true, ne_eq, hmin, not_false_eq_true, true_implies, iff_true]
      omega
    | long =>
      simp only [CType.InRange, CType.bits, CType.isSigned, inRange_true, reduceCtorEq,
        false_implies, and_true, ne_eq, hmin, not_false_eq_true, true_implies, iff_true]
      omega

/-- The bitwise operators do not depend on the type as long as it has both operands. -/
theorem bit_complex_node {op : BitOp} (hl : Operand env t l x) (hr : Operand env t r y)
    (hc : complexOp t (.bit op) l r = some c) :
    c.run env.toC = some (t.wrap (bitwise op t.size t.isSigned x y)) := by
  rw [complexOp_operands hl hr hc, BinOp.eval, Option.map_some,
    bitwise_widen op t.size_pos hl.inRange hr.inRange]
  exact congrArg some (BitsType.wrap_congr (CType.conv_modEq _ _))

theorem bit_simple_node {op : BitOp} (hl : Operand env t l x) (hr : Operand env t r y) :
    (Expr.bin (.bit op) l r).run env.toC = some (t.wrap (bitwise op t.size t.isSigned x y)) ↔
      (l.type.join r.type).InRange (bitwise op t.size t.isSigned x y) := by
  have hwrap := BitsType.wrap_of_inRange
    (bitwise_inRange op t.size_pos t.isSigned x y : t.InRange _)
  rw [Expr.run_bin, hl.run, hr.run, Option.bind_some, Option.bind_some, BinOp.eval, hwrap,
    bitwise_widen op t.size_pos hl.inRange hr.inRange, Option.some_inj]
  exact CType.conv_eq_self_iff

theorem promote_bits (s : Storage) : s.promote.bits = 32 := by
  rw [Storage.promote]
  split <;> rfl

/-- A shift to the left: all of the promoted type is shifted, and then cut. -/
theorem shl_node (hl : Operand env t l x) (hr : Operand env u r y) (hy : 0 ≤ y)
    (hc : complexOp t .shl l r = some c) :
    c.run env.toC = some (t.wrap (x * 2 ^ y.toNat)) ↔ y < 32 := by
  rw [complexOp_operands hl hr hc, BinOp.eval, promote_bits]
  by_cases hlt : y < 32
  · rw [if_pos ⟨hy, hlt⟩, Option.map_some, BitsType.wrap_congr (CType.conv_modEq _ _)]
    exact iff_of_true rfl hlt
  · rw [if_neg fun h => hlt h.2]
    exact iff_of_false nofun hlt

theorem shr_unsigned_node (hl : Operand env t l x) (hr : Operand env u r y) (hy : 0 ≤ y)
    (hc : complexOp t .shr l r = some c) :
    c.run env.toC = some (x / 2 ^ y.toNat) ↔ y < 32 := by
  rw [complexOp_operands hl hr hc, BinOp.eval, promote_bits]
  by_cases hlt : y < 32
  · have hrange : t.InRange (x / 2 ^ y.toNat) := hl.inRange.ediv_pow _
    rw [if_pos ⟨hy, hlt⟩, Option.map_some, BitsType.wrap_of_inRange hrange]
    exact iff_of_true rfl hlt
  · rw [if_neg fun h => hlt h.2]
    exact iff_of_false nofun hlt

/-- A shift of all bits leaves nothing of a value, or its sign. -/
theorem ediv_pow_of_size_lt (hs : t.isSigned = true) (hx : t.InRange x) (hlt : t.size < y) :
    x / 2 ^ y.toNat = if 0 ≤ x then 0 else -1 := by
  have hpow : (2 : ℤ) ^ (t.size - 1) ≤ 2 ^ y.toNat := pow_le_pow_two (by omega)
  rw [BitsType.InRange, hs, inRange_true] at hx
  split_ifs with h
  · exact Int.ediv_eq_zero_of_lt h (by omega)
  · rw [Int.ediv_eq_iff_of_pos (by positivity)]
    omega

theorem shr_signed_node (hs : t.isSigned = true) (hl : Operand env t l x)
    (hr : Operand env u r y) (hy : 0 ≤ y) :
    (Expr.cond (.bin .gt r (decimal t.size)) (decimal 0) (.bin .shr l r)).run env.toC =
        some (x / 2 ^ y.toNat) ↔
      (y ≤ t.size → y < l.type.bits) ∧ (t.size < y → 0 ≤ x) := by
  have hsize := t.size_le
  have hlit : ∀ {v : ℤ}, 0 ≤ v → v ≤ 32 → litType 10 v = .int := by
    intro v hlo hhi
    rw [litType, if_pos (by omega)]
  have hdec : (decimal t.size).run env.toC = some (t.size : ℤ) :=
    run_decimal env.toC (by omega) (by omega)
  have hsizeRange : (r.type.join (decimal t.size).type).InRange t.size :=
    CType.InRange.join_of_nonneg (.inr (decimal_inRange (by omega) (by omega))) (by omega)
  have hgt : (Expr.bin .gt r (decimal t.size)).run env.toC =
      some (if (t.size : ℤ) < y then 1 else 0) := by
    rw [Expr.run_bin, hr.run, hdec, Option.bind_some, Option.bind_some, BinOp.eval,
      CType.conv_of_inRange (CType.InRange.join_of_nonneg (.inl hr.c_inRange) hy),
      CType.conv_of_inRange hsizeRange]
  obtain ⟨hlok, hleval⟩ := (Expr.run_eq_some env.toC).mp hl.run
  obtain ⟨hrok, hreval⟩ := (Expr.run_eq_some env.toC).mp hr.run
  have hok : (Expr.bin .shr l r).InitsOk env.toC := by
    simp only [Expr.InitsOk, Expr.inits, List.forall_mem_append]
    exact ⟨hlok, hrok⟩
  rw [Expr.run_cond env.toC hgt (by simp [Expr.InitsOk, Expr.inits, decimal]) hok]
  have htype : (decimal 0 : CExpr).type.join (Expr.bin .shr l r).type = l.type := by
    rw [decimal, Expr.type, hlit le_rfl (by decide)]
    exact CType.join_int_left _
  rw [htype]
  by_cases hlt : (t.size : ℤ) < y
  · -- the amount is too large: the result is zero
    have hzero : ∀ tc : CType, tc.conv 0 = 0 := fun tc => CType.conv_of_inRange (by
      cases tc <;> decide)
    rw [ediv_pow_of_size_lt hs hl.inRange hlt, if_pos hlt, if_pos one_ne_zero, decimal, Expr.eval,
      Option.map_some, hzero, hzero, Option.some_inj]
    split <;> omega
  · -- C shifts in the type of the left operand, which may be wider than the value's
    rw [if_neg hlt, if_neg (not_not.mpr rfl), Expr.eval, hleval, hreval, Option.bind_some,
      Option.bind_some, BinOp.eval]
    by_cases hbits : y < l.type.bits
    · rw [if_pos ⟨hy, hbits⟩, Option.map_some,
        CType.conv_of_inRange (hl.c_inRange.ediv_pow _ : l.type.InRange _)]
      exact iff_of_true rfl ⟨fun _ => hbits, fun h => absurd h hlt⟩
    · rw [if_neg fun h => hbits h.2]
      exact iff_of_false (Option.some_ne_none _).symm fun h => hbits (h.1 (not_lt.mp hlt))

/-- The left operand of a concatenation keeps its low bits zero when it is shifted. -/
theorem conv_mul_pow (tc : CType) (x : ℤ) {n : ℕ} (hn : n ≤ 32) :
    ∃ q : ℤ, tc.conv (x * 2 ^ n) = q * 2 ^ n := by
  have hdvd : (2 : ℤ) ^ n ∣ tc.conv (x * 2 ^ n) := by
    have hmod : tc.conv (x * 2 ^ n) ≡ x * 2 ^ n [ZMOD 2 ^ n] := modEq_pow (tc.conv_modEq _) hn
    exact Int.dvd_of_emod_eq_zero (Eq.trans hmod (Int.mul_emod_left x _))
  obtain ⟨q, hq⟩ := hdvd
  exact ⟨q, by rw [hq, mul_comm]⟩

/-- What `|` computes of the shifted left and the right operand. -/
theorem run_concat (hl : Operand env t l x) (hr : Operand env u r y)
    (hsize : t.size + u.size ≤ 32) :
    (Expr.bin (.bit .or) (.bin .shl l (decimal u.size)) r).run env.toC =
      some ((l.type.join r.type).conv
        (if 0 ≤ y then l.type.conv (x * 2 ^ u.size) + y else y)) := by
  have ht := t.size_pos
  have hbits := l.type.le_bits
  have hy : -2 ^ u.size ≤ y ∧ y < 2 ^ u.size := by
    have hwide : CInt.InRange (u.size + 1) true y := hr.inRange.toSigned (Nat.lt_succ_self _)
    exact inRange_true.mp hwide
  have hshl : (Expr.bin .shl l (decimal u.size)).run env.toC =
      some (l.type.conv (x * 2 ^ u.size)) := by
    rw [Expr.run_bin, hl.run, run_decimal env.toC (by omega) (by omega), Option.bind_some,
      Option.bind_some, BinOp.eval, if_pos (by omega), Int.toNat_natCast]
  obtain ⟨q, hq⟩ := conv_mul_pow l.type x (n := u.size) (by omega)
  rw [Expr.run_bin, hshl, hr.run, Option.bind_some, Option.bind_some, BinOp.eval, hq]
  change some (bitwise .or (l.type.join r.type).bits (l.type.join r.type).isSigned _ _) = _
  split_ifs with hpos
  · rw [bitwise_or_shift q hpos hy.2]
    rfl
  · rw [bitwise_or_neg q hy.1 (not_le.mp hpos)]
    rfl

/-- A right operand that is not negative is put behind the left one, in the common type. -/
theorem conv_concat_iff {tl tr : CType} {n : ℕ} (hx : CType.long.InRange (x * 2 ^ n))
    (hlo : 0 ≤ y) (hhi : y < 2 ^ 32) :
    (tl.join tr).conv (tl.conv (x * 2 ^ n) + y) = x * 2 ^ n + y ↔
      (tl.join tr).InRange (x * 2 ^ n + y) ∧ (tl.join tr = .long → tl.InRange (x * 2 ^ n)) := by
  by_cases hlong : tl.join tr = .long
  · by_cases hin : tl.InRange (x * 2 ^ n)
    · rw [CType.conv_of_inRange hin, CType.conv_eq_self_iff]
      exact (and_iff_left fun _ => hin).symm
    · -- the left operand is cut by its own type, which is then not the common one
      refine iff_of_false (fun h => hin ?_) fun h => hin (h.2 hlong)
      have hcut := tl.conv_inRange (x * 2 ^ n)
      have hsum : CType.long.InRange (tl.conv (x * 2 ^ n) + y) := by
        cases tl with
        | long => exact absurd hx hin
        | int =>
          simp only [CType.InRange, CType.bits, CType.isSigned, inRange_true] at hcut ⊢
          omega
        | uint =>
          simp only [CType.InRange, CType.bits, CType.isSigned, inRange_true, inRange_false]
            at hcut ⊢
          omega
      rw [hlong, CType.conv_of_inRange hsum] at h
      rwa [add_right_cancel h] at hcut
  · -- both are cut to 32 bits in the end, so the cut before changes nothing
    have hbits : (tl.join tr).bits = 32 := by
      cases htype : tl.join tr with
      | long => exact absurd htype hlong
      | int => rfl
      | uint => rfl
    have hcongr : (tl.join tr).conv (tl.conv (x * 2 ^ n) + y) = (tl.join tr).conv (x * 2 ^ n + y) :=
      CInt.wrap_congr (CType.bits_pos _) (hbits ▸ (tl.conv_modEq _).add_right y)
    rw [hcongr, CType.conv_eq_self_iff]
    exact (and_iff_left fun h => absurd h hlong).symm

/-- A negative right operand has ones at the place of the left one. -/
theorem conv_neg_iff {tl tr : CType} {n : ℕ} (hy : tr.InRange y) (hlo : -2 ^ (n - 1) ≤ y)
    (hneg : y < 0) (hn : 0 < n) (hle : n ≤ 32) :
    (tl.join tr).conv y = x * 2 ^ n + y % 2 ^ n ↔
      if tl.join tr = .uint then x + 1 = 2 ^ (32 - n) else x = -1 := by
  have hpos : (0 : ℤ) < 2 ^ n := by positivity
  have hhalf : (2 : ℤ) ^ (n - 1) * 2 = 2 ^ n := by
    rw [← pow_succ, Nat.sub_add_cancel hn]
  have hmod : y % 2 ^ n = y + 2 ^ n := by
    rw [← Int.add_emod_right, Int.emod_eq_of_lt (by omega) (by omega)]
  have hval : x * 2 ^ n + y % 2 ^ n = (x + 1) * 2 ^ n + y := by
    rw [hmod]
    ring
  rw [hval]
  split_ifs with huint
  · -- the ones of the unsigned value reach up to bit 31
    have h32 : (2 : ℤ) ^ (32 - n) * 2 ^ n = 2 ^ 32 := by
      rw [← pow_add, Nat.sub_add_cancel hle]
    have hle' : (2 : ℤ) ^ n ≤ 2 ^ 32 := pow_le_pow_two hle
    have hconv : CType.uint.conv y = y + 2 ^ 32 := by
      rw [CType.conv, CType.bits, CType.isSigned, wrap, if_neg Bool.false_ne_true]
      omega
    rw [huint, hconv]
    constructor
    · intro h
      have hmul : (x + 1) * 2 ^ n = 2 ^ (32 - n) * 2 ^ n := by
        rw [h32]
        omega
      exact mul_right_cancel₀ hpos.ne' hmul
    · intro h
      rw [h, h32]
      ring
  · have hsigned : (tl.join tr).isSigned = true := by
      cases htype : tl.join tr with
      | uint => exact absurd htype huint
      | int => rfl
      | long => rfl
    rw [CType.conv_of_inRange (CType.InRange.join_of_signed (.inr hy) hsigned)]
    constructor
    · intro h
      have hmul : (x + 1) * 2 ^ n = 0 := by omega
      rcases mul_eq_zero.mp hmul with hx | hx
      · omega
      · exact absurd hx hpos.ne'
    · intro h
      rw [h]
      ring

theorem concat_node (hl : Operand env t l x) (hr : Operand env u r y)
    (hsize : t.size + u.size ≤ 32) :
    (Expr.bin (.bit .or) (.bin .shl l (decimal u.size)) r).run env.toC =
        some (x * 2 ^ u.size + y % 2 ^ u.size) ↔
      ConcatSafe l.type r.type u.size x y := by
  have ht := t.size_pos
  have hu := u.size_pos
  rw [run_concat hl hr hsize, Option.some_inj, ConcatSafe]
  by_cases hpos : 0 ≤ y
  · have hyhi : y < 2 ^ u.size := by
      have hwide : CInt.InRange (u.size + 1) true y := hr.inRange.toSigned (Nat.lt_succ_self _)
      exact (inRange_true.mp hwide).2
    have hx : CType.long.InRange (x * 2 ^ u.size) := by
      have hwide := hl.inRange.mul_pow_add ht le_rfl (by positivity : (0 : ℤ) < 2 ^ u.size)
      rw [add_zero] at hwide
      exact hwide.toSigned (by change _ < 64; omega)
    rw [if_pos hpos, if_pos hpos, Int.emod_eq_of_lt hpos hyhi]
    exact conv_concat_iff hx hpos (hyhi.trans_le (pow_size_le u).2)
  · have hsigned : u.isSigned = true := by
      by_contra hs
      exact hpos (inRange_of_unsigned (by simpa using hs) hr.inRange).1
    have hylo : -2 ^ (u.size - 1) ≤ y := by
      have := hr.inRange
      rw [BitsType.InRange, hsigned] at this
      exact (inRange_true.mp this).1
    rw [if_neg hpos, if_neg hpos]
    exact conv_neg_iff hr.c_inRange hylo (not_le.mp hpos) hu u.size_le

/-- A constant with a sign is the negation of one without. -/
theorem const_node {base : ℕ} (hx : t.InRange x) (hc : fmtConstant base x = some c) :
    c.run env.toC = some x := by
  have hsize := t.size_le
  have hrange : -2 ^ 31 ≤ x ∧ x < 2 ^ 32 := by
    have hwide : CInt.InRange 33 true x := hx.toSigned (by omega)
    rw [inRange_true] at hwide
    cases hs : t.isSigned with
    | false =>
      have := inRange_of_unsigned hs hx
      omega
    | true =>
      rw [BitsType.InRange, hs] at hx
      have := inRange_true.mp (hx.mono (k := 32) hsize)
      omega
  -- Both bounds are needed: the literal is positive, and its negation has to fit again.
  rw [fmtConstant] at hc
  split at hc
  · next hpos =>
    cases hc
    rw [Expr.run_lit, CType.conv_of_inRange (litType_inRange base hpos (by omega))]
  · next hneg =>
    obtain ⟨hbase, hc⟩ := Option.ite_none_left_eq_some.mp hc
    cases hc
    have hlit : (litType base (-x)).InRange (-x) := litType_inRange base (by omega) (by omega)
    have hself : (litType base (-x)).InRange x := by
      rw [litType]
      split_ifs with h31 h32
      · simp only [CType.InRange, CType.bits, CType.isSigned, inRange_true]
        omega
      · exact absurd h32.1 hbase
      · simp only [CType.InRange, CType.bits, CType.isSigned, inRange_true]
        omega
    rw [Expr.run_neg, Expr.run_lit, CType.conv_of_inRange hlit, Option.bind_some,
      CType.arith_eq_some, Expr.type, neg_neg]
    exact ⟨fun _ => hself, CType.conv_of_inRange hself⟩

theorem cmpl_node (hr : Operand env t r y) (hc : masking t (.compl r) = some c) :
    c.run env.toC = some (t.wrap (-y - 1)) := by
  rw [masking_run env.toC hc, Expr.run_compl, hr.run, Option.map_some, Option.map_some]
  exact congrArg some (BitsType.wrap_congr (CType.conv_modEq _ _))

/-- Casts, of all kinds that the generator knows. -/
theorem cast_node (hl : Operand env t l x)
    (hc : (if t.isSigned = u.isSigned then
        if u.isSigned then some (.cast u.storage l)
        else if u.size < t.size then masking u l else some l
      else if t.isSigned then masking u l else some (.cast u.storage l)) = some c) :
    c.run env.toC = some (u.wrap x) := by
  have hcast : u.isSigned = true →
      (Expr.cast u.storage l).run env.toC = some (u.wrap x) := fun hs => by
    rw [Expr.run_cast, hl.run, Option.map_some, BitsType.storage_conv_of_signed hs]
  have hmask : masking u l = some c → c.run env.toC = some (u.wrap x) := fun hm => by
    rw [masking_run env.toC hm, hl.run, Option.map_some]
  -- The cases of the generator: same signs, a mask or nothing; different signs, a mask or a cast.
  split at hc
  · next hsign =>
    split at hc
    · next hs =>
      cases hc
      exact hcast hs
    · next hs =>
      split at hc
      · exact hmask hc
      · next hle =>
        cases hc
        -- To a type that is at least as wide: no code is generated.
        have hrange : u.InRange x := by
          have := hl.inRange.mono (not_lt.mp hle)
          rwa [hsign] at this
        rw [hl.run, BitsType.wrap_of_inRange hrange]
  · next hsign =>
    split at hc
    · exact hmask hc
    · next hs =>
      cases hc
      refine hcast ?_
      cases hu : u.isSigned with
      | true => rfl
      | false =>
        rw [hu] at hsign
        exact absurd (by simpa using hs) hsign

/-- The operators that keep the type. -/
theorem bin_node {simple : Bool} {op : ArithOp} (hl : Operand env t l x) (hr : Operand env t r y)
    (hc : genBin simple t l r op = some c) :
    c.run env.toC = some (t.wrap (op.apply t x y)) ↔ BinSafe simple t l.type r.type x y op := by
  cases op with
  | add =>
    rw [complexOp_operands hl hr hc, ArithOp.apply]
    refine (arith_node hl hr rfl Int.ModEq.add).trans ?_
    exact ⟨fun h _ => h, fun h => h nofun⟩
  | mul =>
    rw [complexOp_operands hl hr hc, ArithOp.apply]
    refine (arith_node hl hr rfl Int.ModEq.mul).trans ?_
    exact ⟨fun h _ => h, fun h => h nofun⟩
  -- Unsigned subtraction has a generator of its own, which is always right.
  | sub =>
    rw [genBin] at hc
    split at hc
    · next hs =>
      rw [complexOp_operands hl hr hc, ArithOp.apply]
      refine (arith_node hl hr rfl Int.ModEq.sub).trans ?_
      exact ⟨fun h _ => h, fun h => h fun _ => hs⟩
    · next hs =>
      exact iff_of_true (sub_unsigned_node (by simpa using hs) hl hr hc)
        fun h => absurd (h rfl) hs
  | bit op =>
    cases simple with
    | false => exact iff_of_true (bit_complex_node hl hr hc) nofun
    | true =>
      cases hc
      rw [ArithOp.apply, bit_simple_node hl hr]
      exact ⟨fun h _ => h, fun h => h rfl⟩

end Nodes

/-! ### Expressions -/

theorem P4Expr.All.self {P : {t : BitsType} → P4Expr t → Prop} {t : BitsType} {e : P4Expr t}
    (h : e.All P) : P e := by
  cases e with
  | const => exact h
  | var => exact h
  | neg => exact h.1
  | cmpl => exact h.1
  | bin => exact h.1
  | shl => exact h.1
  | shr => exact h.1
  | concat => exact h.1
  | cast => exact h.1

theorem correct_iff {simple : Bool} {env : Vars} {t : BitsType} {e : P4Expr t} {c : CExpr}
    (hc : genExpr simple e = some c) :
    Correct simple env e ↔ c.run env.toC = some (e.value env) :=
  ⟨fun h => h c hc, fun h _ hc' => Option.some_inj.mp (hc.symm.trans hc') ▸ h⟩

/-- The amount of a shift is not negative. -/
theorem amount_nonneg {env : Vars} {u : BitsType} (hu : u.isSigned = false) (r : P4Expr u) :
    0 ≤ r.value env :=
  (inRange_of_unsigned hu (r.value_inRange env)).1

/-- **The generated expression and the temporaries it uses have the values that P4 says,
and none of them is undefined, in all parts of an expression exactly if all its operators
are used where C computes what P4 says.** -/
theorem genExpr_correct_iff (simple : Bool) (env : Vars) {t : BitsType} (e : P4Expr t)
    (haccepted : (genExpr simple e).isSome = true) :
    (e.All (NodeSafe simple env) → Correct simple env e) ∧
      (e.All (Correct simple env) ↔ e.All (NodeSafe simple env)) := by
  have hall : e.All (Correct simple env) ↔ e.All (NodeSafe simple env) := by
    obtain ⟨c, hc⟩ := Option.isSome_iff_exists.mp haccepted
    clear haccepted
    -- an operator is judged on operands that are right, which the induction provides
    induction e generalizing c with
    | const base v hv =>
      exact iff_of_true (fun _ hc' => const_node hv hc') trivial
    | var x =>
      refine iff_of_true ?_ trivial
      intro c' hc'
      cases hc'
      rw [Expr.run_var, Vars.toC, Storage.conv_of_inRange (env _ x).2.storage]
      rfl
    | @neg t e ih =>
      obtain ⟨fe, he, hcode⟩ := Option.bind_eq_some_iff.mp hc
      rw [P4Expr.All, P4Expr.All, ← ih fe he]
      refine and_congr_left fun h => (correct_iff hc).trans ?_
      have hop := Operand.of_correct he h.self
      rw [NodeSafe, ← ctype_eq he]
      split at hcode
      · next hs =>
        obtain ⟨-, hcode⟩ := Option.ite_none_left_eq_some.mp hcode
        cases hcode
        exact (neg_signed_node hs hop).trans ⟨fun h _ => h, fun h => h hs⟩
      · next hs =>
        exact iff_of_true (neg_unsigned_node (by simpa using hs) hop hcode) fun h => absurd h hs
    | cmpl e ih =>
      obtain ⟨fe, he, hcode⟩ := Option.bind_eq_some_iff.mp hc
      rw [P4Expr.All, P4Expr.All, ← ih fe he]
      refine and_congr_left fun h => (correct_iff hc).trans ?_
      exact iff_of_true (cmpl_node (Operand.of_correct he h.self) hcode) trivial
    | bin op l r ihl ihr =>
      obtain ⟨left, hl, hcode⟩ := Option.bind_eq_some_iff.mp hc
      obtain ⟨right, hr, hcode⟩ := Option.bind_eq_some_iff.mp hcode
      rw [P4Expr.All, P4Expr.All, ← ihl left hl, ← ihr right hr]
      refine and_congr_left fun h => (correct_iff hc).trans ?_
      rw [NodeSafe, ← ctype_eq hl, ← ctype_eq hr]
      exact bin_node (Operand.of_correct hl h.1.self) (Operand.of_correct hr h.2.self) hcode
    | shl l r hu ihl ihr =>
      obtain ⟨left, hl, hcode⟩ := Option.bind_eq_some_iff.mp hc
      obtain ⟨right, hr, hcode⟩ := Option.bind_eq_some_iff.mp hcode
      rw [P4Expr.All, P4Expr.All, ← ihl left hl, ← ihr right hr]
      refine and_congr_left fun h => (correct_iff hc).trans ?_
      exact shl_node (Operand.of_correct hl h.1.self) (Operand.of_correct hr h.2.self)
        (amount_nonneg hu r) hcode
    | @shr t u l r hu ihl ihr =>
      obtain ⟨left, hl, hcode⟩ := Option.bind_eq_some_iff.mp hc
      obtain ⟨right, hr, hcode⟩ := Option.bind_eq_some_iff.mp hcode
      rw [P4Expr.All, P4Expr.All, ← ihl left hl, ← ihr right hr]
      refine and_congr_left fun h => (correct_iff hc).trans ?_
      have hlop := Operand.of_correct hl h.1.self
      have hrop := Operand.of_correct hr h.2.self
      rw [NodeSafe, ← ctype_eq hl, ShrSafe]
      split at hcode
      · next hs =>
        cases hcode
        rw [if_pos hs]
        exact shr_signed_node hs hlop hrop (amount_nonneg hu r)
      · next hs =>
        rw [if_neg hs]
        exact shr_unsigned_node hlop hrop (amount_nonneg hu r) hcode
    | concat l r s hsize hsign ihl ihr =>
      obtain ⟨left, hl, hcode⟩ := Option.bind_eq_some_iff.mp hc
      obtain ⟨right, hr, rfl⟩ := Option.map_eq_some_iff.mp hcode
      rw [P4Expr.All, P4Expr.All, ← ihl left hl, ← ihr right hr]
      refine and_congr_left fun h => (correct_iff hc).trans ?_
      rw [NodeSafe, ← ctype_eq hl, ← ctype_eq hr]
      have hle := s.size_le
      exact concat_node (Operand.of_correct hl h.1.self) (Operand.of_correct hr h.2.self)
        (by omega)
    | cast e u h ih =>
      obtain ⟨src, he, hcode⟩ := Option.bind_eq_some_iff.mp hc
      rw [P4Expr.All, P4Expr.All, ← ih src he]
      refine and_congr_left fun h => (correct_iff hc).trans ?_
      exact iff_of_true (cast_node (Operand.of_correct he h.self) hcode) trivial
  exact ⟨fun h => (hall.mpr h).self, hall⟩

def bit8 : BitsType := ⟨8, false, by decide⟩

def bit12 : BitsType := ⟨12, false, by decide⟩

/-- `(x + 5) << 3` -/
def addThenShift : P4Expr bit12 :=
  .shl (.bin .add (.var 0) (.const 10 5 (by decide))) (@P4Expr.const bit8 10 3 (by decide)) rfl

/-- All variables are 7, or what is left of it. -/
def sevens : Vars := fun t _ => ⟨t.wrap 7, t.wrap_inRange 7⟩

theorem addThenShift_correct : addThenShift.value sevens = 96 ∧ Correct true sevens addThenShift := by
  have hsafe : addThenShift.All (NodeSafe true sevens) := by
    refine ⟨?_, ⟨?_, trivial, trivial⟩, trivial⟩
    · change (3 : ℤ) < 32
      decide
    · intro _ _
      decide +kernel
  exact ⟨by decide +kernel, (genExpr_correct_iff true sevens addThenShift rfl).1 hsafe⟩

/-- `x << 32` -/
def shiftBy32 : P4Expr bit8 :=
  .shl (.var 0) (@P4Expr.const bit8 10 32 (by decide)) rfl

/-- **The shift of an 8-bit value by 32, which is zero, is undefined.** -/
theorem shl_not_correct : ¬ ∃ simple : Bool, ∀ (env : Vars) (t : BitsType) (e : P4Expr t),
    (genExpr simple e).isSome = true → Correct simple env e := by
  rintro ⟨simple, h⟩
  have hrun := h sevens bit8 shiftBy32 rfl _ rfl
  revert hrun
  cases simple <;> decide +kernel

end T4P4S
