/-
C's integers as values of `ℤ`, with the width and the sign of their type.

* **`wrap`** — the conversion to a type, the value of the type that is congruent
  (**`wrap_eq_iff`**);
* **`bitwise`** — the bitwise operators, in two's complement; on values of a
  narrower type a wider one computes the same (**`bitwise_widen`**).
-/
import Mathlib.Algebra.Order.Ring.Int
import Mathlib.Data.Int.ModEq
import Mathlib.Tactic.Common
import Mathlib.Tactic.Linarith

namespace CInt

/-- The values of a type. -/
def InRange (bits : ℕ) (isSigned : Bool) (v : ℤ) : Prop :=
  if isSigned then -2 ^ (bits - 1) ≤ v ∧ v < 2 ^ (bits - 1) else 0 ≤ v ∧ v < 2 ^ bits

instance (bits : ℕ) (isSigned : Bool) (v : ℤ) : Decidable (InRange bits isSigned v) :=
  inferInstanceAs (Decidable (if isSigned then _ ∧ _ else _ ∧ _))

/-- The conversion to a type. -/
def wrap (bits : ℕ) (isSigned : Bool) (v : ℤ) : ℤ :=
  if isSigned then Int.bmod v (2 ^ bits) else v % 2 ^ bits

variable {n k : ℕ} {isSigned s' : Bool} {a b v : ℤ}

@[simp] theorem inRange_false : InRange n false v ↔ 0 ≤ v ∧ v < 2 ^ n := by
  simp [InRange]

@[simp] theorem inRange_true : InRange n true v ↔ -2 ^ (n - 1) ≤ v ∧ v < 2 ^ (n - 1) := by
  simp [InRange]

theorem pow_le_pow_two (h : n ≤ k) : (2 : ℤ) ^ n ≤ 2 ^ k :=
  pow_le_pow_right₀ (by decide) h

theorem InRange.mono (h : InRange n isSigned v) (hnk : n ≤ k) : InRange k isSigned v := by
  cases isSigned
  · rw [inRange_false] at *
    have := pow_le_pow_two hnk
    omega
  · rw [inRange_true] at *
    have : (2 : ℤ) ^ (n - 1) ≤ 2 ^ (k - 1) := pow_le_pow_two (by omega)
    omega

/-- A wider signed type has all values of a type. -/
theorem InRange.toSigned (h : InRange n isSigned v) (hnk : n < k) : InRange k true v := by
  cases isSigned
  · rw [inRange_false] at h
    rw [inRange_true]
    have : (2 : ℤ) ^ n ≤ 2 ^ (k - 1) := pow_le_pow_two (by omega)
    omega
  · exact h.mono hnk.le

/-- Two values of a type that are congruent are equal. -/
theorem InRange.eq_of_modEq (hn : 0 < n) (ha : InRange n isSigned a) (hb : InRange n isSigned b)
    (h : a ≡ b [ZMOD 2 ^ n]) : a = b := by
  have hpow : (2 : ℤ) ^ n = 2 ^ (n - 1) * 2 := by
    rw [← pow_succ, Nat.sub_add_cancel hn]
  obtain ⟨c, hc⟩ := h.symm.dvd
  have hpos : (0 : ℤ) < 2 ^ (n - 1) := by positivity
  have hlt : -2 ^ n < a - b ∧ a - b < 2 ^ n := by
    cases isSigned
    · rw [inRange_false] at *
      omega
    · rw [inRange_true] at *
      omega
  -- the difference is a multiple of `2 ^ n` and less than `2 ^ n`
  have hzero : c = 0 := by
    rw [hc] at hlt
    have hc1 : c < 1 := by nlinarith
    have hc2 : -1 < c := by nlinarith
    omega
  rw [hzero, mul_zero] at hc
  omega

theorem wrap_modEq (n : ℕ) (isSigned : Bool) (v : ℤ) : wrap n isSigned v ≡ v [ZMOD 2 ^ n] := by
  unfold wrap
  split
  · have := @Int.bmod_emod v (2 ^ n)
    push_cast at this
    exact this
  · exact Int.mod_modEq v _

theorem wrap_inRange (hn : 0 < n) (isSigned : Bool) (v : ℤ) :
    InRange n isSigned (wrap n isSigned v) := by
  have hpow : 2 ^ n = 2 ^ (n - 1) * 2 := by
    rw [← pow_succ, Nat.sub_add_cancel hn]
  cases isSigned
  · rw [inRange_false]
    exact ⟨Int.emod_nonneg v (by positivity), Int.emod_lt_of_pos v (by positivity)⟩
  · rw [inRange_true]
    have hlo := @Int.le_bmod v (2 ^ n) (by positivity)
    have hhi := @Int.bmod_lt v (2 ^ n) (by positivity)
    rw [hpow] at hlo hhi
    push_cast at hlo hhi
    unfold wrap
    rw [if_pos rfl, hpow]
    omega

theorem wrap_eq_iff (hn : 0 < n) :
    wrap n isSigned v = a ↔ InRange n isSigned a ∧ v ≡ a [ZMOD 2 ^ n] := by
  constructor
  · rintro rfl
    exact ⟨wrap_inRange hn isSigned v, (wrap_modEq n isSigned v).symm⟩
  · rintro ⟨ha, h⟩
    exact (wrap_inRange hn isSigned v).eq_of_modEq hn ha ((wrap_modEq n isSigned v).trans h)

theorem wrap_of_inRange (hn : 0 < n) (h : InRange n isSigned v) : wrap n isSigned v = v :=
  (wrap_eq_iff hn).mpr ⟨h, rfl⟩

theorem wrap_congr (hn : 0 < n) (h : a ≡ b [ZMOD 2 ^ n]) :
    wrap n isSigned a = wrap n isSigned b :=
  (wrap_eq_iff hn).mpr ⟨wrap_inRange hn isSigned b, h.trans (wrap_modEq n isSigned b).symm⟩

theorem modEq_pow (h : a ≡ b [ZMOD 2 ^ k]) (hnk : n ≤ k) : a ≡ b [ZMOD 2 ^ n] :=
  h.of_dvd (pow_dvd_pow 2 hnk)

theorem wrap_wrap (hn : 0 < n) (hnk : n ≤ k) :
    wrap n isSigned (wrap k s' v) = wrap n isSigned v :=
  wrap_congr hn (modEq_pow (wrap_modEq k s' v) hnk)

/-- A shift to the right stays in the type. -/
theorem InRange.ediv_pow (h : InRange n isSigned v) (i : ℕ) :
    InRange n isSigned (v / 2 ^ i) := by
  have hpos : (0 : ℤ) < 2 ^ i := by positivity
  have hone : (1 : ℤ) ≤ 2 ^ i := hpos
  have hle : 0 ≤ v → v / 2 ^ i ≤ v := fun hv => Int.ediv_le_self _ hv
  have hge : v < 0 → v ≤ v / 2 ^ i := fun hv => by
    rw [Int.le_ediv_iff_mul_le hpos]
    nlinarith
  have hneg : v < 0 → v / 2 ^ i < 0 := fun hv => Int.ediv_neg_of_neg_of_pos hv hpos
  have hnonneg : 0 ≤ v → 0 ≤ v / 2 ^ i := fun hv => Int.ediv_nonneg hv hpos.le
  cases isSigned
  · rw [inRange_false] at *
    exact ⟨hnonneg h.1, (hle h.1).trans_lt h.2⟩
  · rw [inRange_true] at *
    have : (0 : ℤ) < 2 ^ (n - 1) := by positivity
    rcases lt_or_ge v 0 with hv | hv
    · have := hge hv
      have := hneg hv
      omega
    · have := hle hv
      have := hnonneg hv
      omega

/-- Bits put behind those of a value. -/
theorem InRange.mul_pow_add (hk : 0 < k) (h : InRange k isSigned a) (hlo : 0 ≤ b)
    (hhi : b < 2 ^ n) : InRange (k + n) isSigned (a * 2 ^ n + b) := by
  have hpos : (0 : ℤ) < 2 ^ n := by positivity
  cases isSigned
  · rw [inRange_false] at *
    rw [pow_add]
    constructor <;> nlinarith
  · rw [inRange_true] at *
    rw [show k + n - 1 = k - 1 + n by omega, pow_add]
    constructor <;> nlinarith

/-! ### Bit patterns -/

/-- The value of a bit pattern. -/
def toVal (isSigned : Bool) (x : BitVec n) : ℤ := if isSigned then x.toInt else x.toNat

theorem toVal_ofInt (n : ℕ) (isSigned : Bool) (v : ℤ) :
    toVal isSigned (BitVec.ofInt n v) = wrap n isSigned v := by
  unfold toVal wrap
  split
  · exact BitVec.toInt_ofInt v
  · rw [BitVec.toNat_ofInt]
    have : 0 ≤ v % ((2 ^ n : ℕ) : ℤ) := Int.emod_nonneg v (by positivity)
    push_cast at *
    omega

theorem toVal_inRange (hn : 0 < n) (isSigned : Bool) (x : BitVec n) :
    InRange n isSigned (toVal isSigned x) := by
  have : x = BitVec.ofInt n x.toInt := BitVec.ofInt_toInt.symm
  rw [this, toVal_ofInt]
  exact wrap_inRange hn isSigned _

inductive BitOp
  | and
  | or
  | xor
  deriving DecidableEq

def BitOp.apply : BitOp → BitVec n → BitVec n → BitVec n
  | .and, x, y => x &&& y
  | .or, x, y => x ||| y
  | .xor, x, y => x ^^^ y

/-- A bitwise operator of a type. -/
def bitwise (op : BitOp) (n : ℕ) (isSigned : Bool) (a b : ℤ) : ℤ :=
  toVal isSigned (op.apply (BitVec.ofInt n a) (BitVec.ofInt n b))

theorem bitwise_inRange (op : BitOp) (hn : 0 < n) (isSigned : Bool) (a b : ℤ) :
    InRange n isSigned (bitwise op n isSigned a b) :=
  toVal_inRange hn isSigned _

/-- A bit pattern in a wider type: it is extended as its sign says. -/
theorem ofInt_toVal (x : BitVec k) :
    BitVec.ofInt n (toVal isSigned x) = if isSigned then x.signExtend n else x.setWidth n := by
  unfold toVal
  split
  · rfl
  · rw [BitVec.ofInt_natCast, BitVec.ofNat_toNat]

/-- On the values of a narrower type the operators do not depend on the width. -/
theorem apply_ofInt (op : BitOp) (hk : 0 < k) (ha : InRange k isSigned a)
    (hb : InRange k isSigned b) :
    op.apply (BitVec.ofInt n a) (BitVec.ofInt n b) =
      BitVec.ofInt n (bitwise op k isSigned a b) := by
  have hval : ∀ {v}, InRange k isSigned v → v = toVal isSigned (BitVec.ofInt k v) := by
    intro v hv
    rw [toVal_ofInt, wrap_of_inRange hk hv]
  conv_lhs => rw [hval ha, hval hb]
  rw [bitwise, ofInt_toVal, ofInt_toVal, ofInt_toVal]
  cases isSigned <;> cases op <;>
    simp [BitOp.apply, BitVec.signExtend_and, BitVec.signExtend_or, BitVec.signExtend_xor]

theorem bitwise_widen (op : BitOp) (hk : 0 < k) (ha : InRange k isSigned a)
    (hb : InRange k isSigned b) :
    bitwise op n s' a b = wrap n s' (bitwise op k isSigned a b) := by
  rw [bitwise, apply_ofInt op hk ha hb, toVal_ofInt]

/-- The mask of `k` bits leaves the value modulo `2 ^ k`. -/
theorem bitwise_mask (hk : k ≤ n) (hn : 0 < n) (hv : InRange n false v) :
    bitwise .and n false (2 ^ k - 1) v = v % 2 ^ k := by
  have hpow : (2 : ℤ) ^ k ≤ 2 ^ n := pow_le_pow_two hk
  have hpos : (0 : ℤ) < 2 ^ k := by positivity
  have hmask : (BitVec.ofInt n (2 ^ k - 1)).toNat = 2 ^ k - 1 := by
    rw [BitVec.toNat_ofInt, Int.emod_eq_of_lt (by omega) (by push_cast; omega)]
    have : ((2 ^ k : ℕ) : ℤ) = 2 ^ k := by push_cast; rfl
    omega
  have hval : ((BitVec.ofInt n v).toNat : ℤ) = v := by
    have := toVal_ofInt n false v
    rwa [wrap_of_inRange hn hv] at this
  rw [bitwise, toVal, if_neg Bool.false_ne_true, BitOp.apply, BitVec.toNat_and, hmask,
    Nat.and_comm, Nat.and_two_pow_sub_one_eq_mod]
  push_cast
  rw [hval]

/-- The bits of a multiple of `2 ^ k` start at `k`. -/
theorem getLsbD_ofInt_mul_pow (n k : ℕ) (q : ℤ) (i : ℕ) :
    (BitVec.ofInt n (q * 2 ^ k)).getLsbD i =
      (decide (i < n) && !decide (i < k) && (BitVec.ofInt n q).getLsbD (i - k)) := by
  have hshift : BitVec.ofInt n (q * 2 ^ k) = BitVec.ofInt n q <<< k := by
    rw [BitVec.shiftLeft_eq_mul_twoPow, BitVec.ofInt_mul]
    congr 1
    refine BitVec.eq_of_toNat_eq ?_
    rw [BitVec.toNat_ofInt, BitVec.toNat_twoPow]
    exact_mod_cast rfl
  rw [hshift, BitVec.getLsbD_shiftLeft]

theorem bitwise_or_shift (q : ℤ) (hlo : 0 ≤ b) (hhi : b < 2 ^ k) :
    bitwise .or n isSigned (q * 2 ^ k) b = wrap n isSigned (q * 2 ^ k + b) := by
  obtain ⟨c, rfl⟩ := Int.eq_ofNat_of_zero_le hlo
  have hc : c < 2 ^ k := by exact_mod_cast hhi
  rw [← toVal_ofInt, bitwise, BitOp.apply, BitVec.ofInt_add]
  refine congrArg _ (BitVec.add_eq_or_of_and_eq_zero _ _ ?_).symm
  refine BitVec.eq_of_getLsbD_eq ?_
  intro i hi
  rw [BitVec.getLsbD_and, getLsbD_ofInt_mul_pow, BitVec.ofInt_natCast, BitVec.getLsbD_ofNat,
    BitVec.getLsbD_zero]
  by_cases hik : i < k
  · simp [hik]
  · rw [Nat.testBit_lt_two_pow (hc.trans_le (Nat.pow_le_pow_right (by decide) (by omega)))]
    simp

/-- A negative value of `k` bits has ones from the bit `k` on. -/
theorem bitwise_or_neg (q : ℤ) (hlo : -2 ^ k ≤ b) (hhi : b < 0) :
    bitwise .or n isSigned (q * 2 ^ k) b = wrap n isSigned b := by
  obtain ⟨c, rfl⟩ := Int.eq_negSucc_of_lt_zero hhi
  have hc : c < 2 ^ k := by
    rw [Int.negSucc_eq] at hlo
    have : ((2 ^ k : ℕ) : ℤ) = 2 ^ k := by push_cast; rfl
    omega
  rw [← toVal_ofInt, bitwise, BitOp.apply]
  refine congrArg _ (BitVec.eq_of_getLsbD_eq fun i hi => ?_)
  rw [BitVec.getLsbD_or, getLsbD_ofInt_mul_pow, BitVec.ofInt_negSucc_eq_not_ofNat,
    BitVec.getLsbD_not, BitVec.getLsbD_ofNat]
  by_cases hik : i < k
  · simp [hik]
  · rw [Nat.testBit_lt_two_pow (hc.trans_le (Nat.pow_le_pow_right (by decide) (by omega)))]
    simp [hi]

/-- `&` on integers of at most 64 bits. -/
def band (a b : ℤ) : ℤ := bitwise .and 64 true a b

theorem band_comm (a b : ℤ) : band a b = band b a := by
  simp [band, bitwise, BitOp.apply, BitVec.and_comm]

@[simp] theorem band_zero (a : ℤ) : band a 0 = 0 := by
  simp [band, bitwise, BitOp.apply, toVal]

@[simp] theorem zero_band (a : ℤ) : band 0 a = 0 := by
  rw [band_comm, band_zero]

/-- A value of at most 64 bits is its own mask. -/
theorem band_self (h : InRange 64 true a) : band a a = a := by
  rw [band, bitwise, BitOp.apply, BitVec.and_self, toVal_ofInt, wrap_of_inRange (by decide) h]

end CInt
