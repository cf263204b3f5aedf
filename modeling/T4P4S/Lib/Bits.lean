/-
The bits of a byte memory in network order, and the words that a little-endian
host loads from it.

Bit `i` of the memory is the bit `i % 8`, from the top, of byte `i / 8`.  A word
loaded by the host has its bytes reversed; swapped, its bits from the top are
consecutive bits of the memory:

* **`getMsbD_bswap32_load32`** — loading and swapping;
* **`getMsbD_bswap32_load8`**, **`getMsbD_bswap32_load16`** — the same for
  shorter words, zero-extended;
* **`bitAt_store32_bswap32`** — swapping and storing.

Not swapped, a loaded word has the value whose bytes are in the memory, the least
significant one first: **`HasBytes.load8`**, **`HasBytes.load16`**, **`HasBytes.load32`**.
-/
import Mathlib.Algebra.GroupWithZero.Nat
import Mathlib.Data.List.GetD
import Mathlib.Tactic.Common

namespace NetBits

/-- Bit `i` of the memory, in network order. -/
def bitAt (m : ℕ → BitVec 8) (i : ℕ) : Bool := (m (i / 8)).getMsbD (i % 8)

/-- The byte with the given bits, the most significant one first. -/
def byteOf (f : ℕ → Bool) : BitVec 8 :=
  BitVec.ofBoolListBE [f 0, f 1, f 2, f 3, f 4, f 5, f 6, f 7]

theorem getMsbD_byteOf (f : ℕ → Bool) {i : ℕ} (hi : i < 8) : (byteOf f).getMsbD i = f i := by
  unfold byteOf
  rw [BitVec.getMsbD_ofBoolListBE]
  have hcases : i = 0 ∨ i = 1 ∨ i = 2 ∨ i = 3 ∨ i = 4 ∨ i = 5 ∨ i = 6 ∨ i = 7 := by omega
  rcases hcases with rfl | rfl | rfl | rfl | rfl | rfl | rfl | rfl <;> rfl

/-- A byte of the memory is the byte with its bits. -/
theorem byteOf_bitAt (m : ℕ → BitVec 8) (a : ℕ) : byteOf (fun j => bitAt m (8 * a + j)) = m a := by
  refine BitVec.eq_of_getMsbD_eq ?_
  intro i hi
  rw [getMsbD_byteOf _ hi, bitAt, show (8 * a + i) / 8 = a by omega,
    show (8 * a + i) % 8 = i by omega]

/-- The bits of a string of bytes, in network order; zero behind its end. -/
def bytesBit (l : List (BitVec 8)) (i : ℕ) : Bool := bitAt (fun a => l.getD a 0) i

theorem bytesBit_append (l l' : List (BitVec 8)) (i : ℕ) :
    bytesBit (l ++ l') i =
      if i < 8 * l.length then bytesBit l i else bytesBit l' (i - 8 * l.length) := by
  simp only [bytesBit, bitAt]
  split_ifs with h
  · rw [List.getD_append _ _ _ _ (by omega)]
  · rw [List.getD_append_right _ _ _ _ (by omega)]
    rw [show i / 8 - l.length = (i - 8 * l.length) / 8 by omega,
      show (i - 8 * l.length) % 8 = i % 8 by omega]

theorem bytesBit_map_byteOf (n : ℕ) (f : ℕ → Bool) {i : ℕ} (hi : i < 8 * n) :
    bytesBit ((List.range n).map fun q => byteOf fun j => f (8 * q + j)) i = f i := by
  simp only [bytesBit, bitAt]
  rw [List.getD_eq_getElem _ _ (by rw [List.length_map, List.length_range]; omega)]
  rw [List.getElem_map, List.getElem_range, getMsbD_byteOf _ (Nat.mod_lt i (by decide))]
  rw [Nat.div_add_mod]

/-! ### Words -/

/-- A word from its bytes, the most significant one first. -/
def word32 (a b c d : BitVec 8) : BitVec 32 := a ++ b ++ c ++ d

theorem getMsbD_word32 (a b c d : BitVec 8) (j : ℕ) :
    (word32 a b c d).getMsbD j =
      if j < 8 then a.getMsbD j else if j < 16 then b.getMsbD (j - 8)
        else if j < 24 then c.getMsbD (j - 16) else d.getMsbD (j - 24) := by
  have h : (a ++ b ++ c ++ d : BitVec (8 + 8 + 8 + 8)).getMsbD j =
      if 24 ≤ j then d.getMsbD (j - 24) else if 16 ≤ j then c.getMsbD (j - 16)
        else if 8 ≤ j then b.getMsbD (j - 8) else a.getMsbD j := by
    simp only [BitVec.getMsbD_append]
  refine h.trans ?_
  split_ifs <;> first | rfl | omega

def load16 (m : ℕ → BitVec 8) (p : ℕ) : BitVec 16 := m (p + 1) ++ m p

def load32 (m : ℕ → BitVec 8) (p : ℕ) : BitVec 32 :=
  word32 (m (p + 3)) (m (p + 2)) (m (p + 1)) (m p)

def store8 (m : ℕ → BitVec 8) (p : ℕ) (x : BitVec 8) : ℕ → BitVec 8 :=
  fun a => if a = p then x else m a

def store32 (m : ℕ → BitVec 8) (p : ℕ) (x : BitVec 32) : ℕ → BitVec 8 :=
  fun a => if p ≤ a ∧ a < p + 4 then x.extractLsb' (8 * (a - p)) 8 else m a

/-- The byte `j` of a word is the byte at `p + j`, for each of the first `c` bytes. -/
def HasBytes (m : ℕ → BitVec 8) (p c : ℕ) (x : BitVec 32) : Prop :=
  ∀ j < c, m (p + j) = x.extractLsb' (8 * j) 8

theorem toNat_byte (x : BitVec 32) (j : ℕ) :
    (x.extractLsb' (8 * j) 8).toNat = x.toNat / 2 ^ (8 * j) % 2 ^ 8 := by
  rw [BitVec.extractLsb'_toNat, Nat.shiftRight_eq_div_pow]

theorem toNat_word32 (a b c d : BitVec 8) :
    (word32 a b c d).toNat = 2 ^ 24 * a.toNat + 2 ^ 16 * b.toNat + 2 ^ 8 * c.toNat + d.toNat := by
  have h : (a ++ b ++ c ++ d : BitVec (8 + 8 + 8 + 8)).toNat =
      2 ^ 24 * a.toNat + 2 ^ 16 * b.toNat + 2 ^ 8 * c.toNat + d.toNat := by
    rw [BitVec.toNat_append, BitVec.toNat_append, BitVec.toNat_append,
      ← Nat.shiftLeft_add_eq_or_of_lt d.isLt, ← Nat.shiftLeft_add_eq_or_of_lt c.isLt,
      ← Nat.shiftLeft_add_eq_or_of_lt b.isLt]
    simp only [Nat.shiftLeft_eq]
    omega
  exact h

theorem toNat_load16 (m : ℕ → BitVec 8) (p : ℕ) :
    (load16 m p).toNat = 2 ^ 8 * (m (p + 1)).toNat + (m p).toNat := by
  have h : (m (p + 1) ++ m p : BitVec (8 + 8)).toNat =
      2 ^ 8 * (m (p + 1)).toNat + (m p).toNat := by
    rw [BitVec.toNat_append, ← Nat.shiftLeft_add_eq_or_of_lt (m p).isLt, Nat.shiftLeft_eq,
      Nat.mul_comm]
  exact h

section HasBytes

variable {m : ℕ → BitVec 8} {p : ℕ} {x : BitVec 32}

theorem HasBytes.load8 (h : HasBytes m p 1 x) :
    ((m p).setWidth 32).toNat = x.toNat % 2 ^ 8 := by
  have h0 : m p = _ := h 0 Nat.zero_lt_one
  rw [BitVec.toNat_setWidth, h0, toNat_byte]
  omega

theorem HasBytes.load16 (h : HasBytes m p 2 x) :
    ((load16 m p).setWidth 32).toNat = x.toNat % 2 ^ 16 := by
  have h0 : m p = _ := h 0 (by omega)
  rw [BitVec.toNat_setWidth, toNat_load16, h0, h 1 (by omega), toNat_byte, toNat_byte]
  omega

theorem HasBytes.load32 (h : HasBytes m p 3 x) :
    (load32 m p).toNat = 2 ^ 24 * (m (p + 3)).toNat + x.toNat % 2 ^ 24 := by
  have h0 : m p = _ := h 0 (by omega)
  rw [NetBits.load32, toNat_word32, h0, h 1 (by omega), h 2 (by omega), toNat_byte, toNat_byte,
    toNat_byte]
  omega

end HasBytes

/-- Reverse the bytes of a word. -/
def bswap32 (x : BitVec 32) : BitVec 32 :=
  word32 (x.extractLsb' 0 8) (x.extractLsb' 8 8) (x.extractLsb' 16 8) (x.extractLsb' 24 8)

theorem getMsbD_bswap32 (x : BitVec 32) {j : ℕ} (hj : j < 32) :
    (bswap32 x).getMsbD j = x.getMsbD (8 * (3 - j / 8) + j % 8) := by
  rw [bswap32, getMsbD_word32]
  simp only [BitVec.getMsbD_extractLsb']
  split_ifs <;>
  · rw [decide_eq_true (by omega), decide_eq_true (by omega), Bool.true_and, Bool.true_and]
    congr 1
    omega

/-- **The host's word, swapped, has the memory's bits from the top.** -/
theorem getMsbD_bswap32_load32 (m : ℕ → BitVec 8) (p : ℕ) {j : ℕ} (hj : j < 32) :
    (bswap32 (load32 m p)).getMsbD j = bitAt m (8 * p + j) := by
  rw [getMsbD_bswap32 _ hj, load32, getMsbD_word32, bitAt]
  rw [show (8 * p + j) / 8 = p + j / 8 by omega, show (8 * p + j) % 8 = j % 8 by omega]
  have hbyte : j / 8 = 0 ∨ j / 8 = 1 ∨ j / 8 = 2 ∨ j / 8 = 3 := by omega
  rcases hbyte with h | h | h | h <;> rw [h] <;> split_ifs <;> first | omega | (congr 1; omega)

/-- The host's word has the bits of its last byte on top. -/
theorem getMsbD_load32 (m : ℕ → BitVec 8) (p : ℕ) {j : ℕ} (hj : j < 32) :
    (load32 m p).getMsbD j = bitAt m (8 * (p + (3 - j / 8)) + j % 8) := by
  rw [load32, getMsbD_word32, bitAt]
  rw [show (8 * (p + (3 - j / 8)) + j % 8) / 8 = p + (3 - j / 8) by omega,
    show (8 * (p + (3 - j / 8)) + j % 8) % 8 = j % 8 by omega]
  have hbyte : j / 8 = 0 ∨ j / 8 = 1 ∨ j / 8 = 2 ∨ j / 8 = 3 := by omega
  rcases hbyte with h | h | h | h <;> rw [h] <;> split_ifs <;> first | omega | (congr 1; omega)

theorem getMsbD_load16 (m : ℕ → BitVec 8) (p k : ℕ) :
    (load16 m p).getMsbD k = if 8 ≤ k then (m p).getMsbD (k - 8) else (m (p + 1)).getMsbD k := by
  have h : (m (p + 1) ++ m p : BitVec (8 + 8)).getMsbD k =
      if 8 ≤ k then (m p).getMsbD (k - 8) else (m (p + 1)).getMsbD k := by
    rw [BitVec.getMsbD_append]
  exact h

theorem getMsbD_bswap32_load16 (m : ℕ → BitVec 8) (p : ℕ) {j : ℕ} (hj : j < 32) :
    (bswap32 ((load16 m p).setWidth 32)).getMsbD j = (decide (j < 16) && bitAt m (8 * p + j)) := by
  rw [getMsbD_bswap32 _ hj, BitVec.getMsbD_setWidth, getMsbD_load16, bitAt]
  by_cases h : j < 16
  · rw [decide_eq_true (by omega), decide_eq_true h, Bool.true_and, Bool.true_and]
    split_ifs
    · rw [show (8 * p + j) / 8 = p by omega]
      congr 1
      omega
    · rw [show (8 * p + j) / 8 = p + 1 by omega]
      congr 1
      omega
  · rw [decide_eq_false (by omega), decide_eq_false h]
    rfl

theorem getMsbD_bswap32_load8 (m : ℕ → BitVec 8) (p : ℕ) {j : ℕ} (hj : j < 32) :
    (bswap32 ((m p).setWidth 32)).getMsbD j = (decide (j < 8) && bitAt m (8 * p + j)) := by
  rw [getMsbD_bswap32 _ hj, BitVec.getMsbD_setWidth, bitAt]
  by_cases h : j < 8
  · rw [decide_eq_true (by omega), decide_eq_true h]
    congr 2 <;> [congr 1; skip] <;> omega
  · rw [decide_eq_false (by omega), decide_eq_false h]
    rfl

/-- Storing a swapped word puts its bits, from the top, into the memory. -/
theorem bitAt_store32_bswap32 (m : ℕ → BitVec 8) (p : ℕ) (x : BitVec 32) (i : ℕ) :
    bitAt (store32 m p (bswap32 x)) i =
      if 8 * p ≤ i ∧ i < 8 * p + 32 then x.getMsbD (i - 8 * p) else bitAt m i := by
  rw [bitAt, store32]
  by_cases h : 8 * p ≤ i ∧ i < 8 * p + 32
  · rw [if_pos (by omega), if_pos h, BitVec.getMsbD_extractLsb',
      decide_eq_true (by omega), decide_eq_true (by omega), Bool.true_and, Bool.true_and,
      getMsbD_bswap32 _ (by omega)]
    congr 1
    omega
  · rw [if_neg (by omega), if_neg h, bitAt]

end NetBits
