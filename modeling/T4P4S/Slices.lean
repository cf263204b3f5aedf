/-
Slices of expressions: `gen_format_slice`.

A slice `e[h:l]` of an expression of at most 32 bits is made with a shift, and that of a
longer one is loaded from the bytes of the expression.  Both count the bits that they
leave out from the wrong end: `n - h - 1` are above the slice, `l` below it.

* **`genFormatSlice_word`**, **`run_load`** — the values of the generated expressions;
* **`sliceLaw_iff`** — the exact slices with the value that P4 says.
-/
import T4P4S.Arith
import T4P4S.TableKey

open ByteString CInt

namespace T4P4S

/-! ### The generator -/

theorem size_mem_of_le {w : ℕ} (h : 1 ≤ w ∧ w ≤ 32) :
    if false = true then w = 8 ∨ w = 16 ∨ w = 32 else 1 ≤ w ∧ w ≤ 32 := by
  rwa [if_neg Bool.false_ne_true]

/-- The C code for a slice: an expression, or `net2t4p4s_<byteSize>` of what is at the
source's address plus `offset`. -/
inductive SliceCode
  | word (c : CExpr)
  | load (byteSize offset : ℕ) (needsDereferencing : Bool)

/-- `$var_offset` -/
def sliceOffset (srcSize dstSize endOffset : ℕ) : ℕ := srcSize - (endOffset + dstSize)

/-- `gen_format_slice` of `e[h:l]`, where `e` is of type `bit<n>`; `none` for a warning or
an error.  `src` is the expression with the dereferencing that it needs; `align` is
`align8_16_32`. -/
def genFormatSlice (align : ℕ → ℕ) (n h l : ℕ) (needsDereferencing : Bool) (src : CExpr) :
    Option SliceCode :=
  let dstSize := h - l + 1
  let offset := sliceOffset n dstSize l
  if hdst : 1 ≤ dstSize ∧ dstSize ≤ 32 then
    let t : BitsType := ⟨dstSize, false, size_mem_of_le hdst⟩
    if n ≤ 32 then
      (masking t (.tmp t.storage (.bin .shr (.cast t.storage src) (.lit .int offset)))).map
        SliceCode.word
    else if dstSize % 8 = 0 ∧ n % 8 = 0 then
      some (.load (align dstSize / 8) (offset / 8) needsDereferencing)
    else
      none
  else
    none

/-- The value of the code, where the variables are as in `env` and `buf` is the array at
the address `addr`.  An address that is not dereferenced is converted to the type of the
parameter. -/
def SliceCode.run (env : CVar → ℤ) (addr : ℕ) (buf : List Byte) : SliceCode → Option ℤ
  | .word c => c.run env
  | .load byteSize offset true =>
    if offset + byteSize ≤ buf.length then
      some (byteSwap byteSize (hostNat ((buf.drop offset).take byteSize)))
    else
      none
  | .load byteSize offset false => some (byteSwap byteSize ((addr + offset) % 256 ^ byteSize))

/-! ### What a slice is -/

/-- The bits of `e[h:l]`, where `w` is `h - l + 1`. -/
def sliceOf (l w v : ℕ) : ℕ := v / 2 ^ l % 2 ^ w

/-- A slice for which code is generated. -/
structure SliceSetting (n h l : ℕ) : Prop where
  le : l ≤ h
  lt : h < n
  width_le : h - l + 1 ≤ 32
  whole : n ≤ 32 ∨ ((h - l + 1) % 8 = 0 ∧ n % 8 = 0)

/-- The code has the value of the slice, for each value of the source: that of the C
expression for at most 32 bits, else the one that the array has in network order. -/
def SliceLaw (align : ℕ → ℕ) (n h l : ℕ) (needsDereferencing : Bool) : Prop :=
  ∀ (src : CExpr) (env : CVar → ℤ) (addr v : ℕ), v < 2 ^ n →
    (n ≤ 32 → src.run env = some (v : ℤ)) →
    ∃ code, genFormatSlice align n h l needsDereferencing src = some code ∧
      code.run env addr (netBytes (n / 8) v) = some (sliceOf l (h - l + 1) v : ℤ)

/-- The slice is in the middle, and in the C type of the result; or it begins with a byte
and is not of 24 bits. -/
def SliceFits (n h l : ℕ) (needsDereferencing : Bool) : Prop :=
  if n ≤ 32 then h + l + 1 = n ∧ h < sizeup (h - l + 1) false
  else needsDereferencing = true ∧ l % 8 = 0 ∧ h - l + 1 ≠ 24

/-! ### Slices of numbers -/

theorem testBit_sliceOf (l w v j : ℕ) :
    (sliceOf l w v).testBit j = (decide (j < w) && v.testBit (l + j)) := by
  rw [sliceOf, Nat.testBit_mod_two_pow, Nat.testBit_div_two_pow, Nat.add_comm]

/-- The slice of a number that was cut to `W` bits is that of the number, for all numbers
of `n` bits, iff it is taken at the same place and lies in the `W` bits. -/
theorem sliceOf_eq_iff {n W s l w : ℕ} (hw : 0 < w) (hn : l + w ≤ n) :
    (∀ v < 2 ^ n, sliceOf s w (v % 2 ^ W) = sliceOf l w v) ↔ s = l ∧ l + w ≤ W := by
  constructor
  · intro h
    -- of a number with one bit, which is in the slice, both have this bit
    have hbit : ∀ j < w, s = l ∧ s + j < W := by
      intro j hj
      have hat := congrArg (fun x => x.testBit j)
        (h (2 ^ (l + j)) (Nat.pow_lt_pow_right Nat.one_lt_two (by omega)))
      rw [testBit_sliceOf, testBit_sliceOf, decide_eq_true hj, Bool.true_and, Bool.true_and,
        Nat.testBit_mod_two_pow, Nat.testBit_two_pow_self, Bool.and_eq_true, decide_eq_true_eq,
        Nat.testBit_two_pow, decide_eq_true_eq] at hat
      omega
    have hfirst := hbit 0 hw
    have hlast := hbit (w - 1) (by omega)
    omega
  · rintro ⟨rfl, hle⟩ v -
    refine Nat.eq_of_testBit_eq fun j => ?_
    rw [testBit_sliceOf, testBit_sliceOf]
    by_cases hj : j < w
    · rw [Nat.testBit_mod_two_pow, decide_eq_true (by omega : s + j < W), Bool.true_and]
    · rw [decide_eq_false hj, Bool.false_and, Bool.false_and]

/-! ### The two forms -/

variable {align : ℕ → ℕ} {n h l : ℕ} {deref : Bool} {src : CExpr} {env : CVar → ℤ} {addr v : ℕ}

theorem le_sizeup {w : ℕ} (hw : w ≤ 32) : w ≤ sizeup w false := by
  simp only [sizeup, Bool.false_eq_true, if_false]
  split_ifs <;> omega

theorem wrap_natCast (k v : ℕ) : wrap k false v = ((v % 2 ^ k : ℕ) : ℤ) := by
  rw [wrap, if_neg Bool.false_ne_true]
  push_cast
  rfl

/-- The expression shifts the source after it was converted to the type of the result. -/
theorem genFormatSlice_word (hset : SliceSetting n h l) (hn : n ≤ 32) :
    ∃ c, genFormatSlice align n h l deref src = some (.word c) ∧ ∀ (env : CVar → ℤ) (v : ℕ),
      src.run env = some (v : ℤ) → c.run env =
        some (sliceOf (n - h - 1) (h - l + 1) (v % 2 ^ sizeup (h - l + 1) false) : ℤ) := by
  obtain ⟨hle, hlt, hwidth, -⟩ := hset
  have hdst : 1 ≤ h - l + 1 ∧ h - l + 1 ≤ 32 := ⟨by omega, hwidth⟩
  have hoffset : sliceOffset n (h - l + 1) l = n - h - 1 := by
    rw [sliceOffset]
    omega
  set t : BitsType := ⟨h - l + 1, false, size_mem_of_le hdst⟩ with ht
  set e : CExpr := .tmp t.storage (.bin .shr (.cast t.storage src) (.lit .int (n - h - 1 : ℕ)))
    with he
  obtain ⟨c, hc⟩ : ∃ c, masking t e = some c := ⟨_, rfl⟩
  refine ⟨c, ?_, fun env v hv => ?_⟩
  · rw [genFormatSlice]
    dsimp only
    rw [dif_pos hdst, if_pos hn, hoffset, ← ht, ← he, hc, Option.map_some]
  · have hbits : t.storage.bits = sizeup (h - l + 1) false := rfl
    have hlit : CType.int.conv ((n - h - 1 : ℕ) : ℤ) = (n - h - 1 : ℕ) := by
      refine CType.conv_of_inRange ?_
      simp only [CType.InRange, CType.bits, CType.isSigned, inRange_true]
      omega
    have hshift : BinOp.shr.eval t.storage.promote .int ((v % 2 ^ t.storage.bits : ℕ) : ℤ)
        ((n - h - 1 : ℕ) : ℤ) =
        some ((v % 2 ^ t.storage.bits / 2 ^ (n - h - 1) : ℕ) : ℤ) := by
      have hle : 32 ≤ t.storage.promote.bits := CType.le_bits _
      rw [BinOp.eval, if_pos ⟨by omega, by omega⟩, Int.toNat_natCast]
      push_cast
      rfl
    rw [masking_run env hc, he, Expr.run_tmp, Expr.run_bin, Expr.run_cast, hv, Expr.run_lit, hlit]
    show (((BinOp.shr.eval t.storage.promote .int (t.storage.conv v) _).map _).map _) = _
    have hconv : ∀ x : ℕ, t.storage.conv x = ((x % 2 ^ t.storage.bits : ℕ) : ℤ) := wrap_natCast _
    have hwrap : ∀ x : ℕ, t.wrap x = ((x % 2 ^ (h - l + 1) : ℕ) : ℤ) := wrap_natCast _
    rw [hconv, hshift, Option.map_some, Option.map_some, hconv, hwrap, hbits, sliceOf,
      Nat.mod_mod_of_dvd _ (Nat.pow_dvd_pow 2 (le_sizeup hwidth))]

/-- The code loads the bytes in which the slice begins. -/
theorem genFormatSlice_load (hset : SliceSetting n h l) (hn : ¬ n ≤ 32) :
    genFormatSlice align n h l deref src =
      some (.load (align (h - l + 1) / 8) ((n - h - 1) / 8) deref) := by
  obtain ⟨hle, hlt, hwidth, hwhole⟩ := hset
  have hdst : 1 ≤ h - l + 1 ∧ h - l + 1 ≤ 32 := ⟨by omega, hwidth⟩
  have hoffset : sliceOffset n (h - l + 1) l = n - h - 1 := by
    rw [sliceOffset]
    omega
  rw [genFormatSlice]
  dsimp only
  rw [dif_pos hdst, if_neg hn, if_pos (hwhole.resolve_left hn), hoffset]

/-- Bytes of a number in network order. -/
theorem take_drop_netBytes {k o N : ℕ} (hle : o + k ≤ N) (v : ℕ) :
    ((netBytes N v).drop o).take k = netBytes k (v / 256 ^ (N - o - k)) := by
  refine List.ext_getElem ?_ fun i hi hi' => ?_
  · simp only [List.length_take, List.length_drop, length_netBytes]
    omega
  · rw [length_netBytes] at hi'
    rw [List.getElem_take, List.getElem_drop, getElem_netBytes, getElem_netBytes,
      Nat.div_div_eq_div_mul, ← Nat.pow_add]
    congr 3
    omega

/-- What is loaded from the array of a number. -/
theorem run_load {k o N : ℕ} (hle : o + k ≤ N) :
    (SliceCode.load k o true).run env addr (netBytes N v) =
      some (sliceOf (8 * (N - o - k)) (8 * k) v : ℤ) := by
  have hpow : ∀ j : ℕ, 256 ^ j = 2 ^ (8 * j) := fun j => by rw [Nat.pow_mul]
  have hlen : (netBytes k (v / 256 ^ (N - o - k))).length = k := length_netBytes _ _
  have hswap := byteSwap_hostNat (netBytes k (v / 256 ^ (N - o - k)))
  rw [hlen] at hswap
  rw [SliceCode.run, length_netBytes, if_pos hle, take_drop_netBytes hle, hswap, netBytes,
    List.reverse_reverse, hostNat_hostBytes, hpow, hpow, sliceOf]

/-! ### The law -/

theorem sliceLaw_word_iff (hset : SliceSetting n h l) (hn : n ≤ 32) :
    SliceLaw align n h l deref ↔ h + l + 1 = n ∧ h < sizeup (h - l + 1) false := by
  have hle := hset.le
  have hlt := hset.lt
  have hvalue : SliceLaw align n h l deref ↔ ∀ v < 2 ^ n,
      sliceOf (n - h - 1) (h - l + 1) (v % 2 ^ sizeup (h - l + 1) false) =
        sliceOf l (h - l + 1) v := by
    constructor
    · intro hlaw v hv
      -- the source is a variable of its type
      let t : BitsType := ⟨n, false, size_mem_of_le ⟨by omega, hn⟩⟩
      have hsrc : (Expr.var t.storage (t, 0) : CExpr).run (fun _ => v) = some (v : ℤ) := by
        have hpow : 2 ^ n ≤ 2 ^ t.storage.bits := Nat.pow_le_pow_right Nat.two_pos t.size_le_bits
        have hconv : t.storage.conv v = ((v % 2 ^ t.storage.bits : ℕ) : ℤ) := wrap_natCast _ v
        rw [Expr.run_var, hconv, Nat.mod_eq_of_lt (Nat.lt_of_lt_of_le hv hpow)]
      obtain ⟨c, hc, hrun⟩ := @genFormatSlice_word align n h l deref
        (Expr.var t.storage (t, 0)) hset hn
      obtain ⟨code, hcode, hresult⟩ := hlaw _ _ 0 v hv fun _ => hsrc
      obtain rfl : SliceCode.word c = code := Option.some.inj (hc.symm.trans hcode)
      have heq := (hrun _ v hsrc).symm.trans hresult
      exact_mod_cast Option.some.inj heq
    · intro hall src env addr v hv hsrc
      obtain ⟨c, hc, hrun⟩ := @genFormatSlice_word align n h l deref src hset hn
      refine ⟨_, hc, ?_⟩
      show c.run env = _
      rw [hrun env v (hsrc hn), hall v hv]
  rw [hvalue, sliceOf_eq_iff (by omega) (by omega)]
  omega

/-- An address is not the value. -/
theorem exists_run_address_ne {k : ℕ} (hk : k = 1 ∨ k = 2 ∨ k = 4) (o : ℕ) (env : CVar → ℤ)
    (buf : List Byte) :
    ∃ addr, (SliceCode.load k o false).run env addr buf ≠ some 0 := by
  refine ⟨256 ^ k * o - o + 1, ?_⟩
  have hle : o ≤ 256 ^ k * o := Nat.le_mul_of_pos_left o (Nat.pow_pos (by decide))
  have haddr : (256 ^ k * o - o + 1 + o) % 256 ^ k = 1 % 256 ^ k := by
    rw [show 256 ^ k * o - o + 1 + o = 1 + 256 ^ k * o by omega, Nat.add_mul_mod_self_left]
  rw [SliceCode.run, haddr]
  rcases hk with rfl | rfl | rfl <;> decide

/-- With a slice of 24 bits, 32 are loaded. -/
theorem exists_run_24_ne {o s N n : ℕ} (hN : 8 * N ≤ n) (env : CVar → ℤ) (addr : ℕ) :
    ∃ v < 2 ^ n, (SliceCode.load 4 o true).run env addr (netBytes N v) ≠
      some (sliceOf s 24 v : ℤ) := by
  refine ⟨2 ^ n - 1, Nat.sub_lt (Nat.two_pow_pos n) Nat.one_pos, ?_⟩
  by_cases hle : o + 4 ≤ N
  · rw [run_load hle]
    intro heq
    -- bit 24 of the ones is loaded
    have hbit := congrArg (fun x : ℕ => x.testBit 24)
      (by exact_mod_cast Option.some.inj heq :
        sliceOf (8 * (N - o - 4)) (8 * 4) (2 ^ n - 1) = sliceOf s 24 (2 ^ n - 1))
    rw [testBit_sliceOf, testBit_sliceOf, Nat.testBit_two_pow_sub_one,
      decide_eq_true (by omega : 8 * (N - o - 4) + 24 < n), decide_eq_true (by decide : 24 < 8 * 4),
      decide_eq_false (Nat.lt_irrefl 24), Bool.false_and] at hbit
    exact absurd hbit (by decide)
  · rw [SliceCode.run, length_netBytes, if_neg hle]
    exact (Option.some_ne_none _).symm

/-- For the other sizes the least width of a C type is the size. -/
theorem IsAlign.eq_self (halign : IsAlign align) {w : ℕ} (hw : w = 8 ∨ w = 16 ∨ w = 32) :
    align w = w := by
  rcases hw with rfl | rfl | rfl
  · exact halign.le8 8 (by decide) (by decide)
  · exact halign.le16 16 (by decide) (by decide)
  · exact halign.le32 32 (by decide) (by decide)

theorem sliceLaw_load_iff (halign : IsAlign align) (hset : SliceSetting n h l) (hn : ¬ n ≤ 32) :
    SliceLaw align n h l deref ↔ deref = true ∧ l % 8 = 0 ∧ h - l + 1 ≠ 24 := by
  have hle := hset.le
  have hlt := hset.lt
  have hwidth := hset.width_le
  obtain ⟨hw, hnbytes⟩ := hset.whole.resolve_left hn
  set w := h - l + 1 with hwdef
  -- the law is about the code, whatever the expression of the source is
  have hcode : SliceLaw align n h l deref ↔ ∀ (env : CVar → ℤ) (addr v : ℕ), v < 2 ^ n →
      (SliceCode.load (align w / 8) ((n - h - 1) / 8) deref).run env addr (netBytes (n / 8) v) =
        some (sliceOf l w v : ℤ) := by
    constructor
    · intro hlaw env addr v hv
      obtain ⟨code, hcode, hresult⟩ := hlaw (.lit .int 0) env addr v hv fun hle => absurd hle hn
      rw [genFormatSlice_load hset hn, Option.some_inj] at hcode
      subst hcode
      exact hresult
    · intro hall src env addr v hv _
      exact ⟨_, genFormatSlice_load hset hn, hall env addr v hv⟩
  rw [hcode]
  cases deref with
  | false =>
    refine iff_of_false ?_ fun h => Bool.false_ne_true h.1
    intro hall
    have hbytes : align w / 8 = 1 ∨ align w / 8 = 2 ∨ align w / 8 = 4 := by
      have hcases : w = 8 ∨ w = 16 ∨ w = 24 ∨ w = 32 := by omega
      rcases hcases with h8 | h16 | h24 | h32
      · exact .inl (by rw [h8, halign.le8 8 (by decide) le_rfl])
      · exact .inr (.inl (by rw [h16, halign.le16 16 (by decide) le_rfl]))
      · exact .inr (.inr (by rw [h24, halign.le32 24 (by decide) (by decide)]))
      · exact .inr (.inr (by rw [h32, halign.le32 32 (by decide) le_rfl]))
    obtain ⟨addr, hne⟩ := exists_run_address_ne hbytes ((n - h - 1) / 8) (fun _ => 0)
      (netBytes (n / 8) 0)
    refine hne ((hall _ addr 0 (Nat.two_pow_pos n)).trans ?_)
    rw [sliceOf, Nat.zero_div, Nat.zero_mod]
    rfl
  | true =>
    rw [eq_self, true_and]
    by_cases h24 : w = 24
    · refine iff_of_false ?_ fun h => h.2 h24
      intro hall
      have h32 : align 24 = 32 := halign.le32 24 (by decide) (by decide)
      obtain ⟨v, hv, hne⟩ := exists_run_24_ne (o := (n - h - 1) / 8) (s := l) (N := n / 8) (n := n)
        (by omega) (fun _ => 0) 0
      have hrun := hall (fun _ => 0) 0 v hv
      rw [h24, h32] at hrun
      exact hne hrun
    · have hself : align w = w := halign.eq_self (by omega)
      have hin : (n - h - 1) / 8 + w / 8 ≤ n / 8 := by omega
      have hsize : 8 * (w / 8) = w := by omega
      have hvalue : (∀ (env : CVar → ℤ) (addr v : ℕ), v < 2 ^ n →
          (SliceCode.load (align w / 8) ((n - h - 1) / 8) true).run env addr
            (netBytes (n / 8) v) = some (sliceOf l w v : ℤ)) ↔
          ∀ v < 2 ^ n, sliceOf (8 * (n / 8 - (n - h - 1) / 8 - w / 8)) w (v % 2 ^ n) =
            sliceOf l w v := by
        constructor
        · intro hall v hv
          have hrun := hall (fun _ => 0) 0 v hv
          rw [hself, run_load hin, hsize] at hrun
          rw [Nat.mod_eq_of_lt hv]
          exact_mod_cast Option.some.inj hrun
        · intro hall env addr v hv
          have heq := hall v hv
          rw [Nat.mod_eq_of_lt hv] at heq
          rw [hself, run_load hin, hsize, heq]
      rw [hvalue, sliceOf_eq_iff (by omega) (by omega)]
      omega

/-- **A slice has its value iff, of a source of at most 32 bits, it is in the middle and in
the bits of the C type of the result; of a longer one, it begins with a byte, is not of 24
bits, and the source is dereferenced.** -/
theorem sliceLaw_iff (halign : IsAlign align) (hset : SliceSetting n h l) :
    SliceLaw align n h l deref ↔ SliceFits n h l deref := by
  by_cases hn : n ≤ 32
  · rw [sliceLaw_word_iff hset hn, SliceFits, if_pos hn]
  · rw [sliceLaw_load_iff halign hset hn, SliceFits, if_neg hn]

/-- The last but one byte of a value of 40 bits. -/
theorem byte_sliceLaw : SliceLaw align8or16or32 40 15 8 true :=
  (sliceLaw_iff isAlign_align8or16or32 ⟨by decide, by decide, by decide, .inr ⟨rfl, rfl⟩⟩).mpr
    ⟨rfl, rfl, by decide⟩

/-- Of the upper half of a byte, the lower half is taken. -/
theorem not_sliceLaw : ¬ ∀ (align : ℕ → ℕ) (n h l : ℕ) (deref : Bool), IsAlign align →
    SliceSetting n h l → SliceLaw align n h l deref := by
  intro h
  have hset : SliceSetting 8 7 4 := ⟨by decide, by decide, by decide, .inl (by decide)⟩
  have hlaw := h align8or16or32 8 7 4 true isAlign_align8or16or32 hset
  exact absurd ((sliceLaw_word_iff hset (by decide)).mp hlaw).1 (by decide)

end T4P4S
