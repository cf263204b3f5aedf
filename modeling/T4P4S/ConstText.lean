/-
The constants in the generated code.

`int_to_big_endian_byte_array_with_length` divides the number by 256 until nothing is left.
The first division makes it a `float`, so the bytes are those of the nearest double, and the
last turns are those in which the `float` underflows.  `make_const` takes the bytes from a
hexadecimal text of the number.

* **`constLaw_iff`** — the encoder that divides gives the right bytes iff the double has the
  same quotient by 256 and there was no overflow; it does not work for the constants of a
  `select`, whose width is a `float`; `make_const` is always right.
* `digits_eq` — the loop ends, and its digits in closed form.
* `hexText_eq` — the hexadecimal text has two digits for each byte.
-/
import T4P4S.FieldAssign
import T4P4S.Lib.CText

open ByteString CText

namespace T4P4S

namespace ConstText

/-! ### The encoder that divides -/

/-- The least positive double is `2 ^ -minExp`. -/
def minExp : ℕ := 1074

/-- The doubles are less than `2 ^ maxExp`. -/
def maxExp : ℕ := 1024

/-- How many times the least positive double is in 1. -/
def oneUnits : ℕ := 2 ^ minExp

/-- A number of Python that is not negative; a `float` is a multiple of the least one. -/
inductive PyNumber
  | int (n : ℕ)
  | float (units : ℕ)

/-- A `float` divided by 256.  The result is exact unless it is one of the least doubles,
and then it is the nearest one, of two the even one. -/
def floatDiv256 (units : ℕ) : ℕ :=
  let q := units / 256
  let r := units % 256
  if 128 < r ∨ (r = 128 ∧ q % 2 = 1) then q + 1 else q

theorem floatDiv256_lt {units : ℕ} (h : units ≠ 0) : floatDiv256 units < units := by
  simp only [floatDiv256]
  split <;> omega

/-- The turns of the loop in which the value is a `float`. -/
def floatDigits (units : ℕ) : List ℕ :=
  if units = 0 then [] else units / oneUnits % 256 :: floatDigits (floatDiv256 units)
termination_by units
decreasing_by exact floatDiv256_lt ‹_›

/-- The loop: the digits to the base 256, the last one first.  A number whose quotient by
256 is too large for a `float` is an `OverflowError`. -/
def digits (value : ℕ) : Option (List ℕ) :=
  if value = 0 then some []
  else if 2 ^ (maxExp + 8) ≤ toDouble value then none
  else some (value % 256 :: floatDigits (toDouble value * 2 ^ (minExp - 8)))

/-- `[0 for …] + array[…]`, with the digits in `array` the last one first. -/
def paddedArray (width : ℕ) (array : List ℕ) : List ℕ :=
  let arrayLen := array.length
  List.replicate (width - arrayLen) 0 ++ array.reverse.drop (arrayLen - min arrayLen width)

/-- `with_base` -/
def withBase (number base : ℕ) : Text :=
  if base = 16 then '0' :: 'x' :: Nat.toDigits 16 number
  else if base = 2 then '0' :: 'b' :: Nat.toDigits 2 number
  else Nat.toDigits 10 number

/-- `", ".join` -/
def joinComma (texts : List Text) : Text := [',', ' '].intercalate texts

/-- `int_to_big_endian_byte_array_with_length`, without the braces.  `range` of a `float` is
a `TypeError`. -/
def intToBigEndianText (value : ℕ) (width : PyNumber) (base : ℕ) : Option Text :=
  match width with
  | .int width => (digits value).map fun array =>
      joinComma ((paddedArray width array).map (withBase · base))
  | .float _ => none

/-! ### The encoder with a text -/

/-- `{:0wx}`.format -/
def hexText (w v : ℕ) : Text :=
  List.replicate (w - (Nat.toDigits 16 v).length) '0' ++ Nat.toDigits 16 v

/-- The pieces of `n` characters of a text. -/
def pieces (text : Text) (n : ℕ) : List Text :=
  (List.range ((text.length + n - 1) / n)).map fun i => (text.drop (i * n)).take n

/-- `split_join_text` -/
def splitJoinText (text : Text) (n : ℕ) (pre joiner : Text) : Text :=
  joiner.intercalate ((pieces text n).map (pre ++ ·))

/-- `reverse_bytes_txt`, of a text of even length. -/
def reverseBytesTxt (txt : Text) : Text :=
  ((List.range (txt.length / 2)).map fun i => (txt.drop (txt.length - 2 * i - 2)).take 2).flatten

/-- `make_const` of a constant: the name and the bytes of its initialiser. -/
def makeConstText (size value : ℕ) (isReversed : Bool) : Text × Text :=
  let byteWidth := (size + 7) / 8
  let origConstStr := hexText (2 * byteWidth) value
  let constStr := if isReversed then reverseBytesTxt origConstStr else origConstStr
  let hexContent := splitJoinText constStr 2 ['0', 'x'] [',', ' ']
  let name := splitJoinText origConstStr 4 [] ['_'] ++
    if isReversed then "reversed".toList else []
  (name, hexContent)

/-! ### What C reads -/

/-- The number with these digits. -/
def cDigits (base : ℕ) (n : ℕ) : Text → Option ℕ
  | [] => some n
  | c :: cs =>
    (digitValue c).bind fun d => if d < base then cDigits base (base * n + d) cs else none

/-- The value of an integer literal. -/
def cLiteral : Text → Option ℕ
  | [] => none
  | '0' :: 'x' :: ds => if ds = [] then none else cDigits 16 0 ds
  | '0' :: 'b' :: ds => if ds = [] then none else cDigits 2 0 ds
  | '0' :: ds => cDigits 8 0 ds
  | ds => cDigits 10 0 ds

/-- The numbers of an initialiser, which are separated by commas and perhaps spaces. -/
def cInitialiser (text : Text) : Option (List ℕ) :=
  (text.splitOn ',').mapM fun t => cLiteral (t.dropWhile (· = ' '))

/-! ### The digits of a double -/

/-- A number with a significand of 53 bits, as many as a double has. -/
def IsDouble (k : ℕ) : Prop := ∃ q e, q ≤ 2 ^ 53 ∧ k = q * 2 ^ e

/-- Only doubles below 1 are not divided exactly. -/
theorem IsDouble.div256 {k : ℕ} (hk : IsDouble k) (h : oneUnits ≤ k) :
    floatDiv256 k = k / 256 ∧ IsDouble (k / 256) := by
  obtain ⟨q, e, hq, rfl⟩ := hk
  have he : 8 ≤ e := by
    by_contra hlt
    have hpow : 2 ^ e ≤ 2 ^ 7 := Nat.pow_le_pow_right (by decide) (by omega)
    have hsmall : q * 2 ^ e ≤ 2 ^ (53 + 7) := pow_add 2 53 7 ▸ Nat.mul_le_mul hq hpow
    exact absurd (h.trans hsmall)
      (not_le.mpr (Nat.pow_lt_pow_right (by decide) (by decide : 53 + 7 < minExp)))
  obtain ⟨e, rfl⟩ := Nat.exists_eq_add_of_le' he
  have hmul : q * 2 ^ (e + 8) = q * 2 ^ e * 256 := by rw [pow_add, ← Nat.mul_assoc]; rfl
  have hdiv : q * 2 ^ (e + 8) / 256 = q * 2 ^ e := by rw [hmul, Nat.mul_div_cancel _ (by decide)]
  refine ⟨?_, q, e, hq, hdiv⟩
  have hmod : q * 2 ^ (e + 8) % 256 = 0 := by rw [hmul, Nat.mul_mod_left]
  simp only [floatDiv256, hmod]
  exact if_neg (by omega)

/-- Below 1 there are only zeros. -/
theorem floatDigits_of_lt {k : ℕ} (hk : k < oneUnits) (i : ℕ) : (floatDigits k).getD i 0 = 0 := by
  induction i generalizing k with
  | zero =>
    rw [floatDigits]
    split
    · rfl
    · rw [List.getD_cons_zero, Nat.div_eq_of_lt hk]
  | succ i ih =>
    rw [floatDigits]
    split
    · rfl
    · next hne =>
      rw [List.getD_cons_succ]
      exact ih ((floatDiv256_lt hne).trans hk)

theorem getD_floatDigits {k : ℕ} (hk : IsDouble k) (i : ℕ) :
    (floatDigits k).getD i 0 = k / 256 ^ i / oneUnits % 256 := by
  induction i generalizing k with
  | zero =>
    rw [floatDigits, pow_zero, Nat.div_one]
    split
    · next hzero => rw [hzero, Nat.zero_div]; rfl
    · rw [List.getD_cons_zero]
  | succ i ih =>
    by_cases hlt : k < oneUnits
    · rw [floatDigits_of_lt hlt, Nat.div_eq_of_lt (lt_of_le_of_lt (Nat.div_le_self _ _) hlt)]
    · obtain ⟨hdiv, hdouble⟩ := hk.div256 (not_lt.mp hlt)
      have hne : k ≠ 0 := fun h => hlt (h ▸ Nat.two_pow_pos minExp)
      rw [floatDigits, if_neg hne, List.getD_cons_succ, hdiv, ih hdouble,
        Nat.div_div_eq_div_mul k, ← pow_succ']

/-- Rounding keeps 53 bits. -/
theorem toDouble_eq (v : ℕ) : ∃ q ≤ 2 ^ 53, toDouble v = q * 2 ^ (v.log2 + 1 - 53) := by
  have hv : v < 2 ^ 53 * 2 ^ (v.log2 + 1 - 53) := by
    rw [← pow_add]
    exact Nat.lt_log2_self.trans_le (Nat.pow_le_pow_right (by decide) (by omega))
  have hq : v / 2 ^ (v.log2 + 1 - 53) < 2 ^ 53 := by
    rwa [Nat.div_lt_iff_lt_mul (Nat.two_pow_pos _)]
  refine ⟨_, ?_, rfl⟩
  split
  · exact hq
  · exact hq.le

theorem toDouble_le {v m : ℕ} (hv : v < 2 ^ m) : toDouble v ≤ 2 ^ m := by
  rcases Nat.lt_or_ge v (2 ^ 53) with hsmall | hbig
  · rw [toDouble_of_lt hsmall]
    exact hv.le
  · have hpos : v ≠ 0 := by rintro rfl; exact absurd hbig (by decide)
    have hlog : 53 ≤ v.log2 + 1 := ((Nat.le_log2 hpos).mpr hbig).trans (Nat.le_succ _)
    obtain ⟨q, hq, heq⟩ := toDouble_eq v
    calc toDouble v ≤ 2 ^ 53 * 2 ^ (v.log2 + 1 - 53) := heq ▸ Nat.mul_le_mul_right _ hq
      _ = 2 ^ (v.log2 + 1) := by rw [← pow_add, Nat.add_sub_cancel' hlog]
      _ ≤ 2 ^ m := Nat.pow_le_pow_right (by decide) ((Nat.log2_lt hpos).mpr hv)

/-- The loop ends if the quotient is not too large, and its digits are the bytes of the
double, apart from the first one. -/
theorem digits_eq {v : ℕ} (hv : toDouble v < 2 ^ (maxExp + 8)) :
    ∃ array, digits v = some array ∧
      ∀ i, array.getD i 0 = (if i = 0 then v else toDouble v / 256 ^ i) % 256 := by
  by_cases hzero : v = 0
  · subst hzero
    refine ⟨[], rfl, fun i => ?_⟩
    have hdouble : toDouble 0 = 0 := rfl
    simp [hdouble]
  · refine ⟨_, by rw [digits, if_neg hzero, if_neg (not_le.mpr hv)], fun i => ?_⟩
    cases i with
    | zero => rfl
    | succ i =>
      have hdouble : IsDouble (toDouble v * 2 ^ (minExp - 8)) := by
        obtain ⟨q, hq, heq⟩ := toDouble_eq v
        exact ⟨q, v.log2 + 1 - 53 + (minExp - 8), hq, by rw [heq, pow_add, Nat.mul_assoc]⟩
      have hunits : oneUnits = 256 * 2 ^ (minExp - 8) :=
        calc oneUnits = 2 ^ (8 + (minExp - 8)) := congrArg (2 ^ ·) (by decide)
          _ = 2 ^ 8 * 2 ^ (minExp - 8) := pow_add 2 8 (minExp - 8)
          _ = 256 * 2 ^ (minExp - 8) := congrArg (· * 2 ^ (minExp - 8)) (by decide)
      rw [List.getD_cons_succ, getD_floatDigits hdouble, if_neg (Nat.succ_ne_zero i),
        Nat.div_div_eq_div_mul, hunits, ← Nat.mul_assoc, ← pow_succ,
        Nat.mul_div_mul_right _ _ (Nat.two_pow_pos _)]

theorem paddedArray_eq (n : ℕ) (array : List ℕ) :
    paddedArray n array = ((List.range n).map fun i => array.getD i 0).reverse := by
  have htake : (List.range n).map (fun i => array.getD i 0) =
      array.take n ++ List.replicate (n - array.length) 0 := by
    refine List.ext_getElem (by simp; omega) fun i hi hi' => ?_
    rw [List.getElem_map, List.getElem_range, List.getElem_append]
    split
    · next h =>
      rw [List.length_take] at h
      rw [List.getElem_take, List.getD_eq_getElem _ _ (by omega)]
    · next h =>
      rw [List.length_take] at h
      rw [List.getElem_replicate, List.getD_eq_default _ _ (by simp at hi; omega)]
  rw [htake, List.reverse_append, List.reverse_replicate, paddedArray]
  congr 1
  rw [List.drop_reverse, Nat.sub_sub_self (min_le_left _ _), min_comm, ← List.take_eq_take_min]

/-- What is printed, with the bytes in closed form. -/
theorem intToBigEndianText_eq {v : ℕ} (hv : toDouble v < 2 ^ (maxExp + 8)) (n base : ℕ) :
    intToBigEndianText v (.int n) base = some (joinComma
      ((intToBigEndianByteArrayWithLength v n).map fun b => withBase b.toNat base)) := by
  obtain ⟨array, harray, hdigits⟩ := digits_eq hv
  rw [intToBigEndianText, harray, Option.map_some, paddedArray_eq,
    intToBigEndianByteArrayWithLength, ← List.map_reverse, ← List.map_reverse, List.map_map,
    List.map_map]
  congr 2
  refine List.map_congr_left fun i _ => ?_
  rw [Function.comp_apply, Function.comp_apply, hdigits i, BitVec.toNat_ofNat]

theorem intToBigEndianText_overflow {v : ℕ} (hv : 2 ^ (maxExp + 8) ≤ toDouble v) (n base : ℕ) :
    intToBigEndianText v (.int n) base = none := by
  have hzero : v ≠ 0 := by
    rintro rfl
    exact absurd hv (not_le.mpr (Nat.two_pow_pos (maxExp + 8)))
  rw [intToBigEndianText, digits, if_neg hzero, if_pos hv, Option.map_none]

/-- The bytes are right iff rounding changes the last one only. -/
theorem intToBigEndian_eq_netBytes_iff {n v : ℕ} (hn : 1 ≤ n) (hv : v < 256 ^ n) :
    intToBigEndianByteArrayWithLength v n = netBytes n v ↔ toDouble v / 256 = v / 256 := by
  obtain ⟨n, rfl⟩ := Nat.exists_eq_add_of_le' hn
  rw [intToBigEndian_eq_iff]
  constructor
  · intro h
    have hbytes : hostBytes n (toDouble v / 256) = hostBytes n (v / 256) := by
      refine List.ext_getElem (by simp) fun j hj _ => ?_
      rw [length_hostBytes] at hj
      have hat := h (j + 1) (Nat.succ_lt_succ hj)
      rw [if_neg (Nat.succ_ne_zero j), pow_succ'] at hat
      rw [getElem_hostBytes, getElem_hostBytes, Nat.div_div_eq_div_mul, hat,
        Nat.div_div_eq_div_mul]
    have hmod : toDouble v / 256 % 256 ^ n = v / 256 % 256 ^ n := by
      rw [← hostNat_hostBytes, ← hostNat_hostBytes, hbytes]
    have hquot : v / 256 < 256 ^ n := by
      rwa [Nat.div_lt_iff_lt_mul (by decide), ← pow_succ]
    rw [Nat.mod_eq_of_lt hquot] at hmod
    have hpow : (256 : ℕ) ^ (n + 1) = 2 ^ (8 * (n + 1)) := pow_mul 2 8 (n + 1) ▸ rfl
    have hle : toDouble v ≤ 256 ^ (n + 1) := hpow ▸ toDouble_le (hpow ▸ hv)
    rcases hle.lt_or_eq with hlt | heq
    · rwa [Nat.mod_eq_of_lt] at hmod
      rwa [Nat.div_lt_iff_lt_mul (by decide), ← pow_succ]
    · -- rounded up to the next power, the number would be a small one
      rw [heq, pow_succ, Nat.mul_div_cancel _ (by decide), Nat.mod_self] at hmod
      have hsmall : v < 256 := by omega
      rw [toDouble_of_lt (hsmall.trans (by decide))]
  · intro h j hj
    cases j with
    | zero => rw [if_pos rfl, pow_zero, Nat.div_one]
    | succ j =>
      rw [if_neg (Nat.succ_ne_zero j), pow_succ', ← Nat.div_div_eq_div_mul, h,
        Nat.div_div_eq_div_mul]

/-! ### Reading an initialiser -/

theorem joinComma_cons (t : Text) (ts : List Text) :
    joinComma (t :: ts) = [','].intercalate (t :: ts.map (' ' :: ·)) := by
  induction ts generalizing t with
  | nil => rfl
  | cons t' ts ih =>
    rw [joinComma, List.intercalate_cons_cons, List.map_cons, List.intercalate_cons_cons]
    have htail : [' '] ++ joinComma (t' :: ts) =
        [','].intercalate ((' ' :: t') :: ts.map (' ' :: ·)) := by
      rw [ih t', List.singleton_append]
      cases ts with
      | nil => rfl
      | cons t'' ts =>
        rw [List.map_cons, List.intercalate_cons_cons, List.intercalate_cons_cons]
        rfl
    rw [← htail, List.append_assoc, List.append_assoc]
    rfl

theorem mapM_eq_self {α : Type} {f : α → Option α} {l : List α} (h : ∀ x ∈ l, f x = some x) :
    l.mapM f = some l := by
  induction l with
  | nil => rfl
  | cons x l ih =>
    rw [List.mapM_cons, h x List.mem_cons_self, ih fun y hy => h y (List.mem_cons_of_mem x hy)]
    rfl

/-- A text that is read as the number, whatever it is separated by. -/
def Prints (t : Text) (x : ℕ) : Prop :=
  ',' ∉ t ∧ t.dropWhile (· = ' ') = t ∧ cLiteral t = some x

/-- Numbers that are printed are read again. -/
theorem cInitialiser_joinComma {xs : List ℕ} (print : ℕ → Text) (hne : xs ≠ [])
    (hxs : ∀ x ∈ xs, Prints (print x) x) : cInitialiser (joinComma (xs.map print)) = some xs := by
  cases xs with
  | nil => exact absurd rfl hne
  | cons x xs =>
    obtain ⟨hcomma, htrim, hread⟩ := hxs x List.mem_cons_self
    have hrest : ∀ y ∈ xs, Prints (print y) y := fun y hy => hxs y (List.mem_cons_of_mem x hy)
    have hcommas : ∀ l ∈ print x :: (xs.map print).map (' ' :: ·), ',' ∉ l := by
      refine List.forall_mem_cons.mpr ⟨hcomma, ?_⟩
      rw [List.map_map]
      refine List.forall_mem_map.mpr fun y hy => ?_
      exact List.not_mem_cons_of_ne_of_not_mem (by decide) (hrest y hy).1
    rw [cInitialiser, List.map_cons, joinComma_cons,
      List.splitOn_intercalate _ hcommas (List.cons_ne_nil _ _), List.mapM_cons, htrim, hread,
      List.map_map, List.mapM_map, mapM_eq_self]
    · rfl
    · intro y hy
      show cLiteral ((' ' :: print y).dropWhile (· = ' ')) = some y
      rw [List.dropWhile_cons_of_pos (by decide), (hrest y hy).2.1, (hrest y hy).2.2]

instance (t : Text) (x : ℕ) : Decidable (Prints t x) := inferInstanceAs (Decidable (_ ∧ _ ∧ _))

theorem prints_withBase {x : ℕ} (hx : x < 256) (base : ℕ) : Prints (withBase x base) x := by
  have h16 : ∀ x < 256, Prints ('0' :: 'x' :: Nat.toDigits 16 x) x := by decide +kernel
  have h2 : ∀ x < 256, Prints ('0' :: 'b' :: Nat.toDigits 2 x) x := by decide +kernel
  have h10 : ∀ x < 256, Prints (Nat.toDigits 10 x) x := by decide +kernel
  rw [withBase]
  split_ifs
  · exact h16 x hx
  · exact h2 x hx
  · exact h10 x hx

/-! ### The text of a constant -/

/-- The two hexadecimal digits of a byte. -/
def hexPair (b : ℕ) : Text := [Nat.digitChar (b / 16), Nat.digitChar (b % 16)]

theorem prints_hexPair {x : ℕ} (hx : x < 256) : Prints ('0' :: 'x' :: hexPair x) x := by
  have h : ∀ x < 256, Prints ('0' :: 'x' :: hexPair x) x := by decide +kernel
  exact h x hx

theorem hexText_succ {w : ℕ} (hw : 1 ≤ w) (v : ℕ) :
    hexText (w + 1) v = hexText w (v / 16) ++ [Nat.digitChar (v % 16)] := by
  rw [hexText, hexText]
  by_cases hv : v < 16
  · rw [Nat.toDigits_of_lt_base hv, Nat.div_eq_of_lt hv, Nat.mod_eq_of_lt hv, Nat.toDigits_zero]
    obtain ⟨w, rfl⟩ := Nat.exists_eq_add_of_le' hw
    show List.replicate (w + 1) '0' ++ _ = List.replicate w '0' ++ ['0'] ++ _
    rw [List.replicate_succ']
  · rw [Nat.toDigits_of_base_le (by decide) (not_lt.mp hv), List.length_append,
      List.length_singleton, Nat.add_sub_add_right, List.append_assoc]

theorem netBytes_succ (n v : ℕ) :
    netBytes (n + 1) v = netBytes n (v / 256) ++ [BitVec.ofNat 8 v] := by
  rw [netBytes, hostBytes, List.reverse_cons, netBytes]

/-- A number of `n` bytes has two digits for each byte. -/
theorem hexText_eq {n v : ℕ} (hn : 1 ≤ n) (hv : v < 256 ^ n) :
    hexText (2 * n) v = ((netBytes n v).map fun b => hexPair b.toNat).flatten := by
  induction n, hn using Nat.le_induction generalizing v with
  | base =>
    rw [pow_one] at hv
    have hdiv : v / 16 < 16 := by omega
    have hmod : v % 2 ^ 8 = v := Nat.mod_eq_of_lt hv
    show hexText (1 + 1) v = hexPair (v % 2 ^ 8) ++ []
    rw [hexText_succ le_rfl, hexText, Nat.toDigits_of_lt_base hdiv, List.append_nil, hmod]
    rfl
  | succ n hn ih =>
    have hquot : v / 256 < 256 ^ n := by rwa [Nat.div_lt_iff_lt_mul (by decide), ← pow_succ]
    rw [Nat.mul_succ, hexText_succ (by omega), hexText_succ (by omega), Nat.div_div_eq_div_mul,
      ih hquot, netBytes_succ, List.map_append, List.flatten_append, List.append_assoc]
    show _ = _ ++ [Nat.digitChar (v % 2 ^ 8 / 16), Nat.digitChar (v % 2 ^ 8 % 16)]
    have hhigh : v % 2 ^ 8 / 16 = v / 16 % 16 := by omega
    have hlow : v % 2 ^ 8 % 16 = v % 16 := by omega
    rw [hhigh, hlow]
    rfl

section Flatten

variable {n : ℕ} {l : List Text} (hl : ∀ t ∈ l, t.length = n)

include hl

theorem length_flatten_pieces : l.flatten.length = l.length * n := by
  rw [List.length_flatten, List.map_congr_left hl, List.map_const', List.sum_replicate_nat]

theorem take_drop_flatten {i : ℕ} (hi : i < l.length) :
    (l.flatten.drop (i * n)).take n = l[i] := by
  induction l generalizing i with
  | nil => exact absurd hi (Nat.not_lt_zero i)
  | cons t l ih =>
    obtain ⟨rfl, hl'⟩ := List.forall_mem_cons.mp hl
    rw [List.flatten_cons]
    cases i with
    | zero =>
      rw [Nat.zero_mul, List.drop_zero, List.take_left]
      rfl
    | succ i =>
      rw [Nat.succ_mul, Nat.add_comm, ← List.drop_drop, List.drop_left]
      exact ih hl' (Nat.lt_of_succ_lt_succ hi)

/-- A text that consists of pieces of one length is cut into these. -/
theorem pieces_flatten (hn : 0 < n) : pieces l.flatten n = l := by
  have hcount : (l.length * n + n - 1) / n = l.length := by
    rw [Nat.add_sub_assoc hn, Nat.mul_comm, Nat.mul_add_div hn, Nat.div_eq_of_lt (by omega),
      Nat.add_zero]
  refine List.ext_getElem ?_ fun i hi hi' => ?_
  · rw [pieces, List.length_map, List.length_range, length_flatten_pieces hl, hcount]
  · simp only [pieces, List.getElem_map, List.getElem_range]
    exact take_drop_flatten hl hi'

end Flatten

theorem reverseBytesTxt_flatten {l : List Text} (hl : ∀ t ∈ l, t.length = 2) :
    reverseBytesTxt l.flatten = l.reverse.flatten := by
  rw [reverseBytesTxt, length_flatten_pieces hl, Nat.mul_div_cancel _ (by decide)]
  congr 1
  refine List.ext_getElem (by simp) fun i hi hi' => ?_
  rw [List.length_map, List.length_range] at hi
  have hindex : l.length * 2 - 2 * i - 2 = (l.length - 1 - i) * 2 := by omega
  rw [List.getElem_map, List.getElem_range, List.getElem_reverse, hindex]
  exact take_drop_flatten hl _

/-- The bytes of a constant's initialiser, one literal for each. -/
theorem makeConstText_snd {n v size : ℕ} (hn : 1 ≤ n) (hv : v < 256 ^ n)
    (hsize : (size + 7) / 8 = n) (isReversed : Bool) :
    (makeConstText size v isReversed).2 = joinComma
      (((makeConst size v isReversed).map BitVec.toNat).map fun x => '0' :: 'x' :: hexPair x) := by
  have hpairs : ∀ t ∈ (netBytes n v).map (fun b => hexPair b.toNat), t.length = 2 :=
    List.forall_mem_map.mpr fun _ _ => rfl
  have htext : ∀ l : List Byte,
      splitJoinText (l.map fun b => hexPair b.toNat).flatten 2 ['0', 'x'] [',', ' '] =
        joinComma ((l.map BitVec.toNat).map fun x => '0' :: 'x' :: hexPair x) := by
    intro l
    have hl : ∀ t ∈ l.map (fun b => hexPair b.toNat), t.length = 2 :=
      List.forall_mem_map.mpr fun _ _ => rfl
    rw [splitJoinText, pieces_flatten hl (by decide), List.map_map, List.map_map, joinComma]
    rfl
  rw [makeConstText, makeConst, hsize, hexText_eq hn hv]
  cases isReversed with
  | false => exact htext _
  | true =>
    simp only [if_true]
    rw [reverseBytesTxt_flatten hpairs, ← List.map_reverse]
    exact htext _

/-! ### The law -/

/-- Where a constant is emitted.  `int_to_big_endian_byte_array_with_length` is used with the
width as an `int` in assignments, and as a `float` in a `select`; `make_const` is used
for keys, parameters and arguments of externs. -/
inductive ConstPlace
  | assignment (base : ℕ)
  | select
  | makeConst (size : ℕ) (isReversed : Bool)

/-- The initialiser of a constant of `n` bytes. -/
def ConstPlace.initialiser (n v : ℕ) : ConstPlace → Option Text
  | assignment base => intToBigEndianText v (.int n) base
  | select => intToBigEndianText v (.float (n * oneUnits)) 10
  | makeConst size isReversed => some (makeConstText size v isReversed).2

/-- The bytes of the number in the order of the place. -/
def ConstPlace.expected (n v : ℕ) : ConstPlace → List Byte
  | makeConst _ true => (netBytes n v).reverse
  | _ => netBytes n v

/-- The places in which a constant of `n` bytes can be.  A `select` has an array only for
more than 4 bytes. -/
def ConstPlace.Takes (n : ℕ) : ConstPlace → Prop
  | assignment _ => True
  | select => 4 < n
  | makeConst size _ => (size + 7) / 8 = n

/-- The initialiser is read as the bytes of the number. -/
def ConstLaw (n v : ℕ) (place : ConstPlace) : Prop :=
  place.Takes n →
    (place.initialiser n v).bind cInitialiser = some ((place.expected n v).map BitVec.toNat)

/-- The nearest double is not too large and differs in the last byte at most. -/
def ConstPlace.Exact (n v : ℕ) : ConstPlace → Prop
  | assignment _ => v < 2 ^ (maxExp + 8) ∧ toDouble v / 256 = v / 256
  | select => n ≤ 4
  | makeConst _ _ => True

theorem map_toNat_ne_nil {bs : List Byte} (h : 1 ≤ bs.length) : bs.map BitVec.toNat ≠ [] :=
  List.ne_nil_of_length_pos (by rwa [List.length_map])

theorem assignment_iff {n v : ℕ} (hn : 1 ≤ n) (hv : v < 256 ^ n) (base : ℕ) :
    (intToBigEndianText v (.int n) base).bind cInitialiser =
        some ((netBytes n v).map BitVec.toNat) ↔
      v < 2 ^ (maxExp + 8) ∧ toDouble v / 256 = v / 256 := by
  have hpow : ∀ e, (2 : ℕ) ^ (e + 8) = 2 ^ e * 256 := fun e => pow_add 2 e 8
  rcases Nat.lt_or_ge (toDouble v) (2 ^ (maxExp + 8)) with hlt | hge
  · have hread := cInitialiser_joinComma (fun x => withBase x base)
      (map_toNat_ne_nil ((length_intToBigEndian v n).symm ▸ hn))
      (List.forall_mem_map.mpr fun b _ => prints_withBase b.isLt base)
    rw [List.map_map] at hread
    have hsmall : toDouble v / 256 = v / 256 → v < 2 ^ (maxExp + 8) := by
      intro hquot
      rw [hpow] at hlt ⊢
      rwa [← Nat.div_lt_iff_lt_mul (by decide), ← hquot, Nat.div_lt_iff_lt_mul (by decide)]
    have hinj : Function.Injective (List.map (BitVec.toNat (w := 8))) :=
      List.map_injective_iff.mpr fun _ _ => BitVec.eq_of_toNat_eq
    rw [intToBigEndianText_eq hlt, Option.bind_some, and_iff_right_of_imp hsmall,
      ← intToBigEndian_eq_netBytes_iff hn hv]
    exact (iff_of_eq (congrArg (· = _) hread)).trans (Option.some_inj.trans hinj.eq_iff)
  · rw [intToBigEndianText_overflow hge]
    refine iff_of_false (fun h => nomatch h) fun ⟨hsmall, hquot⟩ => ?_
    rw [hpow] at hsmall hge
    have h1 : v / 256 < 2 ^ maxExp := (Nat.div_lt_iff_lt_mul (by decide)).mpr hsmall
    have h2 : 2 ^ maxExp ≤ toDouble v / 256 := (Nat.le_div_iff_mul_le (by decide)).mpr hge
    exact absurd (hquot ▸ h2) (not_le.mpr h1)

/-- The text of `make_const` is read as the bytes, in the order that is asked for. -/
theorem makeConst_reads {n v size : ℕ} (hn : 1 ≤ n) (hv : v < 256 ^ n) (hsize : (size + 7) / 8 = n)
    (isReversed : Bool) :
    cInitialiser (makeConstText size v isReversed).2 =
      some ((makeConst size v isReversed).map BitVec.toNat) := by
  have hlen : (makeConst size v isReversed).length = n := by
    rw [makeConst, hsize]
    cases isReversed with
    | false => exact length_netBytes n v
    | true => exact List.length_reverse.trans (length_netBytes n v)
  rw [makeConstText_snd hn hv hsize]
  exact cInitialiser_joinComma _ (map_toNat_ne_nil (hlen.symm ▸ hn))
    (List.forall_mem_map.mpr fun b _ => prints_hexPair b.isLt)

theorem constLaw_iff {n v : ℕ} (hn : 1 ≤ n) (hv : v < 256 ^ n) (place : ConstPlace) :
    ConstLaw n v place ↔ place.Exact n v := by
  cases place with
  | assignment base =>
    refine Iff.trans ⟨fun h => h trivial, fun h _ => h⟩ (assignment_iff hn hv base)
  | select =>
    constructor
    · intro h
      by_contra hlt
      exact nomatch h (not_le.mp hlt)
    · exact fun (h : n ≤ 4) (hlt : 4 < n) => absurd h (not_le.mpr hlt)
  | makeConst size isReversed =>
    refine iff_of_true (fun hsize => ?_) trivial
    rw [ConstPlace.initialiser, Option.bind_some, makeConst_reads hn hv hsize, T4P4S.makeConst,
      hsize]
    cases isReversed <;> rfl

/-- The address `2001:db8::1:1`. -/
def ipv6Const : ℕ := 0x20010db8000000000000000000010001

theorem ipv6_constLaw : ConstLaw 16 ipv6Const (.makeConst 128 false) :=
  (constLaw_iff (by decide) (by decide) _).mpr trivial

/-- Of this address one byte is lost in an assignment. -/
theorem not_constLaw : ipv6Const < 256 ^ 16 ∧ ¬ ConstLaw 16 ipv6Const (.assignment 16) := by
  refine ⟨by decide, fun h => ?_⟩
  have hquot := ((@assignment_iff 16 ipv6Const (by decide) (by decide) 16).mp (h trivial)).2
  exact absurd hquot (by decide)

end ConstText

end T4P4S
