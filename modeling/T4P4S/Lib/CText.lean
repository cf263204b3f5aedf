/-
C's texts: `strchr`, the digits of a number, and the conversion of `strtoul`.

A text has no null character; what is behind a position is the text from there on.

* **`strtoul_digits`** — a number is read as what it is, up to the end.
* `strtoul_hex`, `strtoul_decimal` — so are hexadecimal numbers, and decimal ones without
  zeros in front for which `strtoul` finds the base.
-/
import Mathlib.Algebra.GroupWithZero.Nat
import Mathlib.Data.List.TakeWhile
import Mathlib.Data.Nat.Notation

namespace CText

abbrev Text := List Char

/-! ### `strchr` -/

/-- The text from the first `c` on. -/
def strchr : Text → Char → Option Text
  | [], _ => none
  | d :: s, c => if d = c then some (d :: s) else strchr s c

theorem strchr_eq_none_iff {s : Text} {c : Char} : strchr s c = none ↔ c ∉ s := by
  induction s with
  | nil => exact iff_of_true rfl List.not_mem_nil
  | cons d s ih =>
    rw [strchr, List.mem_cons, not_or]
    split
    · next heq => exact iff_of_false (fun h => nomatch h) fun h => h.1 heq.symm
    · next hne => exact ih.trans (and_iff_right (Ne.symm hne)).symm

theorem strchr_append {pre : Text} {c : Char} (hpre : c ∉ pre) (s : Text) :
    strchr (pre ++ c :: s) c = some (c :: s) := by
  induction pre with
  | nil => exact if_pos rfl
  | cons d pre ih =>
    obtain ⟨hd, hpre⟩ := not_or.mp (mt List.mem_cons.mpr hpre)
    exact (if_neg (Ne.symm hd)).trans (ih hpre)

theorem exists_of_strchr {s s' : Text} {c : Char} (h : strchr s c = some s') :
    ∃ pre rest, s = pre ++ c :: rest ∧ s' = c :: rest ∧ c ∉ pre := by
  have hmem : c ∈ s := by
    by_contra hnot
    rw [strchr_eq_none_iff.mpr hnot] at h
    exact nomatch h
  obtain ⟨pre, rest, rfl, hpre⟩ := List.eq_append_cons_of_mem hmem
  refine ⟨pre, rest, rfl, ?_, hpre⟩
  exact (Option.some.inj ((strchr_append hpre rest).symm.trans h)).symm

/-! ### Digits -/

/-- The value of a digit; letters of both cases are digits above 9. -/
def digitValue (c : Char) : Option ℕ :=
  if '0' ≤ c ∧ c ≤ '9' then some (c.toNat - 48)
  else if 'a' ≤ c ∧ c ≤ 'z' then some (c.toNat - 87)
  else if 'A' ≤ c ∧ c ≤ 'Z' then some (c.toNat - 55)
  else none

def isDigit (base : ℕ) (c : Char) : Bool := (digitValue c).any (· < base)

/-- The number that has these digits. -/
def number (base : ℕ) (ds : Text) : ℕ :=
  ds.foldl (fun n c => base * n + (digitValue c).getD 0) 0

/-! ### `strtoul` -/

def isspace (c : Char) : Bool :=
  c = ' ' || ('\t'.toNat ≤ c.toNat && c.toNat ≤ '\r'.toNat)

/-- An optional sign. -/
def sign : Text → Bool × Text
  | '-' :: s => (true, s)
  | '+' :: s => (false, s)
  | s => (false, s)

/-- The base of the digits, and the digits without a prefix.  For base 0 the prefix tells which
it is. -/
def prefixed (base : ℕ) : Text → ℕ × Text
  | '0' :: x :: d :: s =>
    if (base = 0 ∨ base = 16) ∧ (x = 'x' ∨ x = 'X') ∧ isDigit 16 d then (16, d :: s)
    else (if base = 0 then 8 else base, '0' :: x :: d :: s)
  | '0' :: s => (if base = 0 then 8 else base, '0' :: s)
  | s => (if base = 0 then 10 else base, s)

/-- What `strtoul` returns: the value, where it stopped, and whether `errno` is `ERANGE`. -/
structure Strtoul where
  value : ℕ
  rest : Text
  erange : Bool
  deriving DecidableEq

/-- `strtoul` -/
def strtoul (s : Text) (base : ℕ) : Strtoul :=
  let (neg, unsigned) := sign (s.dropWhile isspace)
  let (b, digits) := prefixed base unsigned
  let ds := digits.takeWhile (isDigit b)
  let rest := digits.dropWhile (isDigit b)
  if ds = [] then ⟨0, s, false⟩
  else if 2 ^ 64 ≤ number b ds then ⟨2 ^ 64 - 1, rest, true⟩
  else ⟨if neg then (2 ^ 64 - number b ds) % 2 ^ 64 else number b ds, rest, false⟩

/-! ### Reading a number -/

theorem toNat_of_isDigit {b : ℕ} {c : Char} (h : isDigit b c) : 48 ≤ c.toNat := by
  by_contra hlt
  have hle : ∀ c' : Char, 48 ≤ c'.toNat → ¬ c' ≤ c := fun c' hc' hle => by
    have hnat : c'.toNat ≤ c.toNat := hle
    omega
  have hnone : digitValue c = none := by
    rw [digitValue, if_neg fun h => hle '0' (by decide) h.1,
      if_neg fun h => hle 'a' (by decide) h.1, if_neg fun h => hle 'A' (by decide) h.1]
  rw [isDigit, hnone] at h
  exact Bool.false_ne_true h

theorem isspace_of_isDigit {b : ℕ} {c : Char} (h : isDigit b c) : isspace c = false := by
  have hle := toNat_of_isDigit h
  have hne : c ≠ ' ' := by
    rintro rfl
    exact absurd hle (by decide)
  have hr : ¬ c.toNat ≤ '\r'.toNat := by
    rw [show '\r'.toNat = 13 from rfl]
    omega
  rw [isspace, decide_eq_false hne, decide_eq_false hr, Bool.and_false, Bool.or_false]

theorem sign_of_isDigit {b : ℕ} {c : Char} (h : isDigit b c) (s : Text) :
    sign (c :: s) = (false, c :: s) := by
  have hle := toNat_of_isDigit h
  rw [sign.eq_def]
  split
  · next heq =>
    obtain ⟨rfl, -⟩ := List.cons.inj heq
    exact absurd hle (by decide)
  · next heq =>
    obtain ⟨rfl, -⟩ := List.cons.inj heq
    exact absurd hle (by decide)
  · rfl

/-- A text that begins with a digit and has only digits behind the prefix of its base. -/
theorem strtoul_digits {base b : ℕ} {c : Char} {s ds : Text} (hc : isDigit b c)
    (hpre : prefixed base (c :: s) = (b, ds)) (hne : ds ≠ []) (hds : ∀ d ∈ ds, isDigit b d)
    (hlt : number b ds < 2 ^ 64) : strtoul (c :: s) base = ⟨number b ds, [], false⟩ := by
  have hspace : (c :: s).dropWhile isspace = c :: s :=
    List.dropWhile_cons_of_neg (by rw [isspace_of_isDigit hc]; exact Bool.false_ne_true)
  have htake : ds.takeWhile (isDigit b) = ds := List.takeWhile_eq_self_iff.mpr hds
  have hdrop : ds.dropWhile (isDigit b) = [] := List.dropWhile_eq_nil_iff.mpr hds
  rw [strtoul, hspace, sign_of_isDigit hc]
  simp only [hpre, htake, hdrop, if_neg hne, if_neg (not_le.mpr hlt), Bool.false_eq_true,
    if_false]

/-- A hexadecimal number with these digits, perhaps behind `0x`. -/
def HexText (s ds : Text) : Prop :=
  (s = ds ∨ s = '0' :: 'x' :: ds ∨ s = '0' :: 'X' :: ds) ∧ ds ≠ [] ∧ ∀ d ∈ ds, isDigit 16 d

theorem prefixed_of_digits {base : ℕ} (hbase : base ≠ 0) {s : Text}
    (hs : ∀ d ∈ s, isDigit 16 d) : prefixed base s = (base, s) := by
  rw [prefixed.eq_def]
  split
  · next x d s =>
    have hx : isDigit 16 x := hs x (by simp)
    have hne : ¬ (x = 'x' ∨ x = 'X') := by
      rintro (rfl | rfl)
      · exact absurd hx (by decide)
      · exact absurd hx (by decide)
    rw [if_neg fun h => hne h.2.1, if_neg hbase]
  · rw [if_neg hbase]
  · rw [if_neg hbase]

theorem strtoul_hex {s ds : Text} (h : HexText s ds) (hlt : number 16 ds < 2 ^ 64) :
    strtoul s 16 = ⟨number 16 ds, [], false⟩ := by
  obtain ⟨hs, hne, hds⟩ := h
  obtain ⟨d, ds, rfl⟩ := List.exists_cons_of_ne_nil hne
  have hd : isDigit 16 d := hds d List.mem_cons_self
  rcases hs with rfl | rfl | rfl
  · exact strtoul_digits hd (prefixed_of_digits (by decide) hds) hne hds hlt
  · exact strtoul_digits (b := 16) rfl (if_pos ⟨.inr rfl, .inl rfl, hd⟩) hne hds hlt
  · exact strtoul_digits (b := 16) rfl (if_pos ⟨.inr rfl, .inr rfl, hd⟩) hne hds hlt

/-- A decimal number without superfluous zeros. -/
theorem strtoul_decimal {s : Text} (hne : s ≠ []) (hs : ∀ d ∈ s, isDigit 10 d)
    (hzero : s = ['0'] ∨ s.head? ≠ some '0') (hlt : number 10 s < 2 ^ 64) :
    strtoul s 0 = ⟨number 10 s, [], false⟩ := by
  rcases hzero with rfl | hhead
  · decide
  · obtain ⟨c, s, rfl⟩ := List.exists_cons_of_ne_nil hne
    refine strtoul_digits (hs c List.mem_cons_self) ?_ hne hs hlt
    rw [prefixed.eq_def]
    split
    · next heq => exact absurd (congrArg List.head? heq) hhead
    · next heq => exact absurd (congrArg List.head? heq) hhead
    · rfl

end CText
