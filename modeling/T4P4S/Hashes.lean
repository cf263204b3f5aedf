/-
The extern `hash`.

There is one function for results of 16 bits and two for results of 32.  None of them
uses the base and the maximum, and an algorithm that has no case of its own is replaced
by a copy that leaves the rest of the result as it was.

* **`hashLaw_iff`** — the exact calls whose result is in the range and depends on the
  data only, for all data of a size.
-/
import T4P4S.Checksums

open ByteString

namespace T4P4S

/-! ### The externs -/

/-- The functions of DPDK that are called: `rte_hash_crc`, started with `0xffffffff`, and
`rte_raw_cksum`. -/
structure DpdkHash where
  hashCrc : List Byte → BitVec 32
  rawCksum : List Byte → BitVec 16

/-- `memcpy` to the result, which has at least as many bytes. -/
def memcpyResult (result data : List Byte) : List Byte := data ++ result.drop data.length

/-- The loop of `xor16`, from the index `a` on. -/
def xorLoop (a : ℕ) : List Byte → List Byte → List Byte
  | [], result => result
  | b :: bs, result => xorLoop (a + 1) bs (result.modify (a % 2) fun x => x ^^^ b)

/-- The switch that `EXTERNIMPL0(hash)` and `EXTERNIMPL4(hash,u32,u32,u8s,u32)` share;
`data.length` is `data.size`, and `rand` what `rte_rand` returns. -/
def hash32 (rte : DpdkHash) (rand : BitVec 64) (hash : HashAlgorithm) (data result : List Byte) :
    List Byte :=
  match hash with
  | .crc32 => hostBytes 4 (rte.hashCrc data).toNat
  | .identity =>
    if 4 < data.length then memcpyResult result (data.take 4)
    else memcpyResult (hostBytes 4 0) data
  | .random => hostBytes 4 rand.toNat
  | _ => memcpyResult result (data.take (if 4 < data.length then 4 else data.length))

/-- `EXTERNIMPL0(hash)` -/
def hash0 (rte : DpdkHash) (rand : BitVec 64) (hash : HashAlgorithm) (_base : ℕ)
    (data : List Byte) (_max : ℕ) (result : List Byte) : List Byte :=
  hash32 rte rand hash data result

/-- `EXTERNIMPL4(hash,u32,u32,u8s,u32)` -/
def hashU32U32U8sU32 (rte : DpdkHash) (rand : BitVec 64) (hash : HashAlgorithm) (_base : ℕ)
    (data : List Byte) (_max : ℕ) (result : List Byte) : List Byte :=
  hash32 rte rand hash data result

/-- `EXTERNIMPL4(hash,u16,u16,u8s,u32)` -/
def hashU16U16U8sU32 (rte : DpdkHash) (rand : BitVec 64) (hash : HashAlgorithm) (_base : ℕ)
    (data : List Byte) (_max : ℕ) (result : List Byte) : List Byte :=
  match hash with
  | .csum16 => hostBytes 2 (rte.rawCksum data).toNat
  | .identity =>
    memcpyResult (hostBytes 2 0) (data.take (if 2 < data.length then 2 else data.length))
  | .random => hostBytes 2 rand.toNat
  | .xor16 => xorLoop 0 data (hostBytes 2 0)
  | _ => memcpyResult result (data.take (if 2 < data.length then 2 else data.length))

/-- The functions; the others call the second or the third. -/
inductive HashVariant
  | hash0
  | u32
  | u16
  deriving DecidableEq

/-- The size of the result in bytes. -/
def HashVariant.width : HashVariant → ℕ
  | hash0 => 4
  | u32 => 4
  | u16 => 2

def HashVariant.run (rte : DpdkHash) (rand : BitVec 64) (hash : HashAlgorithm) (base : ℕ)
    (data : List Byte) (max : ℕ) (result : List Byte) : HashVariant → List Byte
  | hash0 => T4P4S.hash0 rte rand hash base data max result
  | u32 => hashU32U32U8sU32 rte rand hash base data max result
  | u16 => hashU16U16U8sU32 rte rand hash base data max result

/-! ### What a hash has to be -/

def InHashRange (base max r : ℕ) : Prop := base ≤ r ∧ r < base + max

/-- For all data of the size the result is in the range and, unless it is random, depends
neither on what it was before nor on the random number. -/
def HashLaw (rte : DpdkHash) (v : HashVariant) (hash : HashAlgorithm) (base max size : ℕ) : Prop :=
  ∀ data : List Byte, data.length = size → ∀ (rand : BitVec 64) (result : List Byte),
    result.length = v.width →
      InHashRange base max (hostNat (v.run rte rand hash base data max result)) ∧
        (hash ≠ .random → ∀ (rand' : BitVec 64) (result' : List Byte), result'.length = v.width →
          v.run rte rand' hash base data max result' = v.run rte rand hash base data max result)

/-- All numbers of `n` bytes are in the range. -/
def AllInHashRange (base max n : ℕ) : Prop := base = 0 ∧ 256 ^ n ≤ max

/-- The range has all results that the algorithm can have on data of the size; one without
a case needs as many bytes as the result has. -/
def HashFits (rte : DpdkHash) (v : HashVariant) (hash : HashAlgorithm) (base max size : ℕ) : Prop :=
  match v, hash with
  | _, .identity => AllInHashRange base max (min size v.width)
  | _, .random => AllInHashRange base max v.width
  | .u16, .xor16 => AllInHashRange base max (min size 2)
  | .u16, .csum16 =>
    ∀ data : List Byte, data.length = size → InHashRange base max (rte.rawCksum data).toNat
  | .hash0, .crc32 | .u32, .crc32 =>
    ∀ data : List Byte, data.length = size → InHashRange base max (rte.hashCrc data).toNat
  | _, _ => v.width ≤ size ∧ AllInHashRange base max v.width

/-! ### The values of the algorithms -/

section Values

variable {base max n : ℕ}

theorem allInHashRange_iff :
    (∀ x < 256 ^ n, InHashRange base max x) ↔ AllInHashRange base max n := by
  have hpos : 0 < 256 ^ n := Nat.pow_pos (by decide)
  constructor
  · intro h
    have hfirst := h 0 hpos
    have hlast := h (256 ^ n - 1) (by omega)
    rw [InHashRange] at hfirst hlast
    rw [AllInHashRange]
    omega
  · rintro ⟨rfl, hle⟩ x hx
    rw [InHashRange]
    omega

/-- A function that takes all numbers of `n` bytes as its values. -/
theorem forall_inHashRange_iff {α : Type} {P : α → Prop} {f : α → ℕ}
    (hlt : ∀ a, P a → f a < 256 ^ n) (hsurj : ∀ x < 256 ^ n, ∃ a, P a ∧ f a = x) :
    (∀ a, P a → InHashRange base max (f a)) ↔ AllInHashRange base max n := by
  rw [← allInHashRange_iff]
  constructor
  · intro h x hx
    obtain ⟨a, ha, rfl⟩ := hsurj x hx
    exact h a ha
  · exact fun h a ha => h _ (hlt a ha)

/-- The first bytes of data of a size. -/
theorem forall_take_inHashRange_iff {size : ℕ} (w : ℕ) :
    (∀ data : List Byte, data.length = size → InHashRange base max (hostNat (data.take w))) ↔
      AllInHashRange base max (min size w) := by
  refine forall_inHashRange_iff ?_ ?_
  · rintro data rfl
    have hlt := hostNat_lt (data.take w)
    rwa [List.length_take, Nat.min_comm] at hlt
  · intro x hx
    refine ⟨hostBytes (min size w) x ++ List.replicate (size - min size w) 0, ?_, ?_⟩
    · rw [List.length_append, length_hostBytes, List.length_replicate]
      omega
    · by_cases hle : size ≤ w
      · rw [Nat.min_eq_left hle] at hx ⊢
        rw [Nat.sub_self, List.replicate_zero, List.append_nil,
          List.take_of_length_le (by rwa [length_hostBytes]), hostNat_hostBytes,
          Nat.mod_eq_of_lt hx]
      · have hmin : min size w = w := by omega
        rw [hmin] at hx ⊢
        rw [List.take_append_of_le_length (by rw [length_hostBytes]),
          List.take_of_length_le (by rw [length_hostBytes]), hostNat_hostBytes,
          Nat.mod_eq_of_lt hx]

/-- Zeros change nothing. -/
theorem xorLoop_replicate (a k : ℕ) (result : List Byte) :
    xorLoop a (List.replicate k 0) result = result := by
  induction k generalizing a with
  | zero => rfl
  | succ k ih =>
    have hid : (fun x : Byte => x ^^^ 0) = id := funext fun x => BitVec.xor_zero
    rw [List.replicate_succ, xorLoop, hid, List.modify_id, ih]

theorem length_xorLoop (a : ℕ) (data result : List Byte) :
    (xorLoop a data result).length = result.length := by
  induction data generalizing a result with
  | nil => rfl
  | cons b bs ih => rw [xorLoop, ih, List.length_modify]

theorem forall_xorLoop_inHashRange_iff {size : ℕ} :
    (∀ data : List Byte, data.length = size →
      InHashRange base max (hostNat (xorLoop 0 data (hostBytes 2 0)))) ↔
        AllInHashRange base max (min size 2) := by
  have hzero : ∀ b : Byte, 0 ^^^ b = b := fun _ => BitVec.zero_xor
  have hone : ∀ b : Byte, hostNat (xorLoop 0 [b] (hostBytes 2 0)) = b.toNat := by
    intro b
    show (0 ^^^ b).toNat + 256 * 0 = b.toNat
    rw [hzero]
    rfl
  have htwo : ∀ (b c : Byte) (bs : List Byte),
      xorLoop 0 (b :: c :: bs) (hostBytes 2 0) = xorLoop 2 bs [b, c] := by
    intro b c bs
    show xorLoop 2 bs [0 ^^^ b, 0 ^^^ c] = _
    rw [hzero, hzero]
  refine forall_inHashRange_iff ?_ ?_
  · rintro data rfl
    match data with
    | [] =>
      show 0 < 1
      decide
    | [b] =>
      rw [hone]
      exact b.isLt
    | b :: c :: bs =>
      have hlt := hostNat_lt (xorLoop 0 (b :: c :: bs) (hostBytes 2 0))
      rw [length_xorLoop, length_hostBytes] at hlt
      rwa [List.length_cons, List.length_cons, Nat.min_eq_right (by omega)]
  · intro x hx
    match size with
    | 0 => exact ⟨[], rfl, (Nat.lt_one_iff.mp hx).symm⟩
    | 1 =>
      refine ⟨[BitVec.ofNat 8 x], rfl, ?_⟩
      rw [hone, BitVec.toNat_ofNat]
      exact Nat.mod_eq_of_lt hx
    | k + 2 =>
      rw [Nat.min_eq_right (by omega)] at hx
      refine ⟨BitVec.ofNat 8 x :: BitVec.ofNat 8 (x / 256) :: List.replicate k 0, ?_, ?_⟩
      · rw [List.length_cons, List.length_cons, List.length_replicate]
      · rw [htwo, xorLoop_replicate]
        exact (hostNat_hostBytes 2 x).trans (Nat.mod_eq_of_lt hx)

end Values

/-! ### The law of each branch -/

section Branches

variable {rte : DpdkHash} {v : HashVariant} {hash : HashAlgorithm} {base max size : ℕ}

/-- An algorithm whose result is a function of the data. -/
theorem hashLaw_of_out {out : List Byte → List Byte}
    (hrun : ∀ (rand : BitVec 64) (data result : List Byte), data.length = size →
      result.length = v.width → v.run rte rand hash base data max result = out data) :
    HashLaw rte v hash base max size ↔
      ∀ data : List Byte, data.length = size → InHashRange base max (hostNat (out data)) := by
  constructor
  · intro h data hdata
    have hlen : (List.replicate v.width (0 : Byte)).length = v.width := List.length_replicate
    have hrange := (h data hdata 0 _ hlen).1
    rwa [hrun _ _ _ hdata hlen] at hrange
  · intro h data hdata rand result hresult
    rw [hrun _ _ _ hdata hresult]
    exact ⟨h data hdata, fun _ rand' result' hresult' => hrun _ _ _ hdata hresult'⟩

/-- A copy of the first bytes, over a result whose other bytes are given by `rest`. -/
theorem memcpyResult_take (data result : List Byte) (w : ℕ) :
    memcpyResult result (data.take (if w < data.length then w else data.length)) =
      data.take w ++ result.drop (min w data.length) := by
  have hmin : (if w < data.length then w else data.length) = min w data.length := by
    split <;> omega
  rw [hmin, memcpyResult, List.length_take, Nat.min_assoc, Nat.min_self]
  congr 1
  rcases Nat.le_total w data.length with hle | hle
  · rw [Nat.min_eq_left hle]
  · rw [Nat.min_eq_right hle, List.take_length, List.take_of_length_le hle]

/-- An algorithm without a case needs data of the size of the result. -/
theorem hashLaw_default_iff (hne : hash ≠ .random)
    (hrun : ∀ (rand : BitVec 64) (data result : List Byte), result.length = v.width →
      v.run rte rand hash base data max result =
        data.take v.width ++ result.drop (min v.width data.length)) :
    HashLaw rte v hash base max size ↔ v.width ≤ size ∧ AllInHashRange base max v.width := by
  by_cases hle : v.width ≤ size
  · have hout : ∀ (rand : BitVec 64) (data result : List Byte), data.length = size →
        result.length = v.width → v.run rte rand hash base data max result = data.take v.width := by
      intro rand data result hdata hresult
      rw [hrun _ _ _ hresult, hdata, Nat.min_eq_left hle, ← hresult, List.drop_length,
        List.append_nil]
    rw [hashLaw_of_out hout, forall_take_inHashRange_iff, Nat.min_eq_right hle]
    exact (and_iff_right hle).symm
  · refine iff_of_false ?_ fun h => hle h.1
    intro h
    -- the last byte is what it was before
    have hlen : ∀ b : Byte, (List.replicate v.width b).length = v.width := fun _ =>
      List.length_replicate
    have hsame := (h (List.replicate size 0) List.length_replicate 0 _ (hlen 0)).2 hne 0 _ (hlen 1)
    rw [hrun _ _ _ (hlen 0), hrun _ _ _ (hlen 1), List.append_right_inj, List.drop_replicate,
      List.drop_replicate, List.length_replicate, List.replicate_right_inj (by omega)] at hsame
    exact absurd hsame (by decide)

theorem hashLaw_random_iff
    (hrun : ∀ (rand : BitVec 64) (data result : List Byte),
      v.run rte rand .random base data max result = hostBytes v.width rand.toNat) :
    HashLaw rte v .random base max size ↔ AllInHashRange base max v.width := by
  have hle : 256 ^ v.width ≤ 2 ^ 64 := by
    cases v <;> decide
  have hvalues : (∀ rand : BitVec 64, True → InHashRange base max (rand.toNat % 256 ^ v.width)) ↔
      AllInHashRange base max v.width := by
    refine forall_inHashRange_iff (fun _ _ => Nat.mod_lt _ (Nat.pow_pos (by decide))) ?_
    intro x hx
    refine ⟨BitVec.ofNat 64 x, trivial, ?_⟩
    rw [BitVec.toNat_ofNat, Nat.mod_eq_of_lt (Nat.lt_of_lt_of_le hx hle), Nat.mod_eq_of_lt hx]
  rw [← hvalues]
  constructor
  · intro h rand _
    have hrange := (h (List.replicate size 0) List.length_replicate rand
      (List.replicate v.width 0) List.length_replicate).1
    rwa [hrun, hostNat_hostBytes] at hrange
  · intro h data _ rand result _
    rw [hrun, hostNat_hostBytes]
    exact ⟨h rand trivial, fun hne => absurd rfl hne⟩

end Branches

/-! ### All calls -/

variable {rte : DpdkHash} {v : HashVariant} {hash : HashAlgorithm} {base max size : ℕ}

/-- A result that DPDK computes. -/
theorem hashLaw_rte_iff {f : List Byte → ℕ} (hlt : ∀ data, f data < 256 ^ v.width)
    (hrun : ∀ (rand : BitVec 64) (data result : List Byte),
      v.run rte rand hash base data max result = hostBytes v.width (f data)) :
    HashLaw rte v hash base max size ↔
      ∀ data : List Byte, data.length = size → InHashRange base max (f data) := by
  rw [@hashLaw_of_out rte v hash base max size (fun data => hostBytes v.width (f data))
    fun _ _ _ _ _ => hrun _ _ _]
  refine forall_congr' fun data => imp_congr_right fun _ => ?_
  rw [hostNat_hostBytes, Nat.mod_eq_of_lt (hlt data)]

theorem hashLaw_identity_iff
    (hrun : ∀ (rand : BitVec 64) (data result : List Byte), result.length = v.width →
      v.run rte rand .identity base data max result =
        data.take v.width ++ (hostBytes v.width 0).drop (min v.width data.length)) :
    HashLaw rte v .identity base max size ↔ AllInHashRange base max (min size v.width) := by
  rw [hashLaw_of_out fun _ _ _ _ => hrun _ _ _, ← forall_take_inHashRange_iff]
  refine forall_congr' fun data => imp_congr_right fun _ => ?_
  rw [hostNat_append, hostBytes_zero, List.drop_replicate, hostNat_replicate, Nat.mul_zero,
    Nat.add_zero]

/-- The case of `identity` for 32 bits. -/
theorem hash32_identity (rte : DpdkHash) (rand : BitVec 64) (data result : List Byte)
    (hresult : result.length = 4) :
    hash32 rte rand .identity data result =
      data.take 4 ++ (hostBytes 4 0).drop (min 4 data.length) := by
  rw [hash32]
  split
  · next hlt =>
    have hlen : (data.take 4).length = 4 := by rw [List.length_take, Nat.min_eq_left hlt.le]
    rw [memcpyResult, hlen, Nat.min_eq_left hlt.le, ← hresult, List.drop_length, hresult]
    rfl
  · next hge =>
    rw [memcpyResult, Nat.min_eq_right (Nat.not_lt.mp hge),
      List.take_of_length_le (Nat.not_lt.mp hge)]

/-- The two functions for 32 bits. -/
theorem hash32Law_iff (hv : v = .hash0 ∨ v = .u32) :
    HashLaw rte v hash base max size ↔ HashFits rte v hash base max size := by
  rcases hv with rfl | rfl
  all_goals
    cases hash with
    | crc32 => exact hashLaw_rte_iff (fun data => (rte.hashCrc data).isLt) fun _ _ _ => rfl
    | identity => exact hashLaw_identity_iff (hash32_identity rte)
    | random => exact hashLaw_random_iff fun _ _ _ => rfl
    | csum16 =>
      exact hashLaw_default_iff (by decide) fun _ data result _ => memcpyResult_take data result 4
    | xor16 =>
      exact hashLaw_default_iff (by decide) fun _ data result _ => memcpyResult_take data result 4
    | other n =>
      exact hashLaw_default_iff (by simp) fun _ data result _ => memcpyResult_take data result 4

/-- The function for 16 bits. -/
theorem hash16Law_iff :
    HashLaw rte .u16 hash base max size ↔ HashFits rte .u16 hash base max size := by
  cases hash with
  | csum16 => exact hashLaw_rte_iff (fun data => (rte.rawCksum data).isLt) fun _ _ _ => rfl
  | identity => exact hashLaw_identity_iff fun _ data _ _ => memcpyResult_take data _ 2
  | random => exact hashLaw_random_iff fun _ _ _ => rfl
  | xor16 =>
    exact (hashLaw_of_out fun _ _ _ _ _ => rfl).trans forall_xorLoop_inHashRange_iff
  | crc32 =>
    exact hashLaw_default_iff (by decide) fun _ data result _ => memcpyResult_take data result 2
  | other n =>
    exact hashLaw_default_iff (by simp) fun _ data result _ => memcpyResult_take data result 2

/-- **A hash is in the range and depends on the data only iff the base is 0, the maximum
is above all results that the algorithm can have, and an algorithm without a case gets as
many bytes as the result has.** -/
theorem hashLaw_iff : HashLaw rte v hash base max size ↔ HashFits rte v hash base max size := by
  cases v with
  | hash0 => exact hash32Law_iff (.inl rfl)
  | u32 => exact hash32Law_iff (.inr rfl)
  | u16 => exact hash16Law_iff

/-- A maximum of 8 is not kept. -/
theorem not_hashLaw : ¬ ∀ (rte : DpdkHash) (v : HashVariant) (hash : HashAlgorithm)
    (base max size : ℕ), 1 ≤ max → HashLaw rte v hash base max size := by
  intro h
  have hlaw := h ⟨fun _ => 0, fun _ => 0⟩ .u16 .identity 0 8 1 (by decide)
  have hrange := (hlaw [200] rfl 0 [0, 0] rfl).1
  exact absurd hrange.2 (by decide)

end T4P4S
