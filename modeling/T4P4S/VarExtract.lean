/-
Extraction of a header with a variable-width field.

The width that the extraction is called with is in bits; the parser rounds it up to
bytes, compares these with the maximum, and takes their number for bits from there.

* **`varLaw_iff`** — the exact lengths and packets for which the header has its size,
  the field its width and every field its bits, or else the packet is dropped.
-/
import T4P4S.FieldAccess
import T4P4S.Lib.CExpr
import T4P4S.Parser

open CInt CMem

namespace T4P4S

variable (hlir : Hlir)

/-! ### The call -/

/-- The C type of the length expression. -/
def lengthType (isSigned : Bool) : CType := if isSigned then .int else .uint

/-- The extraction with a length expression of value `n`.  The sum in `(n + 7) / 8` is
one of the expression's type; `extractComponent` has no bound for it. -/
def extractVar (hdr : ℕ) (isSigned : Bool) (n : ℤ) (pd : PacketDescriptor) :
    Option (Bool × PacketDescriptor) :=
  ((lengthType isSigned).arith (n + 7)).bind fun sum =>
    extractComponent hlir hdr (some (sum - 7)) pd

/-- The bytes of the header when its variable-width field has `n` bits. -/
def varBytes (hdr : ℕ) (n : ℤ) : ℤ := (((hlir.headerInstance hdr).size : ℤ) + n) / 8

/-- The length is allowed, and the header is in the rest of the packet. -/
structure VarFits (hdr : ℕ) (n : ℤ) (pd : PacketDescriptor) : Prop where
  aligned : n % 8 = 0
  nonneg : 0 ≤ n
  le_max : n ≤ (hlir.headerInstance hdr).vwFldSize
  remain : pd.parsedSize + varBytes hlir hdr n ≤ pd.wrapper.pktLen

/-- The length is not allowed, or the packet too short. -/
def VarFails (hdr : ℕ) (n : ℤ) (pd : PacketDescriptor) : Prop :=
  n < 0 ∨ (hlir.headerInstance hdr).vwFldSize < n ∨
    pd.wrapper.pktLen < pd.parsedSize + varBytes hlir hdr n

instance (hlir : Hlir) (hdr : ℕ) (n : ℤ) (pd : PacketDescriptor) :
    Decidable (VarFails hlir hdr n pd) :=
  inferInstanceAs (Decidable (_ ∨ _ ∨ _))

/-- The header was extracted with a variable-width field of `n` bits, and every field
reads its own bits. -/
structure VarExtracted (h : HeaderLayout) (hdr : ℕ) (n : ℤ) (pd : PacketDescriptor)
    (r : Bool × PacketDescriptor) : Prop where
  goes_on : r.1 = true
  pointer : (r.2.headers (extractTarget hlir hdr pd)).pointer = some pd.extractPtr
  size : (r.2.headers (extractTarget hlir hdr pd)).size = varBytes hlir hdr n
  vwSize : (r.2.headers (extractTarget hlir hdr pd)).vwSize = n
  parsedSize : r.2.parsedSize = pd.parsedSize + varBytes hlir hdr n
  extractPtr : r.2.extractPtr = pd.extractPtr + (varBytes hlir hdr n).toNat
  fields : ∀ fld < h.fields.length,
    ReadsField h ⟨pd.extractPtr.off, (r.2.headers (extractTarget hlir hdr pd)).vwSize⟩ fld
      (fieldFirst h ⟨pd.extractPtr.off, n.toNat⟩ fld)
      (currentWidth h ⟨pd.extractPtr.off, n.toNat⟩ fld)

/-- The packet was dropped, and no header is valid that was not. -/
structure VarDropped (pd : PacketDescriptor) (r : Bool × PacketDescriptor) : Prop where
  stops : r.1 = false
  dropped : r.2.isPacketDropped = true
  not_valid : ∀ i, r.2.isHeaderValid i = true → pd.isHeaderValid i = true

/-- What the extraction has to do. -/
structure VarLaw (h : HeaderLayout) (hdr : ℕ) (isSigned : Bool) (n : ℤ) (pd : PacketDescriptor) :
    Prop where
  extracts : VarFits hlir hdr n pd →
    ∃ r, extractVar hlir hdr isSigned n pd = some r ∧ VarExtracted hlir h hdr n pd r
  drops : VarFails hlir hdr n pd →
    ∃ r, extractVar hlir hdr isSigned n pd = some r ∧ VarDropped pd r

variable {hlir}

/-! ### What an extraction does -/

theorem vwlen_eq_none {hdr : ℕ} {width : ℤ} :
    vwlen hlir hdr (some width) = none ↔
      width ≤ -15 ∨ ((hlir.headerInstance hdr).vwFldSize + 7) / 8 * 8 < width := by
  rw [vwlen]
  simp only [ite_eq_left_iff, reduceCtorEq, imp_false, not_not]
  rcases le_total 0 (width + 7) with hpos | hneg
  · rw [Int.tdiv_eq_ediv_of_nonneg hpos]
    omega
  · rw [show width + 7 = -(-(width + 7)) by omega, Int.neg_tdiv,
      Int.tdiv_eq_ediv_of_nonneg (by omega)]
    omega

theorem vwlen_eq_some {hdr : ℕ} {width : ℤ} (hlow : ¬ width ≤ -15)
    (hhigh : ¬ ((hlir.headerInstance hdr).vwFldSize + 7) / 8 * 8 < width) :
    vwlen hlir hdr (some width) = some ((width + 7) / 8).toNat := by
  have hsome : vwlen hlir hdr (some width) ≠ none := by
    rw [ne_eq, vwlen_eq_none]
    exact not_or.mpr ⟨hlow, hhigh⟩
  rw [vwlen] at hsome ⊢
  split_ifs at hsome ⊢ with hbad
  · exact absurd rfl hsome
  · rcases le_total 0 (width + 7) with hpos | hneg
    · rw [Int.tdiv_eq_ediv_of_nonneg hpos]
    · rw [show width + 7 = -(-(width + 7)) by omega, Int.neg_tdiv,
        Int.tdiv_eq_ediv_of_nonneg (by omega)]
      congr 1
      omega

/-- The call of `parser_extract_X` stays inside the array of descriptors. -/
def InHeaders (hlir : Hlir) (hdr : ℕ) (pd : PacketDescriptor) : Prop :=
  0 ≤ hdrinst hlir hdr (nextElement hlir hdr pd) ∧
    hdrinst hlir hdr (nextElement hlir hdr pd) ≤ hlir.headerCount

theorem parserExtract_of_inHeaders {hdr : ℕ} {pd : PacketDescriptor} (len : ℕ)
    (hin : InHeaders hlir hdr pd) :
    parserExtract hlir hdr len pd = some (extractInto (hlir.headerInstance hdr) len
      (extractTarget hlir hdr pd) (nextElement hlir hdr pd)) := if_pos hin

/-- The descriptor of a header that was found with `len` for its variable width. -/
def foundHeader (hlir : Hlir) (hdr len : ℕ) (pd : PacketDescriptor) : HeaderDescriptor :=
  { parsedHeader (hlir.headerInstance hdr) len (pd.headers (extractTarget hlir hdr pd)) with
    pointer := some pd.extractPtr }

/-- With enough bytes in the packet the header is extracted, with `len` for the bits of
its variable-width field. -/
theorem extractComponent_of_remain {hdr len : ℕ} {width : ℤ} {pd : PacketDescriptor}
    (hin : InHeaders hlir hdr pd) (hskip : (hlir.headerInstance hdr).isSkipped = false)
    (hlen : vwlen hlir hdr (some width) = some len)
    (hremain : pd.parsedSize + ((hlir.headerInstance hdr).size + len) / 8 ≤ pd.wrapper.pktLen) :
    ∃ f b, extractComponent hlir hdr (some width) pd =
      some (true, { pd.setHeader (extractTarget hlir hdr pd) (foundHeader hlir hdr len pd) with
        parsedSize := pd.parsedSize + ((hlir.headerInstance hdr).size + len) / 8
        extractPtr := pd.extractPtr + ((hlir.headerInstance hdr).size + len) / 8
        stkCurrent := f
        isDeparseReordering := b }) := by
  obtain ⟨f, hf⟩ := nextElement_eq hlir hdr pd
  have hinto : extractInto (hlir.headerInstance hdr) len (extractTarget hlir hdr pd)
      { pd with stkCurrent := f } = (.parsed (((hlir.headerInstance hdr).size + len) / 8),
        { pd.setHeader (extractTarget hlir hdr pd) (foundHeader hlir hdr len pd) with
          stkCurrent := f
          parsedSize := pd.parsedSize + ((hlir.headerInstance hdr).size + len) / 8
          extractPtr := pd.extractPtr + ((hlir.headerInstance hdr).size + len) / 8 }) :=
    extractInto_of_remain hskip hremain
  rw [extractComponent, hlen]
  dsimp only
  rw [parserExtract_of_inHeaders len hin, hf, hinto, Option.map_some]
  obtain ⟨b, hb⟩ := markSkipped_eq hlir (checkExtracted
    (.parsed (((hlir.headerInstance hdr).size + len) / 8),
      { pd.setHeader (extractTarget hlir hdr pd) (foundHeader hlir hdr len pd) with
        stkCurrent := f
        parsedSize := pd.parsedSize + ((hlir.headerInstance hdr).size + len) / 8
        extractPtr := pd.extractPtr + ((hlir.headerInstance hdr).size + len) / 8 }))
  exact ⟨f, b, congrArg some hb⟩

/-- With too few bytes the packet is dropped, after the header's sizes were set. -/
theorem extractComponent_of_short {hdr len : ℕ} {width : ℤ} {pd : PacketDescriptor}
    (hin : InHeaders hlir hdr pd) (hlen : vwlen hlir hdr (some width) = some len)
    (hshort : pd.wrapper.pktLen < pd.parsedSize + ((hlir.headerInstance hdr).size + len) / 8) :
    ∃ f, extractComponent hlir hdr (some width) pd =
      some (false, dropPacket { pd.setHeader (extractTarget hlir hdr pd)
          (parsedHeader (hlir.headerInstance hdr) len
            (pd.headers (extractTarget hlir hdr pd))) with stkCurrent := f }) := by
  obtain ⟨f, hf⟩ := nextElement_eq hlir hdr pd
  have hinto : extractInto (hlir.headerInstance hdr) len (extractTarget hlir hdr pd)
      { pd with stkCurrent := f } = (.afterEndOfPacket,
        { pd.setHeader (extractTarget hlir hdr pd) (parsedHeader (hlir.headerInstance hdr) len
            (pd.headers (extractTarget hlir hdr pd))) with stkCurrent := f }) := by
    rw [extractInto]
    exact if_pos hshort
  refine ⟨f, ?_⟩
  rw [extractComponent, hlen]
  dsimp only
  rw [parserExtract_of_inHeaders len hin, hf, hinto, Option.map_some]
  rfl

/-- A length that is out of range drops the packet at once. -/
theorem extractComponent_of_none {hdr : ℕ} {width : ℤ} {pd : PacketDescriptor}
    (hlen : vwlen hlir hdr (some width) = none) :
    extractComponent hlir hdr (some width) pd = some (false, dropPacket pd) := by
  rw [extractComponent, hlen]

/-! ### The length expression -/

theorem lengthType_true {n : ℤ} : (lengthType true).InRange n ↔ -2 ^ 31 ≤ n ∧ n < 2 ^ 31 :=
  inRange_true

theorem lengthType_false {n : ℤ} : (lengthType false).InRange n ↔ 0 ≤ n ∧ n < 2 ^ 32 :=
  inRange_false

/-- A sum that the expression's type has is taken as it is. -/
theorem extractVar_of_inRange {hdr : ℕ} {isSigned : Bool} {n : ℤ} (pd : PacketDescriptor)
    (hsum : (lengthType isSigned).InRange (n + 7)) :
    extractVar hlir hdr isSigned n pd = extractComponent hlir hdr (some n) pd := by
  have harith : (lengthType isSigned).arith (n + 7) = some (n + 7) :=
    CType.arith_eq_some.mpr ⟨fun _ => hsum, CType.conv_of_inRange hsum⟩
  rw [extractVar, harith, Option.bind_some, add_sub_cancel_right]

/-- A signed sum overflows, which is undefined. -/
theorem extractVar_overflow {hdr : ℕ} {n : ℤ} (pd : PacketDescriptor) (hsum : 2 ^ 31 ≤ n + 7) :
    extractVar hlir hdr true n pd = none := by
  have hnot : ¬ (lengthType true).InRange (n + 7) := by
    rw [lengthType_true]
    omega
  show (CType.int.arith (n + 7)).bind _ = none
  rw [CType.arith, if_pos ⟨rfl, hnot⟩, Option.bind_none]

/-- An unsigned sum wraps. -/
theorem extractVar_wrap {hdr : ℕ} {n : ℤ} (pd : PacketDescriptor) (hn : n < 2 ^ 32)
    (hsum : 2 ^ 32 ≤ n + 7) :
    extractVar hlir hdr false n pd = extractComponent hlir hdr (some (n - 2 ^ 32)) pd := by
  have hconv : CType.uint.conv (n + 7) = n + 7 - 2 ^ 32 := by
    show wrap 32 false (n + 7) = _
    rw [wrap_eq_iff (by decide)]
    refine ⟨?_, ?_⟩
    · rw [inRange_false]
      omega
    · exact Int.modEq_iff_dvd.mpr ⟨-1, by omega⟩
  show (CType.uint.arith (n + 7)).bind _ = _
  rw [CType.arith, if_neg (fun h => Bool.false_ne_true h.1), hconv, Option.bind_some]
  congr 2
  omega

/-! ### Dropped packets -/

/-- The extraction drops the packet: the rounded length is out of range, or the packet
too short for the header and as many *bits* as the length has bytes.  A length at
the top of the unsigned numbers counts as zero. -/
def Rejects (hlir : Hlir) (hdr : ℕ) (isSigned : Bool) (n : ℤ) (pd : PacketDescriptor) : Prop :=
  if isSigned = true ∧ 2 ^ 31 ≤ n + 7 then
    False
  else if 2 ^ 32 ≤ n + 7 then
    pd.wrapper.pktLen < pd.parsedSize + (hlir.headerInstance hdr).size / 8
  else
    n ≤ -15 ∨ ((hlir.headerInstance hdr).vwFldSize + 7) / 8 * 8 < n ∨
      pd.wrapper.pktLen <
        pd.parsedSize + ((hlir.headerInstance hdr).size + ((n + 7) / 8).toNat) / 8

instance (hlir : Hlir) (hdr : ℕ) (isSigned : Bool) (n : ℤ) (pd : PacketDescriptor) :
    Decidable (Rejects hlir hdr isSigned n pd) := by
  unfold Rejects
  infer_instance

theorem varDropped_dropPacket (pd : PacketDescriptor) : VarDropped pd (false, dropPacket pd) :=
  ⟨rfl, rfl, fun _ hi => hi⟩

/-- An extraction drops the packet just if it fails. -/
theorem extractComponent_dropped_iff {hdr : ℕ} {width : ℤ} {pd : PacketDescriptor}
    (hin : InHeaders hlir hdr pd) (hskip : (hlir.headerInstance hdr).isSkipped = false) :
    (∃ r, extractComponent hlir hdr (some width) pd = some r ∧ VarDropped pd r) ↔
      width ≤ -15 ∨ ((hlir.headerInstance hdr).vwFldSize + 7) / 8 * 8 < width ∨
        pd.wrapper.pktLen <
          pd.parsedSize + ((hlir.headerInstance hdr).size + ((width + 7) / 8).toNat) / 8 := by
  by_cases hnone : vwlen hlir hdr (some width) = none
  · have hrange := vwlen_eq_none.mp hnone
    constructor
    · intro _
      rcases hrange with hlow | hhigh
      · exact Or.inl hlow
      · exact Or.inr (Or.inl hhigh)
    · intro _
      exact ⟨_, extractComponent_of_none hnone, varDropped_dropPacket pd⟩
  · have hrange := not_or.mp (mt vwlen_eq_none.mpr hnone)
    have hlen := vwlen_eq_some hrange.1 hrange.2
    rw [or_iff_right hrange.1, or_iff_right hrange.2]
    by_cases hshort : pd.wrapper.pktLen <
        pd.parsedSize + ((hlir.headerInstance hdr).size + ((width + 7) / 8).toNat) / 8
    · obtain ⟨f, hf⟩ := extractComponent_of_short hin hlen hshort
      refine ⟨fun _ => hshort, fun _ => ⟨_, hf, rfl, rfl, ?_⟩⟩
      intro i hi
      -- the sizes of the header were set, its pointer was not
      show (pd.headers i).pointer.isSome = true
      by_cases htarget : i = extractTarget hlir hdr pd
      · subst htarget
        rw [← hi]
        simp [PacketDescriptor.isHeaderValid, dropPacket, parsedHeader, PacketDescriptor.setHeader]
      · rw [← hi]
        simp [PacketDescriptor.isHeaderValid, dropPacket, PacketDescriptor.setHeader, htarget]
    · obtain ⟨f, b, hf⟩ := extractComponent_of_remain hin hskip hlen (Nat.not_lt.mp hshort)
      refine ⟨?_, fun h => absurd h hshort⟩
      rintro ⟨r, hr, hdropped⟩
      rw [hf] at hr
      obtain rfl := Option.some.inj hr
      cases hdropped.stops

theorem extractVar_dropped_iff {hdr : ℕ} {isSigned : Bool} {n : ℤ} {pd : PacketDescriptor}
    (hn : (lengthType isSigned).InRange n) (hin : InHeaders hlir hdr pd)
    (hskip : (hlir.headerInstance hdr).isSkipped = false) :
    (∃ r, extractVar hlir hdr isSigned n pd = some r ∧ VarDropped pd r) ↔
      Rejects hlir hdr isSigned n pd := by
  rw [Rejects]
  cases isSigned with
  | true =>
    have hn' := lengthType_true.mp hn
    by_cases hsum : 2 ^ 31 ≤ n + 7
    · rw [if_pos ⟨rfl, hsum⟩, extractVar_overflow pd hsum]
      simp
    · rw [if_neg (fun h => hsum h.2), if_neg (by omega),
        extractVar_of_inRange pd (lengthType_true.mpr ⟨by omega, by omega⟩)]
      exact extractComponent_dropped_iff hin hskip
  | false =>
    have hn' := lengthType_false.mp hn
    rw [if_neg (fun h => Bool.false_ne_true h.1)]
    by_cases hsum : 2 ^ 32 ≤ n + 7
    · rw [if_pos hsum, extractVar_wrap pd hn'.2 hsum, extractComponent_dropped_iff hin hskip]
      have hzero : ((n - 2 ^ 32 + 7) / 8).toNat = 0 := by omega
      rw [hzero, Nat.add_zero]
      omega
    · rw [if_neg hsum, extractVar_of_inRange pd (lengthType_false.mpr ⟨by omega, by omega⟩)]
      exact extractComponent_dropped_iff hin hskip

/-! ### Extracted headers -/

/-- An allowed length gives the header its sizes just if it is zero. -/
theorem extractVar_extracted_iff {h : HeaderLayout} {hdr : ℕ} {isSigned : Bool} {n : ℤ}
    {pd : PacketDescriptor} (hone : OneVarWidth h) (hmeta : h.isMetadata = false)
    (hvw : (hlir.headerInstance hdr).isVw = true)
    (hskip : (hlir.headerInstance hdr).isSkipped = false) (hin : InHeaders hlir hdr pd)
    (hn : (lengthType isSigned).InRange n) (hfits : VarFits hlir hdr n pd) :
    (∃ r, extractVar hlir hdr isSigned n pd = some r ∧ VarExtracted hlir h hdr n pd r) ↔
      n = 0 ∧ ∀ fld < h.fields.length, Readable h ⟨pd.extractPtr.off, 0⟩ fld := by
  obtain ⟨haligned, hnonneg, hmax, hremain⟩ := hfits
  -- a multiple of 8 is not that close to the largest value
  have hsum : (lengthType isSigned).InRange (n + 7) := by
    cases isSigned with
    | true =>
      have := lengthType_true.mp hn
      exact lengthType_true.mpr ⟨by omega, by omega⟩
    | false =>
      have := lengthType_false.mp hn
      exact lengthType_false.mpr ⟨by omega, by omega⟩
  have hlen : vwlen hlir hdr (some n) = some ((n + 7) / 8).toNat :=
    vwlen_eq_some (by omega) (by omega)
  rw [varBytes] at hremain
  obtain ⟨f, b, hf⟩ := extractComponent_of_remain hin hskip hlen (by omega)
  rw [extractVar_of_inRange pd hsum, hf]
  have hvwSize : (foundHeader hlir hdr ((n + 7) / 8).toNat pd).vwSize = ((n + 7) / 8).toNat :=
    if_pos hvw
  constructor
  · rintro ⟨r, hr, hextracted⟩
    obtain rfl := Option.some.inj hr
    have hwidth := hextracted.vwSize
    have hfields := hextracted.fields
    simp only [PacketDescriptor.setHeader_headers_self, hvwSize] at hwidth hfields
    obtain rfl : n = 0 := by omega
    refine ⟨rfl, ?_⟩
    intro fld hfld
    exact (readsField_iff hone hmeta _ fld).mp (hfields fld hfld)
  · rintro ⟨rfl, hfields⟩
    have hbytes : (varBytes hlir hdr 0).toNat = (hlir.headerInstance hdr).size / 8 := by
      rw [varBytes]
      omega
    refine ⟨_, rfl, rfl, ?_, ?_, ?_, ?_, ?_, ?_⟩
    · simp [foundHeader]
    · simp [foundHeader, parsedHeader, varBytes]
    · simp [foundHeader, parsedHeader, hvw]
    · simp [varBytes]
    · rw [hbytes]
      rfl
    · intro fld hfld
      simp only [PacketDescriptor.setHeader_headers_self, hvwSize]
      exact (readsField_iff hone hmeta _ fld).mpr (hfields fld hfld)

/-- **An allowed length is extracted right just if it is zero and all fields can be read
with an empty variable-width one; what is not allowed, or too long for the packet,
just if the parser rejects it.** -/
theorem varLaw_iff {h : HeaderLayout} {hdr : ℕ} {isSigned : Bool} {n : ℤ}
    {pd : PacketDescriptor} (hone : OneVarWidth h) (hmeta : h.isMetadata = false)
    (hvw : (hlir.headerInstance hdr).isVw = true)
    (hskip : (hlir.headerInstance hdr).isSkipped = false) (hin : InHeaders hlir hdr pd)
    (hn : (lengthType isSigned).InRange n) :
    VarLaw hlir h hdr isSigned n pd ↔
      (VarFits hlir hdr n pd →
        n = 0 ∧ ∀ fld < h.fields.length, Readable h ⟨pd.extractPtr.off, 0⟩ fld) ∧
      (VarFails hlir hdr n pd → Rejects hlir hdr isSigned n pd) := by
  constructor
  · intro hlaw
    refine ⟨?_, ?_⟩
    · intro hfits
      exact (extractVar_extracted_iff hone hmeta hvw hskip hin hn hfits).mp (hlaw.extracts hfits)
    · intro hfails
      exact (extractVar_dropped_iff hn hin hskip).mp (hlaw.drops hfails)
  · rintro ⟨hextracts, hdrops⟩
    refine ⟨?_, ?_⟩
    · intro hfits
      exact (extractVar_extracted_iff hone hmeta hvw hskip hin hn hfits).mpr (hextracts hfits)
    · intro hfails
      exact (extractVar_dropped_iff hn hin hskip).mpr (hdrops hfails)

/-! ### Two bytes and up to eight more -/

/-- A header of 16 bits and a variable-width field of at most 64. -/
def varHlir : Hlir where
  headerInstances := [{ size := 16, byteWidth := 10, isVw := true, vwFldSize := 64 }]

def varLayout : HeaderLayout where
  fields := [{ offset := 0, size := 16 }, { offset := 16, size := 64, isVw := true }]

theorem varLayout_oneVarWidth : OneVarWidth varLayout :=
  oneVarWidth_of_forall_lt (by decide : ∀ i < 2, (varLayout.field i).isVw = true → i = 1)

/-- The parser in front of a packet of ten bytes. -/
def varStart : PacketDescriptor :=
  { advanceInit with wrapper := { dataOff := 0, dataLen := 10, pktLen := 10, bufLen := 10 } }

theorem varStart_inHeaders : InHeaders varHlir 0 varStart := by
  refine ⟨?_, ?_⟩ <;> decide

theorem varLaw_iff_start :
    VarLaw varHlir varLayout 0 true 0 varStart ∧ ¬ VarLaw varHlir varLayout 0 true 32 varStart := by
  refine ⟨?_, ?_⟩
  · rw [varLaw_iff varLayout_oneVarWidth rfl rfl rfl varStart_inHeaders (by decide)]
    refine ⟨fun _ => ⟨rfl, by decide⟩, ?_⟩
    decide
  · rw [varLaw_iff varLayout_oneVarWidth rfl rfl rfl varStart_inHeaders (by decide)]
    intro hlaw
    have hzero := (hlaw.1 ⟨by decide, by decide, by decide, by decide⟩).1
    cases hzero

/-- Of a length of 32 bits the header gets 4. -/
theorem not_varLaw : ¬ ∀ (hlir : Hlir) (h : HeaderLayout) (hdr : ℕ) (isSigned : Bool) (n : ℤ)
    (pd : PacketDescriptor), OneVarWidth h → h.isMetadata = false →
    (hlir.headerInstance hdr).isVw = true → (hlir.headerInstance hdr).isSkipped = false →
    InHeaders hlir hdr pd → (lengthType isSigned).InRange n → VarLaw hlir h hdr isSigned n pd := by
  intro hlaw
  obtain ⟨r, hr, hextracted⟩ := (hlaw varHlir varLayout 0 true 32 varStart varLayout_oneVarWidth rfl
    rfl rfl varStart_inHeaders (by decide)).extracts ⟨by decide, by decide, by decide, by decide⟩
  have hwidth : (extractVar varHlir 0 true 32 varStart).map
      (fun r => (r.2.headers (extractTarget varHlir 0 varStart)).vwSize) = some 4 := by
    decide
  rw [hr, Option.map_some, Option.some_inj] at hwidth
  have hvw := hextracted.vwSize
  rw [hwidth] at hvw
  cases hvw

end T4P4S
