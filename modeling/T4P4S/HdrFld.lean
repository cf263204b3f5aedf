/-
Reading and writing a header field of at most 32 bits.

`GET32` and `MODIFY` work on a handle of the field: the address of its first
byte, its place in the word loaded from there, and a mask that the compiler
generates.  For a field that lies in four bytes:

* **`bitAt_modify32`**, **`getLsbD_get32`** — a write changes the bits that the
  handle designates, a read returns them;
* **`fieldLaw_iff`** — reads and writes are those of the header's fields iff
  each field behind a variable-width one is as many whole bytes wide as that one
  is at the moment; in particular in each header without such a field.
-/
import T4P4S.Lib.Bits

open NetBits

namespace T4P4S

/-! ### Field infos -/

/-- A field of a header type, as `hlir` has it.  `offset` and `size` are in bits. -/
structure Field where
  offset : ℕ
  size : ℕ
  isVw : Bool := false
  deriving DecidableEq, Inhabited

/-- What the field operations know about a header. -/
structure HeaderLayout where
  fields : List Field
  isMetadata : Bool := false

namespace HeaderLayout

variable (h : HeaderLayout)

def field (fld : ℕ) : Field := h.fields.getD fld default

/-- `hdr_infos[hdr].var_width_field`, `none` if there is no such field. -/
def varWidthField : Option ℕ := h.fields.findIdx? Field.isVw

end HeaderLayout

/-- `to_bytes` -/
def toBytes (bits : ℕ) : ℕ := (bits + 7) / 8

/-- `fld_infos[fld].mask`, generated for fields of at most 32 bits. -/
def fldInfoMask (isMeta : Bool) (f : Field) : BitVec 32 :=
  if f.size ≤ 32 then
    if isMeta then
      BitVec.allOnes 32 >>> (32 - f.size)
    else
      let shiftUp := (32 - f.size) % 32
      let topBits := BitVec.allOnes 32 <<< shiftUp
      topBits >>> (f.offset % 8)
  else
    0

/-! ### Handles -/

/-- The part of `header_descriptor_t` that handles use; the memory is the object
that the header lies in. -/
structure HdrDesc where
  pointer : ℕ
  vwSize : ℕ

/-- `bitfield_handle_t`, of a valid header. -/
structure BitfieldHandle where
  pointer : ℕ
  isT4p4sByteOrder : Bool
  bitwidth : ℕ
  bytewidth : ℕ
  bitoffset : ℕ
  byteoffset : ℕ
  bitcount : ℕ
  bytecount : ℕ
  mask : BitVec 32
  fixedWidth : Bool

variable (h : HeaderLayout)

def fldIsFixedWidth (fld : ℕ) : Bool := h.varWidthField.all fun vw => fld ≠ vw

def fldIsFixedPos (fld : ℕ) : Bool := h.varWidthField.all fun vw => fld ≤ vw

def fldBitwidth (hdesc : HdrDesc) (fld : ℕ) : ℕ :=
  if fldIsFixedWidth h fld then (h.field fld).size else hdesc.vwSize

def fldByteoffset (hdesc : HdrDesc) (fld : ℕ) : ℕ :=
  let vwOffset := if fldIsFixedPos h fld then 0 else hdesc.vwSize / 8
  (h.field fld).offset / 8 + vwOffset

def handle (hdesc : HdrDesc) (fld : ℕ) : BitfieldHandle :=
  let size := fldBitwidth h hdesc fld
  let bitOffset := (h.field fld).offset % 8
  let byteOffset := fldByteoffset h hdesc fld
  { pointer := hdesc.pointer + byteOffset
    isT4p4sByteOrder := h.isMetadata
    bitwidth := size
    bytewidth := toBytes (size + bitOffset % 8)
    bitoffset := bitOffset
    byteoffset := byteOffset
    bitcount := size + bitOffset
    bytecount := toBytes (size + bitOffset)
    mask := fldInfoMask h.isMetadata (h.field fld)
    fixedWidth := fldIsFixedWidth h fld }

/-- The descriptor that stands in for a header's: the size of the *field* takes the
place of `vw_size`. -/
def headerDescBuf (buf size : ℕ) : HdrDesc := ⟨buf, size⟩

def getHandleFld (hd : HdrDesc) (fld : ℕ) : BitfieldHandle :=
  let size := if (h.field fld).isVw then hd.vwSize else (h.field fld).size
  handle h (headerDescBuf hd.pointer size) fld

/-- `get_fld_pointer`, which takes the header's own `vw_size`. -/
def getFldPointer (hd : HdrDesc) (fld : ℕ) : ℕ :=
  let vwFldOffset := if h.varWidthField.all fun vw => fld ≤ vw then 0 else hd.vwSize / 8
  hd.pointer + (h.field fld).offset / 8 + vwFldOffset

/-! ### Reading and writing -/

/-- `FLD_MASK`.  In the second case `~0 >> bitoffset` is all ones, the shift being
that of a negative `int`. -/
def fldMask (fd : BitfieldHandle) : BitVec 32 :=
  if fd.fixedWidth then fd.mask
  else BitVec.allOnes 32 &&& BitVec.allOnes 32 <<< (32 - fd.bitcount)

def fldBytes (m : ℕ → BitVec 8) (fd : BitfieldHandle) : BitVec 32 :=
  if fd.bytecount = 1 then (m fd.pointer).setWidth 32
  else if fd.bytecount = 2 then (load16 m fd.pointer).setWidth 32
  else load32 m fd.pointer

/-- `MODIFY32_T4P4S_ORDER`; its case for two bytes repeats the test for one. -/
def modify32T4p4sOrder (m : ℕ → BitVec 8) (dst : BitfieldHandle) (value32 : BitVec 32) :
    ℕ → BitVec 8 :=
  if dst.bytecount = 1 then store8 m dst.pointer (value32.setWidth 8)
  else store32 m dst.pointer value32

/-- `MODIFY32_IMPL_NET_ORDER`.  For a field that does not lie in four bytes the shift amount of C
is negative and the result undefined, while it is zero here. -/
def modify32ImplNetOrder (m : ℕ → BitVec 8) (dst : BitfieldHandle) (value32 : BitVec 32) :
    ℕ → BitVec 8 :=
  let upshift := 32 - dst.bitoffset - dst.bitwidth
  let oldContent := bswap32 (load32 m dst.pointer) &&& ~~~fldMask dst
  let newContent := (value32 <<< upshift) &&& fldMask dst
  store32 m dst.pointer (bswap32 (oldContent ||| newContent))

def modify32Impl (m : ℕ → BitVec 8) (dst : BitfieldHandle) (value32 : BitVec 32) :
    ℕ → BitVec 8 :=
  if dst.isT4p4sByteOrder then modify32T4p4sOrder m dst value32
  else modify32ImplNetOrder m dst value32

/-- `GET32_FLD_IMPL`, where the same holds of the shift amount. -/
def get32FldImpl (m : ℕ → BitVec 8) (src : BitfieldHandle) : BitVec 32 :=
  if src.isT4p4sByteOrder then fldBytes m src
  else
    let masked := bswap32 (fldBytes m src) &&& fldMask src
    let downshift := 32 - src.bitoffset - src.bitwidth
    masked >>> downshift

/-- `MODIFY` of a packet's field with a 32-bit value. -/
def modify32 (hd : HdrDesc) (fld : ℕ) (value32 : BitVec 32) (m : ℕ → BitVec 8) : ℕ → BitVec 8 :=
  modify32Impl m (getHandleFld h hd fld) value32

/-- `GET32` of a packet's field. -/
def get32 (hd : HdrDesc) (fld : ℕ) (m : ℕ → BitVec 8) : BitVec 32 :=
  get32FldImpl m (getHandleFld h hd fld)

/-! ### What a handle designates -/

/-- A field with a width of its own, of at most 32 bits that lie in four bytes. -/
structure ShortField (fld : ℕ) : Prop where
  lt_length : fld < h.fields.length
  notVw : (h.field fld).isVw = false
  size_pos : 0 < (h.field fld).size
  size_le : (h.field fld).size ≤ 32
  fits : (h.field fld).offset % 8 + (h.field fld).size ≤ 32

/-- The first bit that the handle designates. -/
def handleStart (hd : HdrDesc) (fld : ℕ) : ℕ :=
  8 * (getHandleFld h hd fld).pointer + (h.field fld).offset % 8

/-- The field's first bit. -/
def fieldStart (hd : HdrDesc) (fld : ℕ) : ℕ :=
  8 * getFldPointer h hd fld + (h.field fld).offset % 8

variable {h}

/-- A field that is not of variable width has its width from `fld_infos`. -/
theorem fldIsFixedWidth_of_notVw {fld : ℕ} (hnot : (h.field fld).isVw = false) :
    fldIsFixedWidth h fld = true := by
  rw [fldIsFixedWidth]
  cases hvw : h.varWidthField with
  | none => rfl
  | some vw =>
    obtain ⟨hlt, hisVw, -⟩ := List.findIdx?_eq_some_iff_getElem.mp hvw
    rw [Option.all_some, decide_eq_true_eq]
    rintro rfl
    rw [HeaderLayout.field, List.getD_eq_getElem?_getD, List.getElem?_eq_getElem hlt,
      Option.getD_some, hisVw] at hnot
    cases hnot

theorem bytecount_getHandleFld {fld : ℕ} (hnot : (h.field fld).isVw = false) (hd : HdrDesc) :
    (getHandleFld h hd fld).bytecount =
      toBytes ((h.field fld).size + (h.field fld).offset % 8) := by
  show toBytes (fldBitwidth h _ fld + (h.field fld).offset % 8) = _
  rw [fldBitwidth, fldIsFixedWidth_of_notVw hnot, if_pos rfl]

theorem ShortField.fixedWidth {fld : ℕ} (hfld : ShortField h fld) :
    fldIsFixedWidth h fld = true :=
  fldIsFixedWidth_of_notVw hfld.notVw

/-- The mask of a header field has the field's bits of the word. -/
theorem getMsbD_fldInfoMask {f : Field} (hpos : 0 < f.size) (hle : f.size ≤ 32) {j : ℕ}
    (hj : j < 32) : (fldInfoMask false f).getMsbD j =
      (decide (f.offset % 8 ≤ j) && decide (j < f.offset % 8 + f.size)) := by
  rw [fldInfoMask, if_pos hle, if_neg Bool.false_ne_true, BitVec.getMsbD_ushiftRight,
    BitVec.getMsbD_shiftLeft, BitVec.getMsbD_allOnes, decide_eq_true hj, Bool.true_and,
    ← decide_not, ← Bool.decide_and, ← Bool.decide_and]
  congr 1
  rw [eq_iff_iff]
  omega

theorem getHandleFld_fields (hd : HdrDesc) {fld : ℕ} (hfld : ShortField h fld)
    (hmeta : h.isMetadata = false) :
    (getHandleFld h hd fld).isT4p4sByteOrder = false ∧
      (getHandleFld h hd fld).bitwidth = (h.field fld).size ∧
      (getHandleFld h hd fld).bitoffset = (h.field fld).offset % 8 ∧
      (getHandleFld h hd fld).bytecount =
        toBytes ((h.field fld).size + (h.field fld).offset % 8) ∧
      fldMask (getHandleFld h hd fld) = fldInfoMask false (h.field fld) := by
  simp only [getHandleFld, handle, fldBitwidth, fldMask, hfld.fixedWidth, hmeta, if_true, and_self]

/-- **A write changes the bits that the handle designates, and no others.** -/
theorem bitAt_modify32 {hd : HdrDesc} {fld : ℕ} (hfld : ShortField h fld)
    (hmeta : h.isMetadata = false) (v : BitVec 32) (m : ℕ → BitVec 8) (i : ℕ) :
    bitAt (modify32 h hd fld v m) i =
      if handleStart h hd fld ≤ i ∧ i < handleStart h hd fld + (h.field fld).size then
        v.getLsbD (handleStart h hd fld + (h.field fld).size - 1 - i)
      else
        bitAt m i := by
  obtain ⟨horder, hwidth, hoff, -, hmask⟩ := getHandleFld_fields hd hfld hmeta
  have hfits := hfld.fits
  rw [modify32, modify32Impl, horder, if_neg Bool.false_ne_true, modify32ImplNetOrder, hmask, hwidth,
    hoff, bitAt_store32_bswap32, handleStart]
  set p := (getHandleFld h hd fld).pointer
  set o := (h.field fld).offset % 8 with ho
  set w := (h.field fld).size
  -- Outside of the four bytes that are stored nothing changes.
  by_cases hin : 8 * p ≤ i ∧ i < 8 * p + 32
  · rw [if_pos hin, BitVec.getMsbD_or, BitVec.getMsbD_and, BitVec.getMsbD_and, BitVec.getMsbD_not,
      getMsbD_fldInfoMask hfld.size_pos hfld.size_le (by omega),
      getMsbD_bswap32_load32 m p (by omega), BitVec.getMsbD_shiftLeft,
      show 8 * p + (i - 8 * p) = i by omega, decide_eq_true (show i - 8 * p < 32 by omega)]
    -- Inside, the mask takes the bits of the field from the value and the others from memory.
    by_cases hbit : 8 * p + o ≤ i ∧ i < 8 * p + o + w
    · rw [if_pos hbit, decide_eq_true (by omega), decide_eq_true (by omega),
        BitVec.getMsbD_eq_getLsbD, decide_eq_true (by omega)]
      simp only [Bool.and_self, Bool.not_true, Bool.and_false, Bool.false_or, Bool.and_true,
        Bool.true_and]
      congr 1
      omega
    · rw [if_neg hbit]
      have hout : (decide (o ≤ i - 8 * p) && decide (i - 8 * p < o + w)) = false := by
        rw [← Bool.decide_and, decide_eq_false_iff_not]
        omega
      rw [← ho, hout]
      simp
  · rw [if_neg hin, if_neg (by omega)]

/-- The bytes that a read fetches hold all bits of the field. -/
theorem getMsbD_bswap32_fldBytes (m : ℕ → BitVec 8) {fd : BitfieldHandle} {j : ℕ}
    (hj : j < 8 * fd.bytecount) (h32 : j < 32) :
    (bswap32 (fldBytes m fd)).getMsbD j = bitAt m (8 * fd.pointer + j) := by
  rw [fldBytes]
  split_ifs with h1 h2
  · rw [getMsbD_bswap32_load8 m _ h32, decide_eq_true (by omega), Bool.true_and]
  · rw [getMsbD_bswap32_load16 m _ h32, decide_eq_true (by omega), Bool.true_and]
  · exact getMsbD_bswap32_load32 m _ h32

/-- What a read returns through a handle whose mask has the bits from `a` on; those
behind the field are shifted out. -/
theorem getLsbD_get32FldImpl (m : ℕ → BitVec 8) {fd : BitfieldHandle} {a : ℕ}
    (horder : fd.isT4p4sByteOrder = false) (hend : fd.bitoffset + fd.bitwidth ≤ 32)
    (hcount : fd.bitoffset + fd.bitwidth ≤ 8 * fd.bytecount)
    (hmask : ∀ j, j < fd.bitoffset + fd.bitwidth → (fldMask fd).getMsbD j = decide (a ≤ j))
    (k : ℕ) :
    (get32FldImpl m fd).getLsbD k = (decide (k + a < fd.bitoffset + fd.bitwidth) &&
      bitAt m (8 * fd.pointer + (fd.bitoffset + fd.bitwidth - 1 - k))) := by
  rw [get32FldImpl, horder, if_neg Bool.false_ne_true, BitVec.getLsbD_ushiftRight]
  by_cases hk : k < fd.bitoffset + fd.bitwidth
  · rw [BitVec.getLsbD_eq_getMsbD,
      decide_eq_true (show 32 - fd.bitoffset - fd.bitwidth + k < 32 by omega), Bool.true_and,
      show 32 - 1 - (32 - fd.bitoffset - fd.bitwidth + k) = fd.bitoffset + fd.bitwidth - 1 - k by
        omega,
      BitVec.getMsbD_and, getMsbD_bswap32_fldBytes m (by omega) (by omega), hmask _ (by omega),
      Bool.and_comm]
    congr 1
    rw [decide_eq_decide]
    omega
  · rw [BitVec.getLsbD_of_ge _ _ (by omega), decide_eq_false (by omega), Bool.false_and]

/-- **A read returns the bits that the handle designates.** -/
theorem getLsbD_get32 {hd : HdrDesc} {fld : ℕ} (hfld : ShortField h fld)
    (hmeta : h.isMetadata = false) (m : ℕ → BitVec 8) (k : ℕ) :
    (get32 h hd fld m).getLsbD k = (decide (k < (h.field fld).size) &&
      bitAt m (handleStart h hd fld + (h.field fld).size - 1 - k)) := by
  obtain ⟨horder, hwidth, hoff, hcount, hmask⟩ := getHandleFld_fields hd hfld hmeta
  have hfits := hfld.fits
  have hpos := hfld.size_pos
  have hmaskBits : ∀ j, j < (getHandleFld h hd fld).bitoffset + (getHandleFld h hd fld).bitwidth →
      (fldMask (getHandleFld h hd fld)).getMsbD j = decide ((h.field fld).offset % 8 ≤ j) := by
    intro j hj
    rw [hoff, hwidth] at hj
    rw [hmask, getMsbD_fldInfoMask hpos hfld.size_le (by omega), decide_eq_true hj, Bool.and_true]
  rw [get32, getLsbD_get32FldImpl m horder (by omega) (by rw [hcount, toBytes]; omega) hmaskBits,
    hoff, hwidth, handleStart]
  by_cases hk : k < (h.field fld).size
  · rw [decide_eq_true hk, decide_eq_true (by omega)]
    congr 2
    omega
  · rw [decide_eq_false hk, decide_eq_false (by omega), Bool.false_and, Bool.false_and]

/-! ### The law of header fields -/

/-- Two fields of a header have no bit in common. -/
def FieldsApart (h : HeaderLayout) (hd : HdrDesc) (fld fld' : ℕ) : Prop :=
  fieldStart h hd fld + (h.field fld).size ≤ fieldStart h hd fld' ∨
    fieldStart h hd fld' + (h.field fld').size ≤ fieldStart h hd fld

/-- A value that is written to a field is read back, modulo the field's width, and
no bit outside of the field changes, nor the value of any field apart from it. -/
structure FieldLaw (h : HeaderLayout) (hd : HdrDesc) (fld : ℕ) : Prop where
  get_set : ∀ m v, (get32 h hd fld (modify32 h hd fld v m)).toNat =
    v.toNat % 2 ^ (h.field fld).size
  frame : ∀ m v i, i < fieldStart h hd fld ∨ fieldStart h hd fld + (h.field fld).size ≤ i →
    bitAt (modify32 h hd fld v m) i = bitAt m i
  other : ∀ m v fld', ShortField h fld' → FieldsApart h hd fld fld' →
    get32 h hd fld' (modify32 h hd fld v m) = get32 h hd fld' m

/-- The handle of a field that is not behind a variable-width one designates it. -/
theorem handleStart_of_fixedPos {hd : HdrDesc} {fld : ℕ} (hpos : fldIsFixedPos h fld = true) :
    handleStart h hd fld = fieldStart h hd fld := by
  simp only [fldIsFixedPos] at hpos
  simp only [handleStart, fieldStart, getHandleFld, handle, headerDescBuf, fldByteoffset,
    getFldPointer, fldIsFixedPos, hpos, if_true, Nat.add_zero]

/-- The handle of a field behind a variable-width one is off by the difference of
their sizes. -/
theorem handleStart_of_not_fixedPos (hd : HdrDesc) {fld : ℕ} (hnot : (h.field fld).isVw = false)
    (hpos : fldIsFixedPos h fld = false) :
    handleStart h hd fld + 8 * (hd.vwSize / 8) =
      fieldStart h hd fld + 8 * ((h.field fld).size / 8) := by
  simp only [fldIsFixedPos] at hpos
  simp only [handleStart, fieldStart, getHandleFld, handle, headerDescBuf, fldByteoffset,
    getFldPointer, fldIsFixedPos, hpos, hnot, Bool.false_eq_true, if_false]
  omega

/-- The fields that are read and written where they are. -/
def WellPlaced (h : HeaderLayout) (hd : HdrDesc) (fld : ℕ) : Prop :=
  fldIsFixedPos h fld = true ∨ (h.field fld).size / 8 = hd.vwSize / 8

theorem WellPlaced.handleStart_eq {hd : HdrDesc} {fld : ℕ} (hfld : ShortField h fld)
    (hplaced : WellPlaced h hd fld) : handleStart h hd fld = fieldStart h hd fld := by
  cases hpos : fldIsFixedPos h fld
  · have := handleStart_of_not_fixedPos hd hfld.notVw hpos
    rcases hplaced with hplaced | hplaced
    · rw [hpos] at hplaced
      cases hplaced
    · omega
  · exact handleStart_of_fixedPos hpos

/-- The law holds among fields that are where they should be. -/
theorem fieldLaw_of_wellPlaced {hd : HdrDesc} (hmeta : h.isMetadata = false)
    (hplaced : ∀ fld, ShortField h fld → WellPlaced h hd fld) {fld : ℕ}
    (hfld : ShortField h fld) : FieldLaw h hd fld := by
  have hstart := (hplaced fld hfld).handleStart_eq hfld
  refine ⟨?_, fun m v i hi => ?_, ?_⟩
  · intro m v
    refine Nat.eq_of_testBit_eq ?_
    intro k
    rw [BitVec.testBit_toNat, getLsbD_get32 hfld hmeta, Nat.testBit_mod_two_pow,
      BitVec.testBit_toNat]
    by_cases hk : k < (h.field fld).size
    · rw [bitAt_modify32 hfld hmeta, if_pos (by omega)]
      congr 2
      omega
    · rw [decide_eq_false hk, Bool.false_and, Bool.false_and]
  · rw [bitAt_modify32 hfld hmeta, if_neg (by omega)]
  · intro m v fld' hfld' hapart
    have hstart' := (hplaced fld' hfld').handleStart_eq hfld'
    refine BitVec.eq_of_getLsbD_eq ?_
    intro k _
    rw [getLsbD_get32 hfld' hmeta, getLsbD_get32 hfld' hmeta]
    by_cases hk : k < (h.field fld').size
    · rw [bitAt_modify32 hfld hmeta, if_neg]
      rw [FieldsApart] at hapart
      omega
    · rw [decide_eq_false hk, Bool.false_and, Bool.false_and]

/-- A write through a handle that designates other bits breaks the frame. -/
theorem FieldLaw.wellPlaced {hd : HdrDesc} (hmeta : h.isMetadata = false) {fld : ℕ}
    (hfld : ShortField h fld) (hlaw : FieldLaw h hd fld) : WellPlaced h hd fld := by
  rw [WellPlaced, or_iff_not_imp_left, Bool.not_eq_true]
  intro hpos
  have hoff := handleStart_of_not_fixedPos hd hfld.notVw hpos
  have hwidth := hfld.size_pos
  by_contra hne
  -- an end of the range that is written lies outside of the field
  obtain ⟨i, hin, hout⟩ : ∃ i, (handleStart h hd fld ≤ i ∧
      i < handleStart h hd fld + (h.field fld).size) ∧
        (i < fieldStart h hd fld ∨ fieldStart h hd fld + (h.field fld).size ≤ i) := by
    by_cases hlt : handleStart h hd fld < fieldStart h hd fld
    · exact ⟨handleStart h hd fld, by omega, by omega⟩
    · exact ⟨handleStart h hd fld + (h.field fld).size - 1, by omega, by omega⟩
  have hframe := hlaw.frame (fun _ => 0) (BitVec.allOnes 32) i hout
  have hle := hfld.size_le
  rw [bitAt_modify32 hfld hmeta, if_pos hin, BitVec.getLsbD_allOnes, decide_eq_true (by omega)]
    at hframe
  simp [bitAt] at hframe

/-- **Fields are read and written right iff each field behind a variable-width one is
as many whole bytes wide as that one.** -/
theorem fieldLaw_iff {hd : HdrDesc} (hmeta : h.isMetadata = false) :
    (∀ fld, ShortField h fld → FieldLaw h hd fld) ↔
      ∀ fld, ShortField h fld → WellPlaced h hd fld :=
  ⟨fun hlaw fld hfld => (hlaw fld hfld).wellPlaced hmeta hfld,
    fun hplaced _ hfld => fieldLaw_of_wellPlaced hmeta hplaced hfld⟩

/-! ### A field behind a variable-width one -/

/-- A variable-width field of at most 8 bits, and two fields of 8 bits behind it. -/
def vwLayout : HeaderLayout where
  fields := [{ offset := 0, size := 8, isVw := true }, { offset := 0, size := 8 },
    { offset := 8, size := 8 }]

theorem vwLayout_shortField : ShortField vwLayout 1 := by
  refine ⟨?_, ?_, ?_, ?_, ?_⟩ <;> decide

/-- With the variable-width field empty, a write to the second field hits the third. -/
theorem vwLayout_modify32 : ¬ ∀ (h : HeaderLayout) (hd : HdrDesc) (fld : ℕ),
    h.isMetadata = false → ShortField h fld → FieldLaw h hd fld := by
  intro hlaw
  have hframe := (hlaw vwLayout ⟨0, 0⟩ 1 rfl vwLayout_shortField).frame (fun _ => 0) 0xFF 8
    (by decide)
  revert hframe
  decide

/-- A header without variable-width fields, of 4 and 12 bits. -/
def fixedLayout : HeaderLayout where
  fields := [{ offset := 0, size := 4 }, { offset := 4, size := 12 }]

theorem fixedLayout_fieldLaw : FieldLaw fixedLayout ⟨3, 0⟩ 1 :=
  (fieldLaw_iff rfl).mpr (fun _ _ => .inl rfl) 1 (by refine ⟨?_, ?_, ?_, ?_, ?_⟩ <;> decide)

end T4P4S
