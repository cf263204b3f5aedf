/-
The accesses to fields that are generated, and the addresses that they go to.

* **`wordFits_iff`** — a field that is read and written as a 32-bit word fits into
  the word just if it ends in it; the width alone decides which fields these are;
* **`addressesAgree_iff`** — the three computations of a field's address agree just
  if the field is not behind the variable-width one, or as many whole bytes wide;
* **`readsField_iff`** — exactly when a read of a field returns the field's bits.
-/
import Mathlib.Data.Int.Notation
import T4P4S.TableKey

open ByteString NetBits

namespace T4P4S

/-! ### Which access is generated -/

/-- How the generated code gets at a field: with `GET32` and a `MODIFY` from
`src_32`, or with `GET_BUF` and `set_fld_buf`. -/
inductive FieldAccess
  | word
  | buf
  deriving DecidableEq

/-- The choice that the generator makes everywhere, by the width of the field. -/
def fieldAccess (size : ℕ) : FieldAccess := if size ≤ 32 then .word else .buf

/-- The right-hand side of an assignment: a `BoolLiteral`, or an expression of
type `Type_Bits` or `Type_Varbits`. -/
inductive AssignSource
  | boolLiteral
  | expr (size : ℕ) (isVarbits : Bool)

/-- `gen_format_statement_fieldref`, `none` where an assertion fails. -/
def genFormatStatementFieldref (dst : Field) : AssignSource → Option FieldAccess
  | .boolLiteral =>
    if dst.size = 1 ∧ dst.isVw = false then some (fieldAccess dst.size) else none
  | .expr size isVarbits =>
    if dst.size = size ∧ dst.isVw = isVarbits then some (fieldAccess dst.size) else none

/-- `gen_format_expr` of a field as a value. -/
def genFormatExprField (fld : Field) : FieldAccess := fieldAccess fld.size

/-- The part of `table_${table.name}_key` for a field. -/
def tableKeyField (fld : Field) : FieldAccess := fieldAccess fld.size

/-- `GET32` or `MODIFY` of a word is generated for the field. -/
inductive WordAccess (fld : Field) : Prop
  | assign (src : AssignSource) (h : genFormatStatementFieldref fld src = some .word)
  | read (h : genFormatExprField fld = .word)
  | key (h : tableKeyField fld = .word)

variable {h : HeaderLayout}

theorem size_le_of_fieldAccess {size : ℕ} (haccess : fieldAccess size = .word) : size ≤ 32 := by
  by_contra hgt
  rw [fieldAccess, if_neg hgt] at haccess
  cases haccess

theorem WordAccess.size_le {fld : Field} (haccess : WordAccess fld) : fld.size ≤ 32 := by
  cases haccess with
  | assign src hsrc =>
    cases src with
    | boolLiteral =>
      rw [genFormatStatementFieldref] at hsrc
      split_ifs at hsrc
      exact size_le_of_fieldAccess (Option.some.inj hsrc)
    | expr size isVarbits =>
      rw [genFormatStatementFieldref] at hsrc
      split_ifs at hsrc
      exact size_le_of_fieldAccess (Option.some.inj hsrc)
  | read hread => exact size_le_of_fieldAccess hread
  | key hkey => exact size_le_of_fieldAccess hkey

/-! ### The variable-width field -/

/-- A header type has at most one variable-width field. -/
def OneVarWidth (h : HeaderLayout) : Prop :=
  ∀ i j, (h.field i).isVw = true → (h.field j).isVw = true → i = j

/-- The field comes after the variable-width one. -/
def BehindVw (h : HeaderLayout) (fld : ℕ) : Prop := ∃ vw < fld, (h.field vw).isVw = true

instance (h : HeaderLayout) (fld : ℕ) : Decidable (BehindVw h fld) :=
  inferInstanceAs (Decidable (∃ vw < fld, (h.field vw).isVw = true))

theorem lt_length_of_isVw {fld : ℕ} (hvw : (h.field fld).isVw = true) : fld < h.fields.length := by
  by_contra hge
  rw [HeaderLayout.field, List.getD_eq_default _ _ (Nat.not_lt.mp hge)] at hvw
  cases hvw

/-- Only the layout's own fields have to be looked at. -/
theorem oneVarWidth_of_forall_lt {vw : ℕ}
    (honly : ∀ i < h.fields.length, (h.field i).isVw = true → i = vw) : OneVarWidth h := by
  intro i j hi hj
  rw [honly i (lt_length_of_isVw hi) hi, honly j (lt_length_of_isVw hj) hj]

theorem field_of_lt {fld : ℕ} (hlt : fld < h.fields.length) : h.field fld = h.fields[fld] := by
  rw [HeaderLayout.field, List.getD_eq_getElem _ _ hlt]

theorem isVw_of_varWidthField {vw : ℕ} (hvw : h.varWidthField = some vw) :
    (h.field vw).isVw = true := by
  obtain ⟨hlt, hisVw, -⟩ := List.findIdx?_eq_some_iff_getElem.mp hvw
  rw [field_of_lt hlt]
  exact hisVw

theorem varWidthField_of_isVw (hone : OneVarWidth h) {fld : ℕ} (hvw : (h.field fld).isVw = true) :
    h.varWidthField = some fld := by
  cases hfind : h.varWidthField with
  | none =>
    have hmem := List.getElem_mem (lt_length_of_isVw hvw)
    have hfalse := List.findIdx?_eq_none_iff.mp hfind _ hmem
    rw [field_of_lt (lt_length_of_isVw hvw)] at hvw
    rw [hvw] at hfalse
    cases hfalse
  | some vw => rw [hone vw fld (isVw_of_varWidthField hfind) hvw]

theorem fldIsFixedPos_eq (hone : OneVarWidth h) (fld : ℕ) :
    fldIsFixedPos h fld = !decide (BehindVw h fld) := by
  rw [fldIsFixedPos]
  cases hfind : h.varWidthField with
  | none =>
    have hnot : ¬ BehindVw h fld := by
      rintro ⟨vw, -, hvw⟩
      rw [varWidthField_of_isVw hone hvw] at hfind
      cases hfind
    rw [decide_eq_false hnot]
    rfl
  | some vw =>
    have hbehind : BehindVw h fld ↔ ¬ fld ≤ vw := by
      constructor
      · rintro ⟨vw', hlt, hvw'⟩
        rw [hone vw vw' (isVw_of_varWidthField hfind) hvw']
        exact Nat.not_le.mpr hlt
      · intro hlt
        exact ⟨vw, Nat.not_le.mp hlt, isVw_of_varWidthField hfind⟩
    simp only [Option.all_some, hbehind, decide_not, Bool.not_not]

theorem fldIsFixedWidth_eq (hone : OneVarWidth h) (fld : ℕ) :
    fldIsFixedWidth h fld = !(h.field fld).isVw := by
  cases hvw : (h.field fld).isVw with
  | false => exact fldIsFixedWidth_of_notVw hvw
  | true => simp [fldIsFixedWidth, varWidthField_of_isVw hone hvw]

theorem isVw_eq_false_of_behindVw (hone : OneVarWidth h) {fld : ℕ} (hbehind : BehindVw h fld) :
    (h.field fld).isVw = false := by
  obtain ⟨vw, hlt, hvw⟩ := hbehind
  rw [← Bool.not_eq_true]
  intro hvw'
  exact Nat.ne_of_lt hlt (hone vw fld hvw hvw')

/-! ### Addresses -/

/-- `handle_byte_addr`, which takes the header's own descriptor. -/
def handleByteAddr (h : HeaderLayout) (hd : HdrDesc) (fld : ℕ) : ℕ :=
  hd.pointer + fldByteoffset h hd fld

/-- The address of the byte that the field begins in. -/
def fieldAddr (h : HeaderLayout) (hd : HdrDesc) (fld : ℕ) : ℕ :=
  hd.pointer + (h.field fld).offset / 8 + if BehindVw h fld then hd.vwSize / 8 else 0

/-- The width of the field at the moment. -/
def currentWidth (h : HeaderLayout) (hd : HdrDesc) (fld : ℕ) : ℕ :=
  if (h.field fld).isVw then hd.vwSize else (h.field fld).size

/-- The three computations have the field's address, and the handle its width. -/
structure AddressesAgree (h : HeaderLayout) (hd : HdrDesc) (fld : ℕ) : Prop where
  handle : (getHandleFld h hd fld).pointer = fieldAddr h hd fld
  fldPointer : getFldPointer h hd fld = fieldAddr h hd fld
  byteAddr : handleByteAddr h hd fld = fieldAddr h hd fld
  bitwidth : (getHandleFld h hd fld).bitwidth = currentWidth h hd fld

theorem fldByteoffset_eq (hone : OneVarWidth h) (hd : HdrDesc) (fld : ℕ) :
    fldByteoffset h hd fld =
      (h.field fld).offset / 8 + if BehindVw h fld then hd.vwSize / 8 else 0 := by
  rw [fldByteoffset, fldIsFixedPos_eq hone]
  by_cases hbehind : BehindVw h fld
  · simp [hbehind]
  · simp [hbehind]

theorem handleByteAddr_eq (hone : OneVarWidth h) (hd : HdrDesc) (fld : ℕ) :
    handleByteAddr h hd fld = fieldAddr h hd fld := by
  rw [handleByteAddr, fldByteoffset_eq hone, fieldAddr, Nat.add_assoc]

theorem getFldPointer_eq (hone : OneVarWidth h) (hd : HdrDesc) (fld : ℕ) :
    getFldPointer h hd fld = fieldAddr h hd fld := by
  have hpos := fldIsFixedPos_eq hone fld
  rw [fldIsFixedPos] at hpos
  rw [getFldPointer, hpos, fieldAddr]
  by_cases hbehind : BehindVw h fld
  · simp [hbehind]
  · simp [hbehind]

theorem bitwidth_getHandleFld (hone : OneVarWidth h) (hd : HdrDesc) (fld : ℕ) :
    (getHandleFld h hd fld).bitwidth = currentWidth h hd fld := by
  show fldBitwidth h (headerDescBuf hd.pointer (currentWidth h hd fld)) fld = _
  rw [fldBitwidth, fldIsFixedWidth_eq hone, currentWidth]
  cases (h.field fld).isVw with
  | false => rfl
  | true => rfl

/-- The handle's address takes the field's own width for that of the variable-width
field in front of it. -/
theorem pointer_getHandleFld (hone : OneVarWidth h) (hd : HdrDesc) (fld : ℕ) :
    (getHandleFld h hd fld).pointer = hd.pointer + (h.field fld).offset / 8 +
      if BehindVw h fld then (h.field fld).size / 8 else 0 := by
  show hd.pointer + fldByteoffset h (headerDescBuf hd.pointer (currentWidth h hd fld)) fld = _
  rw [fldByteoffset_eq hone, Nat.add_assoc]
  by_cases hbehind : BehindVw h fld
  · have hnot := isVw_eq_false_of_behindVw hone hbehind
    rw [if_pos hbehind, if_pos hbehind, headerDescBuf, currentWidth, hnot]
    rfl
  · rw [if_neg hbehind, if_neg hbehind]

theorem pointer_eq_fieldAddr_iff (hone : OneVarWidth h) (hd : HdrDesc) (fld : ℕ) :
    (getHandleFld h hd fld).pointer = fieldAddr h hd fld ↔
      (BehindVw h fld → (h.field fld).size / 8 = hd.vwSize / 8) := by
  rw [pointer_getHandleFld hone, fieldAddr]
  by_cases hbehind : BehindVw h fld
  · rw [if_pos hbehind, if_pos hbehind, Nat.add_left_cancel_iff]
    simp [hbehind]
  · rw [if_neg hbehind, if_neg hbehind]
    simp [hbehind]

/-- **The three computations agree just if the field is not behind the variable-width
one, or has as many whole bytes as that one has at the moment.** -/
theorem addressesAgree_iff (hone : OneVarWidth h) (hd : HdrDesc) (fld : ℕ) :
    AddressesAgree h hd fld ↔
      (BehindVw h fld → (h.field fld).size / 8 = hd.vwSize / 8) := by
  rw [← pointer_eq_fieldAddr_iff hone]
  constructor
  · intro hagree
    exact hagree.handle
  · intro hptr
    exact ⟨hptr, getFldPointer_eq hone hd fld, handleByteAddr_eq hone hd fld,
      bitwidth_getHandleFld hone hd fld⟩

/-- A field of 8 bits, one of variable width and one of 16 bits behind it. -/
def optionsLayout : HeaderLayout where
  fields := [{ offset := 0, size := 8 }, { offset := 8, size := 32, isVw := true },
    { offset := 8, size := 16 }]

theorem optionsLayout_oneVarWidth : OneVarWidth optionsLayout :=
  oneVarWidth_of_forall_lt (by decide : ∀ i < 3, (optionsLayout.field i).isVw = true → i = 1)

theorem addressesAgree_iff_options :
    AddressesAgree optionsLayout ⟨0, 16⟩ 2 ∧ ¬ AddressesAgree optionsLayout ⟨0, 32⟩ 2 := by
  rw [addressesAgree_iff optionsLayout_oneVarWidth, addressesAgree_iff optionsLayout_oneVarWidth]
  decide

/-- Behind four bytes of variable width a field of two bytes is taken to be behind two. -/
theorem not_addressesAgree : ¬ ∀ (h : HeaderLayout) (hd : HdrDesc) (fld : ℕ),
    OneVarWidth h → fld < h.fields.length → hd.vwSize % 8 = 0 → AddressesAgree h hd fld := by
  intro hagree
  have hhandle := (hagree optionsLayout ⟨0, 32⟩ 2 optionsLayout_oneVarWidth (by decide) rfl).handle
  revert hhandle
  decide

/-! ### Words -/

/-- The field fits into the word that `GET32` and `MODIFY` work on: it ends in four
bytes, the shift of the accessors is one of a 32-bit value, the generated mask has
the field's bits, and the bytes that are accessed have the field. -/
structure WordFits (h : HeaderLayout) (hd : HdrDesc) (fld : ℕ) : Prop where
  ends : (h.field fld).offset % 8 + (h.field fld).size ≤ 32
  shift_nonneg : 0 ≤ (32 : ℤ) - (getHandleFld h hd fld).bitoffset - (getHandleFld h hd fld).bitwidth
  shift_lt : (32 : ℤ) - (getHandleFld h hd fld).bitoffset - (getHandleFld h hd fld).bitwidth < 32
  mask : ∀ j, (getHandleFld h hd fld).mask.getMsbD j =
    decide ((h.field fld).offset % 8 ≤ j ∧ j < (h.field fld).offset % 8 + (h.field fld).size)
  inside : ∀ i, 8 * fieldAddr h hd fld + (h.field fld).offset % 8 ≤ i →
    i < 8 * fieldAddr h hd fld + (h.field fld).offset % 8 + currentWidth h hd fld →
    8 * (getHandleFld h hd fld).pointer ≤ i ∧ i < 8 * (getHandleFld h hd fld).pointer + 32

/-- The mask is that of the field just if the field is not empty and ends in the word. -/
theorem fldInfoMask_iff {f : Field} (hle : f.size ≤ 32) :
    (∀ j, (fldInfoMask false f).getMsbD j =
      decide (f.offset % 8 ≤ j ∧ j < f.offset % 8 + f.size)) ↔
      0 < f.size ∧ f.offset % 8 + f.size ≤ 32 := by
  constructor
  · intro hmask
    have hpos : 0 < f.size := by
      by_contra hzero
      -- for no bits at all the mask has all from the offset on
      have hbit := hmask (f.offset % 8)
      rw [fldInfoMask, if_pos hle, if_neg Bool.false_ne_true, Nat.eq_zero_of_not_pos hzero,
        BitVec.getMsbD_ushiftRight, decide_eq_false (by omega : ¬ (f.offset % 8 ≤ f.offset % 8 ∧
          f.offset % 8 < f.offset % 8 + 0)), Nat.sub_self] at hbit
      simp only [BitVec.getMsbD_shiftLeft, BitVec.getMsbD_allOnes] at hbit
      simp at hbit
      omega
    refine ⟨hpos, ?_⟩
    by_contra hgt
    -- the field's last bit is not in the word
    have hbit := hmask (f.offset % 8 + f.size - 1)
    rw [BitVec.getMsbD_of_ge _ _ (by omega), decide_eq_true (by omega)] at hbit
    cases hbit
  · rintro ⟨hpos, hfits⟩ j
    by_cases hj : j < 32
    · rw [getMsbD_fldInfoMask hpos hle hj, Bool.decide_and]
    · rw [BitVec.getMsbD_of_ge _ _ (Nat.not_lt.mp hj), decide_eq_false (by omega)]

/-- **A field that is read and written as a word fits into it just if it is not empty
and ends in it, which the generator does not check**; a variable-width one also with
the width that it has, and one behind it also with the bytes that its address is
off. -/
theorem wordFits_iff (hone : OneVarWidth h) (hmeta : h.isMetadata = false) (hd : HdrDesc) {fld : ℕ}
    (hword : WordAccess (h.field fld)) :
    WordFits h hd fld ↔
      0 < (h.field fld).size ∧ (h.field fld).offset % 8 + (h.field fld).size ≤ 32 ∧
      ((h.field fld).isVw = true → 0 < (h.field fld).offset % 8 + hd.vwSize ∧
        (h.field fld).offset % 8 + hd.vwSize ≤ 32) ∧
      (BehindVw h fld → (h.field fld).size / 8 ≤ hd.vwSize / 8 ∧
        (h.field fld).offset % 8 + (h.field fld).size +
          8 * (hd.vwSize / 8 - (h.field fld).size / 8) ≤ 32) := by
  have hmask : (getHandleFld h hd fld).mask = fldInfoMask false (h.field fld) := by
    rw [← hmeta]
    rfl
  have hoff : (getHandleFld h hd fld).bitoffset = (h.field fld).offset % 8 := rfl
  have hwidth := bitwidth_getHandleFld hone hd fld
  have hptr := pointer_getHandleFld hone hd fld
  constructor
  · rintro ⟨hends, hnonneg, hlt, hbits, hinside⟩
    rw [hmask, fldInfoMask_iff hword.size_le] at hbits
    rw [hoff, hwidth, currentWidth] at hnonneg hlt
    refine ⟨hbits.1, hends, ?_, ?_⟩
    · intro hvw
      rw [if_pos hvw] at hnonneg hlt
      omega
    · intro hbehind
      have hnot := isVw_eq_false_of_behindVw hone hbehind
      rw [hptr, fieldAddr, if_pos hbehind, if_pos hbehind, currentWidth, hnot,
        if_neg Bool.false_ne_true] at hinside
      -- the field's first and last bit
      have hfirst := hinside _ le_rfl (by omega)
      have hlast := hinside (8 * (hd.pointer + (h.field fld).offset / 8 + hd.vwSize / 8) +
        (h.field fld).offset % 8 + (h.field fld).size - 1) (by omega) (by omega)
      omega
  · rintro ⟨hpos, hends, hvwFits, hbehindFits⟩
    refine ⟨hends, ?_, ?_, ?_, ?_⟩
    · rw [hoff, hwidth, currentWidth]
      split_ifs with hvw
      · have := hvwFits hvw
        omega
      · omega
    · rw [hoff, hwidth, currentWidth]
      split_ifs with hvw
      · have := hvwFits hvw
        omega
      · omega
    · rw [hmask, fldInfoMask_iff hword.size_le]
      exact ⟨hpos, hends⟩
    · intro i hlo hhi
      rw [hptr]
      rw [fieldAddr] at hlo hhi
      rw [currentWidth] at hhi
      by_cases hbehind : BehindVw h fld
      · have hnot := isVw_eq_false_of_behindVw hone hbehind
        have := hbehindFits hbehind
        rw [if_pos hbehind] at hlo hhi ⊢
        rw [hnot, if_neg Bool.false_ne_true] at hhi
        omega
      · rw [if_neg hbehind] at hlo hhi ⊢
        split_ifs at hhi with hvw
        · have := hvwFits hvw
          omega
        · omega

/-- Fields of 4, 32 and 4 bits. -/
def nibbleLayout : HeaderLayout where
  fields := [{ offset := 0, size := 4 }, { offset := 4, size := 32 }, { offset := 36, size := 4 }]

theorem nibbleLayout_oneVarWidth : OneVarWidth nibbleLayout :=
  oneVarWidth_of_forall_lt (by decide : ∀ i < 3, (nibbleLayout.field i).isVw = true → i = 0)

theorem nibbleLayout_wordAccess : WordAccess (nibbleLayout.field 1) := .read rfl

theorem wordFits_iff_nibble : ¬ WordFits nibbleLayout ⟨0, 0⟩ 1 := by
  rw [wordFits_iff nibbleLayout_oneVarWidth rfl ⟨0, 0⟩ nibbleLayout_wordAccess]
  decide

/-- A field of 32 bits in the middle of a byte does not end in the word. -/
theorem not_wordFits : ¬ ∀ (h : HeaderLayout) (hd : HdrDesc) (fld : ℕ), OneVarWidth h →
    h.isMetadata = false → fld < h.fields.length → WordAccess (h.field fld) →
    WordFits h hd fld := by
  intro hfits
  have hends := (hfits nibbleLayout ⟨0, 0⟩ 1 nibbleLayout_oneVarWidth rfl (by decide)
    nibbleLayout_wordAccess).ends
  revert hends
  decide

/-! ### Reading a field -/

/-- The read that is generated for the field returns the `width` bits of the memory
from bit `start` on.  A shift by the width of a word is undefined. -/
def ReadsField (h : HeaderLayout) (hd : HdrDesc) (fld start width : ℕ) : Prop :=
  match genFormatExprField (h.field fld) with
  | .word =>
    0 < (getHandleFld h hd fld).bitoffset + (getHandleFld h hd fld).bitwidth ∧
      (getHandleFld h hd fld).bitoffset + (getHandleFld h hd fld).bitwidth ≤ 32 ∧
      ∀ m k, (get32 h hd fld m).getLsbD k = (decide (k < width) && bitAt m (start + width - 1 - k))
  | .buf =>
    8 * (getHandleFld h hd fld).bytewidth = width ∧
      ∀ m i, i < width → bytesBit (getBuf h hd fld m) i = bitAt m (start + i)

/-- The first bit of the field. -/
def fieldFirst (h : HeaderLayout) (hd : HdrDesc) (fld : ℕ) : ℕ :=
  8 * fieldAddr h hd fld + (h.field fld).offset % 8

/-- The fields that a read returns: those in a word, if they end in it and, when of
variable width, begin with a byte; the others, if they are whole bytes; and behind
the variable-width field, if their address is right. -/
def Readable (h : HeaderLayout) (hd : HdrDesc) (fld : ℕ) : Prop :=
  (if (h.field fld).size ≤ 32 then
    0 < (h.field fld).offset % 8 + currentWidth h hd fld ∧
      (h.field fld).offset % 8 + currentWidth h hd fld ≤ 32 ∧
      ((h.field fld).isVw = true → (h.field fld).offset % 8 = 0)
  else
    (h.field fld).offset % 8 = 0 ∧ currentWidth h hd fld % 8 = 0) ∧
  (BehindVw h fld → 0 < currentWidth h hd fld → (h.field fld).size / 8 = hd.vwSize / 8)

instance (h : HeaderLayout) (hd : HdrDesc) (fld : ℕ) : Decidable (Readable h hd fld) := by
  unfold Readable
  infer_instance

theorem bytesBit_slice (m : ℕ → BitVec 8) (off n : ℕ) {i : ℕ} (hi : i < 8 * n) :
    bytesBit (slice m off n) i = bitAt m (8 * off + i) := by
  simp only [bytesBit, bitAt]
  rw [List.getD_eq_getElem _ _ (by rw [length_slice]; omega)]
  simp only [slice, List.getElem_map, List.getElem_range]
  rw [show (8 * off + i) / 8 = off + i / 8 by omega, show (8 * off + i) % 8 = i % 8 by omega]

/-- The mask of a field that ends in the word, up to its end. -/
theorem getMsbD_fldInfoMask_of_lt {f : Field} (hle : f.size ≤ 32) {j : ℕ}
    (hj : j < f.offset % 8 + f.size) (h32 : j < 32) :
    (fldInfoMask false f).getMsbD j = decide (f.offset % 8 ≤ j) := by
  by_cases hpos : 0 < f.size
  · rw [getMsbD_fldInfoMask hpos hle h32, decide_eq_true hj, Bool.and_true]
  · have hlt : j < f.offset % 8 := by omega
    rw [fldInfoMask, if_pos hle, if_neg Bool.false_ne_true, BitVec.getMsbD_ushiftRight,
      decide_eq_true hlt, decide_eq_false (Nat.not_le.mpr hlt), Bool.not_true, Bool.false_and,
      Bool.and_false]

/-- What `GET32` returns: for a variable-width field also the bits in front of it. -/
theorem getLsbD_get32_eq (hone : OneVarWidth h) (hmeta : h.isMetadata = false) {hd : HdrDesc}
    {fld : ℕ} (hle : (h.field fld).size ≤ 32)
    (hend : (h.field fld).offset % 8 + currentWidth h hd fld ≤ 32) (m : ℕ → BitVec 8) (k : ℕ) :
    (get32 h hd fld m).getLsbD k =
      (decide (k + (if (h.field fld).isVw then 0 else (h.field fld).offset % 8) <
        (h.field fld).offset % 8 + currentWidth h hd fld) &&
      bitAt m (8 * (getHandleFld h hd fld).pointer +
        ((h.field fld).offset % 8 + currentWidth h hd fld - 1 - k))) := by
  have hoff : (getHandleFld h hd fld).bitoffset = (h.field fld).offset % 8 := rfl
  have hwidth := bitwidth_getHandleFld hone hd fld
  have hcount : (getHandleFld h hd fld).bytecount =
      toBytes (currentWidth h hd fld + (h.field fld).offset % 8) := by
    rw [← hwidth]
    rfl
  rw [← hwidth, ← hoff] at hend ⊢
  refine getLsbD_get32FldImpl m hmeta hend (by rw [hcount, toBytes]; omega) ?_ k
  intro j hj
  have hfixed : (getHandleFld h hd fld).fixedWidth = !(h.field fld).isVw :=
    fldIsFixedWidth_eq hone fld
  rw [fldMask, hfixed]
  cases hvw : (h.field fld).isVw with
  | false =>
    have hj' : j < (h.field fld).offset % 8 + (h.field fld).size := by
      rw [hwidth, hoff, currentWidth, hvw] at hj
      exact hj
    show (fldInfoMask h.isMetadata (h.field fld)).getMsbD j = decide ((h.field fld).offset % 8 ≤ j)
    rw [hmeta, getMsbD_fldInfoMask_of_lt hle hj' (by omega)]
  | true =>
    -- the mask is computed and has no lower end
    have hbits : (getHandleFld h hd fld).bitcount =
        (getHandleFld h hd fld).bitwidth + (getHandleFld h hd fld).bitoffset := rfl
    rw [Bool.not_true, if_neg Bool.false_ne_true, hbits, if_pos rfl, BitVec.getMsbD_and,
      BitVec.getMsbD_shiftLeft, BitVec.getMsbD_allOnes, BitVec.getMsbD_allOnes,
      decide_eq_true (Nat.zero_le j), decide_eq_true (by omega), decide_eq_true (by omega)]
    rfl

/-- A memory in which one byte has all bits set. -/
theorem bitAt_single (a i : ℕ) :
    bitAt (fun b => if b = a then BitVec.allOnes 8 else 0) i = decide (i / 8 = a) := by
  rw [bitAt]
  by_cases ha : i / 8 = a
  · rw [if_pos ha, decide_eq_true ha, BitVec.getMsbD_allOnes, decide_eq_true (by omega)]
  · rw [if_neg ha, decide_eq_false ha]
    exact BitVec.getMsbD_zero

/-- Through a wrong address a read misses the byte that the field begins in. -/
theorem pointer_eq_of_readsField (hone : OneVarWidth h) (hmeta : h.isMetadata = false)
    (hd : HdrDesc) (fld : ℕ) (hpos : 0 < currentWidth h hd fld)
    (hreads : ReadsField h hd fld (fieldFirst h hd fld) (currentWidth h hd fld)) :
    (getHandleFld h hd fld).pointer = fieldAddr h hd fld := by
  have hwidth := bitwidth_getHandleFld hone hd fld
  have hoff : (getHandleFld h hd fld).bitoffset = (h.field fld).offset % 8 := rfl
  have hstart : fieldFirst h hd fld / 8 = fieldAddr h hd fld := by
    rw [fieldFirst]
    omega
  rw [ReadsField, genFormatExprField, fieldAccess] at hreads
  by_cases hle : (h.field fld).size ≤ 32
  · rw [if_pos hle] at hreads
    obtain ⟨-, hend, hbits⟩ := hreads
    rw [hoff, hwidth] at hend
    -- the field's first bit is the last one of the word
    have hbit := hbits (fun b => if b = fieldAddr h hd fld then BitVec.allOnes 8 else 0)
      (currentWidth h hd fld - 1)
    have hfirst : (fieldFirst h hd fld + currentWidth h hd fld - 1 -
        (currentWidth h hd fld - 1)) / 8 = fieldAddr h hd fld := by
      rw [← hstart]
      congr 1
      omega
    rw [getLsbD_get32_eq hone hmeta hle hend, bitAt_single, bitAt_single, decide_eq_true hfirst,
      Bool.and_true, decide_eq_true (Nat.sub_lt hpos Nat.one_pos), Bool.and_eq_true,
      decide_eq_true_eq, decide_eq_true_eq] at hbit
    have hread := hbit.2
    omega
  · rw [if_neg hle] at hreads
    obtain ⟨hlen, hbits⟩ := hreads
    have hbit := hbits (fun b => if b = fieldAddr h hd fld then BitVec.allOnes 8 else 0) 0 hpos
    rw [getBuf, bytesBit_slice _ _ _ (by omega), bitAt_single, bitAt_single, decide_eq_decide,
      Nat.add_zero, Nat.add_zero] at hbit
    have hread := hbit.mpr hstart
    omega

/-- **A read of a field returns the field's bits just if the field is readable.** -/
theorem readsField_iff (hone : OneVarWidth h) (hmeta : h.isMetadata = false) (hd : HdrDesc)
    (fld : ℕ) :
    ReadsField h hd fld (fieldFirst h hd fld) (currentWidth h hd fld) ↔ Readable h hd fld := by
  have hwidth := bitwidth_getHandleFld hone hd fld
  have hoff : (getHandleFld h hd fld).bitoffset = (h.field fld).offset % 8 := rfl
  have hbytes : (getHandleFld h hd fld).bytewidth =
      toBytes (currentWidth h hd fld + (h.field fld).offset % 8 % 8) := by
    rw [← hwidth]
    rfl
  rw [toBytes] at hbytes
  constructor
  · intro hreads
    have hptr := pointer_eq_of_readsField hone hmeta hd fld
    refine ⟨?_, ?_⟩
    · rw [ReadsField, genFormatExprField, fieldAccess] at hreads
      by_cases hle : (h.field fld).size ≤ 32
      · rw [if_pos hle] at hreads ⊢
        obtain ⟨hpos, hend, hbits⟩ := hreads
        rw [hoff, hwidth] at hpos hend
        refine ⟨hpos, hend, ?_⟩
        intro hvw
        by_contra hne
        -- the bit in front of the field is read with it
        have hbit := hbits (fun _ => BitVec.allOnes 8) (currentWidth h hd fld)
        rw [getLsbD_get32_eq hone hmeta hle hend, hvw, if_pos rfl, bitAt, bitAt,
          BitVec.getMsbD_allOnes, BitVec.getMsbD_allOnes, decide_eq_false (Nat.lt_irrefl _),
          decide_eq_true (by omega), decide_eq_true (by omega)] at hbit
        cases hbit
      · rw [if_neg hle] at hreads ⊢
        have hlen := hreads.1
        omega
    · intro hbehind hpos
      exact (pointer_eq_fieldAddr_iff hone hd fld).mp (hptr hpos hreads) hbehind
  · rintro ⟨hshape, hbehind⟩
    have hptr : 0 < currentWidth h hd fld →
        (getHandleFld h hd fld).pointer = fieldAddr h hd fld := by
      intro hpos
      exact (pointer_eq_fieldAddr_iff hone hd fld).mpr fun hb => hbehind hb hpos
    rw [ReadsField, genFormatExprField, fieldAccess]
    by_cases hle : (h.field fld).size ≤ 32
    · rw [if_pos hle] at hshape ⊢
      obtain ⟨hpos, hend, hvw⟩ := hshape
      refine ⟨by rw [hoff, hwidth]; exact hpos, by rw [hoff, hwidth]; exact hend, ?_⟩
      intro m k
      have hlow : (if (h.field fld).isVw then 0 else (h.field fld).offset % 8) =
          (h.field fld).offset % 8 := by
        split_ifs with hisVw
        · exact (hvw hisVw).symm
        · rfl
      rw [getLsbD_get32_eq hone hmeta hle hend, hlow]
      by_cases hk : k < currentWidth h hd fld
      · rw [hptr (by omega), decide_eq_true hk, decide_eq_true (by omega), fieldFirst]
        congr 2
        omega
      · rw [decide_eq_false hk, decide_eq_false (by omega), Bool.false_and, Bool.false_and]
    · rw [if_neg hle] at hshape ⊢
      refine ⟨by omega, ?_⟩
      intro m i hi
      rw [getBuf, bytesBit_slice _ _ _ (by omega), hptr (by omega), fieldFirst, hshape.1,
        Nat.add_zero]

end T4P4S
