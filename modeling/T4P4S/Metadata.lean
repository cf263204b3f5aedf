/-
The metadata of a packet, as a record of fields.

The fields of `all_metadatas` are read and written in the byte order of the host, a
whole field at a time: one byte, or four bytes for all other fields.

* **`recordLaw_iff`** — in a run of reads and writes, each read returns what was written
  last and each write leaves the other bytes alone iff the upper bits of the values that
  are read are zero and the bytes behind a field of two or three bytes are the ones that
  the write puts there;
* **`recordLaw_forall_iff`** — so it is in every run iff all fields are of 8 or 32 bits.
-/
import T4P4S.HdrFld
import T4P4S.Lib.Lockstep

open NetBits Lockstep

namespace T4P4S

/-- The number of bytes that a handle of the field has. -/
def Field.bytecount (f : Field) : ℕ := toBytes (f.size + f.offset % 8)

/-- The address of the field's first byte, for a header at address 0. -/
def Field.byteOffset (f : Field) : ℕ := f.offset / 8

/-- A layout of the metadata in which the fields have one to four bytes, each field its
own. -/
structure MetaLayout where
  header : HeaderLayout
  byteWidth : ℕ
  isMetadata : header.isMetadata = true
  notVw : ∀ f ∈ header.fields, f.isVw = false
  size_pos : ∀ f ∈ header.fields, 0 < f.size
  bytecount_le : ∀ f ∈ header.fields, f.bytecount ≤ 4
  inside : ∀ f ∈ header.fields, f.byteOffset + f.bytecount ≤ byteWidth
  apart : header.fields.Pairwise fun f f' =>
    f.byteOffset + f.bytecount ≤ f'.byteOffset ∨ f'.byteOffset + f'.bytecount ≤ f.byteOffset

namespace MetaLayout

variable (L : MetaLayout)

/-- A field of the metadata. -/
abbrev Fld := Fin L.header.fields.length

def field (fld : L.Fld) : Field := L.header.fields[fld]

/-- The addresses of the field's bytes, when the metadata is at `pointer`. -/
def addrs (pointer : ℕ) (fld : L.Fld) : Set ℕ :=
  {a | pointer + (L.field fld).byteOffset ≤ a ∧
    a < pointer + (L.field fld).byteOffset + (L.field fld).bytecount}

end MetaLayout

/-! ### Runs -/

inductive MetaOp (L : MetaLayout)
  | get32 (fld : L.Fld)
  | modify32 (fld : L.Fld) (value32 : BitVec 32)

/-- The memory, and the values that were written last. -/
structure MetaState (L : MetaLayout) where
  mem : ℕ → BitVec 8
  last : L.Fld → BitVec 32

variable {L : MetaLayout} (pointer : ℕ)

/-- The descriptor of the metadata header. -/
def metaDesc : HdrDesc := ⟨pointer, 0⟩

/-- `reset_headers` zeroes the metadata. -/
def resetMetadata (L : MetaLayout) (m : ℕ → BitVec 8) : MetaState L where
  mem a := if pointer ≤ a ∧ a < pointer + L.byteWidth then 0 else m a
  last _ := 0

namespace MetaState

/-- What an operation does. -/
def step (s : MetaState L) : MetaOp L → MetaState L
  | .get32 _ => s
  | .modify32 fld value32 =>
    ⟨modify32 L.header (metaDesc pointer) fld value32 s.mem, Function.update s.last fld value32⟩

/-- What an operation should do: a read returns the last value of the field, modulo the
field's width, and a write changes no byte outside of the field. -/
def Law (s : MetaState L) : MetaOp L → Prop
  | .get32 fld => (get32 L.header (metaDesc pointer) fld s.mem).toNat =
      (s.last fld).toNat % 2 ^ (L.field fld).size
  | .modify32 fld value32 => ∀ a ∉ L.addrs pointer fld,
      modify32 L.header (metaDesc pointer) fld value32 s.mem a = s.mem a

/-- The condition for it.  `x.extractLsb' (8 * j) 8` is the byte `j` of `x`. -/
def Ok (s : MetaState L) : MetaOp L → Prop
  | .get32 fld =>
    (s.last fld).toNat % 2 ^ (8 * (L.field fld).bytecount) =
        (s.last fld).toNat % 2 ^ (L.field fld).size ∧
      ((L.field fld).bytecount = 3 → s.mem (pointer + (L.field fld).byteOffset + 3) = 0)
  | .modify32 fld value32 => (L.field fld).bytecount = 1 ∨
      ∀ j < 4, (L.field fld).bytecount ≤ j →
        s.mem (pointer + (L.field fld).byteOffset + j) = value32.extractLsb' (8 * j) 8

end MetaState

/-- The metadata behaves as a record of fields in the run. -/
def RecordLaw (L : MetaLayout) (pointer : ℕ) (m : ℕ → BitVec 8) (ops : List (MetaOp L)) : Prop :=
  Along (MetaState.step pointer) (MetaState.Law pointer) ops (resetMetadata pointer L m)

/-! ### Handles of metadata -/

theorem MetaLayout.varWidthField_eq_none (L : MetaLayout) : L.header.varWidthField = none := by
  rw [HeaderLayout.varWidthField, List.findIdx?_eq_none_iff]
  exact fun f hf => L.notVw f hf

theorem MetaLayout.header_field (fld : L.Fld) : L.header.field fld = L.field fld := by
  rw [HeaderLayout.field, List.getD_eq_getElem _ _ fld.isLt]
  rfl

theorem MetaLayout.field_mem (fld : L.Fld) : L.field fld ∈ L.header.fields :=
  List.getElem_mem fld.isLt

/-- The part of a handle that the operations on metadata use. -/
theorem getHandleFld_meta (pointer : ℕ) (fld : L.Fld) :
    (getHandleFld L.header (metaDesc pointer) fld).isT4p4sByteOrder = true ∧
      (getHandleFld L.header (metaDesc pointer) fld).pointer =
        pointer + (L.field fld).byteOffset ∧
      (getHandleFld L.header (metaDesc pointer) fld).bytecount = (L.field fld).bytecount := by
  simp only [getHandleFld, handle, fldBitwidth, fldByteoffset, fldIsFixedWidth, fldIsFixedPos,
    L.varWidthField_eq_none, L.header_field, L.isMetadata, headerDescBuf, metaDesc,
    Option.all_none, if_true, Nat.add_zero]
  exact ⟨trivial, rfl, rfl⟩

/-- A write sets one byte, or four. -/
theorem modify32_meta (pointer : ℕ) (fld : L.Fld) (v : BitVec 32) (m : ℕ → BitVec 8) :
    modify32 L.header (metaDesc pointer) fld v m =
      if (L.field fld).bytecount = 1 then
        store8 m (pointer + (L.field fld).byteOffset) (v.setWidth 8)
      else
        store32 m (pointer + (L.field fld).byteOffset) v := by
  obtain ⟨horder, hpointer, hcount⟩ := getHandleFld_meta pointer fld
  rw [modify32, modify32Impl, horder, if_pos rfl, modify32T4p4sOrder, hpointer, hcount]

theorem get32_meta (pointer : ℕ) (fld : L.Fld) (m : ℕ → BitVec 8) :
    get32 L.header (metaDesc pointer) fld m =
      if (L.field fld).bytecount = 1 then (m (pointer + (L.field fld).byteOffset)).setWidth 32
      else if (L.field fld).bytecount = 2 then
        (load16 m (pointer + (L.field fld).byteOffset)).setWidth 32
      else load32 m (pointer + (L.field fld).byteOffset) := by
  obtain ⟨horder, hpointer, hcount⟩ := getHandleFld_meta pointer fld
  rw [get32, get32FldImpl, horder, if_pos rfl, fldBytes, hpointer, hcount]

/-! ### The invariant -/

/-- The bytes of each field are those of its last value. -/
def MetaState.Inv (pointer : ℕ) (s : MetaState L) : Prop :=
  ∀ fld, HasBytes s.mem (pointer + (L.field fld).byteOffset) (L.field fld).bytecount (s.last fld)

variable {pointer : ℕ} {s : MetaState L}

/-- What a read returns. -/
theorem MetaState.Inv.toNat_get32 (hinv : s.Inv pointer) (fld : L.Fld) :
    (get32 L.header (metaDesc pointer) fld s.mem).toNat =
      (s.last fld).toNat % 2 ^ (8 * (L.field fld).bytecount) +
        if (L.field fld).bytecount = 3 then
          2 ^ 24 * (s.mem (pointer + (L.field fld).byteOffset + 3)).toNat
        else 0 := by
  have hbytes := hinv fld
  have hpos := L.size_pos _ (L.field_mem fld)
  have hle := L.bytecount_le _ (L.field_mem fld)
  have hlast := (s.last fld).isLt
  have hcount : (L.field fld).bytecount ≠ 0 := by
    rw [Field.bytecount, toBytes]
    omega
  rw [get32_meta]
  generalize (L.field fld).bytecount = c at hbytes hle hcount ⊢
  obtain rfl | rfl | rfl | rfl : c = 1 ∨ c = 2 ∨ c = 3 ∨ c = 4 := by omega
  · exact hbytes.load8
  · exact hbytes.load16
  · exact hbytes.load32.trans (Nat.add_comm _ _)
  · have hload := HasBytes.load32 fun j hj => hbytes j (by omega)
    have hbyte := toNat_byte (s.last fld) 3
    rw [← hbytes 3 (by omega)] at hbyte
    rw [if_neg (by decide), if_neg (by decide), if_neg (by decide), hload, hbyte]
    omega

theorem MetaLayout.size_le (fld : L.Fld) : (L.field fld).size ≤ 8 * (L.field fld).bytecount := by
  rw [Field.bytecount, toBytes]
  omega

/-- A read returns the last value iff its upper bits are zero, and the fourth byte that a
read of three bytes takes with it. -/
theorem MetaState.Inv.law_get32_iff (hinv : s.Inv pointer) (fld : L.Fld) :
    s.Law pointer (.get32 fld) ↔ s.Ok pointer (.get32 fld) := by
  rw [MetaState.Law, MetaState.Ok, hinv.toNat_get32]
  have hlt : (s.last fld).toNat % 2 ^ (L.field fld).size < 2 ^ (8 * (L.field fld).bytecount) :=
    Nat.lt_of_lt_of_le (Nat.mod_lt _ (Nat.two_pow_pos _))
      (Nat.pow_le_pow_right Nat.two_pos (MetaLayout.size_le fld))
  by_cases h3 : (L.field fld).bytecount = 3
  · rw [h3] at hlt
    rw [if_pos h3, h3]
    constructor
    · intro h
      have h0 : (s.mem (pointer + (L.field fld).byteOffset + 3)).toNat = 0 := by omega
      exact ⟨by omega, fun _ => BitVec.eq_of_toNat_eq h0⟩
    · rintro ⟨h, h0⟩
      rw [h, h0 rfl]
      rfl
  · rw [if_neg h3, Nat.add_zero]
    exact (and_iff_left fun h => absurd h h3).symm

/-- A write of a field leaves the other bytes alone iff it writes one byte, or there
already is what it puts behind the field. -/
theorem MetaState.law_modify32_iff (pointer : ℕ) (s : MetaState L) (fld : L.Fld) (v : BitVec 32) :
    s.Law pointer (.modify32 fld v) ↔ s.Ok pointer (.modify32 fld v) := by
  rw [MetaState.Law, MetaState.Ok, modify32_meta]
  set p := pointer + (L.field fld).byteOffset with hp
  have haddrs : ∀ a, a ∉ L.addrs pointer fld ↔ ¬ (p ≤ a ∧ a < p + (L.field fld).bytecount) :=
    fun a => Iff.rfl
  by_cases h1 : (L.field fld).bytecount = 1
  · refine iff_of_true ?_ (.inl h1)
    intro a ha
    rw [haddrs, h1] at ha
    rw [if_pos h1, store8, if_neg (by omega)]
  · rw [or_iff_right h1, if_neg h1]
    constructor
    · intro h j hj hcount
      have ha := h (p + j) (by rw [haddrs]; omega)
      rw [store32, if_pos (by omega), Nat.add_sub_cancel_left] at ha
      exact ha.symm
    · intro h a ha
      rw [haddrs] at ha
      rw [store32]
      split_ifs with hin
      · have := h (a - p) (by omega) (by omega)
        rwa [Nat.add_sub_cancel' hin.1, eq_comm] at this
      · rfl

/-- The bytes of a field after a write to it. -/
theorem hasBytes_modify32 (pointer : ℕ) (fld : L.Fld) (v : BitVec 32) (m : ℕ → BitVec 8) :
    HasBytes (modify32 L.header (metaDesc pointer) fld v m)
      (pointer + (L.field fld).byteOffset) (L.field fld).bytecount v := by
  intro j hj
  have hle := L.bytecount_le _ (L.field_mem fld)
  rw [modify32_meta]
  split_ifs with h1
  · obtain rfl : j = 0 := by omega
    rw [store8, if_pos (Nat.add_zero _)]
    rfl
  · rw [store32, if_pos (by omega), Nat.add_sub_cancel_left]

/-- The bytes of two fields are apart. -/
theorem MetaLayout.not_mem_addrs {fld fld' : L.Fld} (hne : fld ≠ fld') {a : ℕ}
    (ha : a ∈ L.addrs pointer fld') : a ∉ L.addrs pointer fld := by
  have hapart := List.pairwise_iff_getElem.mp L.apart
  rintro ⟨hlo, hhi⟩
  obtain ⟨hlo', hhi'⟩ := ha
  rcases Nat.lt_or_gt_of_ne (Fin.val_ne_of_ne hne) with hlt | hlt
  · rcases hapart _ _ fld.isLt fld'.isLt hlt with h | h <;>
      simp only [MetaLayout.field, Fin.getElem_fin] at * <;> omega
  · rcases hapart _ _ fld'.isLt fld.isLt hlt with h | h <;>
      simp only [MetaLayout.field, Fin.getElem_fin] at * <;> omega

/-- An operation that does what it should keeps the invariant. -/
theorem MetaState.Inv.step (hinv : s.Inv pointer) {op : MetaOp L} (hlaw : s.Law pointer op) :
    (s.step pointer op).Inv pointer := by
  cases op with
  | get32 fld => exact hinv
  | modify32 fld v =>
    intro fld'
    by_cases hsame : fld = fld'
    · subst hsame
      simp only [MetaState.step, Function.update_self]
      exact hasBytes_modify32 pointer fld v s.mem
    · intro j hj
      simp only [MetaState.step, Function.update_of_ne (Ne.symm hsame)]
      rw [← hinv fld' j hj]
      refine hlaw _ (MetaLayout.not_mem_addrs hsame ⟨Nat.le_add_right _ _, ?_⟩)
      omega

/-- Zero is the value of each field after a reset. -/
theorem inv_resetMetadata (pointer : ℕ) (m : ℕ → BitVec 8) :
    (resetMetadata pointer L m).Inv pointer := by
  intro fld j hj
  have hinside := L.inside _ (L.field_mem fld)
  simp only [resetMetadata]
  rw [if_pos (by omega)]
  exact (BitVec.extractLsb'_zero).symm

/-- **The metadata behaves as a record in a run iff the condition holds of each read and
write in it.** -/
theorem recordLaw_iff (L : MetaLayout) (pointer : ℕ) (m : ℕ → BitVec 8) (ops : List (MetaOp L)) :
    RecordLaw L pointer m ops ↔
      Along (MetaState.step pointer) (MetaState.Ok pointer) ops (resetMetadata pointer L m) := by
  refine along_congr (P := MetaState.Inv pointer) ?_
    (fun s op hinv hlaw => hinv.step hlaw) (inv_resetMetadata pointer m)
  intro s op hinv
  cases op with
  | get32 fld => exact hinv.law_get32_iff fld
  | modify32 fld v => exact s.law_modify32_iff pointer fld v

/-! ### Layouts that are records in every run -/

/-- The field is one byte, or four bytes, and nothing else. -/
def Field.Whole (f : Field) : Prop :=
  (f.bytecount = 1 ∧ f.size = 8) ∨ (f.bytecount = 4 ∧ f.size = 32)

theorem MetaState.ok_of_whole {s : MetaState L} (hwhole : ∀ fld, (L.field fld).Whole)
    (op : MetaOp L) : s.Ok pointer op := by
  cases op with
  | get32 fld =>
    rcases hwhole fld with ⟨hcount, hsize⟩ | ⟨hcount, hsize⟩ <;>
      exact ⟨by rw [hcount, hsize], fun h3 => by omega⟩
  | modify32 fld v =>
    rcases hwhole fld with ⟨hcount, -⟩ | ⟨hcount, -⟩
    · exact .inl hcount
    · exact .inr fun j hj hle => by omega

/-- In a run that writes all ones to a field and reads it, the field must be whole. -/
theorem whole_of_recordLaw (fld : L.Fld)
    (hlaw : RecordLaw L 0 (fun _ => 0) [.modify32 fld (BitVec.allOnes 32), .get32 fld]) :
    (L.field fld).Whole := by
  obtain ⟨hwrite, hread, -⟩ := hlaw
  have hinv := (inv_resetMetadata (L := L) 0 fun _ => 0).step hwrite
  have hok := (MetaState.law_modify32_iff _ _ _ _).mp hwrite
  obtain ⟨hbits, -⟩ := (hinv.law_get32_iff fld).mp hread
  have hle := L.bytecount_le _ (L.field_mem fld)
  have hsize := MetaLayout.size_le fld
  simp only [MetaState.step, Function.update_self, BitVec.toNat_allOnes] at hbits
  have hfull : (L.field fld).size = 8 * (L.field fld).bytecount := by
    by_contra hne
    -- the bit above the field is read as one
    have hbit := congrArg (Nat.testBit · (L.field fld).size) hbits
    simp only [Nat.testBit_mod_two_pow, Nat.testBit_two_pow_sub_one, decide_false, Nat.lt_irrefl,
      Bool.false_and] at hbit
    rw [decide_eq_true (by omega), decide_eq_true (by omega)] at hbit
    cases hbit
  have hmem : ∀ a, (resetMetadata 0 L fun _ => 0).mem a = 0 := fun a => ite_self 0
  have hpos := L.size_pos _ (L.field_mem fld)
  rcases hok with hcount | hbehind
  · exact .inl ⟨hcount, by omega⟩
  · by_contra hnot
    rw [Field.Whole] at hnot
    have hlt : (L.field fld).bytecount < 4 := by omega
    have hbyte := hbehind (L.field fld).bytecount hlt (Nat.le_refl _)
    rw [hmem] at hbyte
    generalize (L.field fld).bytecount = c at hbyte hlt
    revert hbyte
    revert c
    decide

/-- **The metadata is a record in every run iff each field has 8 or 32 bits, in bytes of
its own.** -/
theorem recordLaw_forall_iff (L : MetaLayout) :
    (∀ pointer m ops, RecordLaw L pointer m ops) ↔ ∀ fld, (L.field fld).Whole := by
  refine ⟨fun hlaw fld => whole_of_recordLaw fld (hlaw _ _ _), ?_⟩
  intro hwhole pointer m ops
  have hlaw : ∀ (s : MetaState L) (op : MetaOp L), s.Inv pointer → (s.Law pointer op ↔ True) := by
    intro s op hinv
    refine iff_of_true ?_ trivial
    cases op with
    | get32 fld => exact (hinv.law_get32_iff fld).mpr (MetaState.ok_of_whole hwhole _)
    | modify32 fld v =>
      exact (s.law_modify32_iff pointer fld v).mpr (MetaState.ok_of_whole hwhole _)
  exact (along_congr hlaw (fun s op hinv hok => hinv.step hok)
    (inv_resetMetadata pointer m)).mpr (along_const.mpr fun _ _ => trivial)

/-! ### A port behind which there is a byte -/

/-- A field of 9 bits in two bytes, and a field of 8 bits behind it. -/
def portLayout : MetaLayout where
  header := { fields := [{ offset := 0, size := 9 }, { offset := 16, size := 8 }], isMetadata := true }
  byteWidth := 3
  isMetadata := rfl
  notVw := by decide
  size_pos := by decide
  bytecount_le := by decide
  inside := by decide
  apart := by decide

/-- A write to the port clears the byte. -/
theorem portLayout_not_recordLaw : ¬ ∀ (L : MetaLayout) (pointer : ℕ) (m : ℕ → BitVec 8)
    (ops : List (MetaOp L)), RecordLaw L pointer m ops := by
  intro hlaw
  let port : portLayout.Fld := ⟨0, by decide⟩
  let byte : portLayout.Fld := ⟨1, by decide⟩
  obtain ⟨-, hport, -⟩ := hlaw portLayout 0 (fun _ => 0) [.modify32 byte 0xFF, .modify32 port 1]
  have hbyte := hport 2 (by rintro ⟨-, hlt⟩; revert hlt; decide)
  revert hbyte
  decide

end T4P4S
