/-
The externs `verify_checksum` and `update_checksum`.

Both compute a checksum of the bytes of a list expression.  `update_checksum` does not
store it, the assignment being commented out, and `verify_checksum` compares it with 0 in
place of the packet's checksum.  It is never 0.

* **`verifyStatement_true`** — a verification whose condition is true sets the error;
* **`not_checksumLaw`** — for no data do the two agree.
-/
import T4P4S.FieldAssign

open ByteString CMem NetBits

namespace T4P4S

/-! ### The externs -/

/-- `enum_HashAlgorithm_t`, as far as the sources name its members. -/
inductive HashAlgorithm
  | crc32
  | identity
  | random
  | csum16
  | xor16
  | other (n : ℕ)
  deriving DecidableEq

/-- `uint8_buffer_t`.  `gen_prepare_listexpr_arg` sets the size to the number of bytes. -/
structure Uint8Buffer where
  size : ℕ
  buffer : ℕ → Byte

def Uint8Buffer.bytes (data : Uint8Buffer) : List Byte := slice data.buffer 0 data.size

/-- `calculated_cksum`, where `rteRawCksum` is a function of DPDK. -/
def calculatedCksum (rteRawCksum : List Byte → BitVec 16) (data : Uint8Buffer)
    (algorithm : HashAlgorithm) : BitVec 32 :=
  let bytelen := data.size / 8
  if algorithm = .csum16 then
    let cksum := (rteRawCksum (slice data.buffer 0 bytelen)).setWidth 32
    if cksum = 0xffff then cksum else ~~~cksum &&& 0xffff
  else
    0

/-- `verify_checksum`.  `err` is `FLD(all_metadatas,checksum_error)`; the width of the
source is only read for fields of variable width. -/
def verifyChecksum (rteRawCksum : List Byte → BitVec 16) (err : PktField) (cond : Bool)
    (data : Uint8Buffer) (_checksum : BitVec 16) (algorithm : HashAlgorithm)
    (pd : PacketDescriptor) : Option PacketDescriptor :=
  if cond then
    let currentCksum : BitVec 32 := 0
    if calculatedCksum rteRawCksum data algorithm ≠ currentCksum then
      modify err (.val32 1 0) .keep pd
    else
      some pd
  else
    some pd

/-- `update_checksum` -/
def updateChecksum (rteRawCksum : List Byte → BitVec 16) (cond : Bool) (data : Uint8Buffer)
    (_checksum : CPtr) (algorithm : HashAlgorithm) (pd : PacketDescriptor) : PacketDescriptor :=
  if cond then
    -- what is calculated is printed; `*checksum = calculated_cksum` is a comment
    let _calculatedCksum := calculatedCksum rteRawCksum data algorithm
    pd
  else
    pd

/-- `gen_format_method_arg` of a field: its address. -/
def fieldArg (f : PktField) (pd : PacketDescriptor) : CPtr :=
  (getHandlePkt f pd).obj.map fun o => ⟨o, (getHandlePkt f pd).fd.pointer⟩

/-- `gen_format_lazy_extern` of a call of `verify_checksum`.  The checksum is in a field; the
address of it is cast to `uint16_t`, and `place` is the number that this gives. -/
def verifyStatement (rteRawCksum : List Byte → BitVec 16) (place : CPtr → BitVec 16)
    (cksum err : PktField) (cond : Bool) (data : Uint8Buffer) (algorithm : HashAlgorithm)
    (pd : PacketDescriptor) : Option PacketDescriptor :=
  if cond then
    verifyChecksum rteRawCksum err cond data (place (fieldArg cksum pd)) algorithm pd
  else
    some pd

/-- `gen_format_lazy_extern` of a call of `update_checksum`. -/
def updateStatement (rteRawCksum : List Byte → BitVec 16) (cksum : PktField) (cond : Bool)
    (data : Uint8Buffer) (algorithm : HashAlgorithm) (pd : PacketDescriptor) :
    PacketDescriptor :=
  if cond then updateChecksum rteRawCksum cond data (fieldArg cksum pd) algorithm pd else pd

/-! ### What they have to do -/

/-- The sum of two numbers of 16 bits, the carry added at the end. -/
def onesAdd (a b : ℕ) : ℕ := if a + b < 2 ^ 16 then a + b else a + b - 0xffff

/-- The ones' complement sum of the 16-bit words in network order; an odd byte at the end
is followed by a zero. -/
def onesSum : List Byte → ℕ
  | [] => 0
  | [a] => 256 * a.toNat
  | a :: b :: bs => onesAdd (256 * a.toNat + b.toNat) (onesSum bs)

def internetChecksum (bs : List Byte) : ℕ := 0xffff - onesSum bs

/-- `checksum_error` is in one byte of the metadata. -/
structure ErrorField (err : PktField) (pd : PacketDescriptor) : Prop where
  valid : pd.isHeaderValid err.hdr = true
  fixed : err.field.isVw = false
  metadata : err.layout.isMetadata = true
  oneByte : toBytes (err.field.size + err.field.offset % 8) = 1

/-- The two externs agree on the data, whatever the memory is. -/
structure ChecksumLaw (rteRawCksum : List Byte → BitVec 16) (place : CPtr → BitVec 16)
    (cksum err : PktField) (data : Uint8Buffer) (pd : PacketDescriptor) : Prop where
  update_stores : ∀ mem : Mem Obj Byte,
    getBufPkt cksum (updateStatement rteRawCksum cksum true data .csum16 { pd with mem }) =
      some (netBytes 2 (internetChecksum data.bytes))
  verify_accepts : ∀ mem : Mem Obj Byte, get32Pkt err { pd with mem } = some 0 →
    ∃ pd', verifyStatement rteRawCksum place cksum err true data .csum16
      (updateStatement rteRawCksum cksum true data .csum16 { pd with mem }) = some pd' ∧
        get32Pkt err pd' = some 0
  verify_rejects : ∀ mem : Mem Obj Byte,
    getBufPkt cksum { pd with mem } ≠ some (netBytes 2 (internetChecksum data.bytes)) →
      ∃ pd', verifyStatement rteRawCksum place cksum err true data .csum16 { pd with mem } =
        some pd' ∧ get32Pkt err pd' = some 1
  false_keeps : ∀ mem : Mem Obj Byte,
    updateStatement rteRawCksum cksum false data .csum16 { pd with mem } = { pd with mem } ∧
      verifyStatement rteRawCksum place cksum err false data .csum16 { pd with mem } =
        some { pd with mem }

/-! ### What they do -/

variable {rteRawCksum : List Byte → BitVec 16} {place : CPtr → BitVec 16} {cksum err : PktField}
  {data : Uint8Buffer} {pd : PacketDescriptor}

/-- A checksum that is calculated is not 0. -/
theorem calculatedCksum_ne_zero : calculatedCksum rteRawCksum data .csum16 ≠ 0 := by
  rw [calculatedCksum]
  dsimp only
  rw [if_pos rfl]
  generalize rteRawCksum (slice data.buffer 0 (data.size / 8)) = x
  split
  · next h =>
    rw [h]
    decide
  · next h =>
    intro hzero
    have hmask : ∀ i < 32, (0xffff : BitVec 32).getLsbD i = decide (i < 16) := by decide
    refine h (BitVec.eq_of_getLsbD_eq fun i hi => ?_)
    -- no bit of the lower half is zero, and there are no others
    have hbit : (~~~(x.setWidth 32) &&& 0xffff).getLsbD i = (0 : BitVec 32).getLsbD i := by
      rw [hzero]
    rw [BitVec.getLsbD_and, BitVec.getLsbD_not, hmask i hi, decide_eq_true hi,
      Bool.true_and] at hbit
    rw [hmask i hi]
    by_cases hlow : i < 16
    · simpa [hlow] using hbit
    · rw [decide_eq_false hlow, BitVec.getLsbD_setWidth, BitVec.getLsbD_of_ge _ _ (by omega),
        Bool.and_false]

theorem ErrorField.bytecount (herr : ErrorField err pd) :
    (getHandleFld err.layout (err.hdrDesc pd) err.fld).bytecount = 1 :=
  (bytecount_getHandleFld herr.fixed (err.hdrDesc pd)).trans herr.oneByte

/-- What is read is the field's byte. -/
theorem ErrorField.get32Pkt_eq (herr : ErrorField err pd) (mem : Mem Obj Byte) :
    get32Pkt err { pd with mem } = some ((mem (err.handlePlace pd)).setWidth 32) := by
  have horder : (getHandleFld err.layout (err.hdrDesc pd) err.fld).isT4p4sByteOrder = true :=
    herr.metadata
  rw [get32Pkt, @getHandlePkt_of_valid err { pd with mem } herr.valid]
  show some (get32FldImpl (objBytes mem (err.headerPtr pd).obj)
    (getHandleFld err.layout (err.hdrDesc pd) err.fld)) = _
  rw [get32FldImpl, if_pos horder, fldBytes, herr.bytecount, if_pos rfl]
  rfl

/-- What is written is this byte. -/
theorem ErrorField.modify_eq (herr : ErrorField err pd) (mem : Mem Obj Byte) :
    modify err (.val32 1 0) .keep { pd with mem } = some { pd with
      mem := setObjBytes mem (err.headerPtr pd).obj
        (store8 (objBytes mem (err.headerPtr pd).obj) (err.handlePlace pd).off 1) } := by
  have horder : (getHandleFld err.layout (err.hdrDesc pd) err.fld).isT4p4sByteOrder = true :=
    herr.metadata
  have hwrite : modify32Impl (objBytes mem (err.headerPtr pd).obj)
      (getHandleFld err.layout (err.hdrDesc pd) err.fld) 1 =
        store8 (objBytes mem (err.headerPtr pd).obj) (err.handlePlace pd).off 1 := by
    rw [modify32Impl, if_pos horder, modify32T4p4sOrder, herr.bytecount, if_pos rfl]
    rfl
  rw [modify_of_fixed herr.valid herr.fixed, ← hwrite]
  rfl

/-- The error is set. -/
theorem ErrorField.get32Pkt_modify (herr : ErrorField err pd) (mem : Mem Obj Byte) :
    ∃ pd', modify err (.val32 1 0) .keep { pd with mem } = some pd' ∧
      get32Pkt err pd' = some 1 := by
  refine ⟨_, herr.modify_eq mem, ?_⟩
  rw [herr.get32Pkt_eq]
  have hbyte : setObjBytes mem (err.headerPtr pd).obj
      (store8 (objBytes mem (err.headerPtr pd).obj) (err.handlePlace pd).off 1)
        (err.handlePlace pd) = 1 := by
    have hobj : (err.handlePlace pd).obj = (err.headerPtr pd).obj := rfl
    rw [setObjBytes, if_pos hobj, store8, if_pos rfl]
  rw [hbyte]
  rfl

theorem verifyStatement_true (herr : ErrorField err pd) (mem : Mem Obj Byte) :
    ∃ pd', verifyStatement rteRawCksum place cksum err true data .csum16 { pd with mem } =
      some pd' ∧ get32Pkt err pd' = some 1 := by
  rw [verifyStatement, if_pos rfl, verifyChecksum, if_pos rfl]
  dsimp only
  rw [if_pos calculatedCksum_ne_zero]
  exact herr.get32Pkt_modify mem

/-- A checksum that was just updated is rejected. -/
theorem not_verify_accepts (herr : ErrorField err pd) :
    ¬ ∀ mem : Mem Obj Byte, get32Pkt err { pd with mem } = some 0 →
      ∃ pd', verifyStatement rteRawCksum place cksum err true data .csum16
        (updateStatement rteRawCksum cksum true data .csum16 { pd with mem }) = some pd' ∧
          get32Pkt err pd' = some 0 := by
  intro h
  have hzero : get32Pkt err { pd with mem := fun _ => 0 } = some 0 := by
    rw [herr.get32Pkt_eq]
    rfl
  obtain ⟨pd', hpd', haccepted⟩ := h (fun _ => 0) hzero
  have hupdate : updateStatement rteRawCksum cksum true data .csum16
      { pd with mem := fun _ => 0 } = { pd with mem := fun _ => 0 } := rfl
  obtain ⟨pd'', hpd'', hset⟩ := @verifyStatement_true rteRawCksum place cksum err data pd herr
    fun _ => 0
  rw [hupdate, hpd'', Option.some_inj] at hpd'
  subst hpd'
  rw [hset] at haccepted
  exact absurd haccepted (by decide)

/-- **For no data do the two externs agree.** -/
theorem not_checksumLaw (herr : ErrorField err pd) :
    ¬ ChecksumLaw rteRawCksum place cksum err data pd :=
  fun h => not_verify_accepts herr h.verify_accepts

/-! ### A packet with a checksum -/

/-- A header with a checksum of 16 bits. -/
def cksumField : PktField where
  layout := { fields := [{ offset := 0, size := 16 }] }
  hdr := 0
  fld := 0

/-- The metadata, with `checksum_error` alone. -/
def errField : PktField where
  layout := { fields := [{ offset := 0, size := 1 }], isMetadata := true }
  hdr := 1
  fld := 0

/-- The header is in the packet, the metadata in its slot. -/
def cksumPd : PacketDescriptor :=
  { noHeaderPd with
    headers := fun i =>
      { type := i, pointer := some ⟨if i = 0 then .buf else .tmp, 0⟩, size := if i = 0 then 2 else 1
        vwSize := 0, wasEnabledAtInitialParse := true } }

theorem errField_errorField : ErrorField errField cksumPd := ⟨rfl, rfl, rfl, rfl⟩

/-- `rte_raw_cksum`: the sum of the words as the host has them. -/
def rawSum : List Byte → ℕ
  | [] => 0
  | [a] => a.toNat
  | a :: b :: bs => onesAdd (a.toNat + 256 * b.toNat) (rawSum bs)

/-- Eight bytes, of which one is summed. -/
def cksumData : Uint8Buffer where
  size := 8
  buffer i := BitVec.ofNat 8 (i + 1)

theorem cksumData_not_checksumLaw : ¬ ChecksumLaw (fun bs => BitVec.ofNat 16 (rawSum bs))
    (fun _ => 0) cksumField errField cksumData cksumPd :=
  not_checksumLaw errField_errorField

theorem cksumField_located : cksumField.Located cksumPd :=
  ⟨@oneVarWidth_of_forall_lt _ 0 (by decide), by decide, rfl⟩

/-- The checksum of these bytes is rejected after it was updated. -/
theorem not_checksums_agree : ¬ ∀ (cksum err : PktField) (data : Uint8Buffer)
    (pd : PacketDescriptor), ErrorField err pd → cksum.Located pd →
      ChecksumLaw (fun bs => BitVec.ofNat 16 (rawSum bs)) (fun _ => 0) cksum err data pd := by
  intro h
  have hlaw := h cksumField errField cksumData cksumPd errField_errorField cksumField_located
  exact not_verify_accepts errField_errorField hlaw.verify_accepts

end T4P4S
