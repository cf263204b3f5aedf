/-
Writing a field of a packet: `MODIFY`, `set_fld` and `set_fld_buf`.

A field is written through a handle.  That of an invalid header is all zero, with the
pointer `NULL` and `is_ok` not set: `GET32` tests this flag, the functions that write
do not.  A value is `none` where the code accesses memory through `NULL`, or has a
length that is negative.

* **`invalidWrite_iff`** — the exact writes to a field of an invalid header that change
  nothing; reads of such a field never go through the pointer.
-/
import T4P4S.Packet
import T4P4S.TableKey

open ByteString CMem

namespace T4P4S

/-! ### Handles -/

/-- A field of a header instance. -/
structure PktField where
  layout : HeaderLayout
  hdr : ℕ
  fld : ℕ

/-- `bitfield_handle_t`, with the object that `pointer` points into; `none` stands for
`NULL`. -/
structure PktHandle where
  isOk : Bool
  obj : Option Obj
  fd : BitfieldHandle

/-- `(bitfield_handle_t) { .is_ok = false }` -/
def nullHandle : PktHandle where
  isOk := false
  obj := none
  fd :=
    { pointer := 0, isT4p4sByteOrder := false, bitwidth := 0, bytewidth := 0, bitoffset := 0
      byteoffset := 0, bitcount := 0, bytecount := 0, mask := 0, fixedWidth := false }

/-- `get_handle_fld` -/
def getHandlePkt (f : PktField) (pd : PacketDescriptor) : PktHandle :=
  match (pd.headers f.hdr).pointer with
  | none => nullHandle
  | some p =>
    { isOk := true
      obj := some p.obj
      fd := getHandleFld f.layout ⟨p.off, (pd.headers f.hdr).vwSize⟩ f.fld }

/-- The bytes of one object. -/
def objBytes (m : Mem Obj Byte) (o : Obj) : ℕ → Byte := fun i => m ⟨o, i⟩

def setObjBytes (m : Mem Obj Byte) (o : Obj) (bytes : ℕ → Byte) : Mem Obj Byte :=
  fun p => if p.obj = o then bytes p.off else m p

/-- Bytes that are written `off` bytes behind the pointer; no bytes at all may be
written to `NULL`. -/
def PktHandle.write (dst : PktHandle) (off : ℕ) (bs : List Byte) (m : Mem Obj Byte) :
    Option (Mem Obj Byte) :=
  match dst.obj with
  | some o => some (put m ⟨o, dst.fd.pointer + off⟩ bs)
  | none => if bs = [] then some m else none

/-! ### Writing -/

/-- `endian_strategy_t` -/
inductive EndianStrategy
  | convertAlways
  | convertAsNeeded
  | keep
  | net
  deriving DecidableEq

/-- A source made by `src_buf` or `src_32`.  `MODIFY` reads the member `width` of both;
`src_32` does not set it, so it is what is left in the union. -/
inductive ModifySource
  | buf (buf : List Byte) (width : ℕ)
  | val32 (value32 : BitVec 32) (width : ℕ)

def ModifySource.width : ModifySource → ℕ
  | .buf _ width => width
  | .val32 _ width => width

/-- `MODIFY_BUF_IMPL`.  The length of the `memset` is a `size_t`. -/
def modifyBufImpl (dst : PktHandle) (src : List Byte) (srcBytewidth : ℕ) (m : Mem Obj Byte) :
    Option (Mem Obj Byte) :=
  if srcBytewidth ≤ dst.fd.bytewidth ∧ srcBytewidth ≤ src.length then
    let pad := dst.fd.bytewidth - srcBytewidth
    (dst.write 0 (List.replicate pad 0) m).bind (dst.write pad (src.take srcBytewidth))
  else
    none

/-- `MODIFY32_IMPL`, which loads and stores through the pointer. -/
def modify32ImplPkt (dst : PktHandle) (value32 : BitVec 32) (m : Mem Obj Byte) :
    Option (Mem Obj Byte) :=
  dst.obj.map fun o => setObjBytes m o (modify32Impl (objBytes m o) dst.fd value32)

/-- `MODIFY32_BUF_IMPL`, which copies into a `uint32_t`. -/
def modify32BufImpl (dst : PktHandle) (src : List Byte) (srcBytewidth : ℕ) (m : Mem Obj Byte) :
    Option (Mem Obj Byte) :=
  if srcBytewidth ≤ 4 ∧ srcBytewidth ≤ src.length then
    modify32ImplPkt dst (BitVec.ofNat 32 (hostNat (src.take srcBytewidth))) m
  else
    none

/-- The part of `MODIFY` behind the handle; the last case prints a warning. -/
def modifyHandle (dst : PktHandle) (src : ModifySource) (strategy : EndianStrategy)
    (m : Mem Obj Byte) : Option (Mem Obj Byte) :=
  match src, strategy with
  | .buf buf width, .net => modifyBufImpl dst buf ((width + 7) / 8) m
  | .buf buf width, .convertAsNeeded => modify32BufImpl dst buf ((width + 7) / 8) m
  | .val32 value32 _, .keep => modify32ImplPkt dst value32 m
  | .val32 value32 _, .net => modify32ImplPkt dst value32 m
  | _, _ => some m

/-- The width of a variable-width field is that of the source, before anything else. -/
def setVwSize (f : PktField) (width : ℕ) (pd : PacketDescriptor) : PacketDescriptor :=
  if (f.layout.field f.fld).isVw then
    pd.setHeader f.hdr { pd.headers f.hdr with vwSize := width }
  else
    pd

/-- `MODIFY` with `dst_pkt(pd)` -/
def modify (f : PktField) (src : ModifySource) (strategy : EndianStrategy)
    (pd : PacketDescriptor) : Option PacketDescriptor :=
  let pd := setVwSize f src.width pd
  (modifyHandle (getHandlePkt f pd) src strategy pd.mem).map fun mem => { pd with mem }

/-- `set_fld` -/
def setFld (f : PktField) (value32 : BitVec 32) (width : ℕ) (pd : PacketDescriptor) :
    Option PacketDescriptor :=
  modify f (.val32 value32 width) .keep pd

/-- The width that `set_fld_buf` takes for the source. -/
def fldSize (f : PktField) (pd : PacketDescriptor) : ℕ :=
  if (f.layout.field f.fld).isVw then (pd.headers f.hdr).vwSize else (f.layout.field f.fld).size

/-- `set_fld_buf` -/
def setFldBuf (f : PktField) (buf : List Byte) (pd : PacketDescriptor) :
    Option PacketDescriptor :=
  modify f (.buf buf (fldSize f pd)) .net pd

/-! ### Reading -/

/-- `GET32` with `src_pkt(pd)` -/
def get32Pkt (f : PktField) (pd : PacketDescriptor) : Option (BitVec 32) :=
  let src := getHandlePkt f pd
  if src.isOk then src.obj.map fun o => get32FldImpl (objBytes pd.mem o) src.fd
  else some 0xDEADC0DE

/-- `GET_BUF` with `src_pkt(pd)` -/
def getBufPkt (f : PktField) (pd : PacketDescriptor) : Option (List Byte) :=
  let src := getHandlePkt f pd
  match src.obj with
  | some o => some (slice (objBytes pd.mem o) src.fd.pointer src.fd.bytewidth)
  | none => if src.fd.bytewidth = 0 then some [] else none

/-! ### A field of an invalid header -/

/-- A call of one of the three functions. -/
inductive FieldWrite
  | modify (src : ModifySource) (strategy : EndianStrategy)
  | setFld (value32 : BitVec 32) (width : ℕ)
  | setFldBuf (buf : List Byte)

def FieldWrite.run (f : PktField) (pd : PacketDescriptor) : FieldWrite → Option PacketDescriptor
  | .modify src strategy => T4P4S.modify f src strategy pd
  | .setFld value32 width => T4P4S.setFld f value32 width pd
  | .setFldBuf buf => T4P4S.setFldBuf f buf pd

/-- The width that is stored in the header's descriptor is the one that it has. -/
def KeepsVwSize (f : PktField) (pd : PacketDescriptor) (width : ℕ) : Prop :=
  (f.layout.field f.fld).isVw = true → (pd.headers f.hdr).vwSize = width

/-- Behind the handle nothing is accessed: the strategy is not one of the source's, or
no byte is copied. -/
def NoAccess (src : ModifySource) (strategy : EndianStrategy) : Prop :=
  match src, strategy with
  | .buf _ width, .net => width = 0
  | .buf _ _, .convertAsNeeded => False
  | .val32 _ _, .keep => False
  | .val32 _ _, .net => False
  | _, _ => True

/-- The write changes nothing. -/
def Harmless (f : PktField) (pd : PacketDescriptor) : FieldWrite → Prop
  | .modify src strategy => KeepsVwSize f pd src.width ∧ NoAccess src strategy
  | .setFld _ _ => False
  | .setFldBuf _ => fldSize f pd = 0

variable {f : PktField} {pd : PacketDescriptor}

theorem getHandlePkt_of_invalid (hinvalid : pd.isHeaderValid f.hdr = false) :
    getHandlePkt f pd = nullHandle := by
  rw [PacketDescriptor.isHeaderValid, Option.isSome_eq_false_iff, Option.isNone_iff_eq_none]
    at hinvalid
  rw [getHandlePkt, hinvalid]

theorem setVwSize_mem (f : PktField) (width : ℕ) (pd : PacketDescriptor) :
    (setVwSize f width pd).mem = pd.mem := by
  rw [setVwSize]
  split <;> rfl

theorem setVwSize_pointer (f : PktField) (width : ℕ) (pd : PacketDescriptor) :
    ((setVwSize f width pd).headers f.hdr).pointer = (pd.headers f.hdr).pointer := by
  rw [setVwSize]
  split
  · rw [PacketDescriptor.setHeader_headers_self]
  · rfl

/-- Nothing changes iff the width is the one that the descriptor has. -/
theorem setVwSize_eq_self_iff {width : ℕ} : setVwSize f width pd = pd ↔ KeepsVwSize f pd width := by
  rw [setVwSize, KeepsVwSize]
  split
  · next hvw =>
    constructor
    · intro h _
      have hhdr := congrArg (fun pd' : PacketDescriptor => (pd'.headers f.hdr).vwSize) h
      rw [PacketDescriptor.setHeader_headers_self] at hhdr
      exact hhdr.symm
    · intro h
      have hsame : { pd.headers f.hdr with vwSize := width } = pd.headers f.hdr := by
        rw [← h hvw]
      rw [hsame, PacketDescriptor.setHeader]
      congr 1
      funext i
      split
      · next hi => rw [hi]
      · rfl
  · next hvw => exact iff_of_true rfl fun h => absurd h hvw

/-- Through `NULL` only a write of no bytes is defined. -/
theorem modifyHandle_null_iff {src : ModifySource} {strategy : EndianStrategy}
    {m m' : Mem Obj Byte} :
    modifyHandle nullHandle src strategy m = some m' ↔ NoAccess src strategy ∧ m = m' := by
  have hbuf : ∀ (buf : List Byte) (width : ℕ),
      modifyBufImpl nullHandle buf ((width + 7) / 8) m = some m' ↔ width = 0 ∧ m = m' := by
    intro buf width
    by_cases hzero : width = 0
    · subst hzero
      rw [modifyBufImpl, if_pos ⟨Nat.zero_le _, Nat.zero_le _⟩]
      show some m = some m' ↔ _
      rw [Option.some_inj, eq_self, true_and]
    -- a longer source makes the length of the memset negative
    · have hlong : ¬ ((width + 7) / 8 ≤ nullHandle.fd.bytewidth ∧
          (width + 7) / 8 ≤ buf.length) := by
        rintro ⟨hle, -⟩
        have hnone : (width + 7) / 8 = 0 := Nat.le_zero.mp hle
        omega
      rw [modifyBufImpl, if_neg hlong]
      exact iff_of_false (Option.some_ne_none m').symm fun h => hzero h.1
  have h32 : ∀ (buf : List Byte) (n : ℕ), modify32BufImpl nullHandle buf n m = none := by
    intro buf n
    rw [modify32BufImpl]
    split <;> rfl
  have htrue : some m = some m' ↔ True ∧ m = m' := by
    rw [Option.some_inj, true_and]
  have hfalse : ∀ {o : Option (Mem Obj Byte)}, o = none → (o = some m' ↔ False ∧ m = m') := by
    rintro o rfl
    exact iff_of_false (Option.some_ne_none m').symm fun h => h.1
  cases src with
  | buf buf width =>
    cases strategy with
    | convertAlways => exact htrue
    | convertAsNeeded => exact hfalse (h32 buf _)
    | keep => exact htrue
    | net => exact hbuf buf width
  | val32 value32 width =>
    cases strategy with
    | convertAlways => exact htrue
    | convertAsNeeded => exact htrue
    | keep => exact hfalse rfl
    | net => exact hfalse rfl

theorem modify_invalid_iff (hinvalid : pd.isHeaderValid f.hdr = false) (src : ModifySource)
    (strategy : EndianStrategy) :
    modify f src strategy pd = some pd ↔ KeepsVwSize f pd src.width ∧ NoAccess src strategy := by
  have hinvalid' : (setVwSize f src.width pd).isHeaderValid f.hdr = false := by
    rw [PacketDescriptor.isHeaderValid, setVwSize_pointer]
    exact hinvalid
  rw [modify, getHandlePkt_of_invalid hinvalid', setVwSize_mem, ← setVwSize_eq_self_iff,
    Option.map_eq_some_iff]
  constructor
  · rintro ⟨m, hm, hpd⟩
    obtain ⟨haccess, rfl⟩ := modifyHandle_null_iff.mp hm
    refine ⟨?_, haccess⟩
    rw [← setVwSize_mem f src.width pd] at hpd
    exact hpd
  · rintro ⟨hkeeps, haccess⟩
    refine ⟨pd.mem, modifyHandle_null_iff.mpr ⟨haccess, rfl⟩, ?_⟩
    rw [hkeeps]

/-- `set_fld_buf` sets the width to the one that the field has. -/
theorem keepsVwSize_fldSize (f : PktField) (pd : PacketDescriptor) :
    KeepsVwSize f pd (fldSize f pd) := by
  intro hvw
  rw [fldSize, if_pos hvw]

/-- **A write to a field of an invalid header changes nothing iff no byte goes through
the handle and the width that `MODIFY` stores is the one that the header has; a read
never goes through the handle.** -/
theorem invalidWrite_iff (hinvalid : pd.isHeaderValid f.hdr = false) :
    (∀ w : FieldWrite, w.run f pd = some pd ↔ Harmless f pd w) ∧
      get32Pkt f pd = some 0xDEADC0DE ∧ getBufPkt f pd = some [] := by
  refine ⟨?_, ?_, ?_⟩
  · intro w
    cases w with
    | modify src strategy => exact modify_invalid_iff hinvalid src strategy
    | setFld value32 width =>
      rw [FieldWrite.run, setFld, modify_invalid_iff hinvalid]
      exact iff_of_false (fun h => h.2) id
    | setFldBuf buf =>
      rw [FieldWrite.run, setFldBuf, modify_invalid_iff hinvalid]
      exact and_iff_right (keepsVwSize_fldSize f pd)
  · rw [get32Pkt, getHandlePkt_of_invalid hinvalid]
    rfl
  · rw [getBufPkt, getHandlePkt_of_invalid hinvalid]
    rfl

/-! ### A packet without headers -/

/-- One field of 16 bits. -/
def portField : PktField where
  layout := { fields := [{ offset := 0, size := 16 }] }
  hdr := 0
  fld := 0

/-- A packet of which no header was found. -/
def noHeaderPd : PacketDescriptor where
  mem _ := 0
  wrapper := { dataOff := 0, dataLen := 2, pktLen := 2, bufLen := 2 }
  data := some ⟨.buf, 0⟩
  extractPtr := ⟨.buf, 0⟩
  headers i :=
    { type := i, pointer := none, size := 0, vwSize := 0, wasEnabledAtInitialParse := false }
  stkCurrent _ := -1
  headerReorder := []
  deparseSize := 0
  parsedSize := 0
  payloadSize := 2
  isDeparseReordering := false
  egressPort := 0

theorem invalidWrite_iff_port :
    (∀ w : FieldWrite, w.run portField noHeaderPd = some noHeaderPd ↔
      Harmless portField noHeaderPd w) ∧
      get32Pkt portField noHeaderPd = some 0xDEADC0DE ∧ getBufPkt portField noHeaderPd = some [] :=
  invalidWrite_iff rfl

/-- `set_fld` goes through `NULL`. -/
theorem not_invalidWrite : ¬ ∀ (f : PktField) (pd : PacketDescriptor) (w : FieldWrite),
    pd.isHeaderValid f.hdr = false → w.run f pd = some pd := by
  intro h
  have hset : (none : Option PacketDescriptor) = some noHeaderPd :=
    h portField noHeaderPd (.setFld 1 0) rfl
  cases hset

end T4P4S
