/-
The packet descriptor: what one packet's run works on.

A descriptor holds the bytes of the packet buffer and of `header_tmp_storage`
(the memory `mem`), the state of the mbuf that wraps the buffer, and for each
header instance where its bytes are and how many there are.  A header is valid
iff it has a pointer.  This module defines the descriptor, its reset at the
start of a packet and the operations on a header's validity; the parser and the
deparser are modules of their own.

-/
import Mathlib.Algebra.BigOperators.Group.List.Basic
import Mathlib.Algebra.GroupWithZero.Nat
import Mathlib.Algebra.Order.Group.Int
import T4P4S.Lib.Gather

open CMem

namespace T4P4S

abbrev Byte := BitVec 8

instance : Nontrivial Byte := ⟨0, 1, by decide⟩

/-- `sizeup`: the width of the C integer for a value, or of an item of its array. -/
def sizeup (size : ℕ) (useArray : Bool) : ℕ :=
  if useArray then 8 else if size ≤ 8 then 8 else if size ≤ 16 then 16 else if size ≤ 32 then 32
    else 8

/-- The two objects that hold a packet's bytes: the buffer of its mbuf, and
`header_tmp_storage`. -/
inductive Obj
  | buf
  | tmp
  deriving DecidableEq, Repr

/-- A pointer into a packet's bytes; `none` is `NULL`. -/
abbrev CPtr := Option (Ptr Obj)

/-! ### What `hlir` says about the program -/

/-- A header instance.  `size` is in bits and leaves a variable-width field out;
`vwFldSize` is the largest width of that field. -/
structure HeaderInstance where
  size : ℕ
  byteWidth : ℕ
  isMetadata : Bool := false
  isVw : Bool := false
  vwFldSize : ℕ := 0
  isLocal : Bool := false
  isSkipped : Bool := false
  stack : Option ℕ := none
  deriving DecidableEq, Inhabited

/-- A header stack: `stk_infos[stk]`. -/
structure HeaderStack where
  size : ℕ
  startHdr : ℕ
  deriving DecidableEq, Inhabited

/-- The part of the compiler's input that the packet code is generated from. -/
structure Hlir where
  headerInstances : List HeaderInstance
  headerStacks : List HeaderStack := []

namespace Hlir

variable (hlir : Hlir)

def headerCount : ℕ := max hlir.headerInstances.length 1

def headerInstance (hdr : ℕ) : HeaderInstance := hlir.headerInstances.getD hdr default

def byteWidth (hdr : ℕ) : ℕ := (hlir.headerInstance hdr).byteWidth

/-- `hdr_infos[hdr].byte_offset`: the widths of the instances before it. -/
def byteOffset (hdr : ℕ) : ℕ :=
  ((hlir.headerInstances.take hdr).map HeaderInstance.byteWidth).sum

/-- `NONMETA_HDR_TOTAL_LENGTH`, which counts the metadata instances too. -/
def nonmetaHdrTotalLength : ℕ := (hlir.headerInstances.map HeaderInstance.byteWidth).sum

/-- The number of elements of `header_reorder`. -/
def headerReorderSize : ℕ := hlir.headerCount + 8

/-- Where the header's bytes lie in `header_tmp_storage`. -/
def tmpSlot (hdr : ℕ) : Ptr Obj := ⟨.tmp, hlir.byteOffset hdr⟩

theorem byteOffset_le (hdr : ℕ) : hlir.byteOffset hdr ≤ hlir.nonmetaHdrTotalLength := by
  conv_rhs => rw [nonmetaHdrTotalLength, ← List.take_append_drop hdr hlir.headerInstances]
  rw [List.map_append, List.sum_append, byteOffset]
  exact Nat.le_add_right _ _

theorem byteOffset_succ (hdr : ℕ) :
    hlir.byteOffset (hdr + 1) = hlir.byteOffset hdr + hlir.byteWidth hdr := by
  rw [byteOffset, List.take_add_one, List.map_append, List.sum_append, byteOffset, byteWidth,
    headerInstance, List.getD_eq_getElem?_getD]
  cases hlir.headerInstances[hdr]? with
  | none => rfl
  | some inst => simp

/-- The slots follow each other. -/
theorem byteOffset_add_le {t u : ℕ} (hlt : t < u) :
    hlir.byteOffset t + hlir.byteWidth t ≤ hlir.byteOffset u := by
  rw [← byteOffset_succ]
  exact monotone_nat_of_le_succ (fun n => by rw [byteOffset_succ]; exact Nat.le_add_right _ _) hlt

end Hlir

/-! ### The mbuf -/

/-- The state of a packet's mbuf, which is one segment. -/
structure Mbuf where
  dataOff : ℕ
  dataLen : ℕ
  pktLen : ℕ
  bufLen : ℕ
  deriving DecidableEq

/-- `rte_pktmbuf_mtod`: the first byte of the packet. -/
def Mbuf.mtod (m : Mbuf) : Ptr Obj := ⟨.buf, m.dataOff⟩

/-- A packet of one segment inside its buffer, the size of which is a `uint16_t`. -/
structure Mbuf.InOrder (m : Mbuf) : Prop where
  pktLen_eq : m.pktLen = m.dataLen
  data_le : m.dataOff + m.dataLen ≤ m.bufLen
  bufLen_lt : m.bufLen < 2 ^ 16

/-- The two functions of DPDK that move the front of a packet; `none` stands for
a result of `NULL`.  Their length argument is a `uint16_t`. -/
structure RteMbuf where
  prepend : Mbuf → ℕ → Option Mbuf
  adj : Mbuf → ℕ → Option Mbuf

/-- What the documentation of the two functions promises. -/
structure RteMbuf.Documented (rte : RteMbuf) : Prop where
  prepend_eq : ∀ m len, len < 2 ^ 16 → rte.prepend m len =
    if len ≤ m.dataOff then
      some { m with dataOff := m.dataOff - len, dataLen := m.dataLen + len,
                    pktLen := m.pktLen + len }
    else
      none
  adj_eq : ∀ m len, len < 2 ^ 16 → rte.adj m len =
    if len ≤ m.dataLen then
      some { m with dataOff := m.dataOff + len, dataLen := m.dataLen - len,
                    pktLen := m.pktLen - len }
    else
      none

/-- The two functions as DPDK has them. -/
def rteMbuf : RteMbuf where
  prepend m len :=
    if len ≤ m.dataOff then
      some { m with dataOff := m.dataOff - len, dataLen := m.dataLen + len,
                    pktLen := m.pktLen + len }
    else
      none
  adj m len :=
    if len ≤ m.dataLen then
      some { m with dataOff := m.dataOff + len, dataLen := m.dataLen - len,
                    pktLen := m.pktLen - len }
    else
      none

theorem rteMbuf_documented : rteMbuf.Documented :=
  ⟨fun _ _ _ => rfl, fun _ _ _ => rfl⟩

/-! ### The descriptor -/

/-- `header_descriptor_t` -/
structure HeaderDescriptor where
  type : ℕ
  pointer : CPtr
  size : ℕ
  vwSize : ℕ
  wasEnabledAtInitialParse : Bool
  deriving DecidableEq

/-- The header's bytes, when it is valid. -/
def HeaderDescriptor.block (hdr : HeaderDescriptor) : Option (Block Obj) :=
  hdr.pointer.map fun p => ⟨p, hdr.size⟩

/-- `packet_descriptor_t`.  `stkCurrent stk` is `stacks[stk].current`, `headerReorder`
has `deparse_hdrinst_count` elements,
and `egressPort` is what `get_egress_port` reads from the metadata. -/
structure PacketDescriptor where
  mem : Mem Obj Byte
  wrapper : Mbuf
  data : CPtr
  extractPtr : Ptr Obj
  headers : ℕ → HeaderDescriptor
  stkCurrent : ℕ → ℤ
  headerReorder : List ℕ
  deparseSize : ℕ
  parsedSize : ℕ
  payloadSize : ℤ
  isDeparseReordering : Bool
  egressPort : ℕ

/-- `EGRESS_DROP_VALUE` -/
def egressDropValue : ℕ := 200

namespace PacketDescriptor

variable (hlir : Hlir) (pd : PacketDescriptor)

/-- The sizes of the two objects. -/
def objSize : Obj → ℕ
  | .buf => pd.wrapper.bufLen
  | .tmp => hlir.nonmetaHdrTotalLength

/-- `packet_size` -/
def packetSize : ℕ := pd.wrapper.pktLen

def isHeaderValid (hdr : ℕ) : Bool := (pd.headers hdr).pointer.isSome

def isPacketDropped : Bool := pd.egressPort == egressDropValue

/-- The bytes that are sent: those of the mbuf. -/
def wire : List Byte := load pd.mem pd.wrapper.mtod pd.wrapper.dataLen

/-- The bytes behind the parsed part of the packet. -/
def payload : List Byte := load pd.mem pd.extractPtr pd.payloadSize.toNat

/-- The headers of the emission list, in its order; `none` stands for an invalid one. -/
def emission : List (Option (Block Obj)) :=
  pd.headerReorder.map fun hdr => (pd.headers hdr).block

/-- The valid headers of the emission list, in its order. -/
def emitted : List (Block Obj) :=
  pd.headerReorder.filterMap fun hdr => (pd.headers hdr).block

theorem filterMap_id_emission : pd.emission.filterMap id = pd.emitted := by
  simp [emission, emitted, List.filterMap_map]

/-- What the deparser has to put in front of the payload. -/
def emittedBytes : List Byte := pd.emitted.flatMap (Block.load pd.mem)

/-- Replace the descriptor of one header. -/
def setHeader (hdr : ℕ) (d : HeaderDescriptor) : PacketDescriptor :=
  { pd with headers := fun i => if i = hdr then d else pd.headers i }

@[simp] theorem setHeader_headers_self (hdr : ℕ) (d : HeaderDescriptor) :
    (pd.setHeader hdr d).headers hdr = d := by
  simp [setHeader]

theorem setHeader_headers_of_ne {hdr i : ℕ} (d : HeaderDescriptor) (h : i ≠ hdr) :
    (pd.setHeader hdr d).headers i = pd.headers i := by
  simp [setHeader, h]

@[simp] theorem setHeader_wrapper (hdr : ℕ) (d : HeaderDescriptor) :
    (pd.setHeader hdr d).wrapper = pd.wrapper := rfl

@[simp] theorem setHeader_parsedSize (hdr : ℕ) (d : HeaderDescriptor) :
    (pd.setHeader hdr d).parsedSize = pd.parsedSize := rfl

@[simp] theorem setHeader_extractPtr (hdr : ℕ) (d : HeaderDescriptor) :
    (pd.setHeader hdr d).extractPtr = pd.extractPtr := rfl

end PacketDescriptor

/-! ### The start of a packet -/

variable (hlir : Hlir)

def resetVwFields (pd : PacketDescriptor) : PacketDescriptor :=
  { pd with headers := fun hdr =>
      if (hlir.headerInstance hdr).isMetadata = false ∧ (hlir.headerInstance hdr).isVw then
        { pd.headers hdr with vwSize := 0 }
      else
        pd.headers hdr }

def resetHeaders (pd : PacketDescriptor) : PacketDescriptor :=
  resetVwFields hlir
    { pd with
      isDeparseReordering := false
      headers := fun hdr =>
        if (hlir.headerInstance hdr).isMetadata then pd.headers hdr
        else { pd.headers hdr with pointer := none }
      stkCurrent := fun _ => -1 }

/-- What `handle_packet` does before the parser starts. -/
def startPacket (pd : PacketDescriptor) : Option PacketDescriptor :=
  pd.data.map fun data =>
    { resetHeaders hlir pd with parsedSize := 0, extractPtr := data, headerReorder := [] }

/-! ### Operations on header validity -/

def activateHdr (hdr : ℕ) (pd : PacketDescriptor) : PacketDescriptor :=
  { pd.setHeader hdr { pd.headers hdr with pointer := some (hlir.tmpSlot hdr) } with
    isDeparseReordering := true }

def deactivateHdr (hdr : ℕ) (pd : PacketDescriptor) : PacketDescriptor :=
  { pd.setHeader hdr { pd.headers hdr with pointer := none } with
    isDeparseReordering := true }

def setHdrValid (hdr : ℕ) (pd : PacketDescriptor) : PacketDescriptor :=
  if pd.isHeaderValid hdr then pd
  else { activateHdr hlir hdr pd with isDeparseReordering := true }

def setHdrInvalid (hdr : ℕ) (pd : PacketDescriptor) : PacketDescriptor :=
  if pd.isHeaderValid hdr then
    { pd.setHeader hdr { pd.headers hdr with pointer := none } with
      isDeparseReordering := true }
  else pd

/-- The part of `do_assignment` behind the validity of the source. -/
def copyHeader (dst src : ℕ) (pd : PacketDescriptor) : Option PacketDescriptor :=
  match (pd.headers dst).pointer, (pd.headers src).pointer with
  | some d, some s =>
    let copyLen := hlir.byteWidth src + (pd.headers src).vwSize / 8
    (memcpy (pd.objSize hlir) pd.mem d s copyLen).map fun mem => { pd with mem }
  | _, _ => none

def doAssignment (dst src : ℕ) (pd : PacketDescriptor) : Option PacketDescriptor :=
  if pd.isHeaderValid src then
    let pd := if pd.isHeaderValid dst then pd else activateHdr hlir dst pd
    copyHeader hlir dst src pd
  else
    some (deactivateHdr dst pd)

/-- `emit`: append to the emission list; undefined when `header_reorder` is full. -/
def emit (hdr : ℕ) (pd : PacketDescriptor) : Option PacketDescriptor :=
  if pd.headerReorder.length < hlir.headerReorderSize then
    some { pd with headerReorder := pd.headerReorder ++ [hdr] }
  else
    none

/-- Copying a header changes bytes, and nothing in the descriptor. -/
theorem copyHeader_eq_some {hlir : Hlir} {dst src : ℕ} {pd pd' : PacketDescriptor}
    (h : copyHeader hlir dst src pd = some pd') : ∃ mem, pd' = { pd with mem } := by
  rw [copyHeader] at h
  split at h
  · obtain ⟨mem, -, hmem⟩ := Option.map_eq_some_iff.mp h
    exact ⟨mem, hmem.symm⟩
  · cases h

end T4P4S
