/-
Assignments to fields of a packet that go through a buffer.

The assignment to a field of more than 32 bits puts the source's value into a buffer,
which `set_fld_buf` copies into the packet.  This module compares the bytes that it
leaves with the value of the source in network byte order.

* **`wideLaw_iff`** — the exact assignments that write the value into the field and
  change no other byte.
-/
import T4P4S.FieldAccess
import T4P4S.FieldWrites

open ByteString CMem NetBits

namespace T4P4S

/-! ### Places -/

namespace PktField

variable (f : PktField) (pd : PacketDescriptor)

def field : Field := f.layout.field f.fld

/-- Where the field's header begins, which is valid. -/
def headerPtr : Ptr Obj := (pd.headers f.hdr).pointer.getD ⟨.buf, 0⟩

def hdrDesc : HdrDesc := ⟨(f.headerPtr pd).off, (pd.headers f.hdr).vwSize⟩

/-- The width of the field at the moment. -/
def width : ℕ := currentWidth f.layout (f.hdrDesc pd) f.fld

/-- Where the field begins. -/
def place : Ptr Obj := ⟨(f.headerPtr pd).obj, fieldAddr f.layout (f.hdrDesc pd) f.fld⟩

/-- Where its handle points to. -/
def handlePlace : Ptr Obj :=
  ⟨(f.headerPtr pd).obj, (getHandleFld f.layout (f.hdrDesc pd) f.fld).pointer⟩

/-- The value of the field in network byte order, for a width of whole bytes. -/
def value : List Byte :=
  (List.range (f.width pd / 8)).map fun i => byteOf fun j =>
    bitAt (objBytes pd.mem (f.headerPtr pd).obj) (8 * (f.place pd).off + f.field.offset % 8 +
      (8 * i + j))

/-- A field of a valid header, of a type with at most one field of variable width. -/
structure Located : Prop where
  one : OneVarWidth f.layout
  lt_length : f.fld < f.layout.fields.length
  valid : pd.isHeaderValid f.hdr = true

end PktField

/-! ### The buffer of a wide assignment -/

/-- The operators of `elementwise_binary_ops`. -/
inductive ElementwiseOp
  | bAnd
  | bOr
  | bXor
  deriving DecidableEq

def ElementwiseOp.apply : ElementwiseOp → Byte → Byte → Byte
  | .bAnd, a, b => a &&& b
  | .bOr, a, b => a ||| b
  | .bXor, a, b => a ^^^ b

/-- An operand that can be indexed; for a local variable the address is formatted. -/
inductive WideOperand
  | field (src : PktField)
  | param
  | const

/-- The sources that `gen_format_statement_fieldref_wide` makes a buffer of. -/
inductive WideSource
  | field (src : PktField)
  | localVar
  | param
  | const
  | elementwise (left right : WideOperand)

/-- The values that the parts of a statement have: the numbers in variables and constants,
the operator, and the address of an array. -/
structure AssignEnv where
  left : ℕ
  right : ℕ := 0
  op : ElementwiseOp := .bAnd
  addr : ℕ := 0

/-- The double that is nearest to `v`, of two the even one. -/
def toDouble (v : ℕ) : ℕ :=
  let dropped := v.log2 + 1 - 53
  let q := v / 2 ^ dropped
  let r := v % 2 ^ dropped
  (if 2 ^ dropped < 2 * r ∨ (2 * r = 2 ^ dropped ∧ q % 2 = 1) then q + 1 else q) * 2 ^ dropped

/-- `int_to_big_endian_byte_array_with_length`.  After the first byte the number is the
`float` of `value /= 256`, which then is divided exactly; the loop goes on with zeros
until it underflows. -/
def intToBigEndianByteArrayWithLength (value width : ℕ) : List Byte :=
  ((List.range width).map fun j =>
    BitVec.ofNat 8 (if j = 0 then value else toDouble value / 256 ^ j)).reverse

/-- `GET_BUF` into an array of `n` bytes. -/
def getBufInto (n : ℕ) (src : PktField) (pd : PacketDescriptor) : Option (List Byte) :=
  (getBufPkt src pd).bind fun bytes => if bytes.length ≤ n then some bytes else none

/-- `format_expr` of an operand, of `size` bits. -/
def WideOperand.bytes (size v : ℕ) (pd : PacketDescriptor) : WideOperand → Option (List Byte)
  | .field src => getBufInto (toBytes size) src pd
  | .param => some (netBytes (toBytes size) v)
  | .const => some (makeConst size v false)

/-- The buffer that `$src_pointer` points to. -/
def WideSource.bytes (size : ℕ) (env : AssignEnv) (pd : PacketDescriptor) :
    WideSource → Option (List Byte)
  | .field src => getBufInto (toBytes size) src pd
  | .localVar => some (netBytes (toBytes size) env.left)
  | .param => some (netBytes (toBytes size) env.left)
  | .const => some (intToBigEndianByteArrayWithLength env.left (toBytes size))
  | .elementwise left right =>
    (left.bytes size env.left pd).bind fun l => (right.bytes size env.right pd).map fun r =>
      List.zipWith env.op.apply l r

/-- The size of the destination's header, computed as an `int` and stored in a
`uint32_t`; `hdrSize` is that of the header type. -/
def assignedSize (hdrSize fldSize vwSize : ℕ) : ℕ :=
  ((((hdrSize : ℤ) - fldSize + vwSize).tdiv 8) % 2 ^ 32).toNat

/-- The two lines in front of `set_fld_buf`; for another source than a field Python has
no value for the width. -/
def setVwSizes (hlir : Hlir) (dst : PktField) (src : WideSource) (pd : PacketDescriptor) :
    PacketDescriptor :=
  match dst.field.isVw, src with
  | true, .field src =>
    let vwSize := (pd.headers src.hdr).vwSize
    pd.setHeader dst.hdr
      { pd.headers dst.hdr with
        vwSize
        size := assignedSize (hlir.headerInstance dst.hdr).size dst.field.size vwSize }
  | _, _ => pd

/-- `gen_format_statement_fieldref_wide` -/
def fieldrefWide (hlir : Hlir) (dst : PktField) (src : WideSource) (env : AssignEnv)
    (pd : PacketDescriptor) : Option PacketDescriptor :=
  (src.bytes dst.field.size env pd).bind fun buf =>
    setFldBuf dst buf (setVwSizes hlir dst src pd)

/-! ### What an assignment has to do -/

def WideOperand.value (size v : ℕ) (pd : PacketDescriptor) : WideOperand → List Byte
  | .field src => src.value pd
  | .param => netBytes (toBytes size) v
  | .const => netBytes (toBytes size) v

/-- The value of a source in network byte order. -/
def WideSource.value (size : ℕ) (env : AssignEnv) (pd : PacketDescriptor) : WideSource → List Byte
  | .field src => src.value pd
  | .localVar => netBytes (toBytes size) env.left
  | .param => netBytes (toBytes size) env.left
  | .const => netBytes (toBytes size) env.left
  | .elementwise left right =>
    List.zipWith env.op.apply (left.value size env.left pd) (right.value size env.right pd)

/-- The field has the value, and no other byte changed. -/
structure Assigned (dst : PktField) (value : List Byte) (pd pd' : PacketDescriptor) : Prop where
  bytes : load pd'.mem (dst.place pd) value.length = value
  frame : ∀ a, ¬ InBlock a (dst.place pd) value.length → pd'.mem a = pd.mem a

/-- The destination's header has the variable width and the size of the source's. -/
structure TakesSizes (dst src : PktField) (pd pd' : PacketDescriptor) : Prop where
  vwSize : (pd'.headers dst.hdr).vwSize = (pd.headers src.hdr).vwSize
  size : (pd'.headers dst.hdr).size = (pd.headers src.hdr).size

def WideOperand.fields : WideOperand → List PktField
  | .field src => [src]
  | .param | .const => []

def WideSource.fields : WideSource → List PktField
  | .field src => [src]
  | .localVar | .param | .const => []
  | .elementwise left right => left.fields ++ right.fields

/-- An assignment that is generated, to a field of whole bytes. -/
structure WideSetting (dst : PktField) (src : WideSource) (pd : PacketDescriptor) : Prop where
  wide : 32 < dst.field.size
  dst_located : dst.Located pd
  aligned : dst.field.offset % 8 = 0
  whole : dst.field.isVw = false → dst.field.size % 8 = 0
  src_located : ∀ s ∈ src.fields, s.Located pd
  same_type : ∀ s ∈ src.fields, s.field.size = dst.field.size ∧ s.field.isVw = dst.field.isVw
  vw_source : dst.field.isVw = true → ∃ s, src = .field s
  vw_whole : dst.field.isVw = true → ∀ s ∈ src.fields,
    s.width pd % 8 = 0 ∧ s.width pd ≤ dst.field.size

/-- The assignment is right for all contents of the memory and all values. -/
def WideLaw (hlir : Hlir) (dst : PktField) (src : WideSource) (pd : PacketDescriptor) : Prop :=
  ∀ (mem : Mem Obj Byte) (env : AssignEnv), env.left < 2 ^ dst.field.size →
    env.right < 2 ^ dst.field.size →
    ∃ pd', fieldrefWide hlir dst src env { pd with mem } = some pd' ∧
      Assigned dst (src.value dst.field.size env { pd with mem }) { pd with mem } pd' ∧
        (dst.field.isVw = true → ∀ s, src = .field s → TakesSizes dst s pd pd')

/-! ### When it does -/

/-- The handle points to the field. -/
def PktField.Placed (f : PktField) (pd : PacketDescriptor) : Prop := f.handlePlace pd = f.place pd

/-- The operands are the same at the places `P` and `Q`, maybe the other way round. -/
def PlacesAgree (P Q : PktField → Ptr Obj) : WideOperand → WideOperand → Prop
  | .field a, .field b => (P a = Q a ∧ P b = Q b) ∨ (P a = Q b ∧ P b = Q a)
  | .field a, .param | .field a, .const => P a = Q a
  | .param, .field b | .const, .field b => P b = Q b
  | .param, .param | .param, .const | .const, .param | .const, .const => True

/-- The fields among the operands begin with a byte and are read where they are, or each
of two where the other is. -/
def OperandsPlaced (pd : PacketDescriptor) (left right : WideOperand) : Prop :=
  (∀ s ∈ left.fields ++ right.fields, s.field.offset % 8 = 0) ∧
    PlacesAgree (fun s => s.handlePlace pd) (fun s => s.place pd) left right

/-- A field of fixed width is copied from where it is to where it is, or onto itself. -/
def CopyPlaced (dst src : PktField) (pd : PacketDescriptor) : Prop :=
  src.field.offset % 8 = 0 ∧
    ((dst.Placed pd ∧ src.Placed pd) ∨
      (dst.handlePlace pd = src.handlePlace pd ∧ dst.place pd = src.place pd))

/-- A field of variable width begins with a byte or is empty, and the size that is
computed is that of the source's header. -/
def VwFits (hlir : Hlir) (dst src : PktField) (pd : PacketDescriptor) : Prop :=
  (src.field.offset % 8 = 0 ∨ src.width pd = 0) ∧
    assignedSize (hlir.headerInstance dst.hdr).size dst.field.size
      (pd.headers src.hdr).vwSize = (pd.headers src.hdr).size

def WideFits (hlir : Hlir) (dst : PktField) (pd : PacketDescriptor) : WideSource → Prop
  | .field src => if dst.field.isVw then VwFits hlir dst src pd else CopyPlaced dst src pd
  | .localVar => dst.Placed pd
  | .param => dst.Placed pd
  | .const => dst.Placed pd ∧ dst.field.size ≤ 53
  | .elementwise left right => dst.Placed pd ∧ OperandsPlaced pd left right

/-! ### Reading and writing through a handle -/

/-- Where a field is does not depend on the bytes of the packet. -/
theorem PktField.Located.withMem {f : PktField} {pd : PacketDescriptor} (hf : f.Located pd)
    (mem : Mem Obj Byte) : f.Located { pd with mem } :=
  ⟨hf.one, hf.lt_length, hf.valid⟩

section Handles

variable {f : PktField} {pd : PacketDescriptor}

theorem getHandlePkt_of_valid (hvalid : pd.isHeaderValid f.hdr = true) :
    getHandlePkt f pd =
      { isOk := true
        obj := some (f.headerPtr pd).obj
        fd := getHandleFld f.layout (f.hdrDesc pd) f.fld } := by
  obtain ⟨p, hp⟩ := Option.isSome_iff_exists.mp hvalid
  simp only [getHandlePkt, PktField.hdrDesc, PktField.headerPtr, hp, Option.getD_some]

/-- A write to a field of fixed width starts with the handle. -/
theorem modify_of_fixed (hvalid : pd.isHeaderValid f.hdr = true) (hfixed : f.field.isVw = false)
    (src : ModifySource) (strategy : EndianStrategy) (mem : Mem Obj Byte) :
    modify f src strategy { pd with mem } =
      (modifyHandle
        { isOk := true
          obj := some (f.headerPtr pd).obj
          fd := getHandleFld f.layout (f.hdrDesc pd) f.fld } src strategy mem).map
        fun mem => { pd with mem } := by
  have hkeep : setVwSize f src.width { pd with mem } = { pd with mem } :=
    if_neg (ne_true_of_eq_false hfixed)
  rw [modify, hkeep, @getHandlePkt_of_valid f { pd with mem } hvalid]
  rfl

/-- The bytes that a handle designates are those of its width, from the first one that
the field begins in. -/
theorem bytewidth_getHandleFld (hone : OneVarWidth f.layout) (hd : HdrDesc) :
    (getHandleFld f.layout hd f.fld).bytewidth =
      toBytes (currentWidth f.layout hd f.fld + f.field.offset % 8) := by
  rw [← bitwidth_getHandleFld hone hd f.fld, PktField.field]
  show toBytes (_ + (f.layout.field f.fld).offset % 8 % 8) = _
  rw [Nat.mod_mod]
  rfl

theorem getBufPkt_of_located (hf : f.Located pd) :
    getBufPkt f pd = some (load pd.mem (f.handlePlace pd)
      (toBytes (f.width pd + f.field.offset % 8))) := by
  rw [getBufPkt, getHandlePkt_of_valid hf.valid]
  show some (slice _ _ (getHandleFld f.layout (f.hdrDesc pd) f.fld).bytewidth) = _
  rw [bytewidth_getHandleFld hf.one]
  rfl

/-- The value of a field that begins with a byte. -/
theorem value_of_aligned (haligned : f.field.offset % 8 = 0) :
    f.value pd = load pd.mem (f.place pd) (f.width pd / 8) := by
  rw [PktField.value, load, haligned]
  refine List.map_congr_left ?_
  intro i _
  have hbits : (fun j => bitAt (objBytes pd.mem (f.headerPtr pd).obj)
      (8 * (f.place pd).off + 0 + (8 * i + j))) = fun j =>
        bitAt (objBytes pd.mem (f.headerPtr pd).obj) (8 * ((f.place pd).off + i) + j) := by
    funext j
    congr 1
    omega
  rw [hbits, byteOf_bitAt]
  rfl

theorem length_value : (f.value pd).length = f.width pd / 8 := by
  rw [PktField.value, List.length_map, List.length_range]

/-- `MODIFY_BUF_IMPL` pads the source with zeros in front. -/
theorem modifyBufImpl_eq {dst : PktHandle} {o : Obj} (hobj : dst.obj = some o) {src : List Byte}
    {k : ℕ} (hk : k ≤ dst.fd.bytewidth) (hlen : k ≤ src.length) (m : Mem Obj Byte) :
    modifyBufImpl dst src k m = some (put m ⟨o, dst.fd.pointer⟩
      (List.replicate (dst.fd.bytewidth - k) 0 ++ src.take k)) := by
  have hwrite : ∀ (off : ℕ) (bs : List Byte) (m : Mem Obj Byte),
      dst.write off bs m = some (put m ((⟨o, dst.fd.pointer⟩ : Ptr Obj) + off) bs) := by
    intro off bs m
    rw [PktHandle.write, hobj]
    rfl
  rw [modifyBufImpl, if_pos ⟨hk, hlen⟩]
  dsimp only
  rw [hwrite, Option.bind_some, hwrite, ← put_append, List.length_replicate]
  rfl

theorem fldSize_eq_width : fldSize f pd = f.width pd := rfl

/-- `set_fld_buf` writes at the handle as many bytes as the field has. -/
theorem setFldBuf_eq (hf : f.Located pd) (haligned : f.field.offset % 8 = 0) {buf : List Byte}
    (hlen : toBytes (f.width pd) ≤ buf.length) :
    setFldBuf f buf pd = some { pd with
      mem := put pd.mem (f.handlePlace pd) (buf.take (toBytes (f.width pd))) } := by
  have hbytes : (getHandleFld f.layout (f.hdrDesc pd) f.fld).bytewidth = toBytes (f.width pd) := by
    rw [bytewidth_getHandleFld hf.one, haligned]
    rfl
  have hwrite := @modifyBufImpl_eq (getHandlePkt f pd) (f.headerPtr pd).obj
    (by rw [getHandlePkt_of_valid hf.valid]) buf (toBytes (f.width pd))
    (by rw [getHandlePkt_of_valid hf.valid, hbytes]) hlen pd.mem
  rw [getHandlePkt_of_valid hf.valid] at hwrite
  rw [setFldBuf, modify, ModifySource.width, setVwSize_eq_self_iff.mpr (keepsVwSize_fldSize f pd),
    fldSize_eq_width, getHandlePkt_of_valid hf.valid]
  show (modifyBufImpl _ buf (toBytes (f.width pd)) pd.mem).map _ = _
  rw [hwrite]
  dsimp only
  rw [hbytes, Nat.sub_self]
  rfl

theorem width_of_fixed (hnot : f.field.isVw = false) : f.width pd = f.field.size := by
  rw [PktField.width, currentWidth]
  exact if_neg (ne_true_of_eq_false hnot)

theorem width_of_isVw (hvw : f.field.isVw = true) : f.width pd = (pd.headers f.hdr).vwSize := by
  rw [PktField.width, currentWidth]
  exact if_pos hvw

/-- A field of variable width is not behind one. -/
theorem placed_of_isVw (hone : OneVarWidth f.layout) (hvw : f.field.isVw = true) :
    f.Placed pd := by
  rw [PktField.Placed, PktField.handlePlace, PktField.place,
    (pointer_eq_fieldAddr_iff hone _ _).mpr]
  intro hbehind
  exact absurd hvw (ne_true_of_eq_false (isVw_eq_false_of_behindVw hone hbehind))

/-- The handle points to the field unless this is behind one of variable width that has
another number of bytes. -/
theorem placed_iff (hone : OneVarWidth f.layout) : f.Placed pd ↔
    (BehindVw f.layout f.fld → f.field.size / 8 = (pd.headers f.hdr).vwSize / 8) := by
  have hplace : f.Placed pd ↔ (getHandleFld f.layout (f.hdrDesc pd) f.fld).pointer =
      fieldAddr f.layout (f.hdrDesc pd) f.fld := by
    rw [PktField.Placed, PktField.handlePlace, PktField.place, Ptr.mk.injEq, eq_self, true_and]
  exact hplace.trans (pointer_eq_fieldAddr_iff hone _ _)

/-- A field that does not begin with a byte has a byte more than the array for it. -/
theorem getBufInto_eq (hf : f.Located pd) {n : ℕ} :
    getBufInto n f pd =
      if toBytes (f.width pd + f.field.offset % 8) ≤ n then
        some (load pd.mem (f.handlePlace pd) (toBytes (f.width pd + f.field.offset % 8)))
      else none := by
  rw [getBufInto, getBufPkt_of_located hf, Option.bind_some, length_load]

end Handles

/-! ### Fields of fixed width -/

section Fixed

variable {hlir : Hlir} {dst : PktField} {src : WideSource} {pd : PacketDescriptor}

/-- The buffer of a source of whole bytes has as many as the destination. -/
theorem WideOperand.length_bytes {size v : ℕ} {x : WideOperand} {buf : List Byte}
    (hloc : ∀ s ∈ x.fields, s.Located pd ∧ s.field.size = size ∧ s.field.isVw = false)
    (h : x.bytes size v pd = some buf) : buf.length = toBytes size := by
  cases x with
  | field s =>
    obtain ⟨hs, hsize, hnot⟩ := hloc s (List.mem_singleton_self s)
    have hle : toBytes size ≤ toBytes (s.width pd + s.field.offset % 8) := by
      rw [width_of_fixed hnot, hsize, toBytes, toBytes]
      omega
    rw [WideOperand.bytes, getBufInto_eq hs] at h
    obtain ⟨hcap, h⟩ := Option.ite_none_right_eq_some.mp h
    rw [Option.some_inj] at h
    subst h
    rw [length_load]
    omega
  | param =>
    cases h
    exact length_netBytes _ _
  | const =>
    cases h
    exact length_netBytes _ _

theorem length_intToBigEndian (v n : ℕ) :
    (intToBigEndianByteArrayWithLength v n).length = n := by
  rw [intToBigEndianByteArrayWithLength, List.length_reverse, List.length_map, List.length_range]

/-- What the setting says about the fields of the source, for a destination of fixed width. -/
theorem WideSetting.source (hset : WideSetting dst src pd) (hnot : dst.field.isVw = false) :
    ∀ s ∈ src.fields, s.Located pd ∧ s.field.size = dst.field.size ∧ s.field.isVw = false := by
  intro s hs
  obtain ⟨hsize, hvw⟩ := hset.same_type s hs
  exact ⟨hset.src_located s hs, hsize, hvw.trans hnot⟩

theorem WideSource.length_bytes {size : ℕ} {env : AssignEnv} {buf : List Byte}
    (hloc : ∀ s ∈ src.fields, s.Located pd ∧ s.field.size = size ∧ s.field.isVw = false)
    (h : src.bytes size env pd = some buf) : buf.length = toBytes size := by
  cases src with
  | field s => exact WideOperand.length_bytes (x := .field s) (v := 0) hloc h
  | localVar =>
    cases h
    exact length_netBytes _ _
  | param =>
    cases h
    exact length_netBytes _ _
  | const =>
    cases h
    exact length_intToBigEndian _ _
  | elementwise left right =>
    obtain ⟨l, hl, h⟩ := Option.bind_eq_some_iff.mp h
    obtain ⟨r, hr, rfl⟩ := Option.map_eq_some_iff.mp h
    rw [List.length_zipWith,
      WideOperand.length_bytes (fun s hs => hloc s (List.mem_append_left _ hs)) hl,
      WideOperand.length_bytes (fun s hs => hloc s (List.mem_append_right _ hs)) hr, Nat.min_self]

theorem toBytes_of_mod {size : ℕ} (h : size % 8 = 0) : toBytes size = size / 8 := by
  rw [toBytes]
  omega

theorem WideOperand.length_value {size v : ℕ} {x : WideOperand} (hmod : size % 8 = 0)
    (hloc : ∀ s ∈ x.fields, s.Located pd ∧ s.field.size = size ∧ s.field.isVw = false) :
    (x.value size v pd).length = toBytes size := by
  cases x with
  | field s =>
    obtain ⟨-, hsize, hnot⟩ := hloc s (List.mem_singleton_self s)
    rw [WideOperand.value, T4P4S.length_value, width_of_fixed hnot, hsize, toBytes_of_mod hmod]
  | param => exact length_netBytes _ _
  | const => exact length_netBytes _ _

theorem WideSource.length_value {size : ℕ} {env : AssignEnv} (hmod : size % 8 = 0)
    (hloc : ∀ s ∈ src.fields, s.Located pd ∧ s.field.size = size ∧ s.field.isVw = false) :
    (src.value size env pd).length = toBytes size := by
  cases src with
  | field s => exact WideOperand.length_value (x := .field s) (v := 0) hmod hloc
  | localVar => exact length_netBytes _ _
  | param => exact length_netBytes _ _
  | const => exact length_netBytes _ _
  | elementwise left right =>
    rw [WideSource.value, List.length_zipWith,
      WideOperand.length_value hmod fun s hs => hloc s (List.mem_append_left _ hs),
      WideOperand.length_value hmod fun s hs => hloc s (List.mem_append_right _ hs), Nat.min_self]

theorem setVwSizes_of_fixed (hnot : dst.field.isVw = false) (pd : PacketDescriptor) :
    setVwSizes hlir dst src pd = pd := by
  simp only [setVwSizes, hnot]

/-- The field has the value and nothing else changed iff the memory is the one with the
value written at the field. -/
theorem assigned_iff {value : List Byte} {pd' : PacketDescriptor} :
    Assigned dst value pd pd' ↔ pd'.mem = put pd.mem (dst.place pd) value :=
  ⟨fun ⟨hbytes, hframe⟩ => eq_put_iff.mpr ⟨hbytes, hframe⟩, fun h =>
    ⟨(eq_put_iff.mp h).1, (eq_put_iff.mp h).2⟩⟩

/-- A field of fixed width: the buffer, written at the handle, has to be the value,
written at the field. -/
theorem wideLaw_iff_put (hset : WideSetting dst src pd) (hnot : dst.field.isVw = false) :
    WideLaw hlir dst src pd ↔ ∀ (mem : Mem Obj Byte) (env : AssignEnv),
      env.left < 2 ^ dst.field.size → env.right < 2 ^ dst.field.size →
        ∃ buf, src.bytes dst.field.size env { pd with mem } = some buf ∧
          put mem (dst.handlePlace pd) buf =
            put mem (dst.place pd) (src.value dst.field.size env { pd with mem }) := by
  refine forall_congr' fun mem => forall_congr' fun env => imp_congr_right fun _ =>
    imp_congr_right fun _ => ?_
  have hloc : ∀ s ∈ src.fields, s.Located { pd with mem } ∧ s.field.size = dst.field.size ∧
      s.field.isVw = false := fun s hs =>
    ⟨(hset.src_located s hs).withMem mem, (hset.source hnot s hs).2⟩
  have hset' : ∀ buf, src.bytes dst.field.size env { pd with mem } = some buf →
      fieldrefWide hlir dst src env { pd with mem } =
        some { pd with mem := put mem (dst.handlePlace pd) buf } := by
    intro buf hbuf
    have hwidth : dst.width { pd with mem } = dst.field.size := width_of_fixed hnot
    have hlen : buf.length = toBytes (dst.width { pd with mem }) := by
      rw [hwidth]
      exact WideSource.length_bytes hloc hbuf
    have hwrite := setFldBuf_eq (hset.dst_located.withMem mem) hset.aligned hlen.ge
    rw [← hlen, List.take_length] at hwrite
    rw [fieldrefWide, hbuf, Option.bind_some, setVwSizes_of_fixed hnot, hwrite]
    rfl
  constructor
  · rintro ⟨pd', hpd', hassigned, -⟩
    obtain ⟨buf, hbuf, -⟩ := Option.bind_eq_some_iff.mp hpd'
    rw [hset' buf hbuf, Option.some_inj] at hpd'
    subst hpd'
    exact ⟨buf, hbuf, assigned_iff.mp hassigned⟩
  · rintro ⟨buf, hbuf, hput⟩
    refine ⟨_, hset' buf hbuf, assigned_iff.mpr hput, fun hvw => ?_⟩
    exact absurd hvw (ne_true_of_eq_false hnot)

/-- Numbers as a source: the buffer has to be the number in network byte order, and to be
written at the field. -/
theorem put_number_iff {q p : Ptr Obj} {n w : ℕ} {buf : ℕ → List Byte} (hn : 0 < n)
    (hlen : ∀ v, (buf v).length = n) (hzero : buf 0 = List.replicate n 0) :
    (∀ (mem : Mem Obj Byte) (env : AssignEnv), env.left < 2 ^ w → env.right < 2 ^ w →
      put mem q (buf env.left) = put mem p (netBytes n env.left)) ↔
      q = p ∧ ∀ v < 2 ^ w, buf v = netBytes n v := by
  have hlens : ∀ v, (buf v).length = (netBytes n v).length := fun v => by
    rw [hlen, length_netBytes]
  constructor
  · intro h
    have hplace : q = p := by
      by_contra hne
      -- zeros are written into a memory that has none
      have hput := h (fun _ => 1) ⟨0, 0, .bAnd, 0⟩ (Nat.two_pow_pos w) (Nat.two_pow_pos w)
      refine put_ne_put (hlens 0) hne ?_ ?_ hput
      · intro i hi
        rw [List.getElem_of_eq hzero, List.getElem_replicate]
        decide
      · rw [hzero]
        exact List.ne_nil_of_length_pos (by rwa [List.length_replicate])
    subst hplace
    refine ⟨rfl, fun v hv => ?_⟩
    exact (put_inj (hlens v)).mp (h (fun _ => 0) ⟨v, 0, .bAnd, 0⟩ hv (Nat.two_pow_pos w))
  · rintro ⟨rfl, h⟩ mem env hv -
    rw [h _ hv]

/-- A number of at most 53 bits is a double. -/
theorem toDouble_of_lt {v : ℕ} (hv : v < 2 ^ 53) : toDouble v = v := by
  have hlog : v.log2 + 1 - 53 = 0 := by
    rcases Nat.eq_zero_or_pos v with rfl | hpos
    · rfl
    · have := (Nat.log2_lt hpos.ne').mpr hv
      omega
  rw [toDouble, hlog, Nat.pow_zero, Nat.div_one, Nat.mod_one, if_neg (by omega), Nat.mul_one]

theorem intToBigEndian_eq_iff {v n : ℕ} :
    intToBigEndianByteArrayWithLength v n = netBytes n v ↔
      ∀ j < n, BitVec.ofNat 8 (if j = 0 then v else toDouble v / 256 ^ j) =
        BitVec.ofNat 8 (v / 256 ^ j) := by
  rw [intToBigEndianByteArrayWithLength, netBytes, List.reverse_inj]
  constructor
  · intro h j hj
    have hat := List.getElem_of_eq h (i := j) (by simpa using hj)
    rwa [List.getElem_map, List.getElem_range, getElem_hostBytes] at hat
  · intro h
    refine List.ext_getElem (by simp) ?_
    intro j hj _
    rw [List.getElem_map, List.getElem_range, getElem_hostBytes]
    exact h j (by simpa using hj)

theorem intToBigEndian_of_lt {v : ℕ} (hv : v < 2 ^ 53) (n : ℕ) :
    intToBigEndianByteArrayWithLength v n = netBytes n v := by
  refine intToBigEndian_eq_iff.mpr fun j _ => ?_
  split
  · next hj => rw [hj, pow_zero, Nat.div_one]
  · rw [toDouble_of_lt hv]

/-- Constants are converted right just up to 53 bits. -/
theorem intToBigEndian_iff {size : ℕ} (hmod : size % 8 = 0) :
    (∀ v < 2 ^ size, intToBigEndianByteArrayWithLength v (toBytes size) =
      netBytes (toBytes size) v) ↔ size ≤ 53 := by
  constructor
  · intro h
    by_contra hgt
    -- the quotient of this number by 256 is rounded up to a whole number
    have hlt : 2 ^ 53 + 255 < 2 ^ size :=
      Nat.lt_of_lt_of_le (by decide : 2 ^ 53 + 255 < 2 ^ 56)
        (Nat.pow_le_pow_right (by decide) (by omega))
    have hat := intToBigEndian_eq_iff.mp (h _ hlt) 1 (by rw [toBytes]; omega)
    exact absurd hat (by decide)
  · intro hle v hv
    exact intToBigEndian_of_lt
      (Nat.lt_of_lt_of_le hv (Nat.pow_le_pow_right (by decide) hle)) _

theorem toBytes_add_of_mod {size o : ℕ} (hmod : size % 8 = 0) (ho : o < 8) :
    toBytes (size + o) ≤ toBytes size ↔ o = 0 := by
  rw [toBytes, toBytes]
  omega

/-- A field of whole bytes is read if it begins with a byte. -/
theorem getBufInto_fixed {s : PktField} (hs : s.Located pd) (hnot : s.field.isVw = false)
    (hmod : s.field.size % 8 = 0) :
    getBufInto (toBytes s.field.size) s pd = if s.field.offset % 8 = 0 then
      some (load pd.mem (s.handlePlace pd) (toBytes s.field.size)) else none := by
  rw [getBufInto_eq hs, width_of_fixed hnot]
  by_cases ho : s.field.offset % 8 = 0
  · rw [if_pos ho, ho, Nat.add_zero, if_pos le_rfl]
  · rw [if_neg ho, if_neg]
    rw [toBytes_add_of_mod hmod (Nat.mod_lt _ (by decide))]
    exact ho

/-- A field as the source: a copy in the memory. -/
theorem wideLaw_field_iff {s : PktField} (hset : WideSetting dst (.field s) pd)
    (hnot : dst.field.isVw = false) : WideLaw hlir dst (.field s) pd ↔ CopyPlaced dst s pd := by
  obtain ⟨hs, hsize, hsnot⟩ := hset.source hnot s (List.mem_singleton_self s)
  have hmod : s.field.size % 8 = 0 := by rw [hsize]; exact hset.whole hnot
  have hpos : 0 < toBytes s.field.size := by
    have := hset.wide
    rw [toBytes]
    omega
  rw [wideLaw_iff_put hset hnot, CopyPlaced]
  have hbytes : ∀ (mem : Mem Obj Byte) (env : AssignEnv),
      WideSource.bytes dst.field.size env { pd with mem } (.field s) =
        if s.field.offset % 8 = 0 then
          some (load mem (s.handlePlace pd) (toBytes s.field.size)) else none := by
    intro mem env
    rw [← hsize]
    exact getBufInto_fixed (hs.withMem mem) hsnot hmod
  by_cases ho : s.field.offset % 8 = 0
  · have hvalue : ∀ (mem : Mem Obj Byte) (env : AssignEnv),
        WideSource.value dst.field.size env { pd with mem } (.field s) =
          load mem (s.place pd) (toBytes s.field.size) := by
      intro mem env
      rw [WideSource.value, value_of_aligned ho, width_of_fixed hsnot, toBytes_of_mod hmod]
      rfl
    rw [and_iff_right ho, PktField.Placed, PktField.Placed, ← forall_copy_eq_iff (β := Byte) hpos]
    constructor
    · intro h mem
      obtain ⟨buf, hbuf, hput⟩ := h mem ⟨0, 0, .bAnd, 0⟩ (Nat.two_pow_pos _) (Nat.two_pow_pos _)
      rw [hbytes, if_pos ho, Option.some_inj] at hbuf
      subst hbuf
      rwa [hvalue, put_load, put_load] at hput
    · intro h mem env _ _
      refine ⟨_, by rw [hbytes, if_pos ho], ?_⟩
      rw [hvalue, put_load, put_load, h mem]
  -- the array for the field is a byte too short
  · refine iff_of_false ?_ fun h => ho h.1
    intro h
    obtain ⟨buf, hbuf, -⟩ := h (fun _ => 0) ⟨0, 0, .bAnd, 0⟩ (Nat.two_pow_pos _) (Nat.two_pow_pos _)
    rw [hbytes, if_neg ho] at hbuf
    cases hbuf

end Fixed

/-! ### Elementwise operations -/

section Elementwise

/-- The bytes of an operand, of a field those at the given place. -/
def WideOperand.loadAt (P : PktField → Ptr Obj) (n v : ℕ) (mem : Mem Obj Byte) :
    WideOperand → List Byte
  | .field s => load mem (P s) n
  | .param => netBytes n v
  | .const => netBytes n v

/-- One of these bytes. -/
def WideOperand.byteAt (P : PktField → Ptr Obj) (n v i : ℕ) (mem : Mem Obj Byte) :
    WideOperand → Byte
  | .field s => mem (P s + i)
  | .param => BitVec.ofNat 8 (v / 256 ^ (n - 1 - i))
  | .const => BitVec.ofNat 8 (v / 256 ^ (n - 1 - i))

variable {P Q : PktField → Ptr Obj} {n : ℕ} {l r : WideOperand}

theorem length_loadAt (v : ℕ) (mem : Mem Obj Byte) (x : WideOperand) :
    (x.loadAt P n v mem).length = n := by
  cases x with
  | field s => exact length_load _ _ _
  | param => exact length_netBytes _ _
  | const => exact length_netBytes _ _

theorem getElem_loadAt {v i : ℕ} {mem : Mem Obj Byte} {x : WideOperand}
    (hi : i < (x.loadAt P n v mem).length) :
    (x.loadAt P n v mem)[i] = x.byteAt P n v i mem := by
  cases x with
  | field s => simp [WideOperand.loadAt, WideOperand.byteAt, load]
  | param => exact getElem_netBytes _ _
  | const => exact getElem_netBytes _ _

/-- One byte decides which two addresses were read. -/
theorem places_of_and {ι : Type*} {a b c d : Ptr ι}
    (h : ∀ m : Mem ι Byte, m a &&& m b = m c &&& m d) :
    (a = c ∧ b = d) ∨ (a = d ∧ b = c) := by
  classical
  -- a memory with a zero at `z` only
  have hzero : ∀ z x y : Ptr ι, ((if x = z then 0 else 1) &&& (if y = z then 0 else 1) : Byte) = 0 ↔
      z = x ∨ z = y := by
    intro z x y
    by_cases hx : x = z
    · simp [hx]
    · by_cases hy : y = z
      · simp [hy]
      · simp [hx, hy, Ne.symm hx, Ne.symm hy]
  have hkey : ∀ z, (z = a ∨ z = b) ↔ (z = c ∨ z = d) := by
    intro z
    rw [← hzero z a b, ← hzero z c d, h fun x => if x = z then 0 else 1]
  have ha := hkey a
  have hb := hkey b
  have hc := hkey c
  have hd := hkey d
  grind

theorem not_forall_xor_eq {ι : Type*} (a b x : Ptr ι) :
    ¬ ∀ m : Mem ι Byte, m a ^^^ m b = m x := by
  classical
  intro h
  by_cases hab : a = b
  · subst hab
    exact absurd (h fun _ => 1) (by decide)
  -- one of the two is another address than `x`
  · by_cases hax : a = x
    · have hb := h fun y => if y = b then 1 else 0
      simp [hax ▸ hab, hab] at hb
    · have ha := h fun y => if y = a then 1 else 0
      simp [Ne.symm hab, Ne.symm hax] at ha

/-- The number with a one in byte `i` has as many bits as it needs. -/
theorem one_byte_lt {i w : ℕ} (hw : w = 8 * n) (hi : i < n) : 256 ^ (n - 1 - i) < 2 ^ w := by
  rw [hw, Nat.pow_mul]
  exact Nat.pow_lt_pow_right (by decide) (by omega)

/-- Of an operand that is not a field, any byte may be zero or one. -/
theorem byteAt_of_fields_nil {x : WideOperand} (hx : x.fields = []) (i : ℕ) (mem : Mem Obj Byte) :
    x.byteAt P n 0 i mem = 0 ∧ x.byteAt P n (256 ^ (n - 1 - i)) i mem = 1 := by
  have hbytes : BitVec.ofNat 8 (0 / 256 ^ (n - 1 - i)) = 0 ∧
      BitVec.ofNat 8 (256 ^ (n - 1 - i) / 256 ^ (n - 1 - i)) = 1 := by
    rw [Nat.zero_div, Nat.div_self (Nat.pow_pos (by decide))]
    exact ⟨rfl, rfl⟩
  cases x with
  | field s => cases hx
  | param => exact hbytes
  | const => exact hbytes

theorem byteAt_congr {x : WideOperand} (hx : x.fields = []) {v i : ℕ} {mem : Mem Obj Byte} :
    x.byteAt P n v i mem = x.byteAt Q n v i mem := by
  cases x with
  | field s => cases hx
  | param => rfl
  | const => rfl

theorem exists_field_of_fields_ne_nil {x : WideOperand} (hx : x.fields ≠ []) :
    ∃ s, x = .field s := by
  cases x with
  | field s => exact ⟨s, rfl⟩
  | param => exact absurd rfl hx
  | const => exact absurd rfl hx

/-- The result of an operation is not what some byte held before. -/
theorem not_forall_elementwise_eq_mem {i w : ℕ} (hw : w = 8 * n) (hi : i < n) (x : Ptr Obj) :
    ¬ ∀ (mem : Mem Obj Byte) (env : AssignEnv), env.left < 2 ^ w → env.right < 2 ^ w →
      env.op.apply (l.byteAt P n env.left i mem) (r.byteAt P n env.right i mem) = mem x := by
  intro h
  have hzero := Nat.two_pow_pos w
  have hone := one_byte_lt hw hi
  by_cases hl : l.fields = []
  · obtain ⟨hl0, hl1⟩ := byteAt_of_fields_nil (P := P) (n := n) hl i fun _ => 0
    have h0 := h (fun _ => 0) ⟨0, 0, .bXor, 0⟩ hzero hzero
    have h1 := h (fun _ => 0) ⟨_, 0, .bXor, 0⟩ hone hzero
    dsimp only at h0 h1
    rw [hl0] at h0
    rw [hl1] at h1
    have hxor : (0 : Byte) ^^^ _ = 1 ^^^ _ := h0.trans h1.symm
    exact absurd ((BitVec.xor_left_inj _).mp hxor) (by decide)
  · obtain ⟨a, rfl⟩ := exists_field_of_fields_ne_nil hl
    by_cases hr : r.fields = []
    · obtain ⟨hr0, hr1⟩ := byteAt_of_fields_nil (P := P) (n := n) hr i fun _ => 0
      have h0 := h (fun _ => 0) ⟨0, 0, .bXor, 0⟩ hzero hzero
      have h1 := h (fun _ => 0) ⟨0, _, .bXor, 0⟩ hzero hone
      dsimp only at h0 h1
      rw [hr0] at h0
      rw [hr1] at h1
      have hxor : _ ^^^ (0 : Byte) = _ ^^^ 1 := h0.trans h1.symm
      exact absurd ((BitVec.xor_right_inj _).mp hxor) (by decide)
    · obtain ⟨b, rfl⟩ := exists_field_of_fields_ne_nil hr
      exact not_forall_xor_eq _ _ _ fun m => h m ⟨0, 0, .bXor, 0⟩ hzero hzero

theorem ElementwiseOp.apply_comm (op : ElementwiseOp) (a b : Byte) :
    op.apply a b = op.apply b a := by
  cases op with
  | bAnd => exact BitVec.and_comm a b
  | bOr => exact BitVec.or_comm a b
  | bXor => exact BitVec.xor_comm a b

/-- An address that is read with a one as the other operand of an `&`. -/
theorem place_of_and_one {a b : Ptr Obj}
    (h : ∀ m : Mem Obj Byte, m a &&& 1 = m b &&& 1) : a = b := by
  by_contra hab
  have hat := h fun x => if x = a then 1 else 0
  rw [if_pos rfl, if_neg (Ne.symm hab)] at hat
  exact absurd hat (by decide)

/-- All operations give the same at two places of the operands iff the places agree. -/
theorem placesAgree_iff {w : ℕ} (hw : w = 8 * n) (hn : 0 < n) :
    (∀ (mem : Mem Obj Byte) (env : AssignEnv), env.left < 2 ^ w → env.right < 2 ^ w → ∀ i < n,
      env.op.apply (l.byteAt P n env.left i mem) (r.byteAt P n env.right i mem) =
        env.op.apply (l.byteAt Q n env.left i mem) (r.byteAt Q n env.right i mem)) ↔
      PlacesAgree P Q l r := by
  have hzero := Nat.two_pow_pos w
  have hone := one_byte_lt hw hn
  by_cases hl : l.fields = []
  · by_cases hr : r.fields = []
    · refine iff_of_true (fun mem env _ _ i _ => ?_) ?_
      · rw [byteAt_congr hl, byteAt_congr hr]
      · cases l <;> cases r <;> simp_all [WideOperand.fields, PlacesAgree]
    · obtain ⟨b, rfl⟩ := exists_field_of_fields_ne_nil hr
      have hplaces : PlacesAgree P Q l (.field b) ↔ P b = Q b := by
        cases l <;> first | exact Iff.rfl | cases hl
      rw [hplaces]
      constructor
      · intro h
        refine place_of_and_one fun m => ?_
        have hat := h m ⟨_, 0, .bAnd, 0⟩ hone hzero 0 hn
        dsimp only at hat
        rw [(byteAt_of_fields_nil hl 0 m).2, (byteAt_of_fields_nil hl 0 m).2,
          ElementwiseOp.apply_comm, ElementwiseOp.apply_comm .bAnd 1] at hat
        exact hat
      · intro hb mem env _ _ i _
        rw [byteAt_congr hl, WideOperand.byteAt, WideOperand.byteAt, hb]
  · obtain ⟨a, rfl⟩ := exists_field_of_fields_ne_nil hl
    by_cases hr : r.fields = []
    · have hplaces : PlacesAgree P Q (.field a) r ↔ P a = Q a := by
        cases r <;> first | exact Iff.rfl | cases hr
      rw [hplaces]
      constructor
      · intro h
        refine place_of_and_one fun m => ?_
        have hat := h m ⟨0, _, .bAnd, 0⟩ hzero hone 0 hn
        dsimp only at hat
        rw [(byteAt_of_fields_nil hr 0 m).2, (byteAt_of_fields_nil hr 0 m).2] at hat
        exact hat
      · intro ha mem env _ _ i _
        rw [byteAt_congr hr, WideOperand.byteAt, WideOperand.byteAt, ha]
    · obtain ⟨b, rfl⟩ := exists_field_of_fields_ne_nil hr
      constructor
      · intro h
        exact places_of_and fun m => h m ⟨0, 0, .bAnd, 0⟩ hzero hzero 0 hn
      · rintro (⟨ha, hb⟩ | ⟨ha, hb⟩) mem env - - i -
        · simp only [WideOperand.byteAt, ha, hb]
        · simp only [WideOperand.byteAt, ha, hb]
          exact ElementwiseOp.apply_comm _ _ _

/-- The operation on the bytes at the given places. -/
def elementwiseAt (P : PktField → Ptr Obj) (n : ℕ) (l r : WideOperand) (mem : Mem Obj Byte)
    (env : AssignEnv) : List Byte :=
  List.zipWith env.op.apply (l.loadAt P n env.left mem) (r.loadAt P n env.right mem)

theorem length_elementwiseAt (mem : Mem Obj Byte) (env : AssignEnv) :
    (elementwiseAt P n l r mem env).length = n := by
  rw [elementwiseAt, List.length_zipWith, length_loadAt, length_loadAt, Nat.min_self]

theorem getElem_elementwiseAt {mem : Mem Obj Byte} {env : AssignEnv} {i : ℕ}
    (hi : i < (elementwiseAt P n l r mem env).length) :
    (elementwiseAt P n l r mem env)[i] =
      env.op.apply (l.byteAt P n env.left i mem) (r.byteAt P n env.right i mem) := by
  simp only [elementwiseAt, List.getElem_zipWith, getElem_loadAt]

/-- An operation that is written at `q` is the one at the places `Q`, written at `p`, iff
these are the same places. -/
theorem put_elementwise_iff {q p : Ptr Obj} {w : ℕ} (hw : w = 8 * n) (hn : 0 < n) :
    (∀ (mem : Mem Obj Byte) (env : AssignEnv), env.left < 2 ^ w → env.right < 2 ^ w →
      put mem q (elementwiseAt P n l r mem env) = put mem p (elementwiseAt Q n l r mem env)) ↔
      q = p ∧ PlacesAgree P Q l r := by
  constructor
  · intro h
    have hplace : q = p := by
      by_contra hne
      obtain ⟨i, hi, hout⟩ := exists_add_not_inBlock hn hne
      refine not_forall_elementwise_eq_mem (P := P) (l := l) (r := r) hw hi (q + i) ?_
      intro mem env hleft hright
      have hat := congrFun (h mem env hleft hright) (q + i)
      rw [put_add _ _ (by rwa [length_elementwiseAt]),
        put_of_not_inBlock (by rwa [length_elementwiseAt]), getElem_elementwiseAt] at hat
      exact hat
    subst hplace
    refine ⟨rfl, (placesAgree_iff hw hn).mp fun mem env hleft hright i hi => ?_⟩
    have hlists := (put_inj (by rw [length_elementwiseAt, length_elementwiseAt])).mp
      (h mem env hleft hright)
    have hat := List.getElem_of_eq hlists (i := i) (by rwa [length_elementwiseAt])
    rwa [getElem_elementwiseAt, getElem_elementwiseAt] at hat
  · rintro ⟨rfl, hagree⟩ mem env hleft hright
    congr 1
    refine List.ext_getElem (by rw [length_elementwiseAt, length_elementwiseAt]) ?_
    intro i hi hi'
    rw [getElem_elementwiseAt, getElem_elementwiseAt]
    rw [length_elementwiseAt] at hi
    exact (placesAgree_iff hw hn).mpr hagree mem env hleft hright i hi

variable {hlir : Hlir} {dst : PktField} {pd : PacketDescriptor} {size v : ℕ} {x : WideOperand}

/-- An operand is read if its field begins with a byte. -/
theorem WideOperand.bytes_eq (hmod : size % 8 = 0)
    (hloc : ∀ s ∈ x.fields, s.Located pd ∧ s.field.size = size ∧ s.field.isVw = false)
    (mem : Mem Obj Byte) :
    x.bytes size v { pd with mem } = if ∀ s ∈ x.fields, s.field.offset % 8 = 0 then
      some (x.loadAt (fun s => s.handlePlace pd) (toBytes size) v mem) else none := by
  cases x with
  | field s =>
    obtain ⟨hs, hsize, hnot⟩ := hloc s (List.mem_singleton_self s)
    subst hsize
    rw [WideOperand.bytes, getBufInto_fixed (hs.withMem mem) hnot hmod]
    simp only [WideOperand.fields, List.mem_singleton, forall_eq]
    rfl
  | param => rfl
  | const => rfl

theorem WideOperand.value_eq (hmod : size % 8 = 0)
    (hloc : ∀ s ∈ x.fields, s.Located pd ∧ s.field.size = size ∧ s.field.isVw = false)
    (haligned : ∀ s ∈ x.fields, s.field.offset % 8 = 0) (mem : Mem Obj Byte) :
    x.value size v { pd with mem } =
      x.loadAt (fun s => s.place pd) (toBytes size) v mem := by
  cases x with
  | field s =>
    obtain ⟨-, hsize, hnot⟩ := hloc s (List.mem_singleton_self s)
    subst hsize
    rw [WideOperand.value, value_of_aligned (haligned s (List.mem_singleton_self s)),
      width_of_fixed hnot, toBytes_of_mod hmod]
    rfl
  | param => rfl
  | const => rfl

/-- An elementwise operation as the source. -/
theorem wideLaw_elementwise_iff (hset : WideSetting dst (.elementwise l r) pd)
    (hnot : dst.field.isVw = false) :
    WideLaw hlir dst (.elementwise l r) pd ↔ dst.Placed pd ∧ OperandsPlaced pd l r := by
  have hmod := hset.whole hnot
  have hwide := hset.wide
  have hw : dst.field.size = 8 * toBytes dst.field.size := by
    rw [toBytes]
    omega
  have hl := fun s hs => hset.source hnot s (List.mem_append_left _ hs)
  have hr := fun s hs => hset.source hnot s (List.mem_append_right _ hs)
  rw [wideLaw_iff_put hset hnot, OperandsPlaced]
  by_cases haligned : ∀ s ∈ l.fields ++ r.fields, s.field.offset % 8 = 0
  · have hbytes : ∀ (mem : Mem Obj Byte) (env : AssignEnv),
        WideSource.bytes dst.field.size env { pd with mem } (.elementwise l r) =
          some (elementwiseAt (fun s => s.handlePlace pd) (toBytes dst.field.size) l r mem
            env) := by
      intro mem env
      rw [WideSource.bytes, WideOperand.bytes_eq hmod hl, WideOperand.bytes_eq hmod hr,
        if_pos fun s hs => haligned s (List.mem_append_left _ hs),
        if_pos fun s hs => haligned s (List.mem_append_right _ hs)]
      rfl
    have hvalue : ∀ (mem : Mem Obj Byte) (env : AssignEnv),
        WideSource.value dst.field.size env { pd with mem } (.elementwise l r) =
          elementwiseAt (fun s => s.place pd) (toBytes dst.field.size) l r mem env := by
      intro mem env
      rw [WideSource.value, WideOperand.value_eq hmod hl fun s hs =>
        haligned s (List.mem_append_left _ hs), WideOperand.value_eq hmod hr fun s hs =>
        haligned s (List.mem_append_right _ hs)]
      rfl
    rw [and_iff_right haligned, PktField.Placed, ← put_elementwise_iff hw (by omega)]
    refine forall_congr' fun mem => forall_congr' fun env => imp_congr_right fun _ =>
      imp_congr_right fun _ => ?_
    rw [hbytes, hvalue]
    simp only [Option.some_inj, exists_eq_left']
  -- a field that does not begin with a byte does not fit into its array
  · refine iff_of_false ?_ fun h => haligned h.2.1
    intro h
    obtain ⟨buf, hbuf, -⟩ := h (fun _ => 0) ⟨0, 0, .bAnd, 0⟩ (Nat.two_pow_pos _) (Nat.two_pow_pos _)
    obtain ⟨bl, hbl, hbuf⟩ := Option.bind_eq_some_iff.mp hbuf
    obtain ⟨br, hbr, -⟩ := Option.map_eq_some_iff.mp hbuf
    rw [WideOperand.bytes_eq hmod hl] at hbl
    rw [WideOperand.bytes_eq hmod hr] at hbr
    obtain ⟨hleft, -⟩ := Option.ite_none_right_eq_some.mp hbl
    obtain ⟨hright, -⟩ := Option.ite_none_right_eq_some.mp hbr
    exact haligned fun s hs => (List.mem_append.mp hs).elim (hleft s) (hright s)

end Elementwise

section Wide

variable {hlir : Hlir} {dst s : PktField} {src : WideSource} {pd : PacketDescriptor}

/-- A number as the source. -/
theorem wideLaw_number_iff (hset : WideSetting dst src pd) (hnot : dst.field.isVw = false)
    {buf : ℕ → List Byte} (hlen : ∀ v, (buf v).length = toBytes dst.field.size)
    (hzero : buf 0 = List.replicate (toBytes dst.field.size) 0)
    (hbytes : ∀ env pd, src.bytes dst.field.size env pd = some (buf env.left))
    (hvalue : ∀ env pd, src.value dst.field.size env pd =
      netBytes (toBytes dst.field.size) env.left) :
    WideLaw hlir dst src pd ↔ dst.Placed pd ∧
      ∀ v < 2 ^ dst.field.size, buf v = netBytes (toBytes dst.field.size) v := by
  have hpos : 0 < toBytes dst.field.size := by
    have := hset.wide
    rw [toBytes]
    omega
  rw [wideLaw_iff_put hset hnot, PktField.Placed, ← put_number_iff hpos hlen hzero]
  simp only [hbytes, hvalue, Option.some_inj, exists_eq_left']

theorem wideLaw_net_iff (hset : WideSetting dst src pd) (hnot : dst.field.isVw = false)
    (hsrc : src = .localVar ∨ src = .param) : WideLaw hlir dst src pd ↔ dst.Placed pd := by
  rw [wideLaw_number_iff hset hnot (length_netBytes _) (netBytes_zero _)]
  · exact and_iff_left fun _ _ => rfl
  · rcases hsrc with rfl | rfl <;> exact fun _ _ => rfl
  · rcases hsrc with rfl | rfl <;> exact fun _ _ => rfl

theorem wideLaw_const_iff (hset : WideSetting dst .const pd) (hnot : dst.field.isVw = false) :
    WideLaw hlir dst .const pd ↔ dst.Placed pd ∧ dst.field.size ≤ 53 := by
  rw [wideLaw_number_iff hset hnot (fun v => length_intToBigEndian v _) ?_
    (fun _ _ => rfl) (fun _ _ => rfl), intToBigEndian_iff (hset.whole hnot)]
  rw [intToBigEndian_of_lt (Nat.two_pow_pos 53), netBytes_zero]

/-- The destination's descriptor with the sizes that are set for a variable width. -/
def withVwSizes (hlir : Hlir) (dst s : PktField) (pd : PacketDescriptor) : PacketDescriptor :=
  pd.setHeader dst.hdr
    { pd.headers dst.hdr with
      vwSize := (pd.headers s.hdr).vwSize
      size := assignedSize (hlir.headerInstance dst.hdr).size dst.field.size
        (pd.headers s.hdr).vwSize }

theorem headerPtr_withVwSizes : dst.headerPtr (withVwSizes hlir dst s pd) = dst.headerPtr pd := by
  rw [PktField.headerPtr, withVwSizes, PacketDescriptor.setHeader_headers_self]
  rfl

theorem located_withVwSizes (hdst : dst.Located pd) : dst.Located (withVwSizes hlir dst s pd) := by
  refine ⟨hdst.one, hdst.lt_length, ?_⟩
  have hvalid := hdst.valid
  rw [PacketDescriptor.isHeaderValid] at hvalid ⊢
  rw [withVwSizes, PacketDescriptor.setHeader_headers_self]
  exact hvalid

/-- The place of a field of variable width does not depend on the width. -/
theorem handlePlace_withVwSizes (hdst : dst.Located pd) (hvw : dst.field.isVw = true) :
    dst.handlePlace (withVwSizes hlir dst s pd) = dst.place pd := by
  have hnot : ¬ BehindVw dst.layout dst.fld := fun hbehind =>
    absurd hvw (ne_true_of_eq_false (isVw_eq_false_of_behindVw hdst.one hbehind))
  have hplaced : dst.handlePlace (withVwSizes hlir dst s pd) =
      dst.place (withVwSizes hlir dst s pd) := placed_of_isVw hdst.one hvw
  rw [hplaced, PktField.place, PktField.place, PktField.hdrDesc, PktField.hdrDesc,
    headerPtr_withVwSizes, fieldAddr, fieldAddr, if_neg hnot, if_neg hnot]

theorem width_withVwSizes (hvw : dst.field.isVw = true) (hsvw : s.field.isVw = true) :
    dst.width (withVwSizes hlir dst s pd) = s.width pd := by
  rw [width_of_isVw hvw, width_of_isVw hsvw, withVwSizes, PacketDescriptor.setHeader_headers_self]

/-- The assignment to a field of variable width, if the source fits into its array. -/
theorem fieldrefWide_vw (hset : WideSetting dst (.field s) pd) (hvw : dst.field.isVw = true)
    (mem : Mem Obj Byte) (env : AssignEnv) :
    fieldrefWide hlir dst (.field s) env { pd with mem } =
      if toBytes (s.width pd + s.field.offset % 8) ≤ toBytes dst.field.size then
        some { withVwSizes hlir dst s pd with
          mem := put mem (dst.place pd) (load mem (s.place pd) (s.width pd / 8)) }
      else none := by
  have hs := hset.src_located s (List.mem_singleton_self s)
  obtain ⟨-, hsvw⟩ := hset.same_type s (List.mem_singleton_self s)
  rw [hvw] at hsvw
  have hmod := (hset.vw_whole hvw s (List.mem_singleton_self s)).1
  have hle : s.width pd / 8 ≤ toBytes (s.width pd + s.field.offset % 8) := by
    rw [toBytes]
    omega
  have hsizes : setVwSizes hlir dst (.field s) { pd with mem } =
      withVwSizes hlir dst s { pd with mem } := by
    simp only [setVwSizes, hvw]
    rfl
  have hwidth : dst.width (withVwSizes hlir dst s { pd with mem }) = s.width pd :=
    width_withVwSizes hvw hsvw
  rw [fieldrefWide, WideSource.bytes, getBufInto_eq (hs.withMem mem), hsizes]
  show (if toBytes (s.width pd + s.field.offset % 8) ≤ toBytes dst.field.size then
    some (load mem (s.handlePlace pd) _) else none).bind _ = _
  split
  · have hlen : toBytes (dst.width (withVwSizes hlir dst s { pd with mem })) ≤
        (load mem (s.handlePlace pd) (toBytes (s.width pd + s.field.offset % 8))).length := by
      rw [hwidth, length_load, toBytes_of_mod hmod]
      exact hle
    have hwrite := setFldBuf_eq (located_withVwSizes (hset.dst_located.withMem mem))
      hset.aligned hlen
    rw [hwidth, toBytes_of_mod hmod, take_load _ _ hle,
      handlePlace_withVwSizes (hset.dst_located.withMem mem) hvw] at hwrite
    have hplaced : s.handlePlace pd = s.place pd := placed_of_isVw hs.one hsvw
    rw [← hplaced]
    exact hwrite
  · rfl

/-- The value of a field that does not begin with a byte is not what its bytes hold. -/
theorem exists_value_ne (ho : s.field.offset % 8 ≠ 0) (hpos : 0 < s.width pd / 8) :
    ∃ mem, s.value { pd with mem } ≠ load mem (s.place pd) (s.width pd / 8) := by
  -- only the first bit of the byte in which the field begins is one
  refine ⟨fun a => if a = s.place pd then 0x80 else 0, ?_⟩
  set mem : Mem Obj Byte := fun a => if a = s.place pd then 0x80 else 0
  intro h
  have hvalue : (s.value { pd with mem }).getD 0 0 = byteOf fun j =>
      bitAt (objBytes mem (s.headerPtr pd).obj)
        (8 * (s.place pd).off + s.field.offset % 8 + (8 * 0 + j)) := by
    have hlen : 0 < ((List.range (s.width pd / 8)).map fun i => byteOf fun j =>
        bitAt (objBytes mem (s.headerPtr pd).obj)
          (8 * (s.place pd).off + s.field.offset % 8 + (8 * i + j))).length := by
      rwa [List.length_map, List.length_range]
    refine (List.getD_eq_getElem _ _ hlen).trans ?_
    rw [List.getElem_map, List.getElem_range]
  have hload : (load mem (s.place pd) (s.width pd / 8)).getD 0 0 = 0x80 := by
    rw [load, List.getD_eq_getElem _ _ (by simpa using hpos), List.getElem_map,
      List.getElem_range]
    exact if_pos rfl
  have hplace : objBytes mem (s.headerPtr pd).obj (s.place pd).off = 0x80 := if_pos rfl
  have hlt : s.field.offset % 8 < 8 := Nat.mod_lt _ (by decide)
  have hzero : ∀ o < 8, o ≠ 0 → (0x80 : Byte).getMsbD o = false := by decide
  have hbit := congrArg (fun b : Byte => b.getMsbD 0) (hvalue.symm.trans (h ▸ hload))
  rw [getMsbD_byteOf _ (by decide), bitAt,
    show (8 * (s.place pd).off + s.field.offset % 8 + (8 * 0 + 0)) / 8 = (s.place pd).off by omega,
    show (8 * (s.place pd).off + s.field.offset % 8 + (8 * 0 + 0)) % 8 = s.field.offset % 8 by
      omega,
    hplace, hzero _ hlt ho] at hbit
  exact absurd hbit (by decide)

theorem eq_of_fieldrefWide_vw (hset : WideSetting dst (.field s) pd)
    (hvw : dst.field.isVw = true) {mem : Mem Obj Byte} {env : AssignEnv} {pd' : PacketDescriptor}
    (h : fieldrefWide hlir dst (.field s) env { pd with mem } = some pd') :
    pd' = { withVwSizes hlir dst s pd with
      mem := put mem (dst.place pd) (load mem (s.place pd) (s.width pd / 8)) } := by
  rw [fieldrefWide_vw hset hvw] at h
  exact (Option.some.inj (Option.ite_none_right_eq_some.mp h).2).symm

/-- A field of variable width as the source, which gives its width to the destination. -/
theorem wideLaw_vw_iff (hset : WideSetting dst (.field s) pd) (hvw : dst.field.isVw = true) :
    WideLaw hlir dst (.field s) pd ↔ VwFits hlir dst s pd := by
  have hwide := hset.wide
  have hmod := (hset.vw_whole hvw s (List.mem_singleton_self s)).1
  have hle := (hset.vw_whole hvw s (List.mem_singleton_self s)).2
  have hlt : s.field.offset % 8 < 8 := Nat.mod_lt _ (by decide)
  constructor
  · intro h
    refine ⟨?_, ?_⟩
    · by_contra hnot
      obtain ⟨ho, hpos⟩ := not_or.mp hnot
      obtain ⟨mem, hmem⟩ := @exists_value_ne s pd ho (by omega)
      obtain ⟨pd', hpd', hassigned, -⟩ :=
        h mem ⟨0, 0, .bAnd, 0⟩ (Nat.two_pow_pos _) (Nat.two_pow_pos _)
      obtain rfl := eq_of_fieldrefWide_vw hset hvw hpd'
      have hput := assigned_iff.mp hassigned
      refine hmem ((put_inj ?_).mp hput).symm
      rw [length_load, WideSource.value, length_value]
      rfl
    · obtain ⟨pd', hpd', -, hsizes⟩ :=
        h (fun _ => 0) ⟨0, 0, .bAnd, 0⟩ (Nat.two_pow_pos _) (Nat.two_pow_pos _)
      obtain rfl := eq_of_fieldrefWide_vw hset hvw hpd'
      have hsize := (hsizes hvw s rfl).size
      dsimp only at hsize
      rw [withVwSizes, PacketDescriptor.setHeader_headers_self] at hsize
      exact hsize
  · rintro ⟨hbyte, hsize⟩ mem env - -
    have hfits : toBytes (s.width pd + s.field.offset % 8) ≤ toBytes dst.field.size := by
      rw [toBytes, toBytes]
      omega
    refine ⟨_, by rw [fieldrefWide_vw hset hvw, if_pos hfits], assigned_iff.mpr ?_, ?_⟩
    · have hvalue : s.value { pd with mem } = load mem (s.place pd) (s.width pd / 8) := by
        rcases hbyte with ho | hzero
        · exact value_of_aligned ho
        · have hnil : s.width pd / 8 = 0 := by rw [hzero]
          rw [hnil, load_zero]
          refine List.eq_nil_of_length_eq_zero ?_
          rw [length_value]
          exact hnil
      rw [WideSource.value, hvalue]
      rfl
    · intro _ s' hs'
      cases hs'
      constructor
      · dsimp only
        rw [withVwSizes, PacketDescriptor.setHeader_headers_self]
      · dsimp only
        rw [withVwSizes, PacketDescriptor.setHeader_headers_self]
        exact hsize

/-- **An assignment through a buffer is right iff the handles point to the fields, the
source begins with a byte, a constant has at most 53 bits and, for a variable width, the
size that is computed is that of the source's header.** -/
theorem wideLaw_iff (hset : WideSetting dst src pd) :
    WideLaw hlir dst src pd ↔ WideFits hlir dst pd src := by
  cases hvw : dst.field.isVw with
  | true =>
    obtain ⟨s, rfl⟩ := hset.vw_source hvw
    rw [wideLaw_vw_iff hset hvw, WideFits, if_pos hvw]
  | false =>
    cases src with
    | field s =>
      rw [wideLaw_field_iff hset hvw, WideFits, if_neg (ne_true_of_eq_false hvw)]
    | localVar => exact wideLaw_net_iff hset hvw (.inl rfl)
    | param => exact wideLaw_net_iff hset hvw (.inr rfl)
    | const => exact wideLaw_const_iff hset hvw
    | elementwise left right => exact wideLaw_elementwise_iff hset hvw

end Wide

end T4P4S
