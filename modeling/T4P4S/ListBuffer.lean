/-
The buffers that list expressions are passed to externs in.

For a list expression the generator adds up the sizes of the components, makes an
array of that size, and copies the components into it one after the other.  Size
and copy are generated by two functions of the components' kinds.

* **`listBuffer_iff`** — whatever the values are, the array is as long as the
  concatenation of the components, has it as its bits and takes all that is
  copied, iff the components are `Concatenates`: nested once at most, the header
  fields begin with a byte, nothing of 32 bits or less is over a byte long unless
  it is a header field, no cast is from more than 8 bits, and only the
  last component may end within a byte.
-/
import Mathlib.Algebra.Order.BigOperators.Group.List
import Mathlib.Data.PNat.Basic
import T4P4S.FieldAccess

open ByteString NetBits

namespace T4P4S

/-- A header type, as far as its instances' fields and bytes are concerned. -/
structure HeaderDecl where
  layout : HeaderLayout
  byteWidth : ℕ
  oneVarWidth : OneVarWidth layout

/-- A component of a list expression: an instance of a header of the packet, a field, a local
variable or parameter, a cast of an expression, a constant.  Instances, variables,
expressions and constants are given by their number. -/
inductive ListComponent
  | header (inst : ℕ) (hdr : HeaderDecl) (packet : hdr.layout.isMetadata = false)
  | field (inst : ℕ) (hdr : HeaderDecl) (fld : ℕ) (pos : 0 < (hdr.layout.field fld).size)
  | path (name : ℕ) (size : ℕ+)
  | cast (expr : ℕ) (exprSize destSize : ℕ+)
  | constant (name : ℕ) (size : ℕ+)

/-- What is in a list expression: a component, or another list expression. -/
inductive ListArg
  | component (c : ListComponent)
  | list (args : List ListArg)

/-- The values at run time: the headers' descriptors and the memory that they lie in, the bytes
of the variables, the values of the expressions, the addresses of those that are byte arrays
in C, and the constants. -/
structure ListValues where
  desc : ℕ → HdrDesc
  mem : ℕ → ℕ → Byte
  locals : ℕ → ℕ → Byte
  exprs : ℕ → ℕ
  addresses : ℕ → ℕ
  consts : ℕ → ℕ

namespace ListComponent

/-! ### The generated code -/

/-- The summand of `gen_pre_format_call_extern_make_buf_size`. -/
def declared : ListComponent → ℕ
  | header _ hdr _ => hdr.byteWidth
  | field _ hdr fld _ => toBytes (hdr.layout.field fld).size
  | path _ size => (size + 7) / 8
  | cast _ exprSize _ => (exprSize + 7) / 8
  | constant _ size => (size + 7) / 8

/-- What `gen_pre_format_call_extern_make_buf_data` adds to the offset. -/
def advance : ListComponent → ℕ
  | header _ hdr _ => hdr.byteWidth
  | field _ hdr fld _ => toBytes (hdr.layout.field fld).size
  | path _ size => (size + 7) / 8
  | cast _ _ destSize => (destSize + 7) / 8
  | constant _ size => (size + 7) / 8

/-- The C expression of a cast's operand, as a number; one of more than 32 bits is the address
of an array. -/
def operand (vals : ListValues) (expr : ℕ) (exprSize : ℕ+) : ℕ :=
  if exprSize ≤ (32 : ℕ) then vals.exprs expr % 2 ^ (exprSize : ℕ) else vals.addresses expr

/-- The bytes that `gen_pre_format_call_extern_make_buf_data` puts into the array. -/
def data (vals : ListValues) : ListComponent → List Byte
  | header inst hdr _ => slice (vals.mem inst) (vals.desc inst).pointer hdr.byteWidth
  | field inst hdr fld _ => getBuf hdr.layout (vals.desc inst) fld (vals.mem inst)
  | path name size => slice (vals.locals name) 0 ((size + 7) / 8)
  | cast expr exprSize destSize =>
    (hostBytes (sizeup destSize false / 8) (operand vals expr exprSize)).take ((destSize + 7) / 8)
  | constant name size =>
    if (size : ℕ) > 32 then makeConst size (vals.consts name) false
    else hostBytes (sizeup size false / 8) (vals.consts name)

/-- A cast to more than 32 bits initialises an array with a pointer, which is not C. -/
def compiles : ListComponent → Bool
  | cast _ _ destSize => destSize ≤ (32 : ℕ)
  | _ => true

end ListComponent

/-- `gen_pre_format_call_extern_make_buf_size` -/
def makeBufSize (components : List ListComponent) : ℕ := (components.map ListComponent.declared).sum

/-- `gen_pre_format_call_extern_make_buf_data`, for each component from the offset on. -/
def makeBufData (vals : ListValues) (varoffset : ℕ) : List ListComponent → List (Write Byte)
  | [] => []
  | c :: cs => ⟨varoffset, c.data vals⟩ :: makeBufData vals (varoffset + c.advance) cs

/-- The array's declared size, and the writes to it. -/
structure ListBuffer where
  size : ℕ
  writes : List (Write Byte)

/-- The node types that are known to `gen_pre_format_call_extern_make_buf_size`. -/
def ListArg.component? : ListArg → Option ListComponent
  | component c => some c
  | list _ => none

/-- The list expressions among the components are replaced by what is in them. -/
def flatOnce (args : List ListArg) : List ListArg :=
  args.flatMap fun
    | .list inner => inner
    | .component c => [.component c]

/-- `gen_prepare_listexpr_arg`; `none` if a component is of a wrong node type, or the code that
is generated is not C. -/
def genPrepareListexprArg (vals : ListValues) (args : List ListArg) : Option ListBuffer := do
  let components ← (flatOnce args).mapM ListArg.component?
  if components.all ListComponent.compiles then
    return ⟨makeBufSize components, makeBufData vals 0 components⟩
  else
    none

/-! ### The law -/

mutual

/-- The components of a list expression, in order. -/
def ListArg.components : ListArg → List ListComponent
  | .component c => [c]
  | .list args => componentsOf args

def componentsOf : List ListArg → List ListComponent
  | [] => []
  | arg :: args => arg.components ++ componentsOf args

end

/-- Bit `b`, from the least significant one, of a variable of `w` bits at the address: a number
in host order, or an array in network order. -/
def varBit (w : ℕ) (m : ℕ → Byte) (p b : ℕ) : Bool :=
  if w ≤ 32 then (m (p + b / 8)).getLsbD (b % 8) else bitAt m (8 * (p + toBytes w) - 1 - b)

namespace ListComponent

/-- The width in bits. -/
def width (vals : ListValues) : ListComponent → ℕ
  | header inst hdr _ =>
    8 * hdr.byteWidth + if hdr.layout.varWidthField.isSome then (vals.desc inst).vwSize else 0
  | field inst hdr fld _ => currentWidth hdr.layout (vals.desc inst) fld
  | path _ size => size
  | cast _ _ destSize => destSize
  | constant _ size => size

/-- Bit `q`, from the most significant one. -/
def bit (vals : ListValues) (c : ListComponent) (q : ℕ) : Bool :=
  match c with
  | header inst _ _ => bitAt (vals.mem inst) (8 * (vals.desc inst).pointer + q)
  | field inst hdr fld _ =>
    if hdr.layout.isMetadata then
      varBit (c.width vals) (vals.mem inst) (fieldAddr hdr.layout (vals.desc inst) fld)
        (c.width vals - 1 - q)
    else
      bitAt (vals.mem inst) (fieldFirst hdr.layout (vals.desc inst) fld + q)
  | path name size => varBit size (vals.locals name) 0 (size - 1 - q)
  | cast expr exprSize destSize =>
    (vals.exprs expr % 2 ^ (exprSize : ℕ)).testBit (destSize - 1 - q)
  | constant name size => (vals.consts name).testBit (size - 1 - q)

def bits (vals : ListValues) (c : ListComponent) : List Bool :=
  (List.range (c.width vals)).map (c.bit vals)

end ListComponent

/-- The concatenation. -/
def concatBits (vals : ListValues) (cs : List ListComponent) : List Bool :=
  cs.flatMap (ListComponent.bits vals)

/-- The array has the concatenation's bytes, no write goes past its end, and its bits are those
of the concatenation, whatever it held before. -/
structure HoldsConcat (vals : ListValues) (cs : List ListComponent) (buf : ListBuffer) : Prop where
  size : buf.size = ((concatBits vals cs).length + 7) / 8
  inBounds : InBounds buf.writes buf.size
  bits : ∀ mem, (List.range (concatBits vals cs).length).map (bitAt (run buf.writes mem)) =
    concatBits vals cs

/-- What should hold of a list expression. -/
def ListBufferLaw (vals : ListValues) (args : List ListArg) : Prop :=
  ∃ buf, genPrepareListexprArg vals args = some buf ∧ HoldsConcat vals (componentsOf args) buf

/-! ### The condition -/

/-- A list expression that contains list expressions of components at most. -/
def NestedOnce (args : List ListArg) : Prop :=
  ∀ inner, ListArg.list inner ∈ args → ∀ arg ∈ inner, arg.component?.isSome

/-- A variable of the width has the bytes of its value in network order. -/
def NetVar (w : ℕ) : Prop := w = 8 ∨ 32 < w ∧ w % 8 = 0

namespace ListComponent

/-- The width in the declaration. -/
def declWidth : ListComponent → ℕ
  | header _ hdr _ => 8 * hdr.byteWidth
  | field _ hdr fld _ => (hdr.layout.field fld).size
  | path _ size => size
  | cast _ _ destSize => destSize
  | constant _ size => size

/-- The bytes that are copied are those of the value, from its first bit on. -/
def InPlace : ListComponent → Prop
  | header _ hdr _ => hdr.layout.varWidthField = none
  | field _ hdr fld _ =>
    (hdr.layout.field fld).isVw = false ∧ ¬ BehindVw hdr.layout fld ∧
      if hdr.layout.isMetadata then NetVar (hdr.layout.field fld).size
      else (hdr.layout.field fld).offset % 8 = 0
  | path _ size => NetVar size
  | cast _ _ destSize => destSize = (8 : ℕ)
  | constant _ size => NetVar size

/-- A cast's operand has as many bytes as its result. -/
def SameBytes : ListComponent → Prop
  | cast _ exprSize destSize => toBytes exprSize = toBytes destSize
  | _ => True

/-- A field's bytes, with the bits in front of it, are more than those of its width. -/
def Overruns : ListComponent → Prop
  | field _ hdr fld _ =>
    toBytes (hdr.layout.field fld).size <
      toBytes ((hdr.layout.field fld).size + (hdr.layout.field fld).offset % 8)
  | _ => False

end ListComponent

/-- The components make up the concatenation. -/
def Concatenates : List ListComponent → Prop
  | [] => True
  | c :: cs => (c.InPlace ∧ c.SameBytes) ∧
      (c.declWidth % 8 = 0 ∨ ∀ d ∈ cs, d.declWidth = 0) ∧
      (c.Overruns → ∃ d ∈ cs, d.declWidth ≠ 0) ∧ Concatenates cs

/-! ### Copies and sizes -/

namespace ListComponent

variable {vals : ListValues} {c : ListComponent}

/-- The component has a variable width. -/
def IsVw : ListComponent → Prop
  | header _ hdr _ => hdr.layout.varWidthField.isSome
  | field _ hdr fld _ => (hdr.layout.field fld).isVw = true
  | _ => False

theorem InPlace.not_isVw (h : c.InPlace) : ¬ c.IsVw := by
  cases c with
  | header inst hdr packet =>
    intro hvw
    rw [IsVw, show hdr.layout.varWidthField = none from h] at hvw
    cases hvw
  | field inst hdr fld pos =>
    intro hvw
    rw [IsVw, h.1] at hvw
    cases hvw
  | path name size => exact id
  | cast expr exprSize destSize => exact id
  | constant name size => exact id

theorem width_eq (hvw : ¬ c.IsVw) : c.width vals = c.declWidth := by
  cases c with
  | header inst hdr packet =>
    rw [IsVw] at hvw
    rw [width, if_neg hvw, declWidth, Nat.add_zero]
  | field inst hdr fld pos =>
    rw [IsVw] at hvw
    rw [width, currentWidth, if_neg hvw, declWidth]
  | path name size => rfl
  | cast expr exprSize destSize => rfl
  | constant name size => rfl

theorem advance_eq (c : ListComponent) : c.advance = toBytes c.declWidth := by
  cases c with
  | header inst hdr packet =>
    show hdr.byteWidth = (8 * hdr.byteWidth + 7) / 8
    omega
  | field inst hdr fld pos => rfl
  | path name size => rfl
  | cast expr exprSize destSize => rfl
  | constant name size => rfl

theorem declared_eq (h : c.SameBytes) : c.declared = c.advance := by
  cases c with
  | header inst hdr packet => rfl
  | field inst hdr fld pos => rfl
  | path name size => rfl
  | cast expr exprSize destSize => exact h
  | constant name size => rfl

@[simp] theorem length_bits (vals : ListValues) (c : ListComponent) :
    (c.bits vals).length = c.width vals := by
  rw [bits, List.length_map, List.length_range]

/-- A C variable of at most 32 bits has room for the bytes that are copied. -/
theorem toBytes_le_sizeup {size : ℕ} (hle : size ≤ 32) : toBytes size ≤ sizeup size false / 8 := by
  rw [toBytes, sizeup, if_neg Bool.false_ne_true]
  split_ifs <;> omega

theorem bytewidth_eq (hdr : HeaderDecl) (hd : HdrDesc) {fld : ℕ}
    (hvw : ¬ (hdr.layout.field fld).isVw = true) :
    (getHandleFld hdr.layout hd fld).bytewidth =
      toBytes ((hdr.layout.field fld).size + (hdr.layout.field fld).offset % 8) := by
  have hwidth := bitwidth_getHandleFld hdr.oneVarWidth hd fld
  rw [currentWidth, if_neg hvw] at hwidth
  show toBytes ((getHandleFld hdr.layout hd fld).bitwidth +
    (hdr.layout.field fld).offset % 8 % 8) = _
  rw [hwidth, Nat.mod_mod]

/-- What is copied is not shorter than what is counted. -/
theorem advance_le_length (hvw : ¬ c.IsVw) (hcompiles : c.compiles = true) :
    c.advance ≤ (c.data vals).length := by
  cases c with
  | header inst hdr packet => rw [data, length_slice, advance]
  | field inst hdr fld pos =>
    rw [data, getBuf, length_slice, bytewidth_eq hdr _ hvw, advance, toBytes, toBytes]
    omega
  | path name size => rw [data, length_slice, advance]
  | cast expr exprSize destSize =>
    have hle : (destSize : ℕ) ≤ 32 := of_decide_eq_true hcompiles
    rw [data, List.length_take, length_hostBytes, advance]
    exact le_min le_rfl (toBytes_le_sizeup hle)
  | constant name size =>
    rw [data, advance]
    split_ifs with hgt
    · rw [makeConst, if_neg Bool.false_ne_true, length_netBytes]
    · rw [length_hostBytes]
      exact toBytes_le_sizeup (Nat.not_lt.mp hgt)

end ListComponent

/-- Writes from an offset on leave what is in front of it. -/
theorem run_makeBufData_of_lt (vals : ListValues) {off i : ℕ} (hi : i < off)
    (cs : List ListComponent) (mem : ℕ → Byte) : run (makeBufData vals off cs) mem i = mem i := by
  induction cs generalizing off mem with
  | nil => rfl
  | cons c cs ih =>
    rw [makeBufData, run_cons, ih (Nat.lt_add_right _ hi), Write.run_of_notMem _ (.inl hi)]

/-- The bits of a component stay where they are copied to. -/
theorem bitAt_run_makeBufData {vals : ListValues} {off i : ℕ} {c : ListComponent}
    (hlength : c.advance ≤ (c.data vals).length) (hi : i < 8 * c.advance) (cs : List ListComponent)
    (mem : ℕ → Byte) :
    bitAt (run (makeBufData vals off (c :: cs)) mem) (8 * off + i) = bytesBit (c.data vals) i := by
  have hbyte : i / 8 < (c.data vals).length := by omega
  rw [makeBufData, run_cons, bytesBit, bitAt, bitAt, show (8 * off + i) / 8 = off + i / 8 by omega,
    show (8 * off + i) % 8 = i % 8 by omega, run_makeBufData_of_lt vals (by omega) cs,
    List.getD_eq_getElem _ _ hbyte]
  exact congrArg (fun b : Byte => b.getMsbD (i % 8)) (Write.run_of_lt mem hbyte)

/-! ### Components in place -/

theorem bytesBit_hostBytes {n i : ℕ} (v : ℕ) (hi : i < 8 * n) :
    bytesBit (hostBytes n v) i = v.testBit (8 * (i / 8) + (7 - i % 8)) := by
  have hlt : i / 8 < (hostBytes n v).length := by
    rw [length_hostBytes]
    omega
  have hmod : i % 8 < 8 := Nat.mod_lt i (by decide)
  rw [bytesBit, bitAt, List.getD_eq_getElem _ _ hlt, getElem_hostBytes, BitVec.getMsbD_eq_getLsbD,
    decide_eq_true hmod, Bool.true_and, BitVec.getLsbD_ofNat, decide_eq_true (by omega),
    Bool.true_and, show 256 ^ (i / 8) = 2 ^ (8 * (i / 8)) from (pow_mul 2 8 _).symm,
    Nat.testBit_div_two_pow]
  congr 1
  omega

theorem bytesBit_netBytes {n i : ℕ} (v : ℕ) (hi : i < 8 * n) :
    bytesBit (netBytes n v) i = v.testBit (8 * n - 1 - i) := by
  have hlt : i / 8 < (netBytes n v).length := by
    rw [length_netBytes]
    omega
  rw [bytesBit, bitAt, List.getD_eq_getElem _ _ hlt,
    getMsbD_netBytes v hlt (Nat.mod_lt i (by decide)), Nat.div_add_mod]

/-- The place of a bit of a variable in memory. -/
def varPos (w p b : ℕ) : ℕ :=
  if w ≤ 32 then 8 * (p + b / 8) + (7 - b % 8) else 8 * (p + toBytes w) - 1 - b

theorem varBit_eq (w : ℕ) (m : ℕ → Byte) (p b : ℕ) : varBit w m p b = bitAt m (varPos w p b) := by
  rw [varBit, varPos]
  split_ifs
  · rw [bitAt, show (8 * (p + b / 8) + (7 - b % 8)) / 8 = p + b / 8 by omega,
      show (8 * (p + b / 8) + (7 - b % 8)) % 8 = 7 - b % 8 by omega, BitVec.getMsbD_eq_getLsbD,
      decide_eq_true (by omega), Bool.true_and]
    congr 1
    omega
  · rfl

theorem varBit_of_netVar {w q : ℕ} (hw : NetVar w) (hq : q < w) (m : ℕ → Byte) (p : ℕ) :
    varBit w m p (w - 1 - q) = bitAt m (8 * p + q) := by
  rw [varBit_eq, varPos]
  congr 1
  rcases hw with rfl | ⟨hgt, hmod⟩
  · rw [if_pos (by decide)]
    omega
  · rw [if_neg (by omega), toBytes]
    omega

theorem ListComponent.bytesBit_data {c : ListComponent} (h : c.InPlace) (hsame : c.SameBytes)
    (vals : ListValues) {q : ℕ} (hq : q < c.declWidth) :
    bytesBit (c.data vals) q = c.bit vals q := by
  cases c with
  | header inst hdr packet => exact bytesBit_slice _ _ _ hq
  | field inst hdr fld pos =>
    obtain ⟨hvw, hbehind, hplace⟩ := h
    have hnot : ¬ (hdr.layout.field fld).isVw = true := ne_true_of_eq_false hvw
    rw [declWidth] at hq
    have hptr : (getHandleFld hdr.layout (vals.desc inst) fld).pointer =
        fieldAddr hdr.layout (vals.desc inst) fld :=
      (pointer_eq_fieldAddr_iff hdr.oneVarWidth _ _).mpr fun hyes => absurd hyes hbehind
    rw [data, getBuf, hptr, bytesBit_slice _ _ _ (by rw [bytewidth_eq hdr _ hnot, toBytes]; omega),
      bit, width_eq (c := .field inst hdr fld pos) hnot, declWidth]
    split_ifs at hplace ⊢ with hmeta
    · exact (varBit_of_netVar hplace hq _ _).symm
    · rw [fieldFirst, hplace, Nat.add_zero]
  | path name size =>
    rw [data, bytesBit_slice _ _ _ (by rw [declWidth] at hq; omega), bit]
    exact (varBit_of_netVar h hq _ 0).symm
  | cast expr exprSize destSize =>
    have hdest : (destSize : ℕ) = 8 := h
    have hexpr : (exprSize : ℕ) ≤ 32 := by
      have hbytes : toBytes exprSize = toBytes destSize := hsame
      rw [hdest, toBytes, toBytes] at hbytes
      omega
    rw [declWidth, hdest] at hq
    rw [data, hdest, operand, if_pos hexpr, take_hostBytes (by decide), bytesBit_hostBytes _ hq,
      bit, hdest]
    congr 1
    omega
  | constant name size =>
    have hnet : NetVar (size : ℕ) := h
    rw [declWidth] at hq
    rw [data, bit]
    split_ifs with hgt
    · rw [makeConst, if_neg Bool.false_ne_true, bytesBit_netBytes _ (by omega)]
      congr 1
      have hmod := (hnet.resolve_left (by omega)).2
      omega
    · have hsize : (size : ℕ) = 8 := hnet.resolve_right fun hwide => hgt hwide.1
      rw [hsize] at hq ⊢
      rw [bytesBit_hostBytes _ hq]
      congr 1
      omega

/-! ### Lists of components -/

/-- The widths in the declarations, added up. -/
def declWidths (cs : List ListComponent) : ℕ := (cs.map ListComponent.declWidth).sum

/-- What all components add to the offset. -/
def advances (cs : List ListComponent) : ℕ := (cs.map ListComponent.advance).sum

section Lists

variable {vals : ListValues} {c : ListComponent} {cs : List ListComponent}

@[simp] theorem declWidths_cons (c : ListComponent) (cs : List ListComponent) :
    declWidths (c :: cs) = c.declWidth + declWidths cs := List.sum_cons

@[simp] theorem advances_cons (c : ListComponent) (cs : List ListComponent) :
    advances (c :: cs) = c.advance + advances cs := List.sum_cons

theorem declWidths_eq_zero (h : ∀ d ∈ cs, d.declWidth = 0) : declWidths cs = 0 := by
  refine List.sum_eq_zero fun w hw => ?_
  obtain ⟨d, hd, rfl⟩ := List.mem_map.mp hw
  exact h d hd

theorem advance_le_advances (hc : c ∈ cs) : c.advance ≤ advances cs := by
  induction cs with
  | nil => exact absurd hc List.not_mem_nil
  | cons d cs ih =>
    rw [advances_cons]
    rcases List.mem_cons.mp hc with rfl | hc
    · exact Nat.le_add_right _ _
    · exact (ih hc).trans (Nat.le_add_left _ _)

theorem length_concatBits (vals : ListValues) (cs : List ListComponent) :
    (concatBits vals cs).length = (cs.map (ListComponent.width vals)).sum := by
  rw [concatBits, List.length_flatMap]
  congr 1
  exact List.map_congr_left fun c _ => ListComponent.length_bits vals c

theorem length_concatBits_eq (hvw : ∀ c ∈ cs, ¬ c.IsVw) :
    (concatBits vals cs).length = declWidths cs := by
  rw [length_concatBits, declWidths]
  congr 1
  exact List.map_congr_left fun c hc => ListComponent.width_eq (hvw c hc)

/-- Only the last component may end within a byte. -/
def Ordered : List ListComponent → Prop
  | [] => True
  | c :: cs => (c.declWidth % 8 = 0 ∨ ∀ d ∈ cs, d.declWidth = 0) ∧ Ordered cs

theorem declWidths_le (cs : List ListComponent) : declWidths cs ≤ 8 * advances cs := by
  induction cs with
  | nil => exact le_rfl
  | cons c cs ih =>
    rw [declWidths_cons, advances_cons, c.advance_eq, toBytes]
    omega

theorem advances_eq (h : Ordered cs) : advances cs = toBytes (declWidths cs) := by
  induction cs with
  | nil => rfl
  | cons c cs ih =>
    rw [advances_cons, declWidths_cons, ih h.2, c.advance_eq, toBytes, toBytes, toBytes]
    rcases h.1 with hmod | hzero
    · omega
    · rw [declWidths_eq_zero hzero]
      omega

theorem Concatenates.inPlace (h : Concatenates cs) : ∀ c ∈ cs, c.InPlace ∧ c.SameBytes := by
  induction cs with
  | nil => exact fun c hc => absurd hc List.not_mem_nil
  | cons c cs ih => exact List.forall_mem_cons.mpr ⟨h.1, ih h.2.2.2⟩

theorem Concatenates.ordered (h : Concatenates cs) : Ordered cs := by
  induction cs with
  | nil => trivial
  | cons c cs ih => exact ⟨h.2.1, ih h.2.2.2⟩

theorem ListComponent.InPlace.compiles (h : c.InPlace) : c.compiles = true := by
  cases c with
  | cast expr exprSize destSize =>
    have hdest : (destSize : ℕ) = 8 := h
    exact decide_eq_true (by omega)
  | _ => rfl

theorem ListComponent.InPlace.advance_le_length (h : c.InPlace) :
    c.advance ≤ (c.data vals).length :=
  ListComponent.advance_le_length h.not_isVw h.compiles

/-- What is copied of a component in place, beyond what is counted. -/
theorem ListComponent.InPlace.length_data (h : c.InPlace) (vals : ListValues) :
    (c.data vals).length ≤ c.advance + 1 ∧ ((c.data vals).length ≠ c.advance ↔ c.Overruns) := by
  cases c with
  | header inst hdr packet =>
    rw [data, length_slice]
    exact ⟨Nat.le_succ _, iff_of_false (fun hne => hne rfl) id⟩
  | field inst hdr fld pos =>
    have hnot : ¬ (hdr.layout.field fld).isVw = true := ne_true_of_eq_false h.1
    rw [data, getBuf, length_slice, bytewidth_eq hdr _ hnot, advance, Overruns, toBytes, toBytes]
    omega
  | path name size =>
    rw [data, length_slice]
    exact ⟨Nat.le_succ _, iff_of_false (fun hne => hne rfl) id⟩
  | cast expr exprSize destSize =>
    have hdest : (destSize : ℕ) = 8 := h
    rw [data, List.length_take, length_hostBytes, advance, hdest]
    exact ⟨by decide, iff_of_false (fun hne => hne rfl) id⟩
  | constant name size =>
    have hnet : NetVar (size : ℕ) := h
    have hlength : ((constant name size).data vals).length = (size + 7) / 8 := by
      rw [data]
      split_ifs with hgt
      · rw [makeConst, if_neg Bool.false_ne_true, length_netBytes]
      · rw [hnet.resolve_right fun hwide => hgt hwide.1, length_hostBytes]
        rfl
    rw [hlength]
    exact ⟨Nat.le_succ _, iff_of_false (fun hne => hne rfl) id⟩

theorem Concatenates.inBounds (h : Concatenates cs) (vals : ListValues) (off : ℕ) :
    InBounds (makeBufData vals off cs) (off + advances cs) := by
  induction cs generalizing off with
  | nil => exact fun w hw => absurd hw List.not_mem_nil
  | cons c cs ih =>
    obtain ⟨⟨hplace, -⟩, -, hoverruns, hrest⟩ := h
    rw [makeBufData, advances_cons, ← Nat.add_assoc]
    refine List.forall_mem_cons.mpr ⟨?_, ih hrest (off + c.advance)⟩
    obtain ⟨hle, hiff⟩ := hplace.length_data vals
    show off + (c.data vals).length ≤ off + c.advance + advances cs
    by_cases hover : c.Overruns
    · -- The byte too many is that of a component behind.
      obtain ⟨d, hd, hne⟩ := hoverruns hover
      have hmem := advance_le_advances hd
      have hpos : 0 < d.advance := by
        rw [d.advance_eq, toBytes]
        omega
      omega
    · have hlength := not_not.mp fun hne => hover (hiff.mp hne)
      omega

theorem Concatenates.bits (h : Concatenates cs) (vals : ListValues) (off : ℕ) (mem : ℕ → Byte) :
    (List.range (concatBits vals cs).length).map
        (fun q => bitAt (run (makeBufData vals off cs) mem) (8 * off + q)) =
      concatBits vals cs := by
  induction cs generalizing off mem with
  | nil => rfl
  | cons c cs ih =>
    obtain ⟨⟨hplace, hsame⟩, haligned, -, hrest⟩ := h
    have hwidth : c.width vals = c.declWidth := ListComponent.width_eq hplace.not_isVw
    rw [concatBits, List.flatMap_cons, List.length_append, ListComponent.length_bits,
      List.range_add, List.map_append, List.map_map]
    congr 1
    · refine List.map_congr_left fun q hq => ?_
      have hlt : q < c.declWidth := by rwa [List.mem_range, hwidth] at hq
      have hin : q < 8 * c.advance := by
        rw [c.advance_eq, toBytes]
        omega
      rw [bitAt_run_makeBufData hplace.advance_le_length hin,
        ListComponent.bytesBit_data hplace hsame vals hlt]
    · rcases haligned with hmod | hzero
      · -- The next component begins where this one ends.
        have hend : 8 * off + c.width vals = 8 * (off + c.advance) := by
          rw [hwidth, c.advance_eq, toBytes]
          omega
        have hbits := ih hrest (off + c.advance) (Write.run mem ⟨off, c.data vals⟩)
        refine Eq.trans (List.map_congr_left fun q _ => ?_) hbits
        rw [Function.comp_apply, ← Nat.add_assoc, hend]
        rfl
      · have hnone : concatBits vals cs = [] := by
          refine List.eq_nil_of_length_eq_zero ?_
          rw [length_concatBits_eq fun d hd => (hrest.inPlace d hd).1.not_isVw,
            declWidths_eq_zero hzero]
        rw [show List.flatMap (ListComponent.bits vals) cs = [] from hnone]
        rfl

theorem Concatenates.makeBufSize_eq (h : Concatenates cs) : makeBufSize cs = advances cs := by
  rw [makeBufSize, advances]
  congr 1
  exact List.map_congr_left fun c hc => ListComponent.declared_eq (h.inPlace c hc).2

theorem Concatenates.holdsConcat (h : Concatenates cs) (vals : ListValues) :
    HoldsConcat vals cs ⟨makeBufSize cs, makeBufData vals 0 cs⟩ := by
  have hvw : ∀ c ∈ cs, ¬ c.IsVw := fun c hc => (h.inPlace c hc).1.not_isVw
  refine ⟨?_, ?_, fun mem => ?_⟩
  · rw [length_concatBits_eq hvw]
    exact h.makeBufSize_eq.trans (advances_eq h.ordered)
  · have hbounds := h.inBounds vals 0
    rw [Nat.zero_add, ← h.makeBufSize_eq] at hbounds
    exact hbounds
  · refine Eq.trans (List.map_congr_left fun q _ => ?_) (h.bits vals 0 mem)
    rw [Nat.mul_zero, Nat.zero_add]

end Lists

/-! ### Nested lists -/

theorem componentsOf_map (cs : List ListComponent) :
    componentsOf (cs.map ListArg.component) = cs := by
  induction cs with
  | nil => rfl
  | cons c cs ih =>
    rw [List.map_cons, componentsOf, ListArg.components, ih, List.singleton_append]

theorem eq_map_componentsOf {args : List ListArg} (h : ∀ arg ∈ args, arg.component?.isSome) :
    args = (componentsOf args).map ListArg.component := by
  induction args with
  | nil => rfl
  | cons arg args ih =>
    obtain ⟨harg, hargs⟩ := List.forall_mem_cons.mp h
    cases arg with
    | component c =>
      rw [componentsOf, ListArg.components, List.singleton_append, List.map_cons, ← ih hargs]
    | list inner => cases harg

theorem flatOnce_eq_map_iff {args : List ListArg} {cs : List ListComponent} :
    flatOnce args = cs.map ListArg.component ↔ NestedOnce args ∧ cs = componentsOf args := by
  induction args generalizing cs with
  | nil =>
    constructor
    · intro h
      obtain rfl := List.map_eq_nil_iff.mp h.symm
      exact ⟨fun inner hinner => absurd hinner List.not_mem_nil, rfl⟩
    · rintro ⟨-, rfl⟩
      rfl
  | cons arg args ih =>
    cases arg with
    | component c =>
      have hnested : NestedOnce (.component c :: args) ↔ NestedOnce args := by
        simp only [NestedOnce, List.mem_cons, reduceCtorEq, false_or]
      rw [hnested, flatOnce, List.flatMap_cons, List.singleton_append]
      constructor
      · intro h
        obtain ⟨d, ds, rfl, hd, hds⟩ := List.map_eq_cons_iff.mp h.symm
        obtain rfl := ListArg.component.inj hd
        obtain ⟨hargs, rfl⟩ := ih.mp hds.symm
        exact ⟨hargs, rfl⟩
      · rintro ⟨hargs, rfl⟩
        exact congrArg (ListArg.component c :: ·) (ih.mpr ⟨hargs, rfl⟩)
    | list inner =>
      have hnested : NestedOnce (.list inner :: args) ↔
          (∀ arg ∈ inner, arg.component?.isSome) ∧ NestedOnce args := by
        simp only [NestedOnce, List.mem_cons, ListArg.list.injEq, forall_eq_or_imp]
      rw [hnested, flatOnce, List.flatMap_cons]
      constructor
      · intro h
        obtain ⟨ds, ds', rfl, hds, hds'⟩ := List.map_eq_append_iff.mp h.symm
        obtain ⟨hargs, rfl⟩ := ih.mp hds'.symm
        replace hds : ds.map ListArg.component = inner := hds
        have hinner : ∀ arg ∈ inner, arg.component?.isSome := by
          rw [← hds]
          intro arg harg
          obtain ⟨d, -, rfl⟩ := List.mem_map.mp harg
          rfl
        refine ⟨⟨hinner, hargs⟩, ?_⟩
        rw [componentsOf, ListArg.components, ← hds, componentsOf_map]
      · rintro ⟨⟨hinner, hargs⟩, rfl⟩
        rw [componentsOf, ListArg.components, List.map_append, ← eq_map_componentsOf hinner]
        exact congrArg (inner ++ ·) (ih.mpr ⟨hargs, rfl⟩)

theorem mapM_component_eq_some {args : List ListArg} {cs : List ListComponent} :
    args.mapM ListArg.component? = some cs ↔ args = cs.map ListArg.component := by
  induction args generalizing cs with
  | nil =>
    rw [List.mapM_nil]
    constructor
    · intro h
      rw [← Option.some.inj h]
      rfl
    · intro h
      rw [List.map_eq_nil_iff.mp h.symm]
      rfl
  | cons arg args ih =>
    rw [List.mapM_cons]
    constructor
    · intro h
      obtain ⟨c, hc, h⟩ := Option.bind_eq_some_iff.mp h
      obtain ⟨ds, hds, h⟩ := Option.bind_eq_some_iff.mp h
      obtain rfl := Option.some.inj h
      cases arg with
      | component c' =>
        obtain rfl := Option.some.inj hc
        rw [List.map_cons, ← ih.mp hds]
      | list inner => cases hc
    · intro h
      obtain ⟨c, ds, rfl, rfl, hds⟩ := List.map_eq_cons_iff.mp h.symm
      rw [ih.mpr hds.symm]
      rfl

theorem genPrepareListexprArg_eq_some {vals : ListValues} {args : List ListArg} {buf : ListBuffer} :
    genPrepareListexprArg vals args = some buf ↔
      NestedOnce args ∧ (componentsOf args).all ListComponent.compiles ∧
        buf = ⟨makeBufSize (componentsOf args), makeBufData vals 0 (componentsOf args)⟩ := by
  constructor
  · intro h
    obtain ⟨cs, hcs, h⟩ := Option.bind_eq_some_iff.mp h
    obtain ⟨hnested, rfl⟩ := flatOnce_eq_map_iff.mp (mapM_component_eq_some.mp hcs)
    split_ifs at h with hall
    exact ⟨hnested, hall, (Option.some.inj h).symm⟩
  · rintro ⟨hnested, hall, rfl⟩
    have hcs := mapM_component_eq_some.mpr (flatOnce_eq_map_iff.mpr ⟨hnested, rfl⟩)
    rw [genPrepareListexprArg, hcs]
    exact if_pos hall

/-! ### The last bit of a component -/

/-- A memory in which one bit is set. -/
def bitMem (i : ℕ) (a : ℕ) : Byte := byteOf fun j => decide (8 * a + j = i)

theorem bitAt_bitMem (i k : ℕ) : bitAt (bitMem i) k = decide (k = i) := by
  rw [bitAt, bitMem, getMsbD_byteOf _ (Nat.mod_lt k (by decide)), Nat.div_add_mod]

/-- The values in which one bit of each memory is set, and the numbers are 1. -/
def probe (i vwSize : ℕ) : ListValues where
  desc _ := ⟨0, vwSize⟩
  mem _ := bitMem i
  locals _ := bitMem i
  exprs _ := 1
  addresses _ := 0
  consts _ := 1

theorem varPos_zero (w p : ℕ) :
    varPos w p 0 = 8 * p + (if w ≤ 32 then 7 else 8 * toBytes w - 1) := by
  rw [varPos]
  split_ifs
  · rfl
  · rw [toBytes]
    omega

/-- A variable whose last bit comes where the concatenation's is, behind `d` bits of padding
that are less than a byte with its own. -/
theorem netVar_of_last {w d : ℕ} (hpad : d + 8 * toBytes w < w + 8)
    (hlast : w - 1 - d = if w ≤ 32 then 7 else 8 * toBytes w - 1) : NetVar w ∧ d = 0 := by
  rw [toBytes] at hpad hlast
  unfold NetVar
  split_ifs at hlast <;> omega

theorem testBit_one (k : ℕ) : Nat.testBit 1 k = decide (k = 0) := by
  cases k with
  | zero => rfl
  | succ k => rw [Nat.testBit_succ]; exact Nat.zero_testBit k

theorem eq_of_decide {a b c : ℕ} (h : decide (a = c) = decide (b = c)) (hb : b = c) : a = c :=
  (decide_eq_decide.mp h).mpr hb

/-- A component whose last bit comes where it should, whatever the values are, is in
place, and has no padding in front of it. -/
theorem ListComponent.inPlace_of_last {c : ListComponent} (hvw : ¬ c.IsVw)
    (hcompiles : c.compiles = true) (hpos : 0 < c.declWidth) {d : ℕ}
    (hpad : d + 8 * c.advance < c.declWidth + 8)
    (hlast : ∀ vals,
      bytesBit (c.data vals) (c.declWidth - 1 - d) = c.bit vals (c.declWidth - 1)) :
    c.InPlace ∧ d = 0 := by
  rw [c.advance_eq] at hpad
  have hin : c.declWidth - 1 - d < 8 * toBytes c.declWidth := by
    rw [toBytes]
    omega
  cases c with
  | header inst hdr packet =>
    rw [declWidth] at *
    refine ⟨Option.not_isSome_iff_eq_none.mp hvw, ?_⟩
    have hbit := hlast (probe (8 * hdr.byteWidth - 1) 0)
    rw [data, bytesBit_slice _ _ _ (by omega)] at hbit
    simp only [probe, bit, bitAt_bitMem] at hbit
    have heq := eq_of_decide hbit (by omega)
    rw [toBytes] at hpad
    omega
  | field inst hdr fld pos =>
    rw [declWidth] at *
    -- Where the last bit is, relative to the field's first byte.
    obtain ⟨last, hlast'⟩ : ∃ last, last =
        if hdr.layout.isMetadata then
          if (hdr.layout.field fld).size ≤ 32 then 7
          else 8 * toBytes (hdr.layout.field fld).size - 1
        else (hdr.layout.field fld).offset % 8 + (hdr.layout.field fld).size - 1 := ⟨_, rfl⟩
    have hplace : ∀ vwSize, 8 * (getHandleFld hdr.layout ⟨0, vwSize⟩ fld).pointer +
        ((hdr.layout.field fld).size - 1 - d) =
          8 * fieldAddr hdr.layout ⟨0, vwSize⟩ fld + last := by
      intro vwSize
      have hbit := hlast (probe (8 * fieldAddr hdr.layout ⟨0, vwSize⟩ fld + last) vwSize)
      rw [data, getBuf, bytesBit_slice _ _ _ (by
        rw [bytewidth_eq hdr _ hvw]
        rw [toBytes] at hin ⊢
        omega), bit, width_eq hvw, declWidth, Nat.sub_self, varBit_eq, varPos_zero] at hbit
      simp only [probe, bitAt_bitMem] at hbit
      split_ifs at hbit hlast' with hmeta hshort
      · exact eq_of_decide hbit (by rw [hlast'])
      · exact eq_of_decide hbit (by rw [hlast'])
      · refine eq_of_decide hbit ?_
        rw [fieldFirst, hlast']
        omega
    -- Two sizes of a variable-width field in front would give two places.
    have hbehind : ¬ BehindVw hdr.layout fld := by
      intro hbehind
      have hzero := hplace 0
      have height := hplace 8
      rw [pointer_getHandleFld hdr.oneVarWidth, fieldAddr, if_pos hbehind, if_pos hbehind] at *
      dsimp only at hzero height
      omega
    have heq := hplace 0
    rw [pointer_getHandleFld hdr.oneVarWidth, fieldAddr, if_neg hbehind, if_neg hbehind,
      Nat.add_left_cancel_iff] at heq
    have hnot : (hdr.layout.field fld).isVw = false := Bool.not_eq_true _ ▸ hvw
    rw [InPlace]
    by_cases hmeta : hdr.layout.isMetadata
    · rw [if_pos hmeta] at hlast' ⊢
      obtain ⟨hnet, hd⟩ := netVar_of_last hpad (heq.trans hlast')
      exact ⟨⟨hnot, hbehind, hnet⟩, hd⟩
    · rw [if_neg hmeta] at hlast' ⊢
      rw [toBytes] at hpad
      exact ⟨⟨hnot, hbehind, by omega⟩, by omega⟩
  | path name size =>
    rw [declWidth] at *
    have hbit := hlast (probe (varPos size 0 0) 0)
    rw [data, show ((size : ℕ) + 7) / 8 = toBytes size from rfl, bytesBit_slice _ _ _ hin, bit,
      Nat.sub_self, varBit_eq] at hbit
    simp only [probe, bitAt_bitMem, decide_true, decide_eq_true_eq] at hbit
    rw [varPos_zero, Nat.mul_zero, Nat.zero_add, Nat.zero_add] at hbit
    exact netVar_of_last hpad hbit
  | cast expr exprSize destSize =>
    have hle : (destSize : ℕ) ≤ 32 := of_decide_eq_true hcompiles
    rw [declWidth] at *
    have hbit := hlast (probe 0 0)
    have hone : 1 % 2 ^ (exprSize : ℕ) = 1 := Nat.mod_eq_of_lt (Nat.one_lt_two_pow exprSize.ne_zero)
    rw [data, show ((destSize : ℕ) + 7) / 8 = toBytes destSize from rfl,
      take_hostBytes (toBytes_le_sizeup hle), bytesBit_hostBytes _ hin, bit, Nat.sub_self] at hbit
    simp only [operand, probe, hone] at hbit
    by_cases hexpr : (exprSize : ℕ) ≤ 32
    · rw [if_pos hexpr] at hbit
      simp only [testBit_one, decide_true, decide_eq_true_eq] at hbit
      obtain ⟨hnet, hd⟩ := netVar_of_last hpad (by rw [if_pos hle]; omega)
      exact ⟨hnet.resolve_right fun hwide => absurd hwide.1 (Nat.not_lt.mpr hle), hd⟩
    · -- The bytes are those of an address.
      rw [if_neg hexpr, Nat.zero_testBit] at hbit
      cases hbit
  | constant name size =>
    rw [declWidth] at *
    have hbit := hlast (probe 0 0)
    rw [data, bit, Nat.sub_self] at hbit
    simp only [probe, testBit_one, decide_true] at hbit
    split_ifs at hbit with hgt
    · rw [makeConst, if_neg Bool.false_ne_true,
        show ((size : ℕ) + 7) / 8 = toBytes size from rfl, bytesBit_netBytes _ hin, testBit_one,
        decide_eq_true_eq] at hbit
      refine netVar_of_last hpad ?_
      rw [if_neg (Nat.not_le.mpr hgt)]
      omega
    · have hle : (size : ℕ) ≤ 32 := Nat.not_lt.mp hgt
      have hroom := toBytes_le_sizeup hle
      rw [bytesBit_hostBytes _ (by omega), testBit_one, decide_eq_true_eq] at hbit
      refine netVar_of_last hpad ?_
      rw [if_pos hle, toBytes] at *
      omega

/-! ### All components -/

section Lists

variable {cs : List ListComponent} {off : ℕ}

/-- The sum grows if one of its terms does and none falls. -/
theorem sum_map_add_le {f g : ListComponent → ℕ} (hle : ∀ c, f c ≤ g c) {c : ListComponent}
    (hc : c ∈ cs) {n : ℕ} (hlt : f c + n ≤ g c) : (cs.map f).sum + n ≤ (cs.map g).sum := by
  induction cs with
  | nil => exact absurd hc List.not_mem_nil
  | cons d cs ih =>
    rw [List.map_cons, List.map_cons, List.sum_cons, List.sum_cons]
    rcases List.mem_cons.mp hc with rfl | hc
    · have hrest : (cs.map f).sum ≤ (cs.map g).sum := List.sum_le_sum fun d _ => hle d
      omega
    · have hd := hle d
      have hrest := ih hc
      omega

/-- A variable width changes the concatenation, and not the declared size. -/
theorem not_isVw_of_size (h : ∀ vals, makeBufSize cs = ((concatBits vals cs).length + 7) / 8) :
    ∀ c ∈ cs, ¬ c.IsVw := by
  intro c hc hvw
  have hle : ∀ d : ListComponent, d.width (probe 0 0) ≤ d.width (probe 0 8) := by
    intro d
    cases d with
    | header inst hdr packet =>
      rw [ListComponent.width, ListComponent.width]
      split_ifs
      · exact Nat.add_le_add_left (Nat.zero_le 8) _
      · exact le_rfl
    | field inst hdr fld pos =>
      rw [ListComponent.width, ListComponent.width, currentWidth, currentWidth]
      split_ifs
      · exact Nat.zero_le 8
      · exact le_rfl
    | path name size => exact le_rfl
    | cast expr exprSize destSize => exact le_rfl
    | constant name size => exact le_rfl
  have hlt : c.width (probe 0 0) + 8 ≤ c.width (probe 0 8) := by
    cases c with
    | header inst hdr packet =>
      have hsome : hdr.layout.varWidthField.isSome := hvw
      rw [ListComponent.width, ListComponent.width, if_pos hsome, if_pos hsome]
      exact le_rfl
    | field inst hdr fld pos =>
      have hyes : (hdr.layout.field fld).isVw = true := hvw
      rw [ListComponent.width, ListComponent.width, currentWidth, currentWidth, if_pos hyes,
        if_pos hyes]
      exact le_rfl
    | path name size => exact absurd hvw id
    | cast expr exprSize destSize => exact absurd hvw id
    | constant name size => exact absurd hvw id
  have hsum := sum_map_add_le hle hc hlt
  have hzero := h (probe 0 0)
  have height := h (probe 0 8)
  rw [length_concatBits] at hzero height
  omega

/-- The last write ends behind all that is counted. -/
theorem advances_le_of_inBounds {vals : ListValues} {n : ℕ} (hne : cs ≠ [])
    (hlength : ∀ c ∈ cs, c.advance ≤ (c.data vals).length)
    (h : InBounds (makeBufData vals off cs) n) : off + advances cs ≤ n := by
  induction cs generalizing off with
  | nil => exact absurd rfl hne
  | cons c cs ih =>
    rw [makeBufData] at h
    obtain ⟨hc, hcs⟩ := List.forall_mem_cons.mp h
    obtain ⟨hfirst, hlengths⟩ := List.forall_mem_cons.mp hlength
    rw [advances_cons, ← Nat.add_assoc]
    cases cs with
    | nil => exact (Nat.add_le_add_left hfirst off).trans hc
    | cons d cs => exact ih (List.cons_ne_nil d cs) hlengths hcs

/-- With less than a byte of padding in all, components whose bits are those of the
concatenation from bit `start` on are in place and ordered, and the first that is not empty
begins with a byte. -/
theorem inPlace_of_bits {start : ℕ} (hvw : ∀ c ∈ cs, ¬ c.IsVw)
    (hcompiles : ∀ c ∈ cs, c.compiles = true) (hle : start ≤ 8 * off)
    (hpad : 8 * (off + advances cs) < start + declWidths cs + 8)
    (hbits : ∀ vals, ∃ mem, (List.range (declWidths cs)).map
      (fun q => bitAt (run (makeBufData vals off cs) mem) (start + q)) = concatBits vals cs) :
    (∀ c ∈ cs, c.InPlace) ∧ Ordered cs ∧ ((∃ d ∈ cs, d.declWidth ≠ 0) → start = 8 * off) := by
  induction cs generalizing off start with
  | nil =>
    refine ⟨fun c hc => absurd hc List.not_mem_nil, trivial, ?_⟩
    rintro ⟨d, hd, -⟩
    exact absurd hd List.not_mem_nil
  | cons c cs ih =>
    obtain ⟨hvw, hvws⟩ := List.forall_mem_cons.mp hvw
    obtain ⟨hcompiles, hcompile⟩ := List.forall_mem_cons.mp hcompiles
    rw [advances_cons, declWidths_cons] at hpad
    have hadvance : c.declWidth ≤ 8 * c.advance := by
      rw [c.advance_eq, toBytes]
      omega
    have hadvances := declWidths_le cs
    -- The bits of the first component, and those of the others.
    have hsplit : ∀ vals, ∃ mem,
        (List.range c.declWidth).map
            (fun q => bitAt (run (makeBufData vals off (c :: cs)) mem) (start + q)) = c.bits vals ∧
          (List.range (declWidths cs)).map (fun q =>
            bitAt (run (makeBufData vals off (c :: cs)) mem) (start + c.declWidth + q)) =
            concatBits vals cs := by
      intro vals
      obtain ⟨mem, hmem⟩ := hbits vals
      rw [declWidths_cons, List.range_add, List.map_append, concatBits, List.flatMap_cons] at hmem
      obtain ⟨hfirst, hrest⟩ := List.append_inj hmem (by
        rw [List.length_map, List.length_range, ListComponent.length_bits,
          ListComponent.width_eq hvw])
      refine ⟨mem, hfirst, ?_⟩
      rw [List.map_map] at hrest
      refine Eq.trans (List.map_congr_left fun q _ => ?_) hrest
      rw [Function.comp_apply, Nat.add_assoc]
    have hlast : ∀ vals, 0 < c.declWidth → bytesBit (c.data vals)
        (c.declWidth - 1 - (8 * off - start)) = c.bit vals (c.declWidth - 1) := by
      intro vals hpos
      obtain ⟨mem, hfirst, -⟩ := hsplit vals
      rw [ListComponent.bits, ListComponent.width_eq hvw] at hfirst
      have hbit := List.map_inj_left.mp hfirst (c.declWidth - 1) (List.mem_range.mpr (by omega))
      rw [show start + (c.declWidth - 1) = 8 * off + (c.declWidth - 1 - (8 * off - start)) by omega,
        bitAt_run_makeBufData (ListComponent.advance_le_length hvw hcompiles) (by omega)] at hbit
      exact hbit
    have hrest : start = 8 * off ∨ c.declWidth = 0 →
        (∀ d ∈ cs, d.InPlace) ∧ Ordered cs ∧
          ((∃ d ∈ cs, d.declWidth ≠ 0) → start + c.declWidth = 8 * (off + c.advance)) := by
      intro hstart
      have hwidth := c.advance_eq
      rw [toBytes] at hwidth
      refine ih hvws hcompile (by omega) (by omega) fun vals => ?_
      obtain ⟨mem, -, hmem⟩ := hsplit vals
      exact ⟨Write.run mem ⟨off, c.data vals⟩, hmem⟩
    by_cases hzero : c.declWidth = 0
    · -- Only a header may be empty.
      have hplace : c.InPlace := by
        cases c with
        | header inst hdr packet => exact Option.not_isSome_iff_eq_none.mp hvw
        | field inst hdr fld pos => exact absurd hzero pos.ne'
        | path name size => exact absurd hzero size.ne_zero
        | cast expr exprSize destSize => exact absurd hzero destSize.ne_zero
        | constant name size => exact absurd hzero size.ne_zero
      obtain ⟨hplaces, hordered, hstart⟩ := hrest (.inr hzero)
      refine ⟨List.forall_mem_cons.mpr ⟨hplace, hplaces⟩, ⟨.inl (by rw [hzero]), hordered⟩, ?_⟩
      rintro ⟨d, hd, hne⟩
      have hmem := (List.mem_cons.mp hd).resolve_left fun heq => hne (heq ▸ hzero)
      have hend := hstart ⟨d, hmem, hne⟩
      rw [c.advance_eq, hzero] at hend
      exact hend
    · have hpos := Nat.pos_of_ne_zero hzero
      obtain ⟨hplace, hd⟩ := ListComponent.inPlace_of_last hvw hcompiles hpos
        (by omega) fun vals => hlast vals hpos
      have hstart : start = 8 * off := by omega
      obtain ⟨hplaces, hordered, hend⟩ := hrest (.inl hstart)
      refine ⟨List.forall_mem_cons.mpr ⟨hplace, hplaces⟩, ⟨?_, hordered⟩, fun _ => hstart⟩
      by_cases hsome : ∃ d ∈ cs, d.declWidth ≠ 0
      · have hnext := hend hsome
        left
        omega
      · push Not at hsome
        exact .inr hsome

/-- A declared size that is that of what is copied is so for each component. -/
theorem sameBytes_of_size (hplace : ∀ c ∈ cs, c.InPlace) (h : makeBufSize cs ≤ advances cs) :
    ∀ c ∈ cs, c.SameBytes := by
  have hge : ∀ c : ListComponent, c.InPlace → c.advance ≤ c.declared := by
    intro c hc
    cases c with
    | cast expr exprSize destSize =>
      have hdest : (destSize : ℕ) = 8 := hc
      have hpos := exprSize.pos
      show (destSize + 7) / 8 ≤ ((exprSize : ℕ) + 7) / 8
      omega
    | _ => exact le_rfl
  induction cs with
  | nil => exact fun c hc => absurd hc List.not_mem_nil
  | cons c cs ih =>
    obtain ⟨hc, hcs⟩ := List.forall_mem_cons.mp hplace
    have hfirst := hge c hc
    have hothers : advances cs ≤ makeBufSize cs :=
      List.sum_le_sum fun d hd => hge d (hcs d hd)
    have hsum : c.declared + makeBufSize cs ≤ c.advance + advances cs := h
    refine List.forall_mem_cons.mpr ⟨?_, ih hcs (by omega)⟩
    cases c with
    | cast expr exprSize destSize =>
      show toBytes exprSize = toBytes destSize
      exact le_antisymm (Nat.le_of_add_le_add_right (hsum.trans (Nat.add_le_add_left hothers _)))
        hfirst
    | _ => trivial

/-- Components in place whose writes fit are the concatenation's. -/
theorem Concatenates.of_inPlace {vals : ListValues} {n : ℕ}
    (hplace : ∀ c ∈ cs, c.InPlace) (hsame : ∀ c ∈ cs, c.SameBytes) (hordered : Ordered cs)
    (hbounds : InBounds (makeBufData vals off cs) n) (hn : n = off + advances cs) :
    Concatenates cs := by
  induction cs generalizing off with
  | nil => trivial
  | cons c cs ih =>
    obtain ⟨hc, hcs⟩ := List.forall_mem_cons.mp hplace
    obtain ⟨hsamec, hsames⟩ := List.forall_mem_cons.mp hsame
    rw [makeBufData] at hbounds
    obtain ⟨hwrite, hwrites⟩ := List.forall_mem_cons.mp hbounds
    replace hwrite : off + (c.data vals).length ≤ n := hwrite
    rw [advances_cons, ← Nat.add_assoc] at hn
    refine ⟨⟨hc, hsamec⟩, hordered.1, fun hover => ?_, ih hcs hsames hordered.2 hwrites hn⟩
    -- Without a byte behind, the last one that is copied would be past the end.
    by_contra hnone
    push Not at hnone
    have hlong := ((hc.length_data vals).2).mpr hover
    have hle : c.advance ≤ (c.data vals).length := hc.advance_le_length
    have hempty : advances cs = 0 := by
      have hle' := declWidths_eq_zero hnone
      rw [advances_eq hordered.2, hle']
      rfl
    omega

end Lists

/-- **A list's buffer is the concatenation of its components, whatever their values are, just
if the list is nested once at most and its components are `Concatenates`.** -/
theorem listBuffer_iff (args : List ListArg) :
    (∀ vals, ListBufferLaw vals args) ↔ NestedOnce args ∧ Concatenates (componentsOf args) := by
  constructor
  · intro h
    obtain ⟨cs, hcs⟩ : ∃ cs, cs = componentsOf args := ⟨_, rfl⟩
    rw [← hcs]
    have hgen : NestedOnce args ∧ cs.all ListComponent.compiles := by
      obtain ⟨buf, hbuf, -⟩ := h (probe 0 0)
      obtain ⟨hnested, hall, -⟩ := genPrepareListexprArg_eq_some.mp hbuf
      exact ⟨hnested, hcs ▸ hall⟩
    have hholds : ∀ vals, HoldsConcat vals cs ⟨makeBufSize cs, makeBufData vals 0 cs⟩ := by
      intro vals
      obtain ⟨buf, hbuf, hholds⟩ := h vals
      obtain ⟨-, -, rfl⟩ := genPrepareListexprArg_eq_some.mp hbuf
      rwa [← hcs] at hholds
    refine ⟨hgen.1, ?_⟩
    by_cases hne : cs = []
    · rw [hne]
      trivial
    have hcompiles : ∀ c ∈ cs, c.compiles = true := List.all_eq_true.mp hgen.2
    have hvw := not_isVw_of_size fun vals => (hholds vals).size
    have hlength : (concatBits (probe 0 0) cs).length = declWidths cs := length_concatBits_eq hvw
    have hsize : makeBufSize cs = toBytes (declWidths cs) := by
      rw [toBytes, ← hlength]
      exact (hholds (probe 0 0)).size
    have hadvances := advances_le_of_inBounds hne
      (fun c hc => ListComponent.advance_le_length (hvw c hc) (hcompiles c hc))
      (hholds (probe 0 0)).inBounds
    rw [Nat.zero_add] at hadvances
    replace hadvances : advances cs ≤ makeBufSize cs := hadvances
    have hbits : ∀ vals, ∃ mem, (List.range (declWidths cs)).map
        (fun q => bitAt (run (makeBufData vals 0 cs) mem) (0 + q)) = concatBits vals cs := by
      intro vals
      refine ⟨fun _ => 0, ?_⟩
      have hbits := (hholds vals).bits fun _ => 0
      rw [length_concatBits_eq hvw] at hbits
      simpa only [Nat.zero_add] using hbits
    have hpad : 8 * (0 + advances cs) < 0 + declWidths cs + 8 := by
      rw [toBytes] at hsize
      omega
    obtain ⟨hplace, hordered, -⟩ := inPlace_of_bits hvw hcompiles (Nat.zero_le _) hpad hbits
    have htotal : makeBufSize cs = advances cs := hsize.trans (advances_eq hordered).symm
    exact Concatenates.of_inPlace hplace (sameBytes_of_size hplace htotal.le) hordered
      (hholds (probe 0 0)).inBounds (by rw [Nat.zero_add]; exact htotal)
  · rintro ⟨hnested, hconcat⟩ vals
    refine ⟨_, genPrepareListexprArg_eq_some.mpr ⟨hnested, ?_, rfl⟩, hconcat.holdsConcat vals⟩
    exact List.all_eq_true.mpr fun c hc => (hconcat.inPlace c hc).1.compiles

/-- A 16-bit constant is stored in host order. -/
theorem not_listBuffer_constant :
    ¬ ∀ vals args, ListBufferLaw vals args := by
  intro h
  obtain ⟨buf, hbuf, hholds⟩ := h (probe 0 0) [.component (.constant 0 16)]
  obtain rfl := Option.some.inj hbuf
  have hbits := hholds.bits fun _ => 0
  revert hbits
  decide

end T4P4S
