/-
Local variables of parsers and controls, of at most 32 bits.

A local is a C variable of one, two or four bytes.  An assignment computes its source
into a temporary and copies as many bytes of it as the local's width needs; each kind
of use reads the bytes in its own way.

* **`carries_iff`** — a use of the local has the effect of the source's value iff what
  is stored is what the use expects: a table key the value's bytes in host order, an
  operand and a `select` these in the whole variable, a header field the bytes swapped;
* **`run_holds`** — after any run of assignments from sources in host order the
  variables have the values of the locals;
* **`field_swapped`** — `x = 0x1234; hdr.g = x`.
-/
import T4P4S.HdrFld
import T4P4S.Lib.ByteString
import T4P4S.Packet

open ByteString NetBits

namespace T4P4S

/-! ### Sources -/

inductive Operator
  | binaryOp
  | cast
  | neg
  | cmpl
  | mux
  | slice
  | concat
  deriving DecidableEq

/-- The node types of expressions.  The binary operators are those of the generator's
tables; `Concat` is not. -/
inductive NodeType
  | constant
  | member
  | pathExpression
  | methodCallExpression
  | operator (op : Operator)
  deriving DecidableEq

namespace NodeType

def isOpNode (nt : NodeType) : Bool := nt = operator .binaryOp

def isLocal (nt : NodeType) : Bool := nt = pathExpression

/-- The formatted expression is a value. -/
def isNonrefNode (nt : NodeType) : Bool :=
  isOpNode nt || nt = constant || nt = methodCallExpression || nt = operator .cast || isLocal nt

/-- The temporary is a value. -/
def isRefNode (nt : NodeType) : Bool :=
  isOpNode nt || nt = constant || nt = member || nt = methodCallExpression ||
    nt = operator .cast || isLocal nt

end NodeType

/-- A field of `w` bits, of a header or of the metadata. -/
structure FieldRef (w : ℕ) where
  header : HeaderLayout
  hdesc : HdrDesc
  fld : ℕ
  short : ShortField header fld
  size_eq : (header.field fld).size = w

namespace FieldRef

variable {w : ℕ} (f : FieldRef w)

def get (m : ℕ → Byte) : ℕ := (get32 f.header f.hdesc f.fld m).toNat

def set (v : ℕ) (m : ℕ → Byte) : ℕ → Byte :=
  modify32 f.header f.hdesc f.fld (BitVec.ofNat 32 v) m

end FieldRef

/-- The expressions of type `bit<w>` that a local is assigned.  `stackMember` is a field
of a stack's last or next element; an operator has a value for each value of the locals
in it, in P4 and, by the code of its expression, in C. -/
inductive Source (width : ℕ → ℕ) (w : ℕ)
  | constant (v : BitVec w)
  | member (f : FieldRef w)
  | stackMember (f : FieldRef w)
  | lookahead
  | localVar (y : ℕ) (hy : width y = w)
  | operator (op : Operator) (eval : (ℕ → ℕ) → BitVec w)

/-- The bytes of the locals' variables, of the header that fields are in, and of the
packet from `extract_ptr` on. -/
structure LocalsState where
  locals : ℕ → ℕ → Byte
  headers : ℕ → Byte
  extractPtr : ℕ → Byte

/-- The size of the C variable of a local. -/
def localBytes (w : ℕ) : ℕ := sizeup w false / 8

/-- The variable of a local of `w` bits, as a number. -/
def localWord (w : ℕ) (x : ℕ → Byte) : ℕ := hostNat (slice x 0 (localBytes w))

variable (width : ℕ → ℕ) {w : ℕ}

/-- The values of all variables. -/
def LocalsState.words (st : LocalsState) (y : ℕ) : ℕ := localWord (width y) (st.locals y)

/-! ### Assignment -/

/-- `topbits_1`, `topbits_2`, `topbits_4` -/
def topbits (size8 data bits : ℕ) : ℕ := data / 2 ^ (8 * size8 - bits)

/-- `gen_method_lookahead`; `t4p4s2net` and `net2t4p4s` swap the bytes. -/
def genMethodLookahead (w : ℕ) (extractPtr : ℕ → Byte) : ℕ :=
  let size8 := localBytes w
  let var := hostNat (slice extractPtr 0 size8)
  byteSwap size8 (topbits size8 (byteSwap size8 var) w)

/-- A formatted expression: a number, or the address of a variable that has it. -/
inductive Formatted
  | word (v : ℕ)
  | addressOf (v : ℕ)

variable {width}

namespace Source

def nodeType : Source width w → NodeType
  | constant _ => .constant
  | member _ => .member
  | stackMember _ => .member
  | lookahead => .methodCallExpression
  | localVar _ _ => .pathExpression
  | operator op _ => .operator op

/-- `format_expr` with `needs_variable`, which only a header's own fields observe.  A
local is a value: `needs_dereferencing` is false for short ones, or there would be no
C for the address of the formatted destination. -/
def format (st : LocalsState) : Source width w → Formatted
  | constant v => .word v.toNat
  | member f => .addressOf (f.get st.headers)
  | stackMember f => .word (f.get st.headers)
  | lookahead => .word (genMethodLookahead w st.extractPtr)
  | localVar y _ => .word (st.words width y)
  | operator _ eval => .word (eval (st.words width)).toNat

end Source

/-- `*(T*)(e)`: only an address has something behind it. -/
def Formatted.deref : Formatted → Option ℕ
  | .word _ => none
  | .addressOf v => some v

/-- `(T)(e)`, of a number. -/
def Formatted.cast : Formatted → Option ℕ
  | .word v => some v
  | .addressOf _ => none

/-- `gen_do_assignment` of a local, in parsers and controls alike; `none` if a number is
used as an address.  The bytes behind the first `size` ones keep what they had. -/
def genDoAssignment (x : ℕ) (src : Source width w) (st : LocalsState) : Option LocalsState :=
  let size := (w + 7) / 8
  let nt := src.nodeType
  let needsDereferencing := !nt.isNonrefNode && size ≤ 4
  let needsReferencing := nt.isRefNode && size ≤ 4
  let fmt := src.format st
  -- a temporary that is not referenced would be the address of the copy
  (if needsDereferencing then fmt.deref else fmt.cast).bind fun tmpvar =>
    if needsReferencing then
      let bytes := (hostBytes (localBytes w) tmpvar).take size
      some { st with locals := Function.update st.locals x (Write.run (st.locals x) ⟨0, bytes⟩) }
    else
      none

/-! ### Uses -/

/-- `gen_format_statement_fieldref_short` for a local; `junk` is in the variable that is
not initialised. -/
def genFormatStatementFieldrefShort (g : FieldRef w) (valid : Bool) (junk : ℕ → Byte)
    (x : ℕ → Byte) (m : ℕ → Byte) : ℕ → Byte :=
  let bytelen := localBytes w
  -- three bytes of four are copied, then all four are swapped
  let copied := hostNat (slice (Write.run junk ⟨0, slice x 0 ((w + 7) / 8)⟩) 0 bytelen)
  let value := if 8 < 8 * bytelen then byteSwap bytelen copied else copied
  if valid then g.set value m else m

/-- The bytes of a table's key, from `table_X_key`. -/
def localKey (w : ℕ) (x : ℕ → Byte) : List Byte := slice x 0 ((w + 7) / 8)

/-- The uses of a local of `w` bits. -/
inductive Use (w : ℕ)
  | field (g : FieldRef w) (valid : Bool) (hmeta : g.header.isMetadata = false)
  | operand
  | select
  | key

/-- The use of the variable has the effect of the value: the field is assigned the value,
whatever the uninitialised variable had in it, the number that is read is the value, or
the bytes of the key are the value's, as they are for a field. -/
def UseCorrect (x : ℕ → Byte) (headers : ℕ → Byte) (v : ℕ) : Use w → Prop
  | .field g valid _ => ∀ junk, genFormatStatementFieldrefShort g valid junk x headers =
    if valid then g.set v headers else headers
  | .operand => localWord w x = v
  | .select => localWord w x = v
  | .key => localKey w x = hostBytes ((w + 7) / 8) v

/-- The value of a source in P4, for values of the locals. -/
def Source.value (st : LocalsState) (vals : ℕ → ℕ) : Source width w → ℕ
  | .constant v => v.toNat
  | .member f => f.get st.headers % 2 ^ w
  | .stackMember f => f.get st.headers % 2 ^ w
  | .lookahead => Nat.ofBits fun i : Fin w => bitAt st.extractPtr (w - 1 - i)
  | .localVar y _ => vals y % 2 ^ w
  | .operator _ eval => (eval vals).toNat

/-- `x = s` followed by the use has the effect of the value of `s`. -/
def Carries (x : ℕ) (src : Source width w) (use : Use w) (st : LocalsState) (vals : ℕ → ℕ) :
    Prop :=
  ∃ st', genDoAssignment x src st = some st' ∧
    UseCorrect (st'.locals x) st'.headers (src.value st vals) use

/-! ### What an assignment stores -/

/-- The sources of which the generated code computes the value. -/
def Source.Supported : Source width w → Prop
  | .stackMember _ => False
  | .operator op _ => op = .binaryOp ∨ op = .cast
  | _ => True

/-- The number that is stored: the value, but a lookahead's in network order, and for
other locals what is in their variables. -/
def Source.stored (st : LocalsState) (src : Source width w) : ℕ :=
  match src with
  | .constant v => v.toNat
  | .member f => f.get st.headers
  | .stackMember f => f.get st.headers
  | .lookahead => byteSwap (localBytes w) (src.value st fun _ => 0)
  | .localVar y _ => st.words width y
  | .operator _ eval => (eval (st.words width)).toNat

theorem localBytes_cases (hw : 1 ≤ w ∧ w ≤ 32) :
    (w ≤ 8 ∧ localBytes w = 1 ∧ (w + 7) / 8 = 1) ∨
      (8 < w ∧ w ≤ 16 ∧ localBytes w = 2 ∧ (w + 7) / 8 = 2) ∨
      (16 < w ∧ w ≤ 24 ∧ localBytes w = 4 ∧ (w + 7) / 8 = 3) ∨
      (24 < w ∧ localBytes w = 4 ∧ (w + 7) / 8 = 4) := by
  simp only [localBytes, sizeup, Bool.false_eq_true, if_false]
  split_ifs <;> omega

/-- The bytes from the last to the first are the bits in network order. -/
theorem testBit_hostNat_reverse (m : ℕ → Byte) (n k : ℕ) :
    (hostNat (slice m 0 n).reverse).testBit k = (decide (k < 8 * n) && bitAt m (8 * n - 1 - k)) := by
  have hlen : (slice m 0 n).reverse.length = n := by rw [List.length_reverse, length_slice]
  by_cases hk : k < 8 * n
  · have hnet : netBytes n (hostNat (slice m 0 n).reverse) = slice m 0 n := by
      have h := hostBytes_hostNat (slice m 0 n).reverse
      rw [hlen] at h
      rw [netBytes, h, List.reverse_reverse]
    have hi : (8 * n - 1 - k) / 8 < (netBytes n (hostNat (slice m 0 n).reverse)).length := by
      rw [length_netBytes]
      omega
    have hbit := getMsbD_netBytes (hostNat (slice m 0 n).reverse) hi
      (Nat.mod_lt (8 * n - 1 - k) (by decide : 8 > 0))
    rw [show 8 * n - 1 - (8 * ((8 * n - 1 - k) / 8) + (8 * n - 1 - k) % 8) = k by omega] at hbit
    have hget : (netBytes n (hostNat (slice m 0 n).reverse))[(8 * n - 1 - k) / 8] =
        m ((8 * n - 1 - k) / 8) := by
      rw [List.getElem_eq_iff, hnet, getElem?_slice (by omega), Nat.zero_add]
    rw [← hbit, hget, decide_eq_true hk, Bool.true_and, bitAt]
  · -- above the `n` bytes there are no bits
    rw [decide_eq_false hk, Bool.false_and]
    refine Nat.testBit_lt_two_pow ?_
    calc hostNat (slice m 0 n).reverse < 256 ^ n := by
          have h := hostNat_lt (slice m 0 n).reverse
          rwa [hlen] at h
      _ = 2 ^ (8 * n) := (pow_mul 2 8 n).symm
      _ ≤ 2 ^ k := Nat.pow_le_pow_right (by decide) (by omega)

/-- **A lookahead has the bits at the cursor, in network order.** -/
theorem genMethodLookahead_eq (hw : 1 ≤ w ∧ w ≤ 32) (m : ℕ → Byte) :
    genMethodLookahead w m =
      byteSwap (localBytes w) (Nat.ofBits fun i : Fin w => bitAt m (w - 1 - i)) := by
  have hle : w ≤ 8 * localBytes w := by
    have := localBytes_cases hw
    omega
  rw [genMethodLookahead]
  refine congrArg (byteSwap (localBytes w)) (Nat.eq_of_testBit_eq fun k => ?_)
  have hswap : byteSwap (localBytes w) (hostNat (slice m 0 (localBytes w))) =
      hostNat (slice m 0 (localBytes w)).reverse := by
    have h := byteSwap_hostNat (slice m 0 (localBytes w))
    rwa [length_slice] at h
  -- swapped, the bytes are a number in network order, of which the top bits are kept
  rw [topbits, hswap, Nat.testBit_div_two_pow, testBit_hostNat_reverse]
  by_cases hk : k < w
  · rw [Nat.testBit_ofBits_lt _ _ hk, decide_eq_true (by omega), Bool.true_and]
    refine congrArg (bitAt m) ?_
    change 8 * localBytes w - 1 - (k + (8 * localBytes w - w)) = w - 1 - k
    omega
  · rw [Nat.testBit_ofBits_ge _ _ (by omega), decide_eq_false (by omega), Bool.false_and]

theorem Source.value_lt (st : LocalsState) (vals : ℕ → ℕ) (src : Source width w) :
    src.value st vals < 2 ^ w := by
  cases src with
  | constant v => exact v.isLt
  | member f => exact Nat.mod_lt _ (Nat.two_pow_pos w)
  | stackMember f => exact Nat.mod_lt _ (Nat.two_pow_pos w)
  | lookahead => exact Nat.ofBits_lt_two_pow _
  | localVar y hy => exact Nat.mod_lt _ (Nat.two_pow_pos w)
  | operator op eval => exact (eval vals).isLt

/-- What is stored into the variable of a local. -/
def storeLocal (w : ℕ) (v : ℕ) (x : ℕ → Byte) : ℕ → Byte :=
  Write.run x ⟨0, hostBytes ((w + 7) / 8) v⟩

/-- An assignment of a supported source stores it; of another there is none. -/
theorem genDoAssignment_eq_some (hw : 1 ≤ w ∧ w ≤ 32) {x : ℕ} {src : Source width w}
    {st st' : LocalsState} :
    genDoAssignment x src st = some st' ↔ src.Supported ∧
      st' = { st with
        locals := Function.update st.locals x (storeLocal w (src.stored st) (st.locals x)) } := by
  have hsize : (w + 7) / 8 ≤ 4 := by omega
  have hle : (w + 7) / 8 ≤ localBytes w := by
    have := localBytes_cases hw
    omega
  have hstored : ∀ v, some ({ st with
      locals := Function.update st.locals x (Write.run (st.locals x)
        ⟨0, (hostBytes (localBytes w) v).take ((w + 7) / 8)⟩) } : LocalsState) = some st' ↔
      st' = { st with locals := Function.update st.locals x (storeLocal w v (st.locals x)) } := by
    intro v
    rw [take_hostBytes hle, Option.some_inj, eq_comm]
    rfl
  -- The size is at most 4 bytes, so the two conditions on it hold.
  have htemp : genDoAssignment x src st =
      (if src.nodeType.isNonrefNode then (src.format st).cast else (src.format st).deref).bind
        fun v => if src.nodeType.isRefNode then some { st with
          locals := Function.update st.locals x (Write.run (st.locals x)
            ⟨0, (hostBytes (localBytes w) v).take ((w + 7) / 8)⟩) } else none := by
    rw [genDoAssignment]
    simp only [hsize, decide_true, Bool.and_true]
    cases src.nodeType.isNonrefNode <;> rfl
  rw [htemp]
  cases src with
  | constant v => exact (hstored _).trans (and_iff_right trivial).symm
  | member f => exact (hstored _).trans (and_iff_right trivial).symm
  | stackMember f => exact iff_of_false nofun fun h => h.1
  | lookahead =>
    have hlook := genMethodLookahead_eq hw st.extractPtr
    refine Iff.trans ?_ (and_iff_right trivial).symm
    rw [Source.stored, Source.value, ← hlook]
    exact hstored _
  | localVar y hy => exact (hstored _).trans (and_iff_right trivial).symm
  | operator op eval =>
    cases op with
    | binaryOp => exact (hstored _).trans ((and_iff_right (.inl rfl)).symm)
    | cast => exact (hstored _).trans ((and_iff_right (.inr rfl)).symm)
    | neg => exact iff_of_false nofun fun h => by simp [Source.Supported] at h
    | cmpl => exact iff_of_false nofun fun h => by simp [Source.Supported] at h
    | mux => exact iff_of_false nofun fun h => by simp [Source.Supported] at h
    | slice => exact iff_of_false nofun fun h => by simp [Source.Supported] at h
    | concat => exact iff_of_false nofun fun h => by simp [Source.Supported] at h

/-! ### What the uses read -/

theorem slice_storeLocal (v : ℕ) (x : ℕ → Byte) :
    slice (storeLocal w v x) 0 ((w + 7) / 8) = hostBytes ((w + 7) / 8) v := by
  have h := slice_run x ⟨0, hostBytes ((w + 7) / 8) v⟩
  rwa [length_hostBytes] at h

/-- The variable has the bytes that were stored, and behind them, for a local of three
bytes, the one that it had. -/
theorem localWord_storeLocal (hw : 1 ≤ w ∧ w ≤ 32) (v : ℕ) (x : ℕ → Byte) :
    localWord w (storeLocal w v x) = v % 256 ^ ((w + 7) / 8) +
      if 16 < w ∧ w ≤ 24 then 256 ^ 3 * (x 3).toNat else 0 := by
  rw [localWord]
  by_cases hthree : 16 < w ∧ w ≤ 24
  · have hbytes : (w + 7) / 8 = 3 := by omega
    have hlast : slice (storeLocal w v x) 3 1 = [x 3] := by
      refine congrArg (· :: []) (Write.run_of_notMem x (.inr ?_))
      rw [length_hostBytes, hbytes]
    have hstored := slice_storeLocal (w := w) v x
    have hfour : localBytes w = 3 + 1 := by
      have := localBytes_cases hw
      omega
    rw [hbytes] at hstored ⊢
    rw [if_pos hthree, hfour, slice_add, hostNat_append, Nat.zero_add, hlast, hstored,
      hostNat_hostBytes, length_hostBytes]
    rfl
  · have hbytes : localBytes w = (w + 7) / 8 := by
      have := localBytes_cases hw
      omega
    rw [if_neg hthree, hbytes, slice_storeLocal, hostNat_hostBytes]
    rfl

theorem lt_pow_bytes {v : ℕ} (hv : v < 2 ^ w) :
    v < 256 ^ ((w + 7) / 8) := by
  have hpow : (256 : ℕ) ^ ((w + 7) / 8) = 2 ^ (8 * ((w + 7) / 8)) := (pow_mul 2 8 _).symm
  rw [hpow]
  exact hv.trans_le (Nat.pow_le_pow_right (by decide) (by omega))

/-- An operand is the value iff the stored bytes are, and the byte behind them is zero. -/
theorem localWord_storeLocal_iff (hw : 1 ≤ w ∧ w ≤ 32) {c v : ℕ} (hv : v < 2 ^ w) (x : ℕ → Byte) :
    localWord w (storeLocal w c x) = v ↔
      c ≡ v [MOD 256 ^ ((w + 7) / 8)] ∧ (16 < w ∧ w ≤ 24 → x 3 = 0) := by
  have hlt := lt_pow_bytes hv
  have hmod : c ≡ v [MOD 256 ^ ((w + 7) / 8)] ↔ c % 256 ^ ((w + 7) / 8) = v := by
    rw [Nat.ModEq, Nat.mod_eq_of_lt hlt]
  rw [localWord_storeLocal hw, hmod]
  by_cases hthree : 16 < w ∧ w ≤ 24
  · have hzero : x 3 = 0 ↔ (x 3).toNat = 0 := by
      rw [← BitVec.toNat_inj]
      rfl
    have hrem : c % 256 ^ ((w + 7) / 8) < 256 ^ ((w + 7) / 8) := Nat.mod_lt _ (by omega)
    rw [show (w + 7) / 8 = 3 by omega] at hlt hrem ⊢
    rw [if_pos hthree, hzero]
    simp only [hthree, and_self, true_implies]
    omega
  · rw [if_neg hthree, Nat.add_zero]
    exact (and_iff_left fun h => absurd h hthree).symm

theorem localKey_storeLocal_iff {c v : ℕ} (x : ℕ → Byte) :
    localKey w (storeLocal w c x) = hostBytes ((w + 7) / 8) v ↔
      c ≡ v [MOD 256 ^ ((w + 7) / 8)] := by
  rw [localKey, slice_storeLocal, hostBytes_eq_iff]

/-! ### Fields -/

theorem eq_of_bitAt {m m' : ℕ → Byte} (h : ∀ i, bitAt m i = bitAt m' i) : m = m' := by
  funext a
  refine BitVec.eq_of_getMsbD_eq ?_
  intro j hj
  have hbit := h (8 * a + j)
  rwa [bitAt, bitAt, show (8 * a + j) / 8 = a by omega, show (8 * a + j) % 8 = j by omega] at hbit

/-- Assigning two values to a field has the same effect iff they are equal in its width. -/
theorem FieldRef.set_eq_iff {f : FieldRef w} (hmeta : f.header.isMetadata = false) {a b : ℕ}
    {m : ℕ → Byte} (hw : w ≤ 32) : f.set a m = f.set b m ↔ a ≡ b [MOD 2 ^ w] := by
  have hbit : ∀ v i, bitAt (f.set v m) i =
      if handleStart f.header f.hdesc f.fld ≤ i ∧ i < handleStart f.header f.hdesc f.fld + w then
        v.testBit (handleStart f.header f.hdesc f.fld + w - 1 - i)
      else bitAt m i := by
    intro v i
    rw [FieldRef.set, bitAt_modify32 f.short hmeta, f.size_eq]
    split_ifs with hi
    · rw [BitVec.getLsbD_ofNat, decide_eq_true (by omega), Bool.true_and]
    · rfl
  -- the bits of the field are the low bits of the value, from the last one on
  constructor
  · intro h
    refine Nat.eq_of_testBit_eq ?_
    intro k
    rw [Nat.testBit_mod_two_pow, Nat.testBit_mod_two_pow]
    by_cases hk : k < w
    · have hi := congrArg (bitAt · (handleStart f.header f.hdesc f.fld + w - 1 - k)) h
      simp only [hbit] at hi
      rw [if_pos (by omega), if_pos (by omega), show handleStart f.header f.hdesc f.fld + w - 1 -
        (handleStart f.header f.hdesc f.fld + w - 1 - k) = k by omega] at hi
      rw [hi]
    · rw [decide_eq_false hk, Bool.false_and, Bool.false_and]
  · intro h
    refine eq_of_bitAt ?_
    intro i
    rw [hbit, hbit]
    split_ifs with hi
    · have hk := congrArg (Nat.testBit · (handleStart f.header f.hdesc f.fld + w - 1 - i)) h
      simp only [Nat.testBit_mod_two_pow] at hk
      rw [decide_eq_true (by omega), Bool.true_and, Bool.true_and] at hk
      exact hk
    · rfl

/-- An assignment to a field swaps the bytes of the variable that it copies to. -/
theorem fieldrefShort_storeLocal (hw : 1 ≤ w ∧ w ≤ 32) (g : FieldRef w) (valid : Bool)
    (junk x m : ℕ → Byte) (c : ℕ) :
    genFormatStatementFieldrefShort g valid junk (storeLocal w c x) m =
      if valid then g.set (byteSwap (localBytes w) (localWord w (storeLocal w c junk))) m else m := by
  rw [genFormatStatementFieldrefShort, slice_storeLocal]
  change (if valid then g.set (if 8 < 8 * localBytes w then
    byteSwap (localBytes w) (localWord w (storeLocal w c junk)) else
      localWord w (storeLocal w c junk)) m else m) = _
  by_cases hbytes : 8 < 8 * localBytes w
  · rw [if_pos hbytes]
  · -- a single byte
    have hone : localBytes w = 1 := by
      have := localBytes_cases hw
      omega
    have hswap : byteSwap 1 (localWord w (storeLocal w c junk)) =
        localWord w (storeLocal w c junk) := by
      have hlt := hostNat_lt (slice (storeLocal w c junk) 0 (localBytes w))
      rw [length_slice, hone] at hlt
      rw [byteSwap_one, localWord, hone]
      exact Nat.mod_eq_of_lt hlt
    rw [if_neg hbytes, hone, hswap]

/-- The first byte of four is the last when they are swapped. -/
theorem byteSwap_four_modEq (v : ℕ) : byteSwap 4 v ≡ v / 256 ^ 3 [MOD 256] := by
  simp only [byteSwap, netBytes, hostBytes, List.reverse_cons, List.reverse_nil, List.nil_append,
    List.cons_append, hostNat, BitVec.toNat_ofNat, Nat.ModEq, Nat.reducePow,
    Nat.div_div_eq_div_mul, Nat.reduceMul]
  omega

/-- A local of three bytes never reaches a field whole: a byte of the variable that it is
copied to is not initialised. -/
theorem fieldrefShort_iff (hw : 1 ≤ w ∧ w ≤ 32) {g : FieldRef w}
    (hmeta : g.header.isMetadata = false) {valid : Bool} {x m : ℕ → Byte} {c v : ℕ} :
    (∀ junk, genFormatStatementFieldrefShort g valid junk (storeLocal w c x) m =
        if valid then g.set v m else m) ↔
      (valid = true → ¬ (16 < w ∧ w ≤ 24) ∧ byteSwap (localBytes w) c ≡ v [MOD 2 ^ w]) := by
  cases valid with
  | false =>
    refine iff_of_true ?_ nofun
    intro junk
    rw [fieldrefShort_storeLocal hw]
    rfl
  | true =>
    have hset : ∀ junk, genFormatStatementFieldrefShort g true junk (storeLocal w c x) m =
        g.set v m ↔
          byteSwap (localBytes w) (localWord w (storeLocal w c junk)) ≡ v [MOD 2 ^ w] := by
      intro junk
      rw [fieldrefShort_storeLocal hw, if_pos rfl, FieldRef.set_eq_iff hmeta hw.2]
    simp only [if_true, hset, true_implies]
    by_cases hthree : 16 < w ∧ w ≤ 24
    · have hfour : localBytes w = 4 := by
        have := localBytes_cases hw
        omega
      refine iff_of_false ?_ fun h => h.1 hthree
      intro h
      -- the uninitialised byte is the last one of the field
      have hlow : ∀ b : Byte, b.toNat ≡ v [MOD 256] := by
        intro b
        have hjunk := (h fun _ => b).of_dvd (pow_dvd_pow 2 (show 8 ≤ w by omega))
        rw [hfour, localWord_storeLocal hw, if_pos hthree] at hjunk
        have hbyte := (byteSwap_four_modEq _).symm.trans hjunk
        have hdiv : (c % 256 ^ ((w + 7) / 8) + 256 ^ 3 * b.toNat) / 256 ^ 3 = b.toNat := by
          rw [show (w + 7) / 8 = 3 by omega]
          omega
        rwa [hdiv] at hbyte
      have hzero := hlow 0
      have hone := hlow 1
      exact absurd (hzero.trans hone.symm) (by decide)
    · -- all bytes of the copy are the local's
      have hword : ∀ junk, byteSwap (localBytes w) (localWord w (storeLocal w c junk)) =
          byteSwap (localBytes w) c := by
        intro junk
        have hbytes : localBytes w = (w + 7) / 8 := by
          have := localBytes_cases hw
          omega
        refine byteSwap_congr ?_
        rw [localWord_storeLocal hw, if_neg hthree, hbytes]
        exact Nat.mod_modEq _ _
      simp only [hword, hthree, not_false_eq_true, true_and]
      exact ⟨fun h => h fun _ => 0, fun h _ => h⟩

/-! ### One assignment and a use -/

/-- What the source leaves in the variable is what the use expects. -/
def CarriesWhen (x : ℕ) (src : Source width w) (st : LocalsState) (vals : ℕ → ℕ) : Use w → Prop
  | .field _ valid _ => src.Supported ∧ (valid = true → ¬ (16 < w ∧ w ≤ 24) ∧
    byteSwap (localBytes w) (src.stored st) ≡ src.value st vals [MOD 2 ^ w])
  | .key => src.Supported ∧ src.stored st ≡ src.value st vals [MOD 256 ^ ((w + 7) / 8)]
  | _ => src.Supported ∧ src.stored st ≡ src.value st vals [MOD 256 ^ ((w + 7) / 8)] ∧
    (16 < w ∧ w ≤ 24 → st.locals x 3 = 0)

/-- **An assignment followed by a use has the effect of the source's value iff the source
leaves in the variable what the use expects.** -/
theorem carries_iff (hw : 1 ≤ w ∧ w ≤ 32) (x : ℕ) (src : Source width w) (use : Use w)
    (st : LocalsState) (vals : ℕ → ℕ) :
    Carries x src use st vals ↔ CarriesWhen x src st vals use := by
  have hvalue := src.value_lt st vals
  have hstep : Carries x src use st vals ↔ src.Supported ∧
      UseCorrect (storeLocal w (src.stored st) (st.locals x)) st.headers (src.value st vals) use := by
    simp only [Carries, genDoAssignment_eq_some hw]
    constructor
    · rintro ⟨st', ⟨hsup, rfl⟩, huse⟩
      simp only [Function.update_self] at huse
      exact ⟨hsup, huse⟩
    · rintro ⟨hsup, huse⟩
      refine ⟨_, ⟨hsup, rfl⟩, ?_⟩
      simp only [Function.update_self]
      exact huse
  rw [hstep]
  cases use with
  | field g valid hmeta => exact and_congr_right' (fieldrefShort_iff hw hmeta)
  | operand => exact and_congr_right' (localWord_storeLocal_iff hw hvalue _)
  | select => exact and_congr_right' (localWord_storeLocal_iff hw hvalue _)
  | key => exact and_congr_right' (localKey_storeLocal_iff _)

/-- A field of 16 bits. -/
def shortField16 : FieldRef 16 where
  header := ⟨[⟨0, 16, false⟩], false⟩
  hdesc := ⟨0, 0⟩
  fld := 0
  short := ⟨by decide, by decide, by decide, by decide, by decide⟩
  size_eq := rfl

/-- Locals of 16 bits, and memory full of zeros. -/
def zeroLocals : LocalsState := ⟨fun _ _ => 0, fun _ => 0, fun _ => 0⟩

/-- `x = 0x1234` followed by `x == …` -/
theorem operand_carried :
    Carries 0 (.constant 0x1234 : Source (fun _ => 16) 16) .operand zeroLocals fun _ => 0 :=
  (carries_iff ⟨by decide, by decide⟩ 0 _ _ _ _).mpr ⟨trivial, rfl, fun h => absurd h (by decide)⟩

/-- **`x = 0x1234; hdr.g = x` leaves 0x3412 in the field.** -/
theorem field_swapped : ¬ ∀ (width : ℕ → ℕ) (w : ℕ), 1 ≤ w ∧ w ≤ 32 →
    ∀ (x : ℕ) (src : Source width w) (use : Use w) (st : LocalsState) (vals : ℕ → ℕ),
      Carries x src use st vals := by
  intro h
  have hw : 1 ≤ 16 ∧ 16 ≤ 32 := by decide
  obtain ⟨st', hst, huse⟩ := h (fun _ => 16) 16 hw 0 (.constant 0x1234)
    (.field shortField16 true rfl) zeroLocals fun _ => 0
  obtain ⟨-, rfl⟩ := (genDoAssignment_eq_some hw).mp hst
  simp only [Function.update_self] at huse
  have hswap := ((fieldrefShort_iff hw rfl).mp huse rfl).2
  revert hswap
  decide

/-! ### Sources in host order -/

/-- A local and the expression that it is assigned. -/
structure Assignment (width : ℕ → ℕ) where
  x : ℕ
  src : Source width (width x)

/-- A run of assignments. -/
def runAssignments : List (Assignment width) → LocalsState → Option LocalsState
  | [], st => some st
  | a :: as, st => (genDoAssignment a.x a.src st).bind (runAssignments as)

/-- The values of the locals after the assignments, in P4. -/
def assigned (st : LocalsState) : List (Assignment width) → (ℕ → ℕ) → ℕ → ℕ
  | [], vals => vals
  | a :: as, vals => assigned st as (Function.update vals a.x (a.src.value st vals))

/-- The variables have the values of the locals. -/
def HoldsLocals (width : ℕ → ℕ) (st : LocalsState) (vals : ℕ → ℕ) : Prop :=
  ∀ y, st.words width y = vals y ∧ vals y < 2 ^ width y

/-- Sources that are stored in host order: all but a lookahead of more than one byte. -/
def Source.InHostOrder (src : Source width w) : Prop :=
  src.Supported ∧ (∀ f, src = .member f → f.header.isMetadata = false) ∧
    (src = .lookahead → w ≤ 8)

theorem FieldRef.get_lt {f : FieldRef w} (hmeta : f.header.isMetadata = false) (m : ℕ → Byte) :
    f.get m < 2 ^ w := by
  refine Nat.lt_pow_two_of_testBit _ ?_
  intro k hk
  rw [FieldRef.get, BitVec.testBit_toNat, getLsbD_get32 f.short hmeta, f.size_eq,
    decide_eq_false (by omega), Bool.false_and]

/-- Where the variables have the values of the locals, a source in host order leaves its
value. -/
theorem Source.InHostOrder.stored_eq {src : Source width w} (h : src.InHostOrder)
    (hw : 1 ≤ w ∧ w ≤ 32) {st : LocalsState} {vals : ℕ → ℕ} (hst : HoldsLocals width st vals) :
    src.stored st = src.value st vals := by
  have hwords : st.words width = vals := funext fun y => (hst y).1
  obtain ⟨hsup, hmember, hlook⟩ := h
  cases src with
  | constant v => rfl
  | member f => exact (Nat.mod_eq_of_lt (FieldRef.get_lt (hmember f rfl) st.headers)).symm
  | stackMember f => exact hsup.elim
  | lookahead =>
    have hone : localBytes w = 1 := by
      have := hlook rfl
      have := localBytes_cases hw
      omega
    have hlt := lt_pow_bytes (Source.value_lt st vals (Source.lookahead : Source width w))
    rw [show (w + 7) / 8 = 1 by have := hlook rfl; omega] at hlt
    rw [Source.stored, hone, byteSwap_one]
    exact Nat.mod_eq_of_lt hlt
  | localVar y hy =>
    have hlt := (hst y).2
    rw [hy] at hlt
    rw [Source.stored, Source.value, (hst y).1, Nat.mod_eq_of_lt hlt]
  | operator op eval => rw [Source.stored, Source.value, hwords]

/-- A local of three bytes that has its value has a zero behind them. -/
theorem last_eq_zero (hthree : 16 < w ∧ w ≤ 24) {x : ℕ → Byte} (hx : localWord w x < 2 ^ w) :
    x 3 = 0 := by
  have hfour : localBytes w = 3 + 1 := by
    have := localBytes_cases (w := w) (by omega)
    omega
  have hpow : (2 : ℕ) ^ w ≤ 2 ^ 24 := Nat.pow_le_pow_right (by decide) hthree.2
  rw [localWord, hfour, slice_add, hostNat_append, length_slice] at hx
  have hlast : hostNat (slice x (0 + 3) 1) = (x 3).toNat := rfl
  rw [hlast] at hx
  refine BitVec.eq_of_toNat_eq ?_
  change (x 3).toNat = 0
  omega

/-- One assignment keeps the values, and has all uses of it right but those as a field. -/
theorem HoldsLocals.assign {st : LocalsState} {vals : ℕ → ℕ} (hst : HoldsLocals width st vals)
    (hwidth : ∀ y, 1 ≤ width y ∧ width y ≤ 32) {a : Assignment width} (ha : a.src.InHostOrder) :
    ∃ st', genDoAssignment a.x a.src st = some st' ∧
      HoldsLocals width st' (Function.update vals a.x (a.src.value st vals)) ∧
      st'.headers = st.headers ∧ st'.extractPtr = st.extractPtr := by
  refine ⟨_, (genDoAssignment_eq_some (hwidth a.x)).mpr ⟨ha.1, rfl⟩, ?_, rfl, rfl⟩
  intro y
  by_cases hy : y = a.x
  · -- three bytes are stored in front of the fourth, which is zero as it was
    subst hy
    have hlt := a.src.value_lt st vals
    simp only [LocalsState.words, Function.update_self]
    refine ⟨(localWord_storeLocal_iff (hwidth a.x) hlt _).mpr ⟨?_, ?_⟩, hlt⟩
    · rw [ha.stored_eq (hwidth a.x) hst]
    · intro hthree
      have hx : localWord (width a.x) (st.locals a.x) = vals a.x := (hst a.x).1
      refine last_eq_zero hthree ?_
      rw [hx]
      exact (hst a.x).2
  · simp only [LocalsState.words, Function.update_of_ne hy]
    exact hst y

/-- **After a run of assignments from sources in host order the variables have the values
of the locals.** -/
theorem run_holds (hwidth : ∀ y, 1 ≤ width y ∧ width y ≤ 32) (as : List (Assignment width))
    (has : ∀ a ∈ as, a.src.InHostOrder) {st : LocalsState} {vals : ℕ → ℕ}
    (hst : HoldsLocals width st vals) :
    ∃ st', runAssignments as st = some st' ∧ HoldsLocals width st' (assigned st as vals) := by
  -- the values of sources do not depend on the variables
  have hvalue : ∀ {st st' : LocalsState} (as : List (Assignment width)) (vals : ℕ → ℕ),
      st'.headers = st.headers → st'.extractPtr = st.extractPtr →
        assigned st' as vals = assigned st as vals := by
    intro st st' as vals hheaders hptr
    induction as generalizing vals with
    | nil => rfl
    | cons a as ih =>
      have hsrc : a.src.value st' vals = a.src.value st vals := by
        cases a.src <;> simp only [Source.value, hheaders, hptr]
      rw [assigned, assigned, hsrc, ih]
  induction as generalizing st vals with
  | nil => exact ⟨st, rfl, hst⟩
  | cons a as ih =>
    rw [List.forall_mem_cons] at has
    obtain ⟨st₁, hrun, hst₁, hheaders, hptr⟩ := hst.assign hwidth has.1
    obtain ⟨st', hrest, hst'⟩ := ih has.2 hst₁
    refine ⟨st', ?_, ?_⟩
    · rw [runAssignments, hrun, Option.bind_some, hrest]
    · rw [assigned, ← hvalue as _ hheaders hptr]
      exact hst'

end T4P4S
