/-
The generated parser: what its operations do to the packet's two cursors.

`parsedSize` counts the bytes that were parsed, `extractPtr` points behind
them.  A parser state executes a list of operations, which extract, skip,
advance or look ahead; an operation that fails drops the packet and ends the
parser.

* **`parserStep_spec`** — from a state where the cursors agree, an operation
  that is `StepSafe` leads to such a state, reads inside the packet only, and
  fails with a dropped packet when it would need more bytes than there are;
* **`parser_cursorInv`** — so it is in every run made of such operations;
* **`advance_not_cursorInv`** — advancing moves only one of the cursors.
-/
import T4P4S.Packet

open CMem

namespace T4P4S

variable (hlir : Hlir)

/-! ### Extraction -/

/-- What `parser_extract_X` returns: a length, or one of two negative codes. -/
inductive ParseResult
  | parsed (len : ℕ)
  | afterEndOfPacket
  | overStackSize
  deriving DecidableEq

def ParseResult.isNegative : ParseResult → Bool
  | .parsed _ => false
  | .afterEndOfPacket => true
  | .overStackSize => true

def dropPacket (pd : PacketDescriptor) : PacketDescriptor :=
  { pd with egressPort := egressDropValue }

def stkNext (stk : ℕ) (pd : PacketDescriptor) : PacketDescriptor :=
  { pd with stkCurrent := fun i => if i = stk then pd.stkCurrent i + 1 else pd.stkCurrent i }

def stkAtIdx (stk : ℕ) (idx : ℤ) : ℤ := (hlir.headerStacks.getD stk default).startHdr + idx

/-- `stk_current`: the number of a header instance. -/
def stkHdr (stk : ℕ) (pd : PacketDescriptor) : ℤ := stkAtIdx hlir stk (pd.stkCurrent stk)

/-- The number of bytes that the generated code skips: `skip_size // 8`. -/
def skipBytes (inst : HeaderInstance) : ℕ :=
  (if inst.size % 8 ≠ 0 then (inst.size + 7) / 8 * 8 else inst.size) / 8

/-- The descriptor's new entries, set before any check. -/
def parsedHeader (inst : HeaderInstance) (vwlen : ℕ) (hdr : HeaderDescriptor) :
    HeaderDescriptor :=
  { hdr with
    wasEnabledAtInitialParse := !inst.isSkipped
    size := (inst.size + vwlen) / 8
    vwSize := if inst.isVw then vwlen else hdr.vwSize }

/-- `parser_extract_X` from the point on where `hdrinst` is known; `inst` is what
`hlir` says about `X`. -/
def extractInto (inst : HeaderInstance) (vwlen hdrinst : ℕ) (pd : PacketDescriptor) :
    ParseResult × PacketDescriptor :=
  let hdr := parsedHeader inst vwlen (pd.headers hdrinst)
  if pd.wrapper.pktLen < pd.parsedSize + hdr.size then
    (.afterEndOfPacket, pd.setHeader hdrinst hdr)
  else if inst.isSkipped then
    let pd := pd.setHeader hdrinst { hdr with pointer := none }
    if pd.wrapper.pktLen < pd.parsedSize + skipBytes inst then
      (.afterEndOfPacket, pd)
    else
      (.parsed 0, { pd with parsedSize := pd.parsedSize + skipBytes inst
                            extractPtr := pd.extractPtr + hdr.size })
  else
    (.parsed hdr.size,
      { pd.setHeader hdrinst { hdr with pointer := some pd.extractPtr } with
        parsedSize := pd.parsedSize + hdr.size
        extractPtr := pd.extractPtr + hdr.size })

/-- The header instance that `parser_extract_X` works on, after `stk_next`. -/
def hdrinst (hdr : ℕ) (pd : PacketDescriptor) : ℤ :=
  match (hlir.headerInstance hdr).stack with
  | none => hdr
  | some stk => stkHdr hlir stk pd

def nextElement (hdr : ℕ) (pd : PacketDescriptor) : PacketDescriptor :=
  match (hlir.headerInstance hdr).stack with
  | none => pd
  | some stk => stkNext stk pd

/-- `parser_extract_X`, undefined outside of the array `headers`. -/
def parserExtract (hdr vwlen : ℕ) (pd : PacketDescriptor) :
    Option (ParseResult × PacketDescriptor) :=
  let pd := nextElement hlir hdr pd
  let i := hdrinst hlir hdr pd
  if 0 ≤ i ∧ i ≤ hlir.headerCount then
    some (extractInto (hlir.headerInstance hdr) vwlen i.toNat pd)
  else
    none

/-- The header instance that `parser_extract_X` fills. -/
def extractTarget (hdr : ℕ) (pd : PacketDescriptor) : ℕ :=
  (hdrinst hlir hdr (nextElement hlir hdr pd)).toNat

/-- `parser_extract_X` for a stack `X`: one case for each of its elements. -/
def parserExtractStk (stk vwlen : ℕ) (pd : PacketDescriptor) :
    Option (ParseResult × PacketDescriptor) :=
  let idx := pd.stkCurrent stk + 1
  if 0 ≤ idx ∧ idx < (hlir.headerStacks.getD stk default).size then
    parserExtract hlir (stkAtIdx hlir stk idx).toNat vwlen pd
  else
    some (.overStackSize, pd)

/-! ### The operations of a parser state -/

/-- The operations.  An `extract` of a whole state component has the width of
the variable-width field as an optional second argument; an extraction inside
of another statement has not, and is of a header or of the next element of a
stack.  The sizes of `advance` and `lookahead` are in bits. -/
inductive ParserOp
  | extract (hdr : ℕ) (width : Option ℤ)
  | extractNested (hdr : ℕ)
  | extractNestedStk (stk : ℕ)
  | advance (size : ℕ)
  | lookahead (size : ℕ)
  deriving DecidableEq

/-- After `parser_extract_X`: drop the packet if it failed. -/
def checkExtracted (r : ParseResult × PacketDescriptor) : Bool × PacketDescriptor :=
  if r.1.isNegative then (false, dropPacket r.2) else (true, r.2)

/-- If any header is local, each extraction counts as one that skips. -/
def markSkipped (r : Bool × PacketDescriptor) : Bool × PacketDescriptor :=
  if r.1 && hlir.headerInstances.any fun inst => !inst.isMetadata && inst.isLocal then
    (r.1, { r.2 with isDeparseReordering := true })
  else
    r

/-- The length that the first argument's variable-width field gets, `none` if it
is negative or too large.  The division is C's. -/
def vwlen (hdr : ℕ) : Option ℤ → Option ℕ
  | none => some 0
  | some width =>
    let len := (width + 7).tdiv 8
    if len < 0 ∨ ((hlir.headerInstance hdr).vwFldSize + 7) / 8 < len then none
    else some len.toNat

def extractComponent (hdr : ℕ) (width : Option ℤ) (pd : PacketDescriptor) :
    Option (Bool × PacketDescriptor) :=
  match vwlen hlir hdr width with
  | none => some (false, dropPacket pd)
  | some len =>
    (parserExtract hlir hdr len pd).map fun r => markSkipped hlir (checkExtracted r)

/-- The largest length of a header's variable-width field. -/
def nestedVwlen (hdr : ℕ) : ℕ :=
  if (hlir.headerInstance hdr).isVw then ((hlir.headerInstance hdr).vwFldSize + 7) / 8 * 8 else 0

/-- A stack's length is that of its current element, not of the next one. -/
def extractNestedStk (stk : ℕ) (pd : PacketDescriptor) : Option (Bool × PacketDescriptor) :=
  let current := stkHdr hlir stk pd
  if 0 ≤ current then
    (parserExtractStk hlir stk (nestedVwlen hlir current.toNat) pd).map checkExtracted
  else
    none

/-- `size` bits are rounded up to whole bytes, at compile time and once more. -/
def advance (size : ℕ) (pd : PacketDescriptor) : PacketDescriptor :=
  let size := if size % 8 ≠ 0 then (size + 7) / 8 * 8 else size
  { pd with extractPtr := pd.extractPtr + (size + 7) / 8
            isDeparseReordering := true }

/-- How many bytes a lookahead reads: those of its C type.  Above 32 bits it reads
none. -/
def lookaheadBytes (size : ℕ) : ℕ := if size ≤ 32 then sizeup size false / 8 else 0

/-- The bytes that a lookahead reads, undefined outside of the buffer. -/
def lookahead (size : ℕ) (pd : PacketDescriptor) : Option (List Byte) :=
  if pd.extractPtr.off + lookaheadBytes size ≤ pd.objSize hlir pd.extractPtr.obj then
    some (load pd.mem pd.extractPtr (lookaheadBytes size))
  else
    none

/-- One operation.  The result says whether the parser goes on. -/
def parserStep : ParserOp → PacketDescriptor → Option (Bool × PacketDescriptor)
  | .extract hdr width, pd => extractComponent hlir hdr width pd
  | .extractNested hdr, pd => (parserExtract hlir hdr (nestedVwlen hlir hdr) pd).map checkExtracted
  | .extractNestedStk stk, pd => extractNestedStk hlir stk pd
  | .advance size, pd => some (true, advance size pd)
  | .lookahead size, pd => (lookahead hlir size pd).map fun _ => (true, pd)

/-- The state `accept`. -/
def parserAccept (pd : PacketDescriptor) : PacketDescriptor :=
  { pd with payloadSize := pd.packetSize -
      (pd.extractPtr.off - (pd.data.map fun d => (d.off : ℤ)).getD 0) }

/-- A header that is not skipped, and for which the packet is long enough, is found at the
cursor. -/
theorem extractInto_of_remain {inst : HeaderInstance} {len i : ℕ} {pd : PacketDescriptor}
    (hskip : inst.isSkipped = false)
    (hremain : pd.parsedSize + (inst.size + len) / 8 ≤ pd.wrapper.pktLen) :
    extractInto inst len i pd = (.parsed ((inst.size + len) / 8),
      { pd.setHeader i
          { parsedHeader inst len (pd.headers i) with pointer := some pd.extractPtr } with
        parsedSize := pd.parsedSize + (inst.size + len) / 8
        extractPtr := pd.extractPtr + (inst.size + len) / 8 }) := by
  rw [extractInto]
  exact (if_neg (Nat.not_lt.mpr hremain)).trans (if_neg (ne_true_of_eq_false hskip))

/-- A parser statement goes on if the extraction has not failed. -/
theorem checkExtracted_fst (r : ParseResult × PacketDescriptor) :
    (checkExtracted r).1 = !r.1.isNegative := by
  rw [checkExtracted]
  cases r.1.isNegative <;> rfl

theorem checkExtracted_snd {r : ParseResult × PacketDescriptor} (h : r.1.isNegative = false) :
    (checkExtracted r).2 = r.2 := by
  rw [checkExtracted, h]
  rfl

theorem checkExtracted_headers (r : ParseResult × PacketDescriptor) :
    (checkExtracted r).2.headers = r.2.headers := by
  rw [checkExtracted]
  split <;> rfl

theorem checkExtracted_eq_true {r : ParseResult × PacketDescriptor} {pd : PacketDescriptor}
    (h : checkExtracted r = (true, pd)) : r.1.isNegative = false ∧ pd = r.2 := by
  have hneg : r.1.isNegative = false := by
    rw [← Bool.not_eq_true', ← checkExtracted_fst, h]
  exact ⟨hneg, by rw [← checkExtracted_snd hneg, h]⟩

theorem checkExtracted_eq_false {r : ParseResult × PacketDescriptor} {pd : PacketDescriptor}
    (h : checkExtracted r = (false, pd)) : pd.isPacketDropped = true := by
  rw [checkExtracted] at h
  split at h <;> cases h
  rfl

theorem checkExtracted_eq (r : ParseResult × PacketDescriptor) :
    ∃ port, checkExtracted r = (!r.1.isNegative, { r.2 with egressPort := port }) := by
  rw [checkExtracted]
  split
  · next hneg => exact ⟨egressDropValue, by rw [hneg]; rfl⟩
  · next hneg => exact ⟨r.2.egressPort, by rw [eq_false_of_ne_true hneg]; rfl⟩

theorem markSkipped_eq (r : Bool × PacketDescriptor) :
    ∃ b, markSkipped hlir r = (r.1, { r.2 with isDeparseReordering := b }) := by
  rw [markSkipped]
  split
  · exact ⟨_, rfl⟩
  · exact ⟨r.2.isDeparseReordering, rfl⟩

theorem markSkipped_headers (r : Bool × PacketDescriptor) :
    (markSkipped hlir r).2.headers = r.2.headers := by
  rw [markSkipped]
  split <;> rfl

theorem nextElement_eq (hdr : ℕ) (pd : PacketDescriptor) :
    ∃ f, nextElement hlir hdr pd = { pd with stkCurrent := f } := by
  rw [nextElement]
  split
  · exact ⟨pd.stkCurrent, rfl⟩
  · exact ⟨_, rfl⟩

/-- What a successful extraction changes. -/
theorem parserExtract_parsed {hlir : Hlir} {hdr len : ℕ} {pd pd' : PacketDescriptor}
    {r : ParseResult} (hx : parserExtract hlir hdr len pd = some (r, pd'))
    (hr : r.isNegative = false) :
    ∃ f d k, pd' = { pd.setHeader (extractTarget hlir hdr pd) d with
        stkCurrent := f
        parsedSize := pd.parsedSize + k
        extractPtr := pd.extractPtr + ((hlir.headerInstance hdr).size + len) / 8 } ∧
      pd.parsedSize + k ≤ pd.wrapper.pktLen ∧
      (¬ (hlir.headerInstance hdr).isSkipped = true →
        k = ((hlir.headerInstance hdr).size + len) / 8 ∧
          d.block = some ⟨pd.extractPtr, ((hlir.headerInstance hdr).size + len) / 8⟩) := by
  obtain ⟨f, hf⟩ := nextElement_eq hlir hdr pd
  obtain ⟨-, hx⟩ := Option.ite_none_right_eq_some.mp hx
  rw [Option.some_inj, ← extractTarget, hf, extractInto] at hx
  split at hx
  · cases hx; cases hr
  · next hend =>
    split at hx
    · next hinst =>
      dsimp only at hx
      split at hx
      · cases hx; cases hr
      · next hskipped =>
        cases hx
        exact ⟨f, _, _, rfl, Nat.not_lt.mp hskipped, fun h => absurd hinst h⟩
    · cases hx
      exact ⟨f, _, _, rfl, Nat.not_lt.mp hend, fun _ => ⟨rfl, rfl⟩⟩

theorem parserExtract_flag {hlir : Hlir} {hdr len : ℕ} {pd pd' : PacketDescriptor}
    {r : ParseResult} (hx : parserExtract hlir hdr len pd = some (r, pd')) :
    pd'.isDeparseReordering = pd.isDeparseReordering := by
  obtain ⟨f, hf⟩ := nextElement_eq hlir hdr pd
  obtain ⟨-, hx⟩ := Option.ite_none_right_eq_some.mp hx
  rw [Option.some_inj, hf, extractInto] at hx
  split at hx
  · cases hx; rfl
  · split at hx
    · dsimp only at hx
      split at hx <;> cases hx <;> rfl
    · cases hx; rfl

/-! ### The cursors agree -/

/-- The two cursors agree, inside the packet, and each header found in the packet
lies in the part that they have passed. -/
structure CursorInv (pd : PacketDescriptor) : Prop where
  mbuf : pd.wrapper.InOrder
  data_eq : pd.data = some pd.wrapper.mtod
  parsedSize_le : pd.parsedSize ≤ pd.wrapper.pktLen
  extractPtr_eq : pd.extractPtr = pd.wrapper.mtod + pd.parsedSize
  header_in : ∀ i, (hlir.headerInstance i).isMetadata = false → ∀ p ∈ (pd.headers i).pointer,
    p.obj = .buf ∧ pd.wrapper.dataOff ≤ p.off ∧
      p.off + (pd.headers i).size ≤ pd.wrapper.dataOff + pd.parsedSize

/-- The bytes that an operation needs to find in the packet.  The length of a varbit is the one
that the code computes, `vwlen`. -/
def need (op : ParserOp) (pd : PacketDescriptor) : ℕ :=
  match op with
  | .extract hdr width => ((hlir.headerInstance hdr).size + (vwlen hlir hdr width).getD 0) / 8
  | .extractNested hdr => ((hlir.headerInstance hdr).size + nestedVwlen hlir hdr) / 8
  | .extractNestedStk stk =>
    ((hlir.headerInstance (stkAtIdx hlir stk (pd.stkCurrent stk + 1)).toNat).size +
      nestedVwlen hlir (stkHdr hlir stk pd).toNat) / 8
  | .advance size => (size + 7) / 8
  | .lookahead size => (size + 7) / 8

/-- What the operation must do when the result is `r`. -/
structure StepCorrect (op : ParserOp) (pd : PacketDescriptor) (r : Bool × PacketDescriptor) :
    Prop where
  inv : CursorInv hlir r.2
  reads : ∀ size, op = .lookahead size → ∀ i < lookaheadBytes size,
    InBlock (pd.extractPtr + i) pd.wrapper.mtod pd.wrapper.pktLen
  past_end : pd.wrapper.pktLen < pd.parsedSize + need hlir op pd → r.1 = false
  failed : r.1 = false → r.2.isPacketDropped = true

/-- Extracting `hdr` is safe: it stays inside the array of descriptors, a skipped
header moves both cursors alike, and a header that is valid already gets no longer, or
it fits into the packet. -/
structure ExtractSafe (hdr len : ℕ) (pd : PacketDescriptor) : Prop where
  nonneg : 0 ≤ hdrinst hlir hdr (nextElement hlir hdr pd)
  in_array : hdrinst hlir hdr (nextElement hlir hdr pd) ≤ hlir.headerCount
  skip : (hlir.headerInstance hdr).isSkipped = true →
    skipBytes (hlir.headerInstance hdr) = ((hlir.headerInstance hdr).size + len) / 8
  again : ∀ i : ℕ, hdrinst hlir hdr (nextElement hlir hdr pd) = i →
    (pd.headers i).pointer = none ∨
      ((hlir.headerInstance hdr).size + len) / 8 ≤ (pd.headers i).size ∨
        pd.parsedSize + ((hlir.headerInstance hdr).size + len) / 8 ≤ pd.wrapper.pktLen

/-- The operations that keep the cursors together. -/
def StepSafe (op : ParserOp) (pd : PacketDescriptor) : Prop :=
  match op with
  | .extract hdr width => ∀ len ∈ vwlen hlir hdr width, ExtractSafe hlir hdr len pd
  | .extractNested hdr => ExtractSafe hlir hdr (nestedVwlen hlir hdr) pd
  | .extractNestedStk stk => 0 ≤ stkHdr hlir stk pd ∧
    (pd.stkCurrent stk + 1 < (hlir.headerStacks.getD stk default).size →
      ExtractSafe hlir (stkAtIdx hlir stk (pd.stkCurrent stk + 1)).toNat
        (nestedVwlen hlir (stkHdr hlir stk pd).toNat) pd)
  | .advance size => size = 0
  | .lookahead size => pd.parsedSize + lookaheadBytes size ≤ pd.wrapper.pktLen ∧
    pd.parsedSize + (size + 7) / 8 ≤ pd.wrapper.pktLen

variable {hlir}

theorem CursorInv.dropPacket {pd : PacketDescriptor} (h : CursorInv hlir pd) :
    CursorInv hlir (dropPacket pd) :=
  ⟨h.mbuf, h.data_eq, h.parsedSize_le, h.extractPtr_eq, h.header_in⟩

theorem CursorInv.nextElement {pd : PacketDescriptor} (h : CursorInv hlir pd) (hdr : ℕ) :
    CursorInv hlir (nextElement hlir hdr pd) := by
  rw [T4P4S.nextElement]
  split
  · exact h
  · exact ⟨h.mbuf, h.data_eq, h.parsedSize_le, h.extractPtr_eq, h.header_in⟩

/-- Both cursors move by `k`, and one header changes to one in the part passed. -/
theorem CursorInv.move {pd : PacketDescriptor} (h : CursorInv hlir pd) {i k : ℕ}
    {d : HeaderDescriptor} (hk : pd.parsedSize + k ≤ pd.wrapper.pktLen)
    (hd : (hlir.headerInstance i).isMetadata = false → ∀ p ∈ d.pointer,
      p.obj = .buf ∧ pd.wrapper.dataOff ≤ p.off ∧
        p.off + d.size ≤ pd.wrapper.dataOff + (pd.parsedSize + k)) :
    CursorInv hlir { pd.setHeader i d with
      parsedSize := pd.parsedSize + k, extractPtr := pd.extractPtr + k } := by
  refine ⟨h.mbuf, h.data_eq, hk, ?_, ?_⟩
  · dsimp only
    rw [h.extractPtr_eq, Ptr.add_add]
    rfl
  · intro j hmeta p hp
    dsimp only at hp ⊢
    rcases eq_or_ne j i with rfl | hj
    · rw [pd.setHeader_headers_self] at hp ⊢
      exact hd hmeta p hp
    · rw [pd.setHeader_headers_of_ne d hj] at hp ⊢
      obtain ⟨hobj, hlo, hhi⟩ := h.header_in j hmeta p hp
      exact ⟨hobj, hlo, show _ ≤ pd.wrapper.dataOff + (pd.parsedSize + k) by omega⟩

/-- The state after an extraction, whether it succeeded or not. -/
theorem extractInto_spec {pd : PacketDescriptor} (h : CursorInv hlir pd) {inst : HeaderInstance}
    {len i : ℕ} (hskip : inst.isSkipped = true → skipBytes inst = (inst.size + len) / 8)
    (hagain : (pd.headers i).pointer = none ∨ (inst.size + len) / 8 ≤ (pd.headers i).size ∨
      pd.parsedSize + (inst.size + len) / 8 ≤ pd.wrapper.pktLen) :
    CursorInv hlir (extractInto inst len i pd).2 ∧
      (pd.wrapper.pktLen < pd.parsedSize + (inst.size + len) / 8 →
        (extractInto inst len i pd).1.isNegative = true) := by
  rw [extractInto]
  by_cases hend : pd.wrapper.pktLen < pd.parsedSize + (inst.size + len) / 8
  · simp only [parsedHeader, hend, if_true]
    refine ⟨h.move (k := 0) h.parsedSize_le ?_, fun _ => rfl⟩
    intro hmeta p hp
    have hsize : (inst.size + len) / 8 ≤ (pd.headers i).size := by
      refine (hagain.resolve_left fun hnone => ?_).resolve_right (by omega)
      rw [hnone] at hp
      cases hp
    obtain ⟨hobj, hlo, hhi⟩ := h.header_in i hmeta p hp
    exact ⟨hobj, hlo, (Nat.add_le_add_left hsize _).trans hhi⟩
  · simp only [parsedHeader, hend, if_false, false_implies, and_true]
    rw [Nat.not_lt] at hend
    by_cases hinst : inst.isSkipped = true
    · -- the second check of a skipped header is the first one again
      simp only [hinst, if_true, hskip hinst, PacketDescriptor.setHeader_wrapper,
        PacketDescriptor.setHeader_parsedSize, Nat.not_lt.mpr hend, if_false]
      refine h.move hend ?_
      intro _ p hp
      cases hp
    · simp only [hinst]
      refine h.move hend ?_
      intro _ p hp
      rw [Option.mem_some_iff] at hp
      subst hp
      rw [h.extractPtr_eq]
      exact ⟨rfl, Nat.le_add_right _ _, by simp [Mbuf.mtod, Nat.add_assoc]⟩

/-- What an extraction gives to the statement it stands in. -/
theorem parserExtract_spec {hdr len : ℕ} {pd : PacketDescriptor} (h : CursorInv hlir pd)
    (hsafe : ExtractSafe hlir hdr len pd) : ∃ r, parserExtract hlir hdr len pd = some r ∧
      CursorInv hlir r.2 ∧
        (pd.wrapper.pktLen < pd.parsedSize + ((hlir.headerInstance hdr).size + len) / 8 →
          r.1.isNegative = true) := by
  obtain ⟨hnonneg, harray, hskip, hagain⟩ := hsafe
  obtain ⟨i, hi⟩ := Int.eq_ofNat_of_zero_le hnonneg
  have hfields : (nextElement hlir hdr pd).headers = pd.headers ∧
      (nextElement hlir hdr pd).parsedSize = pd.parsedSize ∧
        (nextElement hlir hdr pd).wrapper = pd.wrapper := by
    rw [nextElement]
    split <;> exact ⟨rfl, rfl, rfl⟩
  obtain ⟨hheaders, hparsed, hwrapper⟩ := hfields
  have hagain' := hagain i hi
  rw [← hheaders, ← hparsed, ← hwrapper] at hagain'
  refine ⟨extractInto (hlir.headerInstance hdr) len i (nextElement hlir hdr pd), ?_, ?_⟩
  · rw [parserExtract]
    rw [if_pos ⟨hnonneg, harray⟩, hi, Int.toNat_natCast]
  · have hspec := extractInto_spec (h.nextElement hdr) hskip hagain'
    rwa [hparsed, hwrapper] at hspec

theorem checkExtracted_spec {r : ParseResult × PacketDescriptor} (h : CursorInv hlir r.2) :
    CursorInv hlir (checkExtracted r).2 ∧ ((checkExtracted r).1 = !r.1.isNegative) ∧
      ((checkExtracted r).1 = false → (checkExtracted r).2.isPacketDropped = true) := by
  refine ⟨?_, checkExtracted_fst r, fun hfalse => checkExtracted_eq_false (Prod.ext hfalse rfl)⟩
  rw [checkExtracted]
  split
  · exact h.dropPacket
  · exact h

theorem markSkipped_spec {r : Bool × PacketDescriptor} (h : CursorInv hlir r.2) :
    CursorInv hlir (markSkipped hlir r).2 ∧ (markSkipped hlir r).1 = r.1 ∧
      (markSkipped hlir r).2.isPacketDropped = r.2.isPacketDropped := by
  rw [markSkipped]
  split
  · exact ⟨⟨h.mbuf, h.data_eq, h.parsedSize_le, h.extractPtr_eq, h.header_in⟩, rfl, rfl⟩
  · exact ⟨h, rfl, rfl⟩

/-- An extraction statement fails, with the packet dropped, when the header does
not fit into the rest of the packet. -/
theorem extractStatement_spec {hdr len : ℕ} {pd : PacketDescriptor} (h : CursorInv hlir pd)
    (hsafe : ExtractSafe hlir hdr len pd) :
    ∃ r, (parserExtract hlir hdr len pd).map checkExtracted = some r ∧ CursorInv hlir r.2 ∧
      (pd.wrapper.pktLen < pd.parsedSize + ((hlir.headerInstance hdr).size + len) / 8 →
        r.1 = false) ∧ (r.1 = false → r.2.isPacketDropped = true) := by
  obtain ⟨r, hr, hinv, hend⟩ := parserExtract_spec h hsafe
  obtain ⟨hinv', hneg, hdrop⟩ := checkExtracted_spec hinv
  refine ⟨checkExtracted r, by rw [hr, Option.map_some], hinv', ?_, hdrop⟩
  intro hlt
  rw [hneg, hend hlt, Bool.not_true]

/-- What one safe operation does. -/
theorem parserStep_spec {pd : PacketDescriptor} (h : CursorInv hlir pd) {op : ParserOp}
    (hsafe : StepSafe hlir op pd) :
    ∃ r, parserStep hlir op pd = some r ∧ StepCorrect hlir op pd r := by
  have hnoRead : ∀ {op' : ParserOp}, (∀ size, op' ≠ .lookahead size) → ∀ size,
      op' = .lookahead size → ∀ i < lookaheadBytes size,
        InBlock (pd.extractPtr + i) pd.wrapper.mtod pd.wrapper.pktLen :=
    fun hop size heq => absurd heq (hop size)
  cases op with
  | extract hdr width =>
    rw [parserStep, extractComponent]
    cases hlen : vwlen hlir hdr width with
    | none =>
      refine ⟨_, rfl, h.dropPacket, hnoRead nofun, fun _ => rfl, fun _ => rfl⟩
    | some len =>
      obtain ⟨r, hr, hinv, hend⟩ := parserExtract_spec h (hsafe len hlen)
      obtain ⟨hinv', hneg, hdrop⟩ := checkExtracted_spec hinv
      obtain ⟨hinv'', hok, hdropped⟩ := markSkipped_spec hinv'
      refine ⟨markSkipped hlir (checkExtracted r), by simp only [hr, Option.map_some], hinv'',
        hnoRead nofun, ?_, ?_⟩
      -- A header that does not fit gives a negative result, whatever is marked afterwards.
      · intro hlt
        rw [need, hlen, Option.getD_some] at hlt
        rw [hok, hneg, hend hlt, Bool.not_true]
      · intro hfalse
        rw [hdropped]
        exact hdrop (hok.symm.trans hfalse)
  | extractNested hdr =>
    obtain ⟨r, hr, hinv, hend, hdrop⟩ := extractStatement_spec h hsafe
    exact ⟨r, hr, hinv, hnoRead nofun, hend, hdrop⟩
  | extractNestedStk stk =>
    obtain ⟨hcurrent, hstk⟩ := hsafe
    rw [parserStep, extractNestedStk, if_pos hcurrent, parserExtractStk]
    by_cases hidx : 0 ≤ pd.stkCurrent stk + 1 ∧
        pd.stkCurrent stk + 1 < (hlir.headerStacks.getD stk default).size
    · rw [if_pos hidx]
      obtain ⟨r, hr, hinv, hend, hdrop⟩ := extractStatement_spec h (hstk hidx.2)
      exact ⟨r, hr, hinv, hnoRead nofun, hend, hdrop⟩
    -- The stack is full: the packet is dropped before anything is read.
    · rw [if_neg hidx]
      exact ⟨_, rfl, h.dropPacket, hnoRead nofun, fun _ => rfl, fun _ => rfl⟩
  | advance size =>
    rw [StepSafe] at hsafe
    -- It moves the cursor and nothing else, so it is safe only if it does not move it at all.
    subst hsafe
    refine ⟨_, rfl, ⟨h.mbuf, h.data_eq, h.parsedSize_le, h.extractPtr_eq, h.header_in⟩, hnoRead nofun,
      ?_, fun hfalse => by cases hfalse⟩
    intro hlt
    exact absurd hlt (Nat.not_lt.mpr h.parsedSize_le)
  | lookahead size =>
    obtain ⟨hread, hneed⟩ := hsafe
    -- The bytes that are read end in the packet, and this ends in its buffer.
    have hbuf : pd.extractPtr.off + lookaheadBytes size ≤ pd.objSize hlir pd.extractPtr.obj := by
      have := h.mbuf.pktLen_eq
      have := h.mbuf.data_le
      rw [h.extractPtr_eq]
      simp only [Mbuf.mtod, Ptr.off_add, Ptr.obj_add, PacketDescriptor.objSize]
      omega
    refine ⟨(true, pd), ?_, h, ?_, fun hlt => ?_, fun hfalse => by cases hfalse⟩
    · rw [parserStep, lookahead, if_pos hbuf, Option.map_some]
    · rintro size' heq i hi
      cases heq
      rw [h.extractPtr_eq]
      refine ⟨rfl, ?_, ?_⟩
      · simp only [Ptr.off_add]; omega
      · simp only [Ptr.off_add]; omega
    · exact absurd hlt (Nat.not_lt.mpr hneed)

/-! ### Runs of the parser -/

/-- The states that a parser reaches, with operations that meet the condition `C`,
and goes on from. -/
inductive ParserRun (hlir : Hlir) (C : ParserOp → PacketDescriptor → Prop)
    (pd₀ : PacketDescriptor) : PacketDescriptor → Prop
  | start : ParserRun hlir C pd₀ pd₀
  | step {pd pd' : PacketDescriptor} {op : ParserOp} (hrun : ParserRun hlir C pd₀ pd)
    (hop : C op pd) (hstep : parserStep hlir op pd = some (true, pd')) :
    ParserRun hlir C pd₀ pd'

/-- The cursors agree when the parser starts. -/
theorem startPacket_cursorInv {init pd₀ : PacketDescriptor} (hmbuf : init.wrapper.InOrder)
    (hdata : init.data = some init.wrapper.mtod) (h : startPacket hlir init = some pd₀) :
    CursorInv hlir pd₀ := by
  rw [startPacket, hdata, Option.map_some, Option.some_inj] at h
  subst h
  refine ⟨hmbuf, hdata, Nat.zero_le _, rfl, ?_⟩
  intro i hmeta p hp
  simp only [resetHeaders, resetVwFields, hmeta] at hp
  split at hp <;> cases hp

/-- **In every run of safe operations the cursors agree, lookaheads stay inside the
packet, and what would go past its end drops it.** -/
theorem parser_cursorInv {init pd₀ pd : PacketDescriptor} (hmbuf : init.wrapper.InOrder)
    (hdata : init.data = some init.wrapper.mtod) (hstart : startPacket hlir init = some pd₀)
    (hrun : ParserRun hlir (StepSafe hlir) pd₀ pd) :
    CursorInv hlir pd ∧ ∀ op, StepSafe hlir op pd →
      ∃ r, parserStep hlir op pd = some r ∧ StepCorrect hlir op pd r := by
  have hinv : CursorInv hlir pd := by
    induction hrun with
    | start => exact startPacket_cursorInv hmbuf hdata hstart
    | step _ hsafe hstep ih =>
      obtain ⟨r, hr, hcorrect⟩ := parserStep_spec ih hsafe
      rw [hstep, Option.some_inj] at hr
      subst hr
      exact hcorrect.inv
  exact ⟨hinv, fun op hsafe => parserStep_spec hinv hsafe⟩

/-! ### A packet of four bytes, of which 24 bits are skipped with `advance` -/

/-- One header, of four bytes. -/
def advanceHlir : Hlir where
  headerInstances := [{ size := 32, byteWidth := 4 }]

/-- The descriptor before the packet comes. -/
def advanceInit : PacketDescriptor where
  mem _ := 0
  wrapper := { dataOff := 0, dataLen := 4, pktLen := 4, bufLen := 4 }
  data := some ⟨.buf, 0⟩
  extractPtr := ⟨.buf, 0⟩
  headers i :=
    { type := i, pointer := none, size := 4, vwSize := 0, wasEnabledAtInitialParse := false }
  stkCurrent _ := -1
  headerReorder := []
  deparseSize := 0
  parsedSize := 0
  payloadSize := 0
  isDeparseReordering := false
  egressPort := 0

-- After the advance the header is found in bytes `3` to `6` of the four.
example :
    (((startPacket advanceHlir advanceInit).bind (parserStep advanceHlir (.advance 24))).bind
      fun r => (parserStep advanceHlir (.extract 0 none) r.2).map fun r' =>
        (r.1, r.2.extractPtr, r.2.parsedSize, r'.1, (r'.2.headers 0).block)) =
      some (true, ⟨.buf, 3⟩, 0, true, some ⟨⟨.buf, 3⟩, 4⟩) := by
  decide

theorem advance_not_cursorInv : ¬ ∀ (hlir : Hlir) (init pd₀ pd : PacketDescriptor),
    init.wrapper.InOrder → init.data = some init.wrapper.mtod →
      startPacket hlir init = some pd₀ → ParserRun hlir (fun _ _ => True) pd₀ pd →
        CursorInv hlir pd := by
  intro h
  have hinv := h advanceHlir advanceInit _ _ ⟨rfl, by decide, by decide⟩ rfl rfl
    (@ParserRun.step _ _ _ _ _ (.advance 24) .start trivial rfl)
  have hptr := hinv.extractPtr_eq
  revert hptr
  decide

/-- Looking ahead and extracting the header is safe. -/
theorem lookahead_then_extract_cursorInv : ∃ pd₀ pd,
    startPacket advanceHlir advanceInit = some pd₀ ∧
      ParserRun advanceHlir (StepSafe advanceHlir) pd₀ pd ∧ pd.parsedSize = 4 ∧
        CursorInv advanceHlir pd ∧ ∀ op, StepSafe advanceHlir op pd →
          ∃ r, parserStep advanceHlir op pd = some r ∧ StepCorrect advanceHlir op pd r := by
  have hmbuf : advanceInit.wrapper.InOrder := ⟨rfl, by decide, by decide⟩
  have hsafe : ∀ pd₀, startPacket advanceHlir advanceInit = some pd₀ →
      StepSafe advanceHlir (.lookahead 16) pd₀ ∧ StepSafe advanceHlir (.extract 0 none) pd₀ := by
    rintro pd₀ hpd₀
    cases hpd₀
    refine ⟨⟨by decide, by decide⟩, ?_⟩
    intro len hlen
    cases hlen
    refine ⟨by decide, by decide, by decide, fun i hi => .inl ?_⟩
    obtain rfl : i = 0 := (Int.ofNat.inj hi).symm
    rfl
  have hlook := @ParserRun.step advanceHlir _ _ _ _ (.lookahead 16) .start (hsafe _ rfl).1 rfl
  have hrun := @ParserRun.step advanceHlir _ _ _ _ (.extract 0 none) hlook (hsafe _ rfl).2 rfl
  exact ⟨_, _, rfl, hrun, rfl, parser_cursorInv hmbuf rfl rfl hrun⟩

end T4P4S
