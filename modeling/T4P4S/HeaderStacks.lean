/-
Header stacks: the extractions that fill them.

A stack counts its elements with an index, which the extractor of an element moves
before it looks up the element that it fills.  `extract(stk.next)` as a state component
calls the extractor of element `0`; inside of another statement it calls the
dispatcher of the stack, which compares the index with the number of elements.

* **`extractStkCall_next`** — the header that `stk.next` names, and the length it gets;
* **`extractStkCall_index`** — an extraction of `stk[i]` moves the index as well;
* **`stackLaw_iff`** — the exact sequences of calls that fill the stack in order.
-/
import T4P4S.Parser

open CMem

namespace T4P4S

variable (hlir : Hlir) (stk : ℕ)

/-- `stk_infos[stk]` -/
def stkInfo : HeaderStack := hlir.headerStacks.getD stk default

/-- The elements are header instances of one size, one behind the other. -/
structure StackElements : Prop where
  in_headers : ∀ i < (stkInfo hlir stk).size,
    (stkInfo hlir stk).startHdr + i < hlir.headerInstances.length
  stack_eq : ∀ i < (stkInfo hlir stk).size,
    (hlir.headerInstance ((stkInfo hlir stk).startHdr + i)).stack = some stk
  size_eq : ∀ i < (stkInfo hlir stk).size,
    (hlir.headerInstance ((stkInfo hlir stk).startHdr + i)).size =
      (hlir.headerInstance (stkInfo hlir stk).startHdr).size

/-! ### The calls -/

/-- `extract(stk.next)` and `extract(stk[i])`, as a state component or `nested` in another
statement. -/
inductive StkCall (hlir : Hlir) (stk : ℕ)
  | next (nested : Bool)
  | index (i : Fin (stkInfo hlir stk).size) (nested : Bool)

/-- The operation that is generated. -/
def StkCall.op : StkCall hlir stk → ParserOp
  | .next false => .extract (stkInfo hlir stk).startHdr none
  | .next true => .extractNestedStk stk
  | .index i false => .extract ((stkInfo hlir stk).startHdr + i) none
  | .index i true => .extractNested ((stkInfo hlir stk).startHdr + i)

/-- The call of an extractor inside of the operation. -/
def extractStkCall (call : StkCall hlir stk) (pd : PacketDescriptor) :
    Option (ParseResult × PacketDescriptor) :=
  match call with
  | .next false => parserExtract hlir (stkInfo hlir stk).startHdr 0 pd
  | .next true =>
    if 0 ≤ stkHdr hlir stk pd then
      parserExtractStk hlir stk (nestedVwlen hlir (stkHdr hlir stk pd).toNat) pd
    else
      none
  | .index i false => parserExtract hlir ((stkInfo hlir stk).startHdr + i) 0 pd
  | .index i true =>
    parserExtract hlir ((stkInfo hlir stk).startHdr + i)
      (nestedVwlen hlir ((stkInfo hlir stk).startHdr + i)) pd

variable {hlir stk}

/-- What the operation does with the result of the call. -/
def afterCall (call : StkCall hlir stk) (r : ParseResult × PacketDescriptor) :
    Bool × PacketDescriptor :=
  match call with
  | .next false | .index _ false => markSkipped hlir (checkExtracted r)
  | .next true | .index _ true => checkExtracted r

theorem parserStep_op (call : StkCall hlir stk) (pd : PacketDescriptor) :
    parserStep hlir (call.op hlir stk) pd =
      (extractStkCall hlir stk call pd).map (afterCall call) := by
  rcases call with (_ | _) | ⟨i, (_ | _)⟩
  · rfl
  · show extractNestedStk hlir stk pd = _
    rw [extractNestedStk, extractStkCall]
    split <;> rfl
  · rfl
  · rfl

/-! ### What the calls have to do -/

variable (hlir stk)

/-- The number of bytes of an element. -/
def elementBytes : ℕ := (hlir.headerInstance (stkInfo hlir stk).startHdr).size / 8

/-- Element `i` became valid with the bytes at the cursor, which moved behind them, and
no other header changed. -/
structure ElementExtracted (i : ℕ) (pd pd' : PacketDescriptor) : Prop where
  block : (pd'.headers ((stkInfo hlir stk).startHdr + i)).block =
    some ⟨pd.extractPtr, elementBytes hlir stk⟩
  others : ∀ j ≠ (stkInfo hlir stk).startHdr + i, pd'.headers j = pd.headers j
  parsedSize : pd'.parsedSize = pd.parsedSize + elementBytes hlir stk
  extractPtr : pd'.extractPtr = pd.extractPtr + elementBytes hlir stk

/-- The extractor returned `PARSED_OVER_STACK_SIZE`, nothing was consumed, no header
changed and the packet was dropped. -/
structure OverStack (call : StkCall hlir stk) (pd : PacketDescriptor)
    (r : Bool × PacketDescriptor) : Prop where
  result : (extractStkCall hlir stk call pd).map Prod.fst = some .overStackSize
  stops : r.1 = false
  dropped : r.2.isPacketDropped = true
  headers : r.2.headers = pd.headers
  parsedSize : r.2.parsedSize = pd.parsedSize
  extractPtr : r.2.extractPtr = pd.extractPtr

variable {hlir stk}

/-- The law for the calls that follow `k` extractions of `stk.next`. -/
def StackLaw : ℕ → List (StkCall hlir stk) → PacketDescriptor → Prop
  | _, [], _ => True
  | k, call :: calls, pd =>
    ∃ r, parserStep hlir (call.op hlir stk) pd = some r ∧
      match call with
      | .next _ =>
        if k < (stkInfo hlir stk).size then
          r.1 = true ∧ ElementExtracted hlir stk k pd r.2 ∧
            stkHdr hlir stk r.2 = (stkInfo hlir stk).startHdr + k ∧ StackLaw (k + 1) calls r.2
        else
          OverStack hlir stk call pd r
      | .index i _ =>
        r.1 = true ∧ ElementExtracted hlir stk i pd r.2 ∧
          r.2.stkCurrent stk = pd.stkCurrent stk ∧ StackLaw k calls r.2

variable (hlir stk)

/-- The header instance whose extractor the next element is extracted with. -/
def nextExtractor (nested : Bool) (k : ℕ) : ℕ :=
  if nested then (stkInfo hlir stk).startHdr + k else (stkInfo hlir stk).startHdr

/-- The length of a variable-width field that the next element is extracted with: the
one of the header instance in front of it. -/
def nextVwlen (nested : Bool) (k : ℕ) : ℕ :=
  if nested then nestedVwlen hlir ((stkInfo hlir stk).startHdr + k - 1) else 0

/-- The extraction of `stk.next` is right after `k` others.  In a state component it has
no bound; in a statement, the header instance in front of the element has to exist, and
to have no variable-width field. -/
def NextFits (nested : Bool) (k : ℕ) : Prop :=
  if k < (stkInfo hlir stk).size then
    (hlir.headerInstance (nextExtractor hlir stk nested k)).isSkipped = false ∧
      nextVwlen hlir stk nested k = 0 ∧ (nested = true → 0 < (stkInfo hlir stk).startHdr + k)
  else
    nested = true ∧ 0 < (stkInfo hlir stk).startHdr + k

instance (nested : Bool) (k : ℕ) : Decidable (NextFits hlir stk nested k) :=
  if hk : k < (stkInfo hlir stk).size then decidable_of_iff _ (iff_of_eq (if_pos hk)).symm
  else decidable_of_iff _ (iff_of_eq (if_neg hk)).symm

variable {hlir stk}

/-- No call is indexed, and each one is right, up to the one that finds the stack full. -/
def FillsInOrder : ℕ → List (StkCall hlir stk) → Prop
  | _, [] => True
  | _, .index _ _ :: _ => False
  | k, .next nested :: calls =>
    NextFits hlir stk nested k ∧ (k < (stkInfo hlir stk).size → FillsInOrder (k + 1) calls)

/-! ### One extraction -/

theorem extractInto_ne_overStackSize (inst : HeaderInstance) (len i : ℕ) (pd : PacketDescriptor) :
    (extractInto inst len i pd).1 ≠ .overStackSize := by
  rw [extractInto]
  split
  · exact ParseResult.noConfusion
  · split
    · dsimp only
      split <;> exact ParseResult.noConfusion
    · exact ParseResult.noConfusion

/-- What an extraction leaves alone. -/
theorem extractInto_frame (inst : HeaderInstance) (len i : ℕ) (pd : PacketDescriptor) :
    (extractInto inst len i pd).2.stkCurrent = pd.stkCurrent ∧
      (extractInto inst len i pd).2.wrapper = pd.wrapper := by
  rw [extractInto]
  split
  · exact ⟨rfl, rfl⟩
  · split
    · dsimp only
      split <;> exact ⟨rfl, rfl⟩
    · exact ⟨rfl, rfl⟩

/-- Behind a call the port and a mark of the deparser may change, and nothing else. -/
theorem afterCall_eq (call : StkCall hlir stk)
    (r : ParseResult × PacketDescriptor) :
    ∃ b port, afterCall call r =
      (!r.1.isNegative, { r.2 with isDeparseReordering := b, egressPort := port }) := by
  obtain ⟨port, hport⟩ := checkExtracted_eq r
  obtain ⟨b, hb⟩ := markSkipped_eq hlir (checkExtracted r)
  rw [hport] at hb
  have hmark : markSkipped hlir (checkExtracted r) =
      (!r.1.isNegative, { r.2 with isDeparseReordering := b, egressPort := port }) := by
    rw [hport, hb]
  rcases call with (_ | _) | ⟨i, (_ | _)⟩
  · exact ⟨b, port, hmark⟩
  · exact ⟨r.2.isDeparseReordering, port, hport⟩
  · exact ⟨b, port, hmark⟩
  · exact ⟨r.2.isDeparseReordering, port, hport⟩

/-- The extractor of an element moves the index, and looks the element up behind it. -/
theorem parserExtract_element (hstk : StackElements hlir stk) {i len : ℕ}
    (hi : i < (stkInfo hlir stk).size) (pd : PacketDescriptor) :
    parserExtract hlir ((stkInfo hlir stk).startHdr + i) len pd =
      if 0 ≤ stkHdr hlir stk (stkNext stk pd) ∧
          stkHdr hlir stk (stkNext stk pd) ≤ hlir.headerCount then
        some (extractInto (hlir.headerInstance ((stkInfo hlir stk).startHdr + i)) len
          (stkHdr hlir stk (stkNext stk pd)).toNat (stkNext stk pd))
      else
        none := by
  rw [parserExtract, nextElement, hdrinst, hstk.stack_eq i hi]

/-- `stk_current` after `k` extractions of `stk.next` and one more. -/
theorem stkHdr_stkNext {k : ℕ} {pd : PacketDescriptor} (hcur : pd.stkCurrent stk = (k : ℤ) - 1) :
    stkHdr hlir stk (stkNext stk pd) = ((stkInfo hlir stk).startHdr + k : ℕ) := by
  have hnext : (stkNext stk pd).stkCurrent stk = k := by
    show (if stk = stk then pd.stkCurrent stk + 1 else _) = (k : ℤ)
    rw [if_pos rfl, hcur]
    omega
  rw [stkHdr, stkAtIdx, hnext, Int.natCast_add]
  rfl

/-- An extraction of an element moves the index, whichever the element is. -/
theorem extractStkCall_index (hstk : StackElements hlir stk) {i : Fin (stkInfo hlir stk).size}
    {nested : Bool} {pd : PacketDescriptor} {r : ParseResult × PacketDescriptor}
    (h : extractStkCall hlir stk (.index i nested) pd = some r) :
    r.2.stkCurrent stk = pd.stkCurrent stk + 1 := by
  have hcall : ∃ len, extractStkCall hlir stk (.index i nested) pd =
      parserExtract hlir ((stkInfo hlir stk).startHdr + i) len pd := by
    cases nested
    · exact ⟨_, rfl⟩
    · exact ⟨_, rfl⟩
  obtain ⟨len, hlen⟩ := hcall
  rw [hlen, parserExtract_element hstk i.isLt] at h
  obtain ⟨-, h⟩ := Option.ite_none_right_eq_some.mp h
  rw [Option.some_inj] at h
  subst h
  rw [(extractInto_frame _ _ _ _).1]
  exact if_pos rfl

/-- What `extract(stk.next)` calls while the stack has room. -/
theorem extractStkCall_next (hstk : StackElements hlir stk) {k : ℕ} {pd : PacketDescriptor}
    (hcur : pd.stkCurrent stk = (k : ℤ) - 1) (hk : k < (stkInfo hlir stk).size) (nested : Bool) :
    extractStkCall hlir stk (.next nested) pd =
      if nested = true ∧ (stkInfo hlir stk).startHdr + k = 0 then none
      else some (extractInto (hlir.headerInstance (nextExtractor hlir stk nested k))
        (nextVwlen hlir stk nested k) ((stkInfo hlir stk).startHdr + k) (stkNext stk pd)) := by
  have hin : (0 : ℤ) ≤ ((stkInfo hlir stk).startHdr + k : ℕ) ∧
      (((stkInfo hlir stk).startHdr + k : ℕ) : ℤ) ≤ hlir.headerCount := by
    have hlt := hstk.in_headers k hk
    have hle : hlir.headerInstances.length ≤ hlir.headerCount := le_max_left _ _
    exact ⟨Int.natCast_nonneg _, by omega⟩
  have helem : ∀ i < (stkInfo hlir stk).size, ∀ len,
      parserExtract hlir ((stkInfo hlir stk).startHdr + i) len pd =
        some (extractInto (hlir.headerInstance ((stkInfo hlir stk).startHdr + i)) len
          ((stkInfo hlir stk).startHdr + k) (stkNext stk pd)) := by
    intro i hi len
    rw [parserExtract_element hstk hi, stkHdr_stkNext hcur, if_pos hin, Int.toNat_natCast]
  cases nested with
  | false =>
    rw [if_neg (fun h => Bool.noConfusion h.1)]
    exact helem 0 (by omega) 0
  | true =>
    have hhdr : stkHdr hlir stk pd = (stkInfo hlir stk).startHdr + ((k : ℤ) - 1) := by
      rw [stkHdr, stkAtIdx, hcur]
      rfl
    by_cases hzero : (stkInfo hlir stk).startHdr + k = 0
    -- the header instance in front of the stack's first one is number `-1`
    · rw [if_pos ⟨rfl, hzero⟩, extractStkCall, if_neg (by omega)]
    · have hfront : (stkHdr hlir stk pd).toNat = (stkInfo hlir stk).startHdr + k - 1 := by omega
      have hidx : stkAtIdx hlir stk (pd.stkCurrent stk + 1) =
          ((stkInfo hlir stk).startHdr + k : ℕ) := by
        rw [stkAtIdx, hcur, Int.natCast_add, Int.sub_add_cancel]
        rfl
      rw [if_neg (fun h => hzero h.2), extractStkCall, if_pos (by omega), hfront, parserExtractStk,
        if_pos ⟨by omega, by rw [hcur]; show _ < ((stkInfo hlir stk).size : ℤ); omega⟩, hidx,
        Int.toNat_natCast]
      exact helem k hk _

theorem nextVwlen_mod (nested : Bool) (k : ℕ) : nextVwlen hlir stk nested k % 8 = 0 := by
  rw [nextVwlen, nestedVwlen]
  split
  · split
    · exact Nat.mul_mod_left _ _
    · rfl
  · rfl

/-- An extraction fills its element iff it has the length of an element and does not
skip it. -/
theorem extractInto_element_iff {inst : HeaderInstance} {len k : ℕ} {pd : PacketDescriptor}
    (hsize : inst.size / 8 = elementBytes hlir stk) (hlen : len % 8 = 0)
    (hlong : pd.parsedSize + elementBytes hlir stk ≤ pd.wrapper.pktLen) :
    ((extractInto inst len ((stkInfo hlir stk).startHdr + k) (stkNext stk pd)).1.isNegative =
        false ∧
      ElementExtracted hlir stk k pd
        (extractInto inst len ((stkInfo hlir stk).startHdr + k) (stkNext stk pd)).2) ↔
      inst.isSkipped = false ∧ len = 0 := by
  set i := (stkInfo hlir stk).startHdr + k with hi
  have hbytes : (inst.size + len) / 8 = elementBytes hlir stk ↔ len = 0 := by omega
  constructor
  · rintro ⟨hneg, hblock, -, -, -⟩
    rw [extractInto] at hneg hblock
    split at hneg
    · cases hneg
    · next hend =>
      rw [if_neg hend] at hblock
      by_cases hskip : inst.isSkipped = true
      -- a skipped header has no pointer
      · rw [if_pos hskip] at hblock
        dsimp only at hblock
        split at hblock <;> simp [HeaderDescriptor.block, ← hi] at hblock
      · rw [if_neg hskip] at hblock
        simp only [HeaderDescriptor.block, ← hi, PacketDescriptor.setHeader_headers_self,
          Option.map_some, Option.some_inj, Block.mk.injEq] at hblock
        exact ⟨eq_false_of_ne_true hskip, hbytes.mp hblock.2⟩
  · rintro ⟨hskip, hzero⟩
    have hdr : (inst.size + len) / 8 = elementBytes hlir stk := hbytes.mpr hzero
    have hremain : (stkNext stk pd).parsedSize + (inst.size + len) / 8 ≤
        (stkNext stk pd).wrapper.pktLen := by
      rw [hdr]
      exact hlong
    rw [extractInto_of_remain hskip hremain, hdr]
    refine ⟨rfl, ?_, ?_, rfl, rfl⟩
    · show (((stkNext stk pd).setHeader i _).headers i).block = _
      rw [PacketDescriptor.setHeader_headers_self, ← hdr]
      rfl
    · intro j hj
      exact PacketDescriptor.setHeader_headers_of_ne _ _ hj

/-- The law of one call only looks at the part that `afterCall` leaves alone. -/
theorem ElementExtracted.afterCall_iff {k : ℕ} {pd : PacketDescriptor} (call : StkCall hlir stk)
    (r : ParseResult × PacketDescriptor) :
    (afterCall call r).1 = true ∧ ElementExtracted hlir stk k pd (afterCall call r).2 ↔
      r.1.isNegative = false ∧ ElementExtracted hlir stk k pd r.2 := by
  obtain ⟨b, port, h⟩ := afterCall_eq call r
  rw [h, Bool.not_eq_true']
  exact and_congr_right' ⟨fun ⟨hb, ho, hp, he⟩ => ⟨hb, ho, hp, he⟩,
    fun ⟨hb, ho, hp, he⟩ => ⟨hb, ho, hp, he⟩⟩

/-- `extract(stk.next)` while the stack has room. -/
theorem next_room_iff (hstk : StackElements hlir stk) {k : ℕ} {pd : PacketDescriptor}
    (hcur : pd.stkCurrent stk = (k : ℤ) - 1) (hk : k < (stkInfo hlir stk).size)
    (hlong : pd.parsedSize + elementBytes hlir stk ≤ pd.wrapper.pktLen) (nested : Bool) :
    (∃ r, extractStkCall hlir stk (.next nested) pd = some r ∧ (r.1.isNegative = false ∧
      ElementExtracted hlir stk k pd r.2)) ↔ NextFits hlir stk nested k := by
  rw [extractStkCall_next hstk hcur hk, NextFits, if_pos hk]
  by_cases hfirst : nested = true ∧ (stkInfo hlir stk).startHdr + k = 0
  · rw [if_pos hfirst]
    refine iff_of_false (fun ⟨r, hr, _⟩ => (Option.some_ne_none r).symm hr) ?_
    rintro ⟨-, -, hfront⟩
    exact (hfront hfirst.1).ne' hfirst.2
  · have hsize : (hlir.headerInstance (nextExtractor hlir stk nested k)).size / 8 =
        elementBytes hlir stk := by
      cases nested
      · rfl
      · exact congrArg (· / 8) (hstk.size_eq k hk)
    have hfront : nested = true → 0 < (stkInfo hlir stk).startHdr + k :=
      fun hn => Nat.pos_of_ne_zero fun hzero => hfirst ⟨hn, hzero⟩
    rw [if_neg hfirst, ← and_assoc, and_iff_left hfront,
      ← extractInto_element_iff hsize (nextVwlen_mod nested k) hlong]
    constructor
    · rintro ⟨r, hr, h⟩
      rw [Option.some_inj] at hr
      subst hr
      exact h
    · exact fun h => ⟨_, rfl, h⟩

/-- Behind `extract(stk.next)` the index is that of the element which was extracted. -/
theorem extractStkCall_next_frame (hstk : StackElements hlir stk) {k : ℕ} {pd : PacketDescriptor}
    (hcur : pd.stkCurrent stk = (k : ℤ) - 1) (hk : k < (stkInfo hlir stk).size) {nested : Bool}
    {r : ParseResult × PacketDescriptor} (hr : extractStkCall hlir stk (.next nested) pd = some r) :
    r.2.stkCurrent stk = k ∧ r.2.wrapper = pd.wrapper := by
  rw [extractStkCall_next hstk hcur hk] at hr
  split at hr
  · cases hr
  · rw [Option.some_inj] at hr
    subst hr
    obtain ⟨hstkCurrent, hwrapper⟩ := extractInto_frame
      (hlir.headerInstance (nextExtractor hlir stk nested k)) (nextVwlen hlir stk nested k)
      ((stkInfo hlir stk).startHdr + k) (stkNext stk pd)
    refine ⟨?_, hwrapper⟩
    rw [hstkCurrent]
    show (if stk = stk then pd.stkCurrent stk + 1 else _) = (k : ℤ)
    rw [if_pos rfl, hcur, Int.sub_add_cancel]

/-- `extract(stk.next)` of a full stack is noticed by the dispatcher, and only by it. -/
theorem next_full_iff {k : ℕ} {pd : PacketDescriptor} (hcur : pd.stkCurrent stk = (k : ℤ) - 1)
    (hk : ¬ k < (stkInfo hlir stk).size) (nested : Bool) :
    (∃ r, parserStep hlir (StkCall.op hlir stk (.next nested)) pd = some r ∧
      OverStack hlir stk (.next nested) pd r) ↔ NextFits hlir stk nested k := by
  rw [NextFits, if_neg hk, parserStep_op]
  cases nested with
  | false =>
    refine iff_of_false ?_ (fun h => Bool.noConfusion h.1)
    rintro ⟨_, _, h⟩
    obtain ⟨r, hr, hover⟩ := Option.map_eq_some_iff.mp h.result
    obtain ⟨-, hr⟩ := Option.ite_none_right_eq_some.mp hr
    rw [Option.some_inj] at hr
    subst hr
    exact extractInto_ne_overStackSize _ _ _ _ hover
  | true =>
    have hhdr : stkHdr hlir stk pd = (stkInfo hlir stk).startHdr + ((k : ℤ) - 1) := by
      rw [stkHdr, stkAtIdx, hcur]
      rfl
    by_cases hfront : 0 < (stkInfo hlir stk).startHdr + k
    · have hcall : extractStkCall hlir stk (.next true) pd = some (.overStackSize, pd) := by
        rw [extractStkCall, if_pos (by omega), parserExtractStk]
        refine if_neg fun hroom => hk ?_
        rw [hcur, Int.sub_add_cancel] at hroom
        exact Int.ofNat_lt.mp hroom.2
      rw [hcall]
      exact iff_of_true ⟨_, rfl, ⟨by rw [hcall]; rfl, rfl, rfl, rfl, rfl, rfl⟩⟩ ⟨rfl, hfront⟩
    · refine iff_of_false ?_ (fun h => hfront h.2)
      rintro ⟨r, hr, -⟩
      rw [extractStkCall, if_neg (by omega)] at hr
      cases hr

/-- An indexed extraction never leaves the index where it was. -/
theorem index_moves (hstk : StackElements hlir stk) {i : Fin (stkInfo hlir stk).size}
    {nested : Bool} {pd : PacketDescriptor} {r : Bool × PacketDescriptor}
    (h : parserStep hlir (StkCall.op hlir stk (.index i nested)) pd = some r) :
    r.2.stkCurrent stk ≠ pd.stkCurrent stk := by
  rw [parserStep_op] at h
  obtain ⟨x, hx, rfl⟩ := Option.map_eq_some_iff.mp h
  obtain ⟨b, port, hafter⟩ := afterCall_eq (.index i nested) x
  rw [hafter]
  show x.2.stkCurrent stk ≠ _
  rw [extractStkCall_index hstk hx]
  omega

/-- The law after `k` extractions of `stk.next`. -/
theorem stackLaw_iff_fillsInOrder (hstk : StackElements hlir stk)
    {calls : List (StkCall hlir stk)} {k : ℕ} {pd : PacketDescriptor}
    (hcur : pd.stkCurrent stk = (k : ℤ) - 1)
    (hlong : pd.parsedSize + calls.length * elementBytes hlir stk ≤ pd.wrapper.pktLen) :
    StackLaw k calls pd ↔ FillsInOrder k calls := by
  induction calls generalizing k pd with
  | nil => exact Iff.rfl
  | cons call calls ih =>
    rw [List.length_cons, Nat.add_one_mul] at hlong
    cases call with
    | index i nested =>
      refine iff_of_false ?_ id
      rintro ⟨r, hr, -, -, hidx, -⟩
      exact index_moves hstk hr hidx
    | next nested =>
      by_cases hk : k < (stkInfo hlir stk).size
      · have hroom := next_room_iff hstk hcur hk (by omega) nested
        -- the calls that follow start one element further, with one element less to parse
        have hbehind : ∀ r, extractStkCall hlir stk (.next nested) pd = some r →
            ElementExtracted hlir stk k pd r.2 →
              stkHdr hlir stk (afterCall (.next nested : StkCall hlir stk) r).2 =
                (stkInfo hlir stk).startHdr + k ∧
              (StackLaw (k + 1) calls (afterCall (.next nested : StkCall hlir stk) r).2 ↔
                FillsInOrder (k + 1) calls) := by
          intro r hr helem
          obtain ⟨hidx, hwrapper⟩ := extractStkCall_next_frame hstk hcur hk hr
          obtain ⟨b, port, hafter⟩ := afterCall_eq (.next nested : StkCall hlir stk) r
          have hparsed := helem.parsedSize
          rw [hafter]
          refine ⟨?_, ih ?_ ?_⟩
          · show ((stkInfo hlir stk).startHdr : ℤ) + r.2.stkCurrent stk = _
            rw [hidx]
          · show r.2.stkCurrent stk = _
            rw [hidx]
            omega
          · show r.2.parsedSize + _ ≤ r.2.wrapper.pktLen
            rw [hparsed, hwrapper]
            omega
        simp only [StackLaw, FillsInOrder, hk, if_true, true_imp_iff]
        rw [← hroom]
        constructor
        · rintro ⟨r', hr', hgoes, helem', -, hrest⟩
          rw [parserStep_op] at hr'
          obtain ⟨r, hr, rfl⟩ := Option.map_eq_some_iff.mp hr'
          have helem := (ElementExtracted.afterCall_iff _ r).mp ⟨hgoes, helem'⟩
          exact ⟨⟨r, hr, helem⟩, (hbehind r hr helem.2).2.mp hrest⟩
        · rintro ⟨⟨r, hr, helem⟩, hrest⟩
          obtain ⟨hgoes, helem'⟩ := (ElementExtracted.afterCall_iff (.next nested) r).mpr helem
          obtain ⟨hhdr, hlaw⟩ := hbehind r hr helem.2
          exact ⟨_, by rw [parserStep_op, hr]; rfl, hgoes, helem', hhdr, hlaw.mpr hrest⟩
      · simp only [StackLaw, FillsInOrder, hk, if_false, false_imp_iff, and_true]
        exact next_full_iff hcur hk nested

/-- **A sequence of extractions fills the stack in order iff no call is indexed, each one
with room in the stack is not skipped and has a header instance of fixed size in front of
it, and the one that finds the stack full is inside of a statement.** -/
theorem stackLaw_iff (hstk : StackElements hlir stk) {calls : List (StkCall hlir stk)}
    {pd : PacketDescriptor} (hstart : pd.stkCurrent stk = -1)
    (hlong : pd.parsedSize + calls.length * elementBytes hlir stk ≤ pd.wrapper.pktLen) :
    StackLaw 0 calls pd ↔ FillsInOrder 0 calls :=
  stackLaw_iff_fillsInOrder hstk hstart hlong

/-! ### A stack of two one-byte headers between two others -/

/-- Headers `1` and `2` are the elements of the stack. -/
def stackHlir : Hlir where
  headerInstances := [{ size := 8, byteWidth := 1 }, { size := 8, byteWidth := 1, stack := some 0 },
    { size := 8, byteWidth := 1, stack := some 0 }, { size := 8, byteWidth := 1 }]
  headerStacks := [{ size := 2, startHdr := 1 }]

theorem stackHlir_elements : StackElements stackHlir 0 :=
  ⟨by decide, by decide, by decide⟩

/-- Two elements are filled, and the third extraction finds the stack full. -/
theorem stackHlir_fills_in_order :
    StackLaw 0 ([.next true, .next false, .next true] : List (StkCall stackHlir 0)) advanceInit :=
  (stackLaw_iff stackHlir_elements rfl (by decide)).mpr
    ⟨by decide, fun _ => ⟨by decide, fun _ => ⟨by decide, fun h => absurd h (by decide)⟩⟩⟩

/-- The third extraction as a state component finds header `3`, behind the stack. -/
theorem stack_law_fails : ¬ ∀ (hlir : Hlir) (stk : ℕ) (calls : List (StkCall hlir stk))
    (pd : PacketDescriptor), StackElements hlir stk → pd.stkCurrent stk = -1 →
      pd.parsedSize + calls.length * elementBytes hlir stk ≤ pd.wrapper.pktLen →
        StackLaw 0 calls pd := by
  intro h
  have hlaw := h stackHlir 0 [.next false, .next false, .next false] advanceInit
    stackHlir_elements rfl (by decide)
  rw [stackLaw_iff_fillsInOrder stackHlir_elements rfl (by decide)] at hlaw
  obtain ⟨-, hlaw⟩ := hlaw
  obtain ⟨-, hlaw⟩ := hlaw (by decide)
  obtain ⟨hfull, -⟩ := hlaw (by decide)
  exact Bool.noConfusion hfull.1

end T4P4S
