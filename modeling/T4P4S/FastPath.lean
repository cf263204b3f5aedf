/-
The deparser's fast path: when a packet is left as it is.

With `is_deparse_reordering` unset, `deparse_packet` sends the bytes of the
packet as they are.  That is right when the emitted headers still lie in the
packet, in the order of their emission and right before the payload.

* **`wire_eq_iff`** — this layout is necessary and sufficient;
* **`runPacket_fast`** — a run of a packet leads to it, when the flag is unset at
  its end, if each of its steps meets `PartKeeps` and the deparser emits the
  extracted headers in the order of their extraction;
* **`omitted_not_fast`** — a deparser that does not emit an extracted header.
-/
import T4P4S.Deparse
import T4P4S.Parser

open CMem

namespace T4P4S

variable (hlir : Hlir)

/-! ### The run of a packet -/

/-- The statements of a control, or of a parser state, that work on headers.
Bytes are changed one by one; `emit` is for the deparser. -/
inductive Statement
  | setValid (hdr : ℕ)
  | setInvalid (hdr : ℕ)
  | assign (dst src : ℕ)
  | assignVarbit (dst src : ℕ)
  | modify (a : Ptr Obj) (b : Byte)
  | emit (hdr : ℕ)

/-- The assignment of a variable-width field: the new sizes of its header.  The
field's bytes are changed by `modify`. -/
def assignVarbit (dst src : ℕ) (pd : PacketDescriptor) : PacketDescriptor :=
  let vwSize := (pd.headers src).vwSize
  let dstFixedSize : ℤ :=
    (hlir.headerInstance dst).size - (hlir.headerInstance dst).vwFldSize
  pd.setHeader dst
    { pd.headers dst with vwSize, size := ((dstFixedSize + vwSize).tdiv 8 % 2 ^ 32).toNat }

def execStatement : Statement → PacketDescriptor → Option PacketDescriptor
  | .setValid hdr, pd => some (setHdrValid hlir hdr pd)
  | .setInvalid hdr, pd => some (setHdrInvalid hdr pd)
  | .assign dst src, pd => doAssignment hlir dst src pd
  | .assignVarbit dst src, pd => some (assignVarbit hlir dst src pd)
  | .modify a b, pd => some { pd with mem := fun c => if c = a then b else pd.mem c }
  | .emit hdr, pd => emit hlir hdr pd

/-- What a parser state is made of. -/
inductive ParserPart
  | op (o : ParserOp)
  | stmt (s : Statement)

/-- One part of a parser state, of a packet that is not dropped there. -/
def execPart : ParserPart → PacketDescriptor → Option PacketDescriptor
  | .op o, pd => (parserStep hlir o pd).bind fun r => if r.1 then some r.2 else none
  | .stmt s, pd => execStatement hlir s pd

/-- The call of `parser_extract_X` that an operation makes: `X` and the length of
its variable-width field. -/
def extractCall : ParserOp → PacketDescriptor → Option (ℕ × ℕ)
  | .extract hdr width, _ => (vwlen hlir hdr width).map fun len => (hdr, len)
  | .extractNested hdr, _ => some (hdr, nestedVwlen hlir hdr)
  | .extractNestedStk stk, pd =>
    some ((stkAtIdx hlir stk (pd.stkCurrent stk + 1)).toNat,
      nestedVwlen hlir (stkHdr hlir stk pd).toNat)
  | .advance _, _ => none
  | .lookahead _, _ => none

/-- The header that is found in the packet by one part of a parser state. -/
def extractedBy : ParserPart → PacketDescriptor → List ℕ
  | .op o, pd => match extractCall hlir o pd with
    | some (hdr, _) =>
      if (hlir.headerInstance hdr).isSkipped then [] else [extractTarget hlir hdr pd]
    | none => []
  | .stmt _, _ => []

/-- The runs of the parser, with parts that meet the condition `C`, and the headers
extracted so far. -/
inductive ParserPhase (C : ParserPart → PacketDescriptor → Prop) (init : PacketDescriptor) :
    List ℕ → PacketDescriptor → Prop
  | start {pd : PacketDescriptor} (hstart : startPacket hlir init = some pd) :
    ParserPhase C init [] pd
  | part {ext : List ℕ} {pd pd' : PacketDescriptor} {p : ParserPart}
    (hrun : ParserPhase C init ext pd) (hp : C p pd) (hstep : execPart hlir p pd = some pd') :
    ParserPhase C init (ext ++ extractedBy hlir p pd) pd'

/-- The runs of an accepted packet, up to `deparse_packet`: after the parser come the
statements of the controls and of the deparser. -/
inductive PacketRun (C : ParserPart → PacketDescriptor → Prop) (init : PacketDescriptor) :
    List ℕ → PacketDescriptor → Prop
  | accept {ext : List ℕ} {pd : PacketDescriptor} (hrun : ParserPhase hlir C init ext pd) :
    PacketRun C init ext (parserAccept pd)
  | stmt {ext : List ℕ} {pd pd' : PacketDescriptor} {s : Statement}
    (hrun : PacketRun C init ext pd) (hs : C (.stmt s) pd)
    (hstep : execStatement hlir s pd = some pd') : PacketRun C init ext pd'

/-! ### The layout that needs no work -/

variable {hlir}

/-- **The packet can be sent as it is, whatever it holds, iff the emitted headers
lie one right behind the other from its first byte to the payload.** -/
theorem wire_eq_iff {pd : PacketDescriptor} (hacc : AtPayload pd)
    (hpay : 0 ≤ pd.payloadSize) :
    (∀ m, ({ pd with mem := m } : PacketDescriptor).wire =
        ({ pd with mem := m } : PacketDescriptor).emittedBytes ++
          ({ pd with mem := m } : PacketDescriptor).payload) ↔
      Tiled pd.extractPtr pd.wrapper.mtod pd.emitted := by
  have hcur := hacc.cursor_add_payload
  have hlen := hacc.mbuf.pktLen_eq
  have hend : pd.wrapper.mtod + total pd.emitted = pd.extractPtr ↔
      pd.wrapper.dataLen = total pd.emitted + pd.payloadSize.toNat := by
    rw [Ptr.ext_iff, Ptr.obj_add, Ptr.off_add, hacc.cursor_obj]
    simp only [Mbuf.mtod, true_and]
    omega
  have hwire : pd.wrapper.dataLen = total pd.emitted + pd.payloadSize.toNat →
      ∀ m, ({ pd with mem := m } : PacketDescriptor).wire =
        load m pd.wrapper.mtod (total pd.emitted) ++
          ({ pd with mem := m } : PacketDescriptor).payload := fun h m => by
    rw [PacketDescriptor.wire, h, load_append, hend.mpr h]
    rfl
  rw [tiled_iff_load (β := Byte), hend]
  constructor
  · -- lengths first: then the payload is behind the headers on both sides
    intro h
    have hdata : pd.wrapper.dataLen = total pd.emitted + pd.payloadSize.toNat := by
      have := congrArg List.length (h pd.mem)
      rwa [List.length_append, PacketDescriptor.wire, PacketDescriptor.emittedBytes,
        PacketDescriptor.payload, length_load, length_load, length_flatMap_load] at this
    refine ⟨hdata, ?_⟩
    intro m
    exact List.append_cancel_right ((hwire hdata m).symm.trans (h m))
  · rintro ⟨hdata, hload⟩ m
    rw [hwire hdata m, hload m]
    rfl

/-! ### The runs that lead to it -/

/-- Does an extraction set the flag? -/
def marks (hlir : Hlir) : ParserOp → Bool
  | .extract _ _ => hlir.headerInstances.any fun inst => !inst.isMetadata && inst.isLocal
  | _ => false

/-- The parts that keep the extracted headers in place, or come with the flag set or set it:
no header is extracted that is valid already, no bytes are skipped, and no variable-width field
of a valid header changes its size. -/
def PartKeeps (hlir : Hlir) : ParserPart → PacketDescriptor → Prop
  | .op o, pd => pd.isDeparseReordering = true ∨ marks hlir o = true ∨
    ∀ hdr len, extractCall hlir o pd = some (hdr, len) →
      (pd.headers (extractTarget hlir hdr pd)).pointer = none ∧
        ((hlir.headerInstance hdr).isSkipped = true →
          ((hlir.headerInstance hdr).size + len) / 8 = 0)
  | .stmt (.assignVarbit dst src), pd => pd.isDeparseReordering = true ∨
    (pd.isHeaderValid dst = true →
      ((assignVarbit hlir dst src pd).headers dst).size = (pd.headers dst).size)
  | .stmt _, _ => True

/-- The extracted headers fill the packet up to the cursor. -/
structure FastInv (ext : List ℕ) (pd : PacketDescriptor) : Prop where
  mbuf : pd.wrapper.InOrder
  data_eq : pd.data = some pd.wrapper.mtod
  cursor_obj : pd.extractPtr.obj = .buf
  cursor_le : pd.extractPtr.off ≤ pd.wrapper.dataOff + pd.parsedSize
  parsedSize_le : pd.parsedSize ≤ pd.wrapper.pktLen
  valid : ∀ i ∈ ext, (pd.headers i).block.isSome = true
  tiled : Tiled pd.extractPtr pd.wrapper.mtod (ext.filterMap fun i => (pd.headers i).block)

/-- The two descriptors have everything but bytes in common. -/
structure SameLayout (pd pd' : PacketDescriptor) : Prop where
  wrapper_eq : pd'.wrapper = pd.wrapper
  data_eq : pd'.data = pd.data
  extractPtr_eq : pd'.extractPtr = pd.extractPtr
  parsedSize_eq : pd'.parsedSize = pd.parsedSize
  payloadSize_eq : pd'.payloadSize = pd.payloadSize
  block_eq : ∀ i, (pd'.headers i).block = (pd.headers i).block

theorem FastInv.congr {ext : List ℕ} {pd pd' : PacketDescriptor} (h : FastInv ext pd)
    (hsame : SameLayout pd pd') : FastInv ext pd' := by
  obtain ⟨hwrapper, hdata, hptr, hparsed, -, hblock⟩ := hsame
  refine ⟨?_, ?_, ?_, ?_, ?_, fun i hi => ?_, ?_⟩
  · rw [hwrapper]; exact h.mbuf
  · rw [hwrapper, hdata]; exact h.data_eq
  · rw [hptr]; exact h.cursor_obj
  · rw [hptr, hwrapper, hparsed]; exact h.cursor_le
  · rw [hwrapper, hparsed]; exact h.parsedSize_le
  · rw [hblock]; exact h.valid i hi
  · rw [hptr, hwrapper]
    simp only [hblock]
    exact h.tiled

/-- A statement that leaves the flag unset changes bytes only. -/
theorem execStatement_sameLayout {s : Statement} {pd pd' : PacketDescriptor}
    (hkeeps : PartKeeps hlir (.stmt s) pd) (h : execStatement hlir s pd = some pd')
    (hflag : pd'.isDeparseReordering = false) :
    pd.isDeparseReordering = false ∧ SameLayout pd pd' := by
  have hself : ∀ {pd₁ : PacketDescriptor}, some pd₁ = some pd' → pd₁ = pd →
      pd.isDeparseReordering = false ∧ SameLayout pd pd' := by
    rintro pd₁ heq rfl
    rw [Option.some_inj] at heq
    subst heq
    exact ⟨hflag, rfl, rfl, rfl, rfl, rfl, fun _ => rfl⟩
  -- A statement that changes the validity of a header sets the flag, so it is not one of these.
  cases s with
  | setValid hdr =>
    rw [execStatement, setHdrValid] at h
    split at h
    · exact hself h rfl
    · rw [Option.some_inj] at h
      subst h
      cases hflag
  | setInvalid hdr =>
    rw [execStatement, setHdrInvalid] at h
    split at h
    · rw [Option.some_inj] at h
      subst h
      cases hflag
    · exact hself h rfl
  | assign dst src =>
    rw [execStatement, doAssignment] at h
    split at h
    · obtain ⟨mem, rfl⟩ := copyHeader_eq_some h
      split at hflag
      · next hvalid =>
        simp only [hvalid, if_true] at hflag ⊢
        exact ⟨hflag, rfl, rfl, rfl, rfl, rfl, fun _ => rfl⟩
      · cases hflag
    · rw [Option.some_inj] at h
      subst h
      cases hflag
  | assignVarbit dst src =>
    rw [execStatement, Option.some_inj] at h
    subst h
    refine ⟨hflag, rfl, rfl, rfl, rfl, rfl, ?_⟩
    intro i
    rcases eq_or_ne i dst with rfl | hi
    · cases hp : (pd.headers i).pointer with
      | none => simp [assignVarbit, HeaderDescriptor.block, hp]
      | some p =>
        -- The copied header has the size that the header had, so the block stays.
        have hsize := (hkeeps.resolve_left (ne_true_of_eq_false hflag))
          (by simp [PacketDescriptor.isHeaderValid, hp])
        rw [HeaderDescriptor.block, hsize]
        simp [assignVarbit, HeaderDescriptor.block]
    · rw [assignVarbit, pd.setHeader_headers_of_ne _ hi]
  | modify a b =>
    rw [execStatement, Option.some_inj] at h
    subst h
    exact ⟨hflag, rfl, rfl, rfl, rfl, rfl, fun _ => rfl⟩
  | emit hdr =>
    rw [execStatement, emit] at h
    split at h
    · rw [Option.some_inj] at h
      subst h
      exact ⟨hflag, rfl, rfl, rfl, rfl, rfl, fun _ => rfl⟩
    · cases h

/-- An operation that succeeds extracts a header, advances or looks ahead. -/
theorem parserStep_true {o : ParserOp} {pd pd' : PacketDescriptor}
    (h : parserStep hlir o pd = some (true, pd')) :
    (∃ hdr len r pd₁, extractCall hlir o pd = some (hdr, len) ∧
        parserExtract hlir hdr len pd = some (r, pd₁) ∧ r.isNegative = false ∧
          (pd' = pd₁ ∧ marks hlir o = false ∨ pd' = { pd₁ with isDeparseReordering := true })) ∨
      (∃ size, o = .advance size ∧ pd' = advance size pd) ∨
        extractCall hlir o pd = none ∧ pd' = pd := by
  cases o with
  | extract hdr width =>
    rw [parserStep, extractComponent] at h
    split at h
    · cases h
    · next len hlen =>
      obtain ⟨⟨r, pd₁⟩, hr, hmark⟩ := Option.map_eq_some_iff.mp h
      refine .inl ⟨hdr, len, r, pd₁, by rw [extractCall, hlen, Option.map_some], hr, ?_⟩
      -- `markSkipped` comes last, and it does not look at the result of the extraction.
      generalize hc : checkExtracted (r, pd₁) = rc at hmark
      obtain ⟨ok, pd₂⟩ := rc
      rw [markSkipped] at hmark
      split at hmark
      · rw [Prod.mk.injEq] at hmark
        obtain ⟨rfl, rfl⟩ := hmark
        obtain ⟨hneg, rfl⟩ := checkExtracted_eq_true hc
        exact ⟨hneg, .inr rfl⟩
      · next hany =>
        cases hmark
        obtain ⟨hneg, rfl⟩ := checkExtracted_eq_true hc
        exact ⟨hneg, .inl ⟨rfl, by simpa [marks] using hany⟩⟩
  | extractNested hdr =>
    obtain ⟨⟨r, pd₁⟩, hr, hc⟩ := Option.map_eq_some_iff.mp h
    obtain ⟨hneg, hpd₁⟩ := checkExtracted_eq_true hc
    exact .inl ⟨hdr, _, r, pd₁, rfl, hr, hneg, .inl ⟨hpd₁, rfl⟩⟩
  | extractNestedStk stk =>
    rw [parserStep, extractNestedStk] at h
    split at h
    · obtain ⟨⟨r, pd₁⟩, hr, hc⟩ := Option.map_eq_some_iff.mp h
      obtain ⟨hneg, hpd₁⟩ := checkExtracted_eq_true hc
      rw [parserExtractStk] at hr
      split at hr
      · exact .inl ⟨_, _, r, pd₁, rfl, hr, hneg, .inl ⟨hpd₁, rfl⟩⟩
      · cases hr
        cases hneg
    · cases h
  | advance size =>
    cases h
    exact .inr (.inl ⟨size, rfl, rfl⟩)
  | lookahead size =>
    obtain ⟨-, -, hpd⟩ := Option.map_eq_some_iff.mp h
    cases hpd
    exact .inr (.inr ⟨rfl, rfl⟩)

/-- A header that is extracted for the first time joins those in place. -/
theorem parserExtract_fastInv {ext : List ℕ} {hdr len : ℕ} {pd pd' : PacketDescriptor}
    {r : ParseResult} (h : FastInv ext pd)
    (hnone : (pd.headers (extractTarget hlir hdr pd)).pointer = none)
    (hskip : (hlir.headerInstance hdr).isSkipped = true →
      ((hlir.headerInstance hdr).size + len) / 8 = 0)
    (hx : parserExtract hlir hdr len pd = some (r, pd')) (hr : r.isNegative = false) :
    FastInv (ext ++ if (hlir.headerInstance hdr).isSkipped then []
      else [extractTarget hlir hdr pd]) pd' := by
  obtain ⟨f, d, k, rfl, hk, hd⟩ := parserExtract_parsed hx hr
  set t := extractTarget hlir hdr pd with ht
  -- the target is none of the headers extracted before
  have hblock : ∀ i ∈ ext, ((pd.setHeader t d).headers i).block = (pd.headers i).block := by
    intro i hi
    rw [pd.setHeader_headers_of_ne]
    intro heq
    have := h.valid i hi
    rw [heq, HeaderDescriptor.block, hnone] at this
    cases this
  have hmap : ext.filterMap (fun i => ((pd.setHeader t d).headers i).block) =
      ext.filterMap fun i => (pd.headers i).block := List.filterMap_congr hblock
  by_cases hinst : (hlir.headerInstance hdr).isSkipped = true
  · rw [if_pos hinst, List.append_nil]
    have hzero := hskip hinst
    refine ⟨h.mbuf, h.data_eq, h.cursor_obj, ?_, hk, fun i hi => ?_, ?_⟩
    · have := h.cursor_le
      simp only [PacketDescriptor.setHeader_wrapper, Ptr.off_add]
      omega
    · exact (congrArg Option.isSome (hblock i hi)).trans (h.valid i hi)
    · simp only [hzero, Ptr.add_zero, hmap]
      exact h.tiled
  · obtain ⟨rfl, hblockd⟩ := hd hinst
    rw [if_neg hinst]
    refine ⟨h.mbuf, h.data_eq, h.cursor_obj, ?_, hk, ?_, ?_⟩
    · have := h.cursor_le
      simp only [PacketDescriptor.setHeader_wrapper, Ptr.off_add]
      omega
    · intro i hi
      rcases List.mem_append.mp hi with hi | hi
      · exact (congrArg Option.isSome (hblock i hi)).trans (h.valid i hi)
      · rw [List.mem_singleton.mp hi, pd.setHeader_headers_self, hblockd]
        rfl
    · simp only [List.filterMap_append, hmap]
      rw [List.filterMap_cons_some (by rw [pd.setHeader_headers_self, hblockd])]
      exact h.tiled.concat _

theorem execPart_fastInv {ext : List ℕ} {p : ParserPart} {pd pd' : PacketDescriptor}
    (hkeeps : PartKeeps hlir p pd) (hstep : execPart hlir p pd = some pd')
    (h : pd.isDeparseReordering = false → FastInv ext pd)
    (hflag : pd'.isDeparseReordering = false) : FastInv (ext ++ extractedBy hlir p pd) pd' := by
  cases p with
  | stmt s =>
    obtain ⟨hflag', hsame⟩ := execStatement_sameLayout hkeeps hstep hflag
    rw [extractedBy, List.append_nil]
    exact (h hflag').congr hsame
  | op o =>
    obtain ⟨⟨ok, pd₂⟩, ho, hok⟩ := Option.bind_eq_some_iff.mp hstep
    obtain ⟨rfl, heq⟩ := Option.ite_none_right_eq_some.mp hok
    rw [Option.some_inj] at heq
    subst heq
    rcases parserStep_true ho with
      ⟨hdr, len, r, pd₁, hcall, hx, hr, hpd⟩ | ⟨size, -, hpd⟩ | ⟨hcall, hpd⟩
    -- The header comes behind the others, or it counts as one that skips, which sets the flag.
    · rcases hpd with ⟨hpd, hmark⟩ | hpd
      · dsimp only at hpd hflag ⊢
        subst hpd
        have hflag' : pd.isDeparseReordering = false := by
          rw [← parserExtract_flag hx]
          exact hflag
        obtain ⟨hnone, hskip⟩ := ((hkeeps.resolve_left (ne_true_of_eq_false hflag')).resolve_left
          (ne_true_of_eq_false hmark)) hdr len hcall
        simp only [extractedBy, hcall]
        exact parserExtract_fastInv (h hflag') hnone hskip hx hr
      · dsimp only at hpd hflag
        rw [hpd] at hflag
        cases hflag
    -- Advancing sets the flag.
    · dsimp only at hpd hflag
      rw [hpd] at hflag
      cases hflag
    · dsimp only at hpd hflag ⊢
      subst hpd
      simp only [extractedBy, hcall, List.append_nil]
      exact h hflag

theorem ParserPhase.fastInv {init pd : PacketDescriptor} {ext : List ℕ}
    (hmbuf : init.wrapper.InOrder) (hdata : init.data = some init.wrapper.mtod)
    (h : ParserPhase hlir (PartKeeps hlir) init ext pd) :
    pd.isDeparseReordering = false → FastInv ext pd := by
  induction h with
  | start hstart =>
    intro _
    rw [startPacket, hdata, Option.map_some, Option.some_inj] at hstart
    subst hstart
    exact ⟨hmbuf, hdata, rfl, Nat.le_refl _, Nat.zero_le _,
      fun i hi => absurd hi List.not_mem_nil, rfl⟩
  | part _ hp hstep ih => exact execPart_fastInv hp hstep ih

/-- The invariant of the whole run, in which the payload is known. -/
theorem PacketRun.fastInv {init pd : PacketDescriptor} {ext : List ℕ}
    (hmbuf : init.wrapper.InOrder) (hdata : init.data = some init.wrapper.mtod)
    (h : PacketRun hlir (PartKeeps hlir) init ext pd) :
    pd.isDeparseReordering = false → FastInv ext pd ∧
      (pd.extractPtr.off : ℤ) + pd.payloadSize = pd.wrapper.dataOff + pd.wrapper.pktLen := by
  induction h with
  | accept hrun =>
    intro hflag
    obtain ⟨hm, hd, hobj, hcur, hparsed, hvalid, htiled⟩ := hrun.fastInv hmbuf hdata hflag
    refine ⟨⟨hm, hd, hobj, hcur, hparsed, hvalid, htiled⟩, ?_⟩
    simp only [parserAccept, hd, Option.map_some, Option.getD_some, Mbuf.mtod,
      PacketDescriptor.packetSize]
    omega
  | stmt _ hs hstep ih =>
    intro hflag
    obtain ⟨hflag', hsame⟩ := execStatement_sameLayout hs hstep hflag
    obtain ⟨hinv, hpay⟩ := ih hflag'
    refine ⟨hinv.congr hsame, ?_⟩
    rw [hsame.extractPtr_eq, hsame.payloadSize_eq, hsame.wrapper_eq]
    exact hpay

/-- Is the header valid, with at least one byte? -/
def carries (pd : PacketDescriptor) (hdr : ℕ) : Bool :=
  (pd.headers hdr).block.any fun b => b.len ≠ 0

theorem filter_filterMap_block (pd : PacketDescriptor) (hdrs : List ℕ) :
    ((hdrs.filterMap fun i => (pd.headers i).block).filter fun b => b.len ≠ 0) =
      (hdrs.filter (carries pd)).filterMap fun i => (pd.headers i).block := by
  induction hdrs with
  | nil => rfl
  | cons i hdrs ih =>
    cases hb : (pd.headers i).block with
    | none =>
      have hc : carries pd i = false := by rw [carries, hb]; rfl
      simp only [List.filterMap_cons, hb, List.filter_cons, hc, Bool.false_eq_true, if_false, ih]
    | some b =>
      have hc : carries pd i = decide (b.len ≠ 0) := by rw [carries, hb]; rfl
      simp only [List.filterMap_cons, hb, List.filter_cons, hc, ih]
      split
      · rw [List.filterMap_cons, hb]
      · rfl

/-- **In a run of steps that keep the extracted headers in place, a packet with the
flag unset is right as it is, if the deparser emits what was extracted, in the same
order** (emitted headers that are invalid or empty do not count). -/
theorem runPacket_fast {init pd : PacketDescriptor} {ext : List ℕ}
    (hmbuf : init.wrapper.InOrder) (hdata : init.data = some init.wrapper.mtod)
    (h : PacketRun hlir (PartKeeps hlir) init ext pd)
    (hemit : pd.headerReorder.filter (carries pd) = ext.filter (carries pd))
    (hflag : pd.isDeparseReordering = false) :
    pd.wire = pd.emittedBytes ++ pd.payload := by
  obtain ⟨hinv, hpay⟩ := h.fastInv hmbuf hdata hflag
  have hnonneg : 0 ≤ pd.payloadSize := by
    have := hinv.cursor_le
    have := hinv.parsedSize_le
    omega
  refine (wire_eq_iff ⟨hinv.cursor_obj, hpay, hinv.mbuf⟩ hnonneg).mpr ?_ pd.mem
  rw [PacketDescriptor.emitted, ← tiled_filter_len, filter_filterMap_block, hemit,
    ← filter_filterMap_block, tiled_filter_len]
  exact hinv.tiled

/-! ### A deparser that omits an extracted header -/

/-- One header of one byte. -/
def omittedHlir : Hlir where
  headerInstances := [{ size := 8, byteWidth := 1 }]

/-- The descriptor before the packet `1, 2` comes. -/
def omittedInit : PacketDescriptor where
  mem p := BitVec.ofNat 8 (p.off + 1)
  wrapper := { dataOff := 0, dataLen := 2, pktLen := 2, bufLen := 2 }
  data := some ⟨.buf, 0⟩
  extractPtr := ⟨.buf, 0⟩
  headers i :=
    { type := i, pointer := none, size := 1, vwSize := 0, wasEnabledAtInitialParse := false }
  stkCurrent _ := -1
  headerReorder := []
  deparseSize := 0
  parsedSize := 0
  payloadSize := 0
  isDeparseReordering := false
  egressPort := 0

/-- The header is extracted and not emitted, and the flag stays unset. -/
theorem omitted_not_fast : ¬ ∀ (hlir : Hlir) (init pd : PacketDescriptor) (ext : List ℕ),
    init.wrapper.InOrder → init.data = some init.wrapper.mtod →
      PacketRun hlir (fun _ _ => True) init ext pd → pd.isDeparseReordering = false →
        pd.wire = pd.emittedBytes ++ pd.payload := by
  intro h
  have hparse : ParserPhase omittedHlir (fun _ _ => True) omittedInit _ _ :=
    @ParserPhase.part _ _ _ _ _ _ (.op (.extract 0 none)) (.start rfl) trivial rfl
  have hwire := h omittedHlir omittedInit _ _ ⟨rfl, by decide, by decide⟩ rfl (.accept hparse) rfl
  revert hwire
  decide

/-- Emitted, the header is sent where it is. -/
theorem emitted_fast : ∃ pd, PacketRun omittedHlir (PartKeeps omittedHlir) omittedInit [0] pd ∧
    pd.headerReorder = [0] ∧ pd.isDeparseReordering = false ∧ pd.wire = [1, 2] ∧
      pd.wire = pd.emittedBytes ++ pd.payload := by
  have hparse : ParserPhase omittedHlir (PartKeeps omittedHlir) omittedInit [0] _ :=
    @ParserPhase.part _ _ _ _ _ _ (.op (.extract 0 none)) (.start rfl)
      (.inr (.inr fun hdr len heq => by cases heq; exact ⟨rfl, by decide⟩)) rfl
  have hrun : PacketRun omittedHlir (PartKeeps omittedHlir) omittedInit [0] _ :=
    @PacketRun.stmt _ _ _ _ _ _ (.emit 0) (.accept hparse) trivial rfl
  exact ⟨_, hrun, rfl, rfl, by decide,
    runPacket_fast ⟨rfl, by decide, by decide⟩ rfl hrun (by decide) rfl⟩

end T4P4S
