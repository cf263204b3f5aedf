/-
How far the decoder of control messages goes.

`handle_p4_msg` compares the length in the header with that of the buffer, and the
handlers compare the counts of a message with the sizes of their arrays.  What
the counts promise is never compared with the length.

* **`decoderLaw_iff`** — the decoder stays inside the message, and accepts nothing
  that does not fit, iff the message fits or is one of those that it rejects.
-/
import T4P4S.Handlers

open ByteString

namespace T4P4S

/-! ### What fits -/

/-- The array for a name at `p` holds a C string. -/
def NameAt (buffer : Buffer) (p : ℕ) : Prop := 0 ∈ slice buffer p p4MaxNameLen

/-- The size of the match at `p`, by its type. -/
def matchSize (buffer : Buffer) (p : ℕ) : ℕ :=
  (FieldMatchType.ofCode (buffer.number (p + offMatchType) 1)).elim 0 FieldMatchType.sizeof

/-- Where the `i`-th match begins. -/
def matchPlace (buffer : Buffer) : ℕ → ℕ
  | 0 => sizeofP4AddTableEntry
  | i + 1 => matchPlace buffer i + matchSize buffer (matchPlace buffer i)

/-- The match at `p` lies in the message, and its width, in bits, is one of the bitmap. -/
structure MatchFits (buffer : Buffer) (msglen p : ℕ) : Prop where
  inside : p + matchSize buffer p ≤ msglen
  name : NameAt buffer p
  width : matchSize buffer p ≠ 0 → buffer.netNumber (p + offMatchLength) 2 ≤ 8 * maxFieldLength

structure ParamFits (buffer : Buffer) (msglen p : ℕ) : Prop where
  inside : p + sizeofP4ActionParameter ≤ msglen
  name : NameAt buffer p
  width : buffer.netNumber (p + offParamLength) 4 ≤ 8 * maxActionParameterBitmapLength

/-- The number of parameters of the action at `p`. -/
def paramSize (buffer : Buffer) (p : ℕ) : ℕ := buffer.number (p + offParamSize) 1

/-- The action at `p`, whose parameters begin at `params`. -/
structure ActionFits (buffer : Buffer) (msglen p params : ℕ) : Prop where
  inside : p + sizeofP4Action ≤ msglen
  name : NameAt buffer (p + offActionName)
  params : ∀ i < paramSize buffer p, ParamFits buffer msglen (params + sizeofP4ActionParameter * i)

def readSize (buffer : Buffer) : ℕ := buffer.number offReadSize 1

def msgType (buffer : Buffer) : ℕ := buffer.number offType 1

/-- Where the action of a table entry is. -/
def entryAction (buffer : Buffer) : ℕ := matchPlace buffer (readSize buffer)

/-- What a message of its type needs is inside the message. -/
structure MsgFits (buffer : Buffer) (msglen : ℕ) : Prop where
  setDefaultAction : msgType buffer = p4tSetDefaultAction →
    NameAt buffer offTableName ∧ ActionFits buffer msglen offAction sizeofP4SetDefaultAction
  addTableEntry : msgType buffer = p4tAddTableEntry →
    NameAt buffer offTableName ∧
      (∀ i < readSize buffer, MatchFits buffer msglen (matchPlace buffer i)) ∧
      ActionFits buffer msglen (entryAction buffer) (entryAction buffer + sizeofP4Action)

/-- The decoder reads and writes only bytes of the message and only elements of its
arrays, and accepts a message only if what it needs is there. -/
structure DecoderLaw (buffer : Buffer) (length : ℕ) : Prop where
  inside : ∀ ctrl, (handleP4Msg ctrl buffer length).decoding.msg.Within
    (buffer.netNumber offLength 2)
  params : ∀ ctrl, ∀ i ≥ p4MaxNumberOfActionParameters,
    (handleP4Msg ctrl buffer length).decoding.ctrl.actionParams i = ctrl.actionParams i
  fieldMatches : ∀ ctrl, ∀ i ≥ p4MaxNumberOfFieldMatches,
    (handleP4Msg ctrl buffer length).decoding.ctrl.fieldMatches i = ctrl.fieldMatches i
  accepts : ∀ ctrl, (handleP4Msg ctrl buffer length).rval = 0 →
    MsgFits buffer (buffer.netNumber offLength 2)

/-- A message that sets a default action fits, as far as it is decoded. -/
def DefaultSafe (buffer : Buffer) (msglen : ℕ) : Prop :=
  offAction + sizeofP4Action ≤ msglen ∧
    (paramSize buffer offAction ≤ p4MaxNumberOfActionParameters → MsgFits buffer msglen)

/-- A message that adds a table entry fits, as far as it is decoded. -/
def EntrySafe (buffer : Buffer) (msglen : ℕ) : Prop :=
  offReadSize + 1 ≤ msglen ∧
    (readSize buffer ≤ p4MaxNumberOfFieldMatches →
      entryAction buffer + sizeofP4Action ≤ msglen ∧
        (paramSize buffer (entryAction buffer) ≤ p4MaxNumberOfActionParameters →
          MsgFits buffer msglen))

/-- The message is too long for the buffer, or it has a header and fits. -/
def MsgSafe (buffer : Buffer) (length : ℕ) : Prop :=
  length < sizeofP4Header ∨ length < buffer.netNumber offLength 2 ∨
    (sizeofP4Header ≤ buffer.netNumber offLength 2 ∧
      (msgType buffer = p4tSetDefaultAction → DefaultSafe buffer (buffer.netNumber offLength 2)) ∧
      (msgType buffer = p4tAddTableEntry → EntrySafe buffer (buffer.netNumber offLength 2)))

/-! ### What the loops touch -/

/-- The loop over the parameters touches the length of each of them. -/
theorem within_unpackActionParams {buffer n i offset : ℕ} {d : Decoding} {k : ℕ} :
    (unpackActionParams buffer n i offset d).2.msg.Within k ↔
      d.msg.Within k ∧ ∀ j < n,
        buffer + offset + sizeofP4ActionParameter * j + offParamBitmap ≤ k := by
  induction n generalizing i offset d with
  | zero => simp [unpackActionParams, unpackAll]
  | succ n ih =>
    rw [unpackActionParams, unpackAll]
    rw [show unpackAll (fun p t => (sizeofP4ActionParameter, netconvP4ActionParameter p t))
      storeActionParam = unpackActionParams from rfl, ih, netconvP4ActionParameter,
      netconvNumber_within]
    constructor
    · rintro ⟨⟨hfirst, hd⟩, hrest⟩
      refine ⟨hd, ?_⟩
      intro j hj
      cases j with
      | zero => exact hfirst
      | succ j =>
        have hj' := hrest j (by omega)
        rw [Nat.mul_succ]
        omega
    · rintro ⟨hd, hall⟩
      refine ⟨⟨hall 0 (Nat.succ_pos n), hd⟩, ?_⟩
      intro j hj
      have hj' := hall (j + 1) (by omega)
      rw [Nat.mul_succ] at hj'
      omega

/-- A match is touched in its type, and in its length if the type is known. -/
def MatchTouched (buffer : Buffer) (k p : ℕ) : Prop :=
  p + offMatchType + 1 ≤ k ∧ (matchSize buffer p ≠ 0 → p + offMatchLength + 2 ≤ k)

theorem FieldMatchType.sizeof_ne_zero (type : FieldMatchType) : type.sizeof ≠ 0 := by
  cases type <;> decide

theorem netconvP4FieldMatchComplex_spec {buffer : Buffer} {p : ℕ} {t : Traced Byte}
    (hmem : ∀ k ≥ p, t.mem k = buffer k) :
    (netconvP4FieldMatchComplex p t).1 = matchSize buffer p ∧
      (∀ k ≥ p + matchSize buffer p, (netconvP4FieldMatchComplex p t).2.mem k = buffer k) ∧
      ∀ k, (netconvP4FieldMatchComplex p t).2.Within k ↔
        t.Within k ∧ MatchTouched buffer k p := by
  have hslice : slice t.mem (p + offMatchType) 1 = slice buffer (p + offMatchType) 1 :=
    slice_congr fun i _ => hmem _ (by omega)
  have hsize : matchSize buffer p = (FieldMatchType.ofCode (hostNat (slice buffer
    (p + offMatchType) 1))).elim 0 FieldMatchType.sizeof := rfl
  rw [netconvP4FieldMatchComplex, Traced.read_fst, hslice]
  rcases htype : FieldMatchType.ofCode (hostNat (slice buffer (p + offMatchType) 1)) with _ | type
  -- An unknown type: it has no size, and only the byte of the type has been read.
  · rw [htype] at hsize
    have hzero : matchSize buffer p = 0 := hsize
    refine ⟨hzero.symm, fun k hk => hmem k (by omega), ?_⟩
    intro k
    rw [MatchTouched, hzero]
    simp [and_comm]
  · rw [htype] at hsize
    have hknown : matchSize buffer p = type.sizeof := hsize
    have hne := type.sizeof_ne_zero
    have hle := type.le_sizeof
    -- All known types differ in their size only.
    have hconv : ∀ r : ℕ × Traced Byte, r = (type.sizeof, netconvNumber (p + offMatchLength) 2
        (t.read (p + offMatchType) 1).2) → r.1 = matchSize buffer p ∧
        (∀ k ≥ p + matchSize buffer p, r.2.mem k = buffer k) ∧
        ∀ k, r.2.Within k ↔ t.Within k ∧ MatchTouched buffer k p := by
      rintro r rfl
      refine ⟨hknown.symm, ?_, ?_⟩
      · intro k hk
        rw [hknown] at hk
        refine (netconvNumber_of_disjoint (.inr (by omega))).trans (hmem k (by omega))
      · intro k
        rw [MatchTouched, hknown, netconvNumber_within, Traced.within_read]
        simp only [ne_eq, hne, not_false_eq_true, forall_const]
        exact ⟨fun h => ⟨h.2.2, h.2.1, h.1⟩, fun h => ⟨h.2.2, h.2.1, h.1⟩⟩
    cases type <;> exact hconv _ rfl

/-- The loop over the matches goes from place to place, and what lies behind is as it was. -/
theorem unpackFieldMatches_spec {buffer : Buffer} {n j i offset : ℕ} {d : Decoding}
    (hplace : sizeofP4AddTableEntry + offset = matchPlace buffer j)
    (hmem : ∀ k ≥ matchPlace buffer j, d.msg.mem k = buffer k) :
    sizeofP4AddTableEntry + (unpackFieldMatches sizeofP4AddTableEntry n i offset d).1 =
        matchPlace buffer (j + n) ∧
      (∀ k ≥ matchPlace buffer (j + n),
        (unpackFieldMatches sizeofP4AddTableEntry n i offset d).2.msg.mem k = buffer k) ∧
      ∀ k, (unpackFieldMatches sizeofP4AddTableEntry n i offset d).2.msg.Within k ↔
        d.msg.Within k ∧ ∀ l < n, MatchTouched buffer k (matchPlace buffer (j + l)) := by
  induction n generalizing j i offset d with
  | zero => exact ⟨hplace, hmem, fun k => by simp [unpackFieldMatches, unpackAll]⟩
  | succ n ih =>
    -- The step from one place to the next is the size that the first match says it has.
    obtain ⟨hsize, hmem', hwithin⟩ := netconvP4FieldMatchComplex_spec (t := d.msg) hmem
    rw [unpackFieldMatches, unpackAll, hplace, hsize]
    rw [show unpackAll netconvP4FieldMatchComplex storeFieldMatch = unpackFieldMatches from rfl]
    obtain ⟨hoff, hmem'', hwithin'⟩ := @ih (j + 1) (i + 1) (offset + matchSize buffer
      (matchPlace buffer j)) ⟨storeFieldMatch d.ctrl i (matchPlace buffer j),
        (netconvP4FieldMatchComplex (matchPlace buffer j) d.msg).2⟩
      (by rw [← Nat.add_assoc, hplace]; rfl) hmem'
    rw [show j + (n + 1) = j + 1 + n by omega]
    refine ⟨hoff, hmem'', ?_⟩
    intro k
    rw [hwithin', hwithin]
    constructor
    · rintro ⟨⟨hd, hfirst⟩, hrest⟩
      refine ⟨hd, ?_⟩
      intro l hl
      cases l with
      | zero => exact hfirst
      | succ l =>
        rw [show j + (l + 1) = j + 1 + l by omega]
        exact hrest l (by omega)
    · rintro ⟨hd, hall⟩
      refine ⟨⟨hd, hall 0 (Nat.succ_pos n)⟩, ?_⟩
      intro l hl
      rw [show j + 1 + l = j + (l + 1) by omega]
      exact hall (l + 1) (by omega)

/-! ### What the handlers touch -/

/-- The parameters of the action at `p` are touched, if it has not too many. -/
def ParamsTouched (buffer : Buffer) (k p params : ℕ) : Prop :=
  paramSize buffer p ≤ p4MaxNumberOfActionParameters →
    ∀ j < paramSize buffer p, params + sizeofP4ActionParameter * j + offParamBitmap ≤ k

theorem ActionFits.paramsTouched {buffer : Buffer} {k p params : ℕ}
    (h : ActionFits buffer k p params) : ParamsTouched buffer k p params := by
  intro _ j hj
  have hinside := (h.params j hj).inside
  have hle : offParamBitmap ≤ sizeofP4ActionParameter := by decide
  omega

theorem matchPlace_le {buffer : Buffer} {i n : ℕ} (h : i < n) :
    matchPlace buffer i + matchSize buffer (matchPlace buffer i) ≤ matchPlace buffer n := by
  induction n with
  | zero => exact absurd h (Nat.not_lt_zero i)
  | succ n ih =>
    rcases Nat.lt_succ_iff_lt_or_eq.mp h with hlt | rfl
    · exact (ih hlt).trans (Nat.le_add_right ..)
    · exact Nat.le_refl _

theorem le_matchSize {buffer : Buffer} {p : ℕ} (h : matchSize buffer p ≠ 0) :
    offMatchLength + 2 ≤ matchSize buffer p := by
  rw [matchSize] at h ⊢
  rcases htype : FieldMatchType.ofCode (buffer.number (p + offMatchType) 1) with _ | type
  · rw [htype] at h
    exact absurd rfl h
  · exact type.le_sizeof

/-- The matches lie in front of the action. -/
theorem matchTouched_of_le {buffer : Buffer} {l k : ℕ} (hl : l < readSize buffer)
    (h : entryAction buffer + sizeofP4Action ≤ k) :
    MatchTouched buffer k (matchPlace buffer l) := by
  have hle : matchPlace buffer l + matchSize buffer (matchPlace buffer l) ≤ entryAction buffer :=
    matchPlace_le hl
  refine ⟨?_, ?_⟩
  · simp only [offMatchType, sizeofP4Action] at h ⊢
    omega
  · intro hknown
    have hsize := le_matchSize hknown
    omega

section Handle

variable {buffer : Buffer} {d : Decoding} (hmem : ∀ k ≥ sizeofP4Header, d.msg.mem k = buffer k)

theorem number_eq {m off : ℕ} (hmem : ∀ k ≥ m, d.msg.mem k = buffer k) (hoff : m ≤ off) (n : ℕ) :
    hostNat (slice d.msg.mem off n) = buffer.number off n := by
  rw [Buffer.number, slice_congr fun i _ => hmem (off + i) (hoff.trans (Nat.le_add_right ..))]

include hmem

theorem handleP4SetDefaultAction_rval :
    (handleP4SetDefaultAction d).1 =
      if p4MaxNumberOfActionParameters < paramSize buffer offAction then -1 else 0 := by
  have hsize : hostNat (slice d.msg.mem (offAction + offParamSize) 1) =
      paramSize buffer offAction := number_eq hmem (by decide) 1
  simp only [handleP4SetDefaultAction, Decoding.number, Traced.read_fst, Traced.read_mem, hsize]
  split_ifs <;> rfl

theorem handleP4SetDefaultAction_within (k : ℕ) :
    (handleP4SetDefaultAction d).2.msg.Within k ↔ d.msg.Within k ∧
      offAction + sizeofP4Action ≤ k ∧
      ParamsTouched buffer k offAction sizeofP4SetDefaultAction := by
  have hsize : hostNat (slice d.msg.mem (offAction + offParamSize) 1) =
      paramSize buffer offAction := number_eq hmem (by decide) 1
  have hreads : ((((d.msg.read offType 1).2.read offXid 4).2.read offAction 1).2.read
      (offAction + offParamSize) 1).2.Within k ↔
        d.msg.Within k ∧ offAction + sizeofP4Action ≤ k := by
    simp only [Traced.within_read, offType, offXid, offAction, offParamSize, sizeofP4Action]
    exact ⟨fun h => ⟨h.2.2.2.2, h.1⟩, fun h => ⟨h.2, by omega, by omega, by omega, h.1⟩⟩
  simp only [handleP4SetDefaultAction, Decoding.number, Traced.read_fst, Traced.read_mem, hsize]
  by_cases hmany : p4MaxNumberOfActionParameters < paramSize buffer offAction
  · rw [if_pos hmany]
    have hnone : ParamsTouched buffer k offAction sizeofP4SetDefaultAction :=
      fun hfew => absurd hmany (Nat.not_lt.mpr hfew)
    exact hreads.trans ⟨fun h => ⟨h.1, h.2, hnone⟩, fun h => ⟨h.1, h.2.1⟩⟩
  · rw [if_neg hmany, within_unpackActionParams, hreads, ParamsTouched]
    simp only [Nat.add_zero, Nat.not_lt.mp hmany, forall_const, and_assoc]

omit hmem in
theorem handleEntryAction_rval {offset : ℕ} (hmem : ∀ k ≥ sizeofP4AddTableEntry + offset,
    d.msg.mem k = buffer k) :
    (handleEntryAction offset d).1 =
      if p4MaxNumberOfActionParameters < paramSize buffer (sizeofP4AddTableEntry + offset) then -2
      else 0 := by
  have hsize : hostNat (slice d.msg.mem (sizeofP4AddTableEntry + offset + offParamSize) 1) =
      paramSize buffer (sizeofP4AddTableEntry + offset) := number_eq hmem (Nat.le_add_right ..) 1
  simp only [handleEntryAction, Decoding.number, Traced.read_fst, Traced.read_mem, hsize]
  split_ifs <;> rfl

omit hmem in
theorem handleEntryAction_within {offset : ℕ} (hmem : ∀ k ≥ sizeofP4AddTableEntry + offset,
    d.msg.mem k = buffer k) (k : ℕ) :
    (handleEntryAction offset d).2.msg.Within k ↔ d.msg.Within k ∧
      sizeofP4AddTableEntry + offset + sizeofP4Action ≤ k ∧
      ParamsTouched buffer k (sizeofP4AddTableEntry + offset)
        (sizeofP4AddTableEntry + offset + sizeofP4Action) := by
  have hsize : hostNat (slice d.msg.mem (sizeofP4AddTableEntry + offset + offParamSize) 1) =
      paramSize buffer (sizeofP4AddTableEntry + offset) := number_eq hmem (Nat.le_add_right ..) 1
  have hreads : ((d.msg.read (sizeofP4AddTableEntry + offset) 1).2.read
      (sizeofP4AddTableEntry + offset + offParamSize) 1).2.Within k ↔
        d.msg.Within k ∧ sizeofP4AddTableEntry + offset + sizeofP4Action ≤ k := by
    simp only [Traced.within_read, offParamSize, sizeofP4Action]
    exact ⟨fun h => ⟨h.2.2, h.1⟩, fun h => ⟨h.2, by omega, h.1⟩⟩
  simp only [handleEntryAction, Decoding.number, Traced.read_fst, Traced.read_mem, hsize]
  by_cases hmany : p4MaxNumberOfActionParameters < paramSize buffer (sizeofP4AddTableEntry + offset)
  · rw [if_pos hmany]
    have hnone : ParamsTouched buffer k (sizeofP4AddTableEntry + offset)
        (sizeofP4AddTableEntry + offset + sizeofP4Action) :=
      fun hfew => absurd hmany (Nat.not_lt.mpr hfew)
    exact hreads.trans ⟨fun h => ⟨h.1, h.2, hnone⟩, fun h => ⟨h.1, h.2.1⟩⟩
  · rw [if_neg hmany, within_unpackActionParams, hreads, ParamsTouched]
    simp only [← Nat.add_assoc, Nat.not_lt.mp hmany, forall_const, and_assoc]

/-- The state in front of the action of a table entry. -/
theorem handleP4AddTableEntry_walk (hfew : readSize buffer ≤ p4MaxNumberOfFieldMatches) :
    ∃ offset d', handleP4AddTableEntry d = handleEntryAction offset d' ∧
      sizeofP4AddTableEntry + offset = entryAction buffer ∧
      (∀ k ≥ entryAction buffer, d'.msg.mem k = buffer k) ∧
      ∀ k, d'.msg.Within k ↔ (d.msg.Within k ∧ offReadSize + 1 ≤ k) ∧
        ∀ l < readSize buffer, MatchTouched buffer k (matchPlace buffer l) := by
  have hsize : hostNat (slice d.msg.mem offReadSize 1) = readSize buffer :=
    number_eq hmem (by decide) 1
  have hreads : ∀ k, (((d.msg.read offType 1).2.read offXid 4).2.read offReadSize 1).2.Within k ↔
      d.msg.Within k ∧ offReadSize + 1 ≤ k := by
    intro k
    simp only [Traced.within_read, offType, offXid, offReadSize]
    exact ⟨fun h => ⟨h.2.2.2, h.1⟩, fun h => ⟨h.2, by omega, by omega, h.1⟩⟩
  simp only [handleP4AddTableEntry, Decoding.number, Traced.read_fst, Traced.read_mem, hsize,
    if_neg (Nat.not_lt.mpr hfew)]
  set d₁ : Decoding :=
    { ctrl := { d.ctrl with
        type := hostNat (slice d.msg.mem offType 1), xid := hostNat (slice d.msg.mem offXid 4)
        tableName := offTableName, numFieldMatches := readSize buffer }
      msg := (((d.msg.read offType 1).2.read offXid 4).2.read offReadSize 1).2 } with hd₁
  have hmem₁ : ∀ k ≥ matchPlace buffer 0, d₁.msg.mem k = buffer k := fun k hk =>
    hmem k ((by decide : sizeofP4Header ≤ sizeofP4AddTableEntry).trans hk)
  obtain ⟨hoffset, hmem₂, hwithin⟩ := @unpackFieldMatches_spec buffer (readSize buffer) 0 0 0 d₁ rfl
    hmem₁
  simp only [Nat.zero_add] at hoffset hmem₂ hwithin
  refine ⟨_, _, rfl, hoffset, hmem₂, fun k => (hwithin k).trans (and_congr_left' (hreads k))⟩

theorem handleP4AddTableEntry_rval :
    (handleP4AddTableEntry d).1 =
      if p4MaxNumberOfFieldMatches < readSize buffer then -1
      else if p4MaxNumberOfActionParameters < paramSize buffer (entryAction buffer) then -2
      else 0 := by
  by_cases hmany : p4MaxNumberOfFieldMatches < readSize buffer
  · have hsize : hostNat (slice d.msg.mem offReadSize 1) = readSize buffer :=
      number_eq hmem (by decide) 1
    rw [if_pos hmany]
    simp only [handleP4AddTableEntry, Decoding.number, Traced.read_fst, Traced.read_mem, hsize,
      if_pos hmany]
  · obtain ⟨offset, d', hwalk, hoffset, hmem', -⟩ :=
      handleP4AddTableEntry_walk hmem (Nat.not_lt.mp hmany)
    rw [if_neg hmany, hwalk, handleEntryAction_rval fun k hk => hmem' k (hoffset ▸ hk), hoffset]

theorem handleP4AddTableEntry_within (k : ℕ) :
    (handleP4AddTableEntry d).2.msg.Within k ↔ (d.msg.Within k ∧ offReadSize + 1 ≤ k) ∧
      (readSize buffer ≤ p4MaxNumberOfFieldMatches →
        entryAction buffer + sizeofP4Action ≤ k ∧
          ParamsTouched buffer k (entryAction buffer) (entryAction buffer + sizeofP4Action)) := by
  by_cases hmany : p4MaxNumberOfFieldMatches < readSize buffer
  · have hsize : hostNat (slice d.msg.mem offReadSize 1) = readSize buffer :=
      number_eq hmem (by decide) 1
    simp only [handleP4AddTableEntry, Decoding.number, Traced.read_fst, Traced.read_mem, hsize,
      if_pos hmany, Traced.within_read]
    simp only [offType, offXid, offReadSize]
    exact ⟨fun h => ⟨⟨h.2.2.2, h.1⟩, fun hfew => absurd hmany (Nat.not_lt.mpr hfew)⟩,
      fun h => ⟨h.1.2, by omega, by omega, h.1.1⟩⟩
  · obtain ⟨offset, d', hwalk, hoffset, hmem', hwithin⟩ :=
      handleP4AddTableEntry_walk hmem (Nat.not_lt.mp hmany)
    rw [hwalk, handleEntryAction_within (fun k hk => hmem' k (hoffset ▸ hk)), hoffset, hwithin]
    constructor
    · exact fun h => ⟨h.1.1, fun _ => h.2⟩
    · intro h
      have haction := h.2 (Nat.not_lt.mp hmany)
      exact ⟨⟨h.1, fun l hl => matchTouched_of_le hl haction.1⟩, haction⟩

end Handle

/-! ### The law -/

/-- Nothing is stored behind the arrays. -/
def KeepsArrays (ctrl ctrl' : P4CtrlMsg) : Prop :=
  (∀ i ≥ p4MaxNumberOfActionParameters, ctrl'.actionParams i = ctrl.actionParams i) ∧
    ∀ i ≥ p4MaxNumberOfFieldMatches, ctrl'.fieldMatches i = ctrl.fieldMatches i

theorem KeepsArrays.trans {a b c : P4CtrlMsg} (hab : KeepsArrays a b) (hbc : KeepsArrays b c) :
    KeepsArrays a c :=
  ⟨fun i hi => (hbc.1 i hi).trans (hab.1 i hi), fun i hi => (hbc.2 i hi).trans (hab.2 i hi)⟩

theorem keepsArrays_unpackActionParams {buffer n offset : ℕ}
    (hn : n ≤ p4MaxNumberOfActionParameters) (d : Decoding) :
    KeepsArrays d.ctrl (unpackActionParams buffer n 0 offset d).2.ctrl := by
  refine ⟨?_, ?_⟩
  · intro i hi
    exact @unpackAll_get _ storeActionParam P4CtrlMsg.actionParams (fun _ _ _ => rfl) _ _ _ _ _
      (by omega) d
  · intro i _
    exact congrFun (@unpackAll_ctrl _ P4CtrlMsg.fieldMatches _ storeActionParam
      (fun _ _ _ => rfl) _ _ _ _ d) i

theorem keepsArrays_unpackFieldMatches {buffer n offset : ℕ}
    (hn : n ≤ p4MaxNumberOfFieldMatches) (d : Decoding) :
    KeepsArrays d.ctrl (unpackFieldMatches buffer n 0 offset d).2.ctrl := by
  refine ⟨?_, ?_⟩
  · intro i _
    exact congrFun (@unpackAll_ctrl _ P4CtrlMsg.actionParams _ storeFieldMatch
      (fun _ _ _ => rfl) _ _ _ _ d) i
  · intro i hi
    exact @unpackAll_get _ storeFieldMatch P4CtrlMsg.fieldMatches (fun _ _ _ => rfl) _ _ _ _ _
      (by omega) d

theorem keepsArrays_setDefaultAction (d : Decoding) :
    KeepsArrays d.ctrl (handleP4SetDefaultAction d).2.ctrl := by
  rw [handleP4SetDefaultAction]
  dsimp only
  split_ifs with hmany
  · exact ⟨fun _ _ => rfl, fun _ _ => rfl⟩
  · exact keepsArrays_unpackActionParams (Nat.not_lt.mp hmany) _

theorem keepsArrays_entryAction (offset : ℕ) (d : Decoding) :
    KeepsArrays d.ctrl (handleEntryAction offset d).2.ctrl := by
  rw [handleEntryAction]
  dsimp only
  split_ifs with hmany
  · exact ⟨fun _ _ => rfl, fun _ _ => rfl⟩
  · exact keepsArrays_unpackActionParams (Nat.not_lt.mp hmany) _

theorem keepsArrays_addTableEntry (d : Decoding) :
    KeepsArrays d.ctrl (handleP4AddTableEntry d).2.ctrl := by
  rw [handleP4AddTableEntry]
  dsimp only
  split_ifs with hmany
  · exact ⟨fun _ _ => rfl, fun _ _ => rfl⟩
  · refine KeepsArrays.trans ?_ (keepsArrays_entryAction _ _)
    exact keepsArrays_unpackFieldMatches (Nat.not_lt.mp hmany) _

theorem keepsArrays_switchType (type : ℕ) (d : Decoding) :
    KeepsArrays d.ctrl (switchType type d).decoding.ctrl := by
  rw [switchType]
  dsimp only
  split_ifs
  · exact keepsArrays_setDefaultAction d
  · exact keepsArrays_setDefaultAction d
  · exact keepsArrays_addTableEntry d
  · exact keepsArrays_addTableEntry d
  · exact ⟨fun _ _ => rfl, fun _ _ => rfl⟩
  · exact ⟨fun _ _ => rfl, fun _ _ => rfl⟩

/-- The arrays have room for what the handlers store. -/
theorem keepsArrays_handleP4Msg (ctrl : P4CtrlMsg) (buffer : Buffer) (length : ℕ) :
    KeepsArrays ctrl (handleP4Msg ctrl buffer length).decoding.ctrl := by
  rw [handleP4Msg]
  dsimp only
  split_ifs
  · exact ⟨fun _ _ => rfl, fun _ _ => rfl⟩
  · exact ⟨fun _ _ => rfl, fun _ _ => rfl⟩
  · exact keepsArrays_switchType ..

/-- What was done with the header when the message is looked at by its type, or rejected for
its length. -/
structure HeaderDone (ctrl : P4CtrlMsg) (buffer : Buffer) (d : Decoding) : Prop where
  mem : ∀ k ≥ sizeofP4Header, d.msg.mem k = buffer k
  within : ∀ k, d.msg.Within k ↔ sizeofP4Header ≤ k

theorem netconvP4Header_mem (buffer : Buffer) :
    ∀ k ≥ sizeofP4Header, (netconvP4Header 0 ⟨buffer, []⟩).mem k = buffer k := by
  intro k hk
  rw [netconvP4Header, netconvNumber_of_disjoint (.inr ?_), netconvNumber_of_disjoint (.inr ?_)]
  · exact (by decide : 0 + offLength + 2 ≤ sizeofP4Header).trans hk
  · exact hk

theorem netconvP4Header_within (buffer : Buffer) (k : ℕ) :
    (netconvP4Header 0 ⟨buffer, []⟩).Within k ↔ sizeofP4Header ≤ k := by
  rw [netconvP4Header, netconvNumber_within, netconvNumber_within]
  simp only [Traced.within_mk, and_true, offXid, offLength, sizeofP4Header]
  omega

theorem netconvP4Header_type (buffer : Buffer) :
    hostNat (slice (netconvP4Header 0 ⟨buffer, []⟩).mem offType 1) = msgType buffer := by
  rw [netconvP4Header, slice_netconvNumber_of_disjoint (.inl (by decide)),
    slice_netconvNumber_of_disjoint (.inl (by decide))]
  rfl

/-- The length is swapped, so it is read as it was sent, in network order. -/
theorem netconvP4Header_length (buffer : Buffer) :
    hostNat (slice (netconvP4Header 0 ⟨buffer, []⟩).mem offLength 2) =
      buffer.netNumber offLength 2 := by
  rw [netconvP4Header, slice_netconvNumber_of_disjoint (.inl (by decide)), Nat.zero_add,
    slice_netconvNumber, Buffer.netNumber_eq]

theorem netconvP4Header_xid (buffer : Buffer) :
    hostNat (slice (netconvP4Header 0 ⟨buffer, []⟩).mem offXid 4) = buffer.netNumber offXid 4 := by
  rw [netconvP4Header, Nat.zero_add, slice_netconvNumber,
    slice_netconvNumber_of_disjoint (.inr (by decide)), Buffer.netNumber_eq]

/-- The message once its length has been read, and once its type has been. -/
theorem handleP4Msg_eq (ctrl : P4CtrlMsg) (buffer : Buffer) {length : ℕ}
    (h : sizeofP4Header ≤ length) :
    handleP4Msg ctrl buffer length =
      let lengthRead := ((netconvP4Header 0 ⟨buffer, []⟩).read offLength 2).2
      if length < buffer.netNumber offLength 2 then ⟨-1, false, ctrl, lengthRead⟩
      else switchType (msgType buffer) ⟨ctrl, (lengthRead.read offType 1).2⟩ := by
  rw [handleP4Msg, if_neg (Nat.not_lt.mpr h)]
  simp only [Decoding.number, Traced.read_fst, Traced.read_mem, netconvP4Header_length,
    netconvP4Header_type]

theorem handleP4Msg_header_done (ctrl : P4CtrlMsg) (buffer : Buffer) {length : ℕ}
    (h : sizeofP4Header ≤ length) : ∃ d d', HeaderDone ctrl buffer d ∧ HeaderDone ctrl buffer d' ∧
      handleP4Msg ctrl buffer length = if length < buffer.netNumber offLength 2 then ⟨-1, false, d⟩
        else switchType (msgType buffer) d' := by
  set t := netconvP4Header 0 ⟨buffer, []⟩ with ht
  refine ⟨⟨ctrl, (t.read offLength 2).2⟩, ⟨ctrl, ((t.read offLength 2).2.read offType 1).2⟩,
    ⟨netconvP4Header_mem buffer, ?_⟩, ⟨netconvP4Header_mem buffer, ?_⟩,
    handleP4Msg_eq ctrl buffer h⟩
  · intro k
    rw [Traced.within_read, netconvP4Header_within]
    simp only [offLength, sizeofP4Header]
    omega
  · intro k
    rw [Traced.within_read, Traced.within_read, netconvP4Header_within]
    simp only [offLength, offType, sizeofP4Header]
    omega

section Law

variable {buffer : Buffer} {d : Decoding}

/-- Decoding a message that sets a default action stays below `k`, and accepts only
what fits. -/
theorem defaultSafe_iff (hmem : ∀ k ≥ sizeofP4Header, d.msg.mem k = buffer k) {k : ℕ}
    (hd : d.msg.Within k) (htype : msgType buffer = p4tSetDefaultAction) :
    (handleP4SetDefaultAction d).2.msg.Within k ∧
        ((handleP4SetDefaultAction d).1 = 0 → MsgFits buffer k) ↔ DefaultSafe buffer k := by
  have hne : msgType buffer ≠ p4tAddTableEntry := by
    rw [htype]
    decide
  rw [handleP4SetDefaultAction_within hmem, handleP4SetDefaultAction_rval hmem]
  constructor
  · rintro ⟨⟨-, hinside, -⟩, haccepts⟩
    refine ⟨hinside, fun hfew => haccepts ?_⟩
    rw [if_neg (Nat.not_lt.mpr hfew)]
  · rintro ⟨hinside, hfits⟩
    refine ⟨⟨hd, hinside, fun hfew => ?_⟩, fun hzero => hfits ?_⟩
    · exact ((hfits hfew).setDefaultAction htype).2.paramsTouched hfew
    · by_contra hmany
      rw [if_pos (Nat.not_le.mp hmany)] at hzero
      exact absurd hzero (by decide)

theorem entrySafe_iff (hmem : ∀ k ≥ sizeofP4Header, d.msg.mem k = buffer k) {k : ℕ}
    (hd : d.msg.Within k) (htype : msgType buffer = p4tAddTableEntry) :
    (handleP4AddTableEntry d).2.msg.Within k ∧
        ((handleP4AddTableEntry d).1 = 0 → MsgFits buffer k) ↔ EntrySafe buffer k := by
  rw [handleP4AddTableEntry_within hmem, handleP4AddTableEntry_rval hmem]
  constructor
  · rintro ⟨⟨⟨-, hread⟩, hinside⟩, haccepts⟩
    refine ⟨hread, fun hfew => ⟨(hinside hfew).1, fun hfew' => haccepts ?_⟩⟩
    rw [if_neg (Nat.not_lt.mpr hfew), if_neg (Nat.not_lt.mpr hfew')]
  · rintro ⟨hread, hfits⟩
    refine ⟨⟨⟨hd, hread⟩, fun hfew => ⟨(hfits hfew).1, fun hfew' => ?_⟩⟩, ?_⟩
    · exact (((hfits hfew).2 hfew').addTableEntry htype).2.2.paramsTouched hfew'
    · intro hzero
      by_cases hmany : p4MaxNumberOfFieldMatches < readSize buffer
      · rw [if_pos hmany] at hzero
        exact absurd hzero (by decide)
      · refine (hfits (Nat.not_lt.mp hmany)).2 ?_
        by_contra hmany'
        rw [if_neg hmany, if_pos (Nat.not_le.mp hmany')] at hzero
        exact absurd hzero (by decide)

end Law

/-- The result of a handler, as `handle_p4_msg` passes it on. -/
theorem handled_rval {handled : ℤ × Decoding} (h : handled.1 ≤ 0) :
    (if handled.1 < 0 then (⟨handled.1, false, handled.2⟩ : Handled)
      else ⟨0, true, handled.2⟩).decoding = handled.2 ∧
    ((if handled.1 < 0 then (⟨handled.1, false, handled.2⟩ : Handled)
      else ⟨0, true, handled.2⟩).rval = 0 ↔ handled.1 = 0) := by
  split_ifs with hneg
  · exact ⟨rfl, Iff.rfl⟩
  · exact ⟨rfl, iff_of_true rfl (by omega)⟩

/-- The `switch`, once there is a message that is not too long. -/
theorem switchType_iff {ctrl : P4CtrlMsg} {buffer : Buffer} {d : Decoding}
    (hd : HeaderDone ctrl buffer d) (k : ℕ) :
    (switchType (msgType buffer) d).decoding.msg.Within k ∧
        ((switchType (msgType buffer) d).rval = 0 → MsgFits buffer k) ↔
      sizeofP4Header ≤ k ∧ (msgType buffer = p4tSetDefaultAction → DefaultSafe buffer k) ∧
        (msgType buffer = p4tAddTableEntry → EntrySafe buffer k) := by
  rw [switchType]
  by_cases hdefault : msgType buffer = p4tSetDefaultAction
  · have hne : msgType buffer ≠ p4tAddTableEntry := by
      rw [hdefault]
      decide
    -- The handlers give nothing above 0, so 0 says that a message is accepted.
    have hrval : (handleP4SetDefaultAction d).1 ≤ 0 := by
      rw [handleP4SetDefaultAction_rval hd.mem]
      split_ifs <;> decide
    rw [if_pos hdefault, (handled_rval hrval).1, (handled_rval hrval).2, ← hd.within k]
    constructor
    · intro h
      have hd' := ((handleP4SetDefaultAction_within hd.mem k).mp h.1).1
      exact ⟨hd', fun _ => (defaultSafe_iff hd.mem hd' hdefault).mp h,
        fun hentry => absurd hentry hne⟩
    · exact fun h => (defaultSafe_iff hd.mem h.1 hdefault).mpr (h.2.1 hdefault)
  by_cases hentry : msgType buffer = p4tAddTableEntry
  · have hrval : (handleP4AddTableEntry d).1 ≤ 0 := by
      rw [handleP4AddTableEntry_rval hd.mem]
      split_ifs <;> decide
    rw [if_neg hdefault, if_pos hentry, (handled_rval hrval).1, (handled_rval hrval).2,
      ← hd.within k]
    constructor
    · intro h
      have hd' := ((handleP4AddTableEntry_within hd.mem k).mp h.1).1.1
      exact ⟨hd', fun h' => absurd h' hdefault, fun _ => (entrySafe_iff hd.mem hd' hentry).mp h⟩
    · exact fun h => (entrySafe_iff hd.mem h.1 hentry).mpr (h.2.2 hentry)
  · have hfits : MsgFits buffer k := ⟨fun h => absurd h hdefault, fun h => absurd h hentry⟩
    rw [if_neg hdefault, if_neg hentry]
    -- The other types read at most the id, which is in the header.
    split_ifs with hinit
    · have hwithin : (handleP4CtrlInitialized d).2.msg.Within k ↔ sizeofP4Header ≤ k := by
        simp only [handleP4CtrlInitialized, Decoding.number, Traced.within_read, hd.within, offXid,
          offType, sizeofP4Header]
        omega
      exact ⟨fun h => ⟨hwithin.mp h.1, fun h' => absurd h' hdefault, fun h' => absurd h' hentry⟩,
        fun h => ⟨hwithin.mpr h.1, fun _ => hfits⟩⟩
    · exact ⟨fun h => ⟨(hd.within k).mp h.1, fun h' => absurd h' hdefault,
        fun h' => absurd h' hentry⟩, fun h => ⟨(hd.within k).mpr h.1, fun _ => hfits⟩⟩

/-- **The decoder stays inside the message and accepts only what fits iff the message is
too long for the buffer, or has a header and fits as far as it is decoded.** -/
theorem decoderLaw_iff (buffer : Buffer) (length : ℕ) :
    DecoderLaw buffer length ↔ MsgSafe buffer length := by
  by_cases hshort : length < sizeofP4Header
  · refine ⟨fun _ => .inl hshort, ?_⟩
    intro _
    have hnone : ∀ ctrl, handleP4Msg ctrl buffer length = ⟨-1, false, ctrl, buffer, []⟩ :=
      fun ctrl => if_pos hshort
    refine ⟨?_, fun ctrl => (keepsArrays_handleP4Msg ..).1,
      fun ctrl => (keepsArrays_handleP4Msg ..).2, ?_⟩
    · intro ctrl
      rw [hnone]
      exact Traced.within_mk _ _
    · intro ctrl hzero
      rw [hnone] at hzero
      have hneg : (-1 : ℤ) = 0 := hzero
      omega
  have hheader : sizeofP4Header ≤ length := Nat.not_lt.mp hshort
  by_cases hlong : length < buffer.netNumber offLength 2
  · refine ⟨fun _ => .inr (.inl hlong), ?_⟩
    intro _
    refine ⟨?_, fun ctrl => (keepsArrays_handleP4Msg ..).1,
      fun ctrl => (keepsArrays_handleP4Msg ..).2, ?_⟩
    · intro ctrl
      obtain ⟨d, d', hd, -, hmsg⟩ := handleP4Msg_header_done ctrl buffer hheader
      rw [hmsg, if_pos hlong]
      exact (hd.within _).mpr (by omega)
    · intro ctrl hzero
      obtain ⟨d, d', -, -, hmsg⟩ := handleP4Msg_header_done ctrl buffer hheader
      rw [hmsg, if_pos hlong] at hzero
      have hneg : (-1 : ℤ) = 0 := hzero
      omega
  · constructor
    · intro h
      -- What `ctrl` held before does not matter, so any value of it will do.
      obtain ⟨d', d, -, hd, hmsg⟩ := handleP4Msg_header_done default buffer hheader
      have hinside := h.inside default
      have haccepts := h.accepts default
      rw [hmsg, if_neg hlong] at hinside haccepts
      exact .inr (.inr ((switchType_iff hd _).mp ⟨hinside, haccepts⟩))
    · intro h
      have hsafe := (h.resolve_left hshort).resolve_left hlong
      have hctrl : ∀ ctrl, (handleP4Msg ctrl buffer length).decoding.msg.Within
          (buffer.netNumber offLength 2) ∧ ((handleP4Msg ctrl buffer length).rval = 0 →
            MsgFits buffer (buffer.netNumber offLength 2)) := by
        intro ctrl
        obtain ⟨d', d, -, hd, hmsg⟩ := handleP4Msg_header_done ctrl buffer hheader
        rw [hmsg, if_neg hlong]
        exact (switchType_iff hd _).mpr hsafe
      exact ⟨fun ctrl => (hctrl ctrl).1, fun ctrl => (keepsArrays_handleP4Msg ..).1,
        fun ctrl => (keepsArrays_handleP4Msg ..).2, fun ctrl => (hctrl ctrl).2⟩

/-- A header alone, of a message that adds a table entry. -/
def bareHeader : Buffer := run [⟨offType, [104]⟩, ⟨offLength, [0, 8]⟩] fun _ => 0

/-- The number of matches is read behind the end of the message. -/
theorem not_decoderLaw_bareHeader : ¬ DecoderLaw bareHeader 2048 := by
  intro h
  have hinside := h.inside default (offReadSize, 1)
  revert hinside
  decide

end T4P4S
