/-
Which control messages reach the callback.

`handle_p4_msg` fills a `p4_ctrl_msg` on its stack, type by type, and passes it
on unless a handler gives a negative number.  A message of an unknown type is
passed on as well, and so is a match of an unknown type.

* **`unpackAll_stores`** — the loops store the place of each record.
* **`callbackLaw_iff`** — exactly the well-formed messages reach the callback, and
  with all that they need, iff the message is too long for the buffer, or of a
  supported type and, if it adds an entry with not too many matches and
  parameters, its matches have known types.
-/
import T4P4S.DecoderBounds

open ByteString

namespace T4P4S

/-- `handle_p4_msg` for any `int`.  A negative length is a large number next to a `sizeof`,
but smaller than the length in any header. -/
def handleP4MsgInt (ctrl : P4CtrlMsg) (buffer : Buffer) : ℤ → Handled
  | .ofNat length => handleP4Msg ctrl buffer length
  | .negSucc _ => ⟨-1, false, ctrl, ((netconvP4Header 0 ⟨buffer, []⟩).read offLength 2).2⟩

/-! ### What the callback is for -/

def SupportedType (type : ℕ) : Prop :=
  type = p4tSetDefaultAction ∨ type = p4tAddTableEntry ∨ type = p4tCtrlInitialized

/-- The type of the match at `p` is a `p4_field_match_type_t`. -/
def MatchKnown (buffer : Buffer) (p : ℕ) : Prop :=
  FieldMatchType.ofCode (buffer.number (p + offMatchType) 1) ≠ none

/-- The action at `p` has parameters for the array. -/
def FewParams (buffer : Buffer) (p : ℕ) : Prop :=
  paramSize buffer p ≤ p4MaxNumberOfActionParameters

/-- There are matches for the array, and parameters for the other one. -/
def FewMatches (buffer : Buffer) : Prop :=
  readSize buffer ≤ p4MaxNumberOfFieldMatches ∧ FewParams buffer (entryAction buffer)

/-- There is a header, and it gives no length above that of what was received. -/
def LengthFits (buffer : Buffer) (length : ℤ) : Prop :=
  (sizeofP4Header : ℤ) ≤ length ∧ (buffer.netNumber offLength 2 : ℤ) ≤ length

/-- The types of all matches are known. -/
def MatchesKnown (buffer : Buffer) : Prop :=
  ∀ i < readSize buffer, MatchKnown buffer (matchPlace buffer i)

structure MsgWellFormed (buffer : Buffer) (length : ℤ) : Prop where
  length : LengthFits buffer length
  type : SupportedType (msgType buffer)
  setDefaultAction : msgType buffer = p4tSetDefaultAction → FewParams buffer offAction
  addTableEntry : msgType buffer = p4tAddTableEntry → FewMatches buffer ∧ MatchesKnown buffer

/-- The members for the action at `p`, whose parameters begin at `params`. -/
structure ActionStored (buffer : Buffer) (p params : ℕ) (c : P4CtrlMsg) : Prop where
  actionType : c.actionType = buffer.number p 1
  actionName : c.actionName = p + offActionName
  numActionParams : c.numActionParams = paramSize buffer p
  actionParams : ∀ i < paramSize buffer p, c.actionParams i = params + sizeofP4ActionParameter * i

/-- The members for the matches. -/
structure MatchesStored (buffer : Buffer) (c : P4CtrlMsg) : Prop where
  numFieldMatches : c.numFieldMatches = readSize buffer
  fieldMatches : ∀ i < readSize buffer, c.fieldMatches i = matchPlace buffer i

/-- The members that a message of its type has are those of the message. -/
structure CtrlComplete (buffer : Buffer) (c : P4CtrlMsg) : Prop where
  type : c.type = msgType buffer
  xid : c.xid = buffer.netNumber offXid 4
  setDefaultAction : msgType buffer = p4tSetDefaultAction →
    c.tableName = offTableName ∧ ActionStored buffer offAction sizeofP4SetDefaultAction c
  addTableEntry : msgType buffer = p4tAddTableEntry →
    c.tableName = offTableName ∧ MatchesStored buffer c ∧
      ActionStored buffer (entryAction buffer) (entryAction buffer + sizeofP4Action) c

/-- The callback was called, with all that it needs. -/
def Passed (buffer : Buffer) (handled : Handled) : Prop :=
  handled.called = true ∧ CtrlComplete buffer handled.decoding.ctrl

def Refused (handled : Handled) : Prop := handled.rval < 0 ∧ handled.called = false

/-- The callback is called for what is well formed, with a message that is complete whatever
was on the stack, and for nothing else. -/
structure CallbackLaw (buffer : Buffer) (length : ℤ) : Prop where
  accepts : MsgWellFormed buffer length → ∀ ctrl,
    Passed buffer (handleP4MsgInt ctrl buffer length)
  rejects : ¬ MsgWellFormed buffer length → ∀ ctrl, Refused (handleP4MsgInt ctrl buffer length)

/-- The message does not take one of the two ways to the callback that are not guarded. -/
def CallbackGuarded (buffer : Buffer) (length : ℤ) : Prop :=
  LengthFits buffer length → SupportedType (msgType buffer) ∧
    (msgType buffer = p4tAddTableEntry → FewMatches buffer → MatchesKnown buffer)

/-! ### What the loops store -/

section Unpack

variable {conv : ℕ → Traced Byte → ℕ × Traced Byte} {store : P4CtrlMsg → ℕ → ℕ → P4CtrlMsg}
  {get : P4CtrlMsg → ℕ → ℕ} (hstore : ∀ c i p, get (store c i p) = Function.update (get c) i p)

include hstore

/-- The loop stores nothing in front of its first element. -/
theorem unpackAll_get_of_lt {buffer n i offset k : ℕ} (hk : k < i) (d : Decoding) :
    get (unpackAll conv store buffer n i offset d).2.ctrl k = get d.ctrl k := by
  induction n generalizing i offset d with
  | zero => rfl
  | succ n ih =>
    refine (ih (hk.trans (Nat.lt_succ_self i)) _).trans ?_
    rw [hstore, Function.update_of_ne (Nat.ne_of_lt hk)]

/-- What the loop stores, when `place` says where the records begin as long as `inv` holds. -/
theorem unpackAll_stores {place : ℕ → ℕ} {inv : ℕ → Traced Byte → Prop}
    (hconv : ∀ j t, inv j t →
      place j + (conv (place j) t).1 = place (j + 1) ∧ inv (j + 1) (conv (place j) t).2)
    {buffer n i offset : ℕ} {d : Decoding} (hplace : buffer + offset = place i)
    (hinv : inv i d.msg) {j : ℕ} (hij : i ≤ j) (hj : j < i + n) :
    get (unpackAll conv store buffer n i offset d).2.ctrl j = place j := by
  induction n generalizing i offset d with
  | zero => exact absurd hj (Nat.not_lt.mpr hij)
  | succ n ih =>
    obtain ⟨hnext, hinv'⟩ := hconv i d.msg hinv
    rcases Nat.eq_or_lt_of_le hij with rfl | hlt
    · refine (unpackAll_get_of_lt hstore (Nat.lt_succ_self i) _).trans ?_
      rw [hstore, Function.update_self, hplace]
    · refine @ih (i + 1) _ _ ?_ ?_ hlt (by omega)
      · rw [← Nat.add_assoc, hplace]
        exact hnext
      · rw [hplace]
        exact hinv'

end Unpack

/-- The loop over the parameters stores their places, and nothing else. -/
theorem unpackActionParams_ctrl (buffer n offset : ℕ) (d : Decoding) :
    ∃ params, (unpackActionParams buffer n 0 offset d).2.ctrl =
        { d.ctrl with actionParams := params } ∧
      ∀ j < n, params j = buffer + offset + sizeofP4ActionParameter * j := by
  set walk := unpackActionParams buffer n 0 offset d with hwalk
  refine ⟨walk.2.ctrl.actionParams, ?_, ?_⟩
  · have hrest : ({ walk.2.ctrl with actionParams := fun _ => 0 } : P4CtrlMsg) =
        { d.ctrl with actionParams := fun _ => 0 } :=
      @unpackAll_ctrl _ (fun c => { c with actionParams := fun _ => 0 }) _ storeActionParam
        (fun _ _ _ => rfl) ..
    exact congrArg (fun c : P4CtrlMsg => { c with actionParams := walk.2.ctrl.actionParams }) hrest
  · intro j hj
    refine @unpackAll_stores _ storeActionParam P4CtrlMsg.actionParams (fun _ _ _ => rfl)
      (fun j => buffer + offset + sizeofP4ActionParameter * j) (fun _ _ => True) ?_ buffer n 0
      offset d rfl trivial _ (Nat.zero_le j) (by omega)
    intro j t _
    refine ⟨?_, trivial⟩
    show _ + sizeofP4ActionParameter = _
    rw [Nat.mul_succ, ← Nat.add_assoc]

/-- The loop over the matches stores their places, and nothing else. -/
theorem unpackFieldMatches_ctrl {buffer : Buffer} {d : Decoding} (n : ℕ)
    (hmem : ∀ k ≥ sizeofP4AddTableEntry, d.msg.mem k = buffer k) :
    ∃ matches', (unpackFieldMatches sizeofP4AddTableEntry n 0 0 d).2.ctrl =
        { d.ctrl with fieldMatches := matches' } ∧
      ∀ j < n, matches' j = matchPlace buffer j := by
  set walk := unpackFieldMatches sizeofP4AddTableEntry n 0 0 d with hwalk
  refine ⟨walk.2.ctrl.fieldMatches, ?_, ?_⟩
  · have hrest : ({ walk.2.ctrl with fieldMatches := fun _ => 0 } : P4CtrlMsg) =
        { d.ctrl with fieldMatches := fun _ => 0 } :=
      @unpackAll_ctrl _ (fun c => { c with fieldMatches := fun _ => 0 }) _ storeFieldMatch
        (fun _ _ _ => rfl) ..
    exact congrArg (fun c : P4CtrlMsg => { c with fieldMatches := walk.2.ctrl.fieldMatches }) hrest
  · intro j hj
    -- The sizes of the matches are those in the buffer as long as it is unchanged behind them.
    refine @unpackAll_stores _ storeFieldMatch P4CtrlMsg.fieldMatches (fun _ _ _ => rfl)
      (matchPlace buffer) (fun j t => ∀ k ≥ matchPlace buffer j, t.mem k = buffer k) ?_ _ n 0 0 d
      rfl hmem _ (Nat.zero_le j) (by omega)
    intro j t ht
    obtain ⟨hsize, hmem', -⟩ := netconvP4FieldMatchComplex_spec (t := t) ht
    refine ⟨?_, hmem'⟩
    rw [hsize]
    rfl

/-! ### What the handlers store -/

/-- The header has been swapped, and the rest of the message is as it came. -/
structure HeaderSwapped (buffer : Buffer) (d : Decoding) : Prop where
  mem : ∀ k ≥ sizeofP4Header, d.msg.mem k = buffer k
  type : hostNat (slice d.msg.mem offType 1) = msgType buffer
  xid : hostNat (slice d.msg.mem offXid 4) = buffer.netNumber offXid 4

theorem handleP4SetDefaultAction_ctrl {buffer : Buffer} {d : Decoding} (hd : HeaderSwapped buffer d)
    (hfew : FewParams buffer offAction) :
    ∃ params, (handleP4SetDefaultAction d).2.ctrl = { d.ctrl with
        type := msgType buffer, xid := buffer.netNumber offXid 4, tableName := offTableName
        actionType := buffer.number offAction 1, actionName := offAction + offActionName
        numActionParams := paramSize buffer offAction, actionParams := params } ∧
      ∀ j < paramSize buffer offAction,
        params j = sizeofP4SetDefaultAction + sizeofP4ActionParameter * j := by
  have hsize : hostNat (slice d.msg.mem (offAction + offParamSize) 1) =
      paramSize buffer offAction := number_eq hd.mem (by decide) 1
  have haction : hostNat (slice d.msg.mem offAction 1) = buffer.number offAction 1 :=
    number_eq hd.mem (by decide) 1
  simp only [handleP4SetDefaultAction, Decoding.number, Traced.read_fst, Traced.read_mem, hsize,
    if_neg (Nat.not_lt.mpr hfew), hd.type, hd.xid, haction]
  obtain ⟨params, hctrl, hparams⟩ :=
    unpackActionParams_ctrl sizeofP4SetDefaultAction (paramSize buffer offAction) 0 _
  exact ⟨params, hctrl, hparams⟩

theorem handleEntryAction_ctrl {buffer : Buffer} {d : Decoding} {offset p : ℕ}
    (hp : sizeofP4AddTableEntry + offset = p) (hmem : ∀ k ≥ p, d.msg.mem k = buffer k)
    (hfew : FewParams buffer p) :
    ∃ params, (handleEntryAction offset d).2.ctrl = { d.ctrl with
        actionType := buffer.number p 1, actionName := p + offActionName
        numActionParams := paramSize buffer p, actionParams := params } ∧
      ∀ j < paramSize buffer p, params j = p + sizeofP4Action + sizeofP4ActionParameter * j := by
  have hsize : hostNat (slice d.msg.mem (p + offParamSize) 1) = paramSize buffer p := by
    rw [slice_congr fun i _ => hmem _ (by omega)]
    rfl
  have haction : hostNat (slice d.msg.mem p 1) = buffer.number p 1 := by
    rw [slice_congr fun i _ => hmem _ (by omega)]
    rfl
  simp only [handleEntryAction, Decoding.number, Traced.read_fst, Traced.read_mem, hp, hsize,
    if_neg (Nat.not_lt.mpr hfew), haction]
  obtain ⟨params, hctrl, hparams⟩ :=
    unpackActionParams_ctrl sizeofP4AddTableEntry (paramSize buffer p) (offset + sizeofP4Action) _
  refine ⟨params, hctrl, ?_⟩
  intro j hj
  rw [hparams j hj, ← Nat.add_assoc, hp]

theorem handleP4AddTableEntry_ctrl {buffer : Buffer} {d : Decoding} (hd : HeaderSwapped buffer d)
    (hfew : FewMatches buffer) :
    ∃ matches' params, (handleP4AddTableEntry d).2.ctrl =
        { type := msgType buffer, xid := buffer.netNumber offXid 4, tableName := offTableName
          actionType := buffer.number (entryAction buffer) 1
          actionName := entryAction buffer + offActionName
          numActionParams := paramSize buffer (entryAction buffer), actionParams := params
          numFieldMatches := readSize buffer, fieldMatches := matches' } ∧
      (∀ i < readSize buffer, matches' i = matchPlace buffer i) ∧
      ∀ j < paramSize buffer (entryAction buffer),
        params j = entryAction buffer + sizeofP4Action + sizeofP4ActionParameter * j := by
  have hsize : hostNat (slice d.msg.mem offReadSize 1) = readSize buffer :=
    number_eq hd.mem (by decide) 1
  simp only [handleP4AddTableEntry, Decoding.number, Traced.read_fst, Traced.read_mem, hsize,
    if_neg (Nat.not_lt.mpr hfew.1), hd.type, hd.xid]
  set d₁ : Decoding :=
    { ctrl := { d.ctrl with
        type := msgType buffer, xid := buffer.netNumber offXid 4
        tableName := offTableName, numFieldMatches := readSize buffer }
      msg := (((d.msg.read offType 1).2.read offXid 4).2.read offReadSize 1).2 } with hd₁
  have hmem₁ : ∀ k ≥ sizeofP4AddTableEntry, d₁.msg.mem k = buffer k := fun k hk =>
    hd.mem k ((by decide : sizeofP4Header ≤ sizeofP4AddTableEntry).trans hk)
  obtain ⟨hoffset, hmem₂, -⟩ := @unpackFieldMatches_spec buffer (readSize buffer) 0 0 0 d₁ rfl hmem₁
  obtain ⟨matches', hmatches, hplaces⟩ := unpackFieldMatches_ctrl (readSize buffer) hmem₁
  rw [Nat.zero_add] at hoffset hmem₂
  -- Behind the matches comes the action.
  obtain ⟨params, hctrl, hparams⟩ := handleEntryAction_ctrl hoffset hmem₂ hfew.2
  refine ⟨matches', params, ?_, hplaces, hparams⟩
  rw [hctrl, hmatches]
  rfl

/-! ### The law -/

/-- The message when its type is looked at. -/
theorem handleP4MsgInt_eq {buffer : Buffer} {length : ℤ} (h : LengthFits buffer length)
    (ctrl : P4CtrlMsg) : ∃ d, HeaderSwapped buffer d ∧
      handleP4MsgInt ctrl buffer length = switchType (msgType buffer) d := by
  obtain ⟨hheader, hlength⟩ := h
  lift length to ℕ using (Int.natCast_nonneg _).trans hheader
  replace hheader := Int.ofNat_le.mp hheader
  replace hlength := Int.ofNat_le.mp hlength
  refine ⟨⟨ctrl, (((netconvP4Header 0 ⟨buffer, []⟩).read offLength 2).2.read offType 1).2⟩,
    ⟨netconvP4Header_mem buffer, netconvP4Header_type buffer, netconvP4Header_xid buffer⟩, ?_⟩
  exact (handleP4Msg_eq ctrl buffer hheader).trans (if_neg (Nat.not_lt.mpr hlength))

/-- A message whose length does not fit is not looked at. -/
theorem refused_of_not_lengthFits {buffer : Buffer} {length : ℤ} (h : ¬ LengthFits buffer length)
    (ctrl : P4CtrlMsg) : Refused (handleP4MsgInt ctrl buffer length) := by
  cases length with
  | negSucc n => exact ⟨Int.negSucc_lt_zero 0, rfl⟩
  | ofNat length =>
    show Refused (handleP4Msg ctrl buffer length)
    by_cases hheader : sizeofP4Header ≤ length
    · have hlong : length < buffer.netNumber offLength 2 := by
        by_contra hle
        exact h ⟨Int.ofNat_le.mpr hheader, Int.ofNat_le.mpr (Nat.not_lt.mp hle)⟩
      rw [handleP4Msg_eq ctrl buffer hheader]
      simp [Refused, hlong]
    · rw [handleP4Msg, if_pos (Nat.not_le.mp hheader)]
      exact ⟨Int.negSucc_lt_zero 0, rfl⟩

section Switch

variable {buffer : Buffer} {d : Decoding} (hd : HeaderSwapped buffer d)

include hd

theorem switchType_setDefaultAction (htype : msgType buffer = p4tSetDefaultAction) :
    (FewParams buffer offAction → Passed buffer (switchType (msgType buffer) d)) ∧
      (¬ FewParams buffer offAction → Refused (switchType (msgType buffer) d)) := by
  have hrval := handleP4SetDefaultAction_rval hd.mem
  have hentry : msgType buffer ≠ p4tAddTableEntry := by
    rw [htype]
    decide
  simp only [switchType, if_pos htype]
  constructor
  · intro hfew
    rw [if_neg (Nat.not_lt.mpr hfew)] at hrval
    obtain ⟨params, hctrl, hparams⟩ := handleP4SetDefaultAction_ctrl hd hfew
    simp only [Passed, hrval, lt_irrefl, if_false, true_and, hctrl]
    exact ⟨rfl, rfl, fun _ => ⟨rfl, rfl, rfl, rfl, hparams⟩, fun h => absurd h hentry⟩
  · intro hmany
    rw [if_pos (Nat.not_le.mp hmany)] at hrval
    simp [Refused, hrval]

theorem switchType_addTableEntry (htype : msgType buffer = p4tAddTableEntry) :
    (FewMatches buffer → Passed buffer (switchType (msgType buffer) d)) ∧
      (¬ FewMatches buffer → Refused (switchType (msgType buffer) d)) := by
  have hrval := handleP4AddTableEntry_rval hd.mem
  have hdefault : msgType buffer ≠ p4tSetDefaultAction := by
    rw [htype]
    decide
  simp only [switchType, if_neg hdefault, if_pos htype]
  constructor
  · intro hfew
    rw [if_neg (Nat.not_lt.mpr hfew.1), if_neg (Nat.not_lt.mpr hfew.2)] at hrval
    obtain ⟨matches', params, hctrl, hmatches, hparams⟩ := handleP4AddTableEntry_ctrl hd hfew
    simp only [Passed, hrval, lt_irrefl, if_false, true_and, hctrl]
    exact ⟨rfl, rfl, fun h => absurd h hdefault,
      fun _ => ⟨rfl, ⟨rfl, hmatches⟩, rfl, rfl, rfl, hparams⟩⟩
  · intro hmany
    have hneg : (handleP4AddTableEntry d).1 < 0 := by
      rw [hrval]
      split_ifs with hmatches hparams
      · decide
      · decide
      · exact absurd ⟨Nat.not_lt.mp hmatches, Nat.not_lt.mp hparams⟩ hmany
    simp [Refused, hneg]

/-- The message that says that the controller is ready needs a header only. -/
theorem switchType_ctrlInitialized (htype : msgType buffer = p4tCtrlInitialized) :
    Passed buffer (switchType (msgType buffer) d) := by
  have hdefault : msgType buffer ≠ p4tSetDefaultAction := by
    rw [htype]
    decide
  have hentry : msgType buffer ≠ p4tAddTableEntry := by
    rw [htype]
    decide
  rw [switchType, if_neg hdefault, if_neg hentry, if_pos htype]
  exact ⟨rfl, hd.type, hd.xid, fun h => absurd h hdefault, fun h => absurd h hentry⟩

end Switch

/-- A message of an unknown type is passed on. -/
theorem switchType_unsupported {type : ℕ} (h : ¬ SupportedType type) (d : Decoding) :
    switchType type d = ⟨-100, true, d⟩ := by
  simp only [SupportedType, not_or] at h
  rw [switchType, if_neg h.1, if_neg h.2.1, if_neg h.2.2]

/-- **Exactly the well-formed messages reach the callback, complete, iff the message does not
take one of the two ways there that are not guarded.** -/
theorem callbackLaw_iff (buffer : Buffer) (length : ℤ) :
    CallbackLaw buffer length ↔ CallbackGuarded buffer length := by
  constructor
  · intro h hlength
    obtain ⟨d, hd, hswitch⟩ := handleP4MsgInt_eq hlength default
    -- A message that is passed on was not refused, so it must be well formed.
    have hformed : Passed buffer (switchType (msgType buffer) d) → MsgWellFormed buffer length := by
      intro hpassed
      by_contra hbad
      have hrefused := (h.rejects hbad default).2
      rw [hswitch, hpassed.1] at hrefused
      exact absurd hrefused Bool.noConfusion
    refine ⟨?_, ?_⟩
    · by_contra hunknown
      have hrefused := (h.rejects (fun hformed => hunknown hformed.type) default).2
      rw [hswitch, switchType_unsupported hunknown] at hrefused
      exact absurd hrefused Bool.noConfusion
    · intro htype hfew
      exact ((hformed ((switchType_addTableEntry hd htype).1 hfew)).addTableEntry htype).2
  · intro hguarded
    by_cases hlength : LengthFits buffer length
    · obtain ⟨htype, hknown⟩ := hguarded hlength
      have hswitch := handleP4MsgInt_eq hlength
      refine ⟨?_, ?_⟩
      · intro hformed ctrl
        obtain ⟨d, hd, hctrl⟩ := hswitch ctrl
        rw [hctrl]
        rcases htype with hdefault | hentry | hinit
        · exact (switchType_setDefaultAction hd hdefault).1 (hformed.setDefaultAction hdefault)
        · exact (switchType_addTableEntry hd hentry).1 (hformed.addTableEntry hentry).1
        · exact switchType_ctrlInitialized hd hinit
      · intro hbad ctrl
        obtain ⟨d, hd, hctrl⟩ := hswitch ctrl
        rw [hctrl]
        rcases htype with hdefault | hentry | hinit
        · have hentry : msgType buffer ≠ p4tAddTableEntry := by
            rw [hdefault]
            decide
          refine (switchType_setDefaultAction hd hdefault).2 fun hfew => hbad ?_
          exact ⟨hlength, .inl hdefault, fun _ => hfew, fun h => absurd h hentry⟩
        · have hdefault : msgType buffer ≠ p4tSetDefaultAction := by
            rw [hentry]
            decide
          refine (switchType_addTableEntry hd hentry).2 fun hfew => hbad ?_
          exact ⟨hlength, .inr (.inl hentry), fun h => absurd h hdefault,
            fun _ => ⟨hfew, hknown hentry hfew⟩⟩
        · refine absurd ⟨hlength, .inr (.inr hinit), ?_, ?_⟩ hbad
          · intro h
            exact absurd (hinit.symm.trans h) (by decide)
          · intro h
            exact absurd (hinit.symm.trans h) (by decide)
    · exact ⟨fun hformed => absurd hformed.length hlength,
        fun _ => refused_of_not_lengthFits hlength⟩

/-- A header of the type 0. -/
def helloHeader : Buffer := run [⟨offLength, [0, 8]⟩] fun _ => 0

/-- The callback is called for it, with nothing stored. -/
theorem not_callbackLaw : ¬ CallbackLaw helloHeader 8 := by
  intro h
  have hbad : ¬ MsgWellFormed helloHeader 8 := by
    intro hformed
    have htype := hformed.type
    revert htype
    unfold SupportedType
    decide
  have hrefused := (h.rejects hbad default).2
  revert hrefused
  decide

end T4P4S
