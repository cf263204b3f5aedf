/-
Decoding the messages of the controller.

`handle_p4_msg` swaps the bytes of a message in place and passes pointers into it to
a callback.
-/
import Mathlib.Logic.Function.Basic
import T4P4S.Messages

open ByteString

namespace T4P4S

/-- `P4_MAX_NUMBER_OF_ACTION_PARAMETERS` -/
def p4MaxNumberOfActionParameters : ℕ := 10

/-- `P4_MAX_NUMBER_OF_FIELD_MATCHES` -/
def p4MaxNumberOfFieldMatches : ℕ := 10

/-- What is passed to the callback.  Pointers are offsets into the buffer. -/
structure P4CtrlMsg where
  type : ℕ
  xid : ℕ
  tableName : ℕ
  actionType : ℕ
  actionName : ℕ
  numActionParams : ℕ
  actionParams : ℕ → ℕ
  numFieldMatches : ℕ
  fieldMatches : ℕ → ℕ
  deriving Inhabited

/-- The message that is decoded, and what was taken from it. -/
structure Decoding where
  ctrl : P4CtrlMsg
  msg : Traced Byte

namespace Decoding

/-- Read a number, of `n` bytes. -/
def number (d : Decoding) (off n : ℕ) : ℕ × Decoding :=
  let rd := d.msg.read off n
  (hostNat rd.1, { d with msg := rd.2 })

end Decoding

def handleP4CtrlInitialized (d : Decoding) : ℤ × Decoding :=
  let type := d.number offType 1
  let xid := type.2.number offXid 4
  (0, { xid.2 with ctrl := { d.ctrl with type := type.1, xid := xid.1 } })

/-- A loop over records behind `buffer`, at the `i`-th of them, with `n` to go.  `conv` swaps
the bytes of a record and gives its size, `store` puts its place into an array.  The offset
behind the last record is returned. -/
def unpackAll (conv : ℕ → Traced Byte → ℕ × Traced Byte)
    (store : P4CtrlMsg → ℕ → ℕ → P4CtrlMsg) (buffer : ℕ) : ℕ → ℕ → ℕ → Decoding → ℕ × Decoding
  | 0, _, offset, d => (offset, d)
  | n + 1, i, offset, d =>
    let record := conv (buffer + offset) d.msg
    unpackAll conv store buffer n (i + 1) (offset + record.1)
      { ctrl := store d.ctrl i (buffer + offset), msg := record.2 }

/-- Whatever the loop does not store into stays as it is. -/
theorem unpackAll_ctrl {γ : Type} (g : P4CtrlMsg → γ) {conv : ℕ → Traced Byte → ℕ × Traced Byte}
    {store : P4CtrlMsg → ℕ → ℕ → P4CtrlMsg} (hg : ∀ c i p, g (store c i p) = g c)
    (buffer n i offset : ℕ) (d : Decoding) :
    g (unpackAll conv store buffer n i offset d).2.ctrl = g d.ctrl := by
  induction n generalizing i offset d with
  | zero => rfl
  | succ n ih => exact (ih _ _ _).trans (hg ..)

/-- The loop stores nothing behind the last of its elements. -/
theorem unpackAll_get {conv : ℕ → Traced Byte → ℕ × Traced Byte}
    {store : P4CtrlMsg → ℕ → ℕ → P4CtrlMsg} {get : P4CtrlMsg → ℕ → ℕ}
    (hstore : ∀ c i p, get (store c i p) = Function.update (get c) i p) {buffer n i offset k : ℕ}
    (hk : i + n ≤ k) (d : Decoding) :
    get (unpackAll conv store buffer n i offset d).2.ctrl k = get d.ctrl k := by
  induction n generalizing i offset d with
  | zero => rfl
  | succ n ih =>
    have hne : k ≠ i := by omega
    refine (@ih (i + 1) _ (by omega) _).trans ?_
    rw [hstore, Function.update_of_ne hne]

def storeActionParam (ctrl : P4CtrlMsg) (i p : ℕ) : P4CtrlMsg :=
  { ctrl with actionParams := Function.update ctrl.actionParams i p }

def unpackActionParams : ℕ → ℕ → ℕ → ℕ → Decoding → ℕ × Decoding :=
  unpackAll (fun p t => (sizeofP4ActionParameter, netconvP4ActionParameter p t)) storeActionParam

def storeFieldMatch (ctrl : P4CtrlMsg) (i p : ℕ) : P4CtrlMsg :=
  { ctrl with fieldMatches := Function.update ctrl.fieldMatches i p }

def unpackFieldMatches : ℕ → ℕ → ℕ → ℕ → Decoding → ℕ × Decoding :=
  unpackAll netconvP4FieldMatchComplex storeFieldMatch

def handleP4SetDefaultAction (d : Decoding) : ℤ × Decoding :=
  let type := d.number offType 1
  let xid := type.2.number offXid 4
  let actionType := xid.2.number offAction 1
  let paramSize := actionType.2.number (offAction + offParamSize) 1
  let ctrl := { d.ctrl with
    type := type.1, xid := xid.1, tableName := offTableName, actionType := actionType.1
    actionName := offAction + offActionName }
  if p4MaxNumberOfActionParameters < paramSize.1 then
    (-1, { paramSize.2 with ctrl := ctrl })
  else
    (0, (unpackActionParams sizeofP4SetDefaultAction paramSize.1 0 0
      { paramSize.2 with ctrl := { ctrl with numActionParams := paramSize.1 } }).2)

/-- The part of `handle_p4_add_table_entry` behind the matches. -/
def handleEntryAction (offset : ℕ) (d : Decoding) : ℤ × Decoding :=
  let action := sizeofP4AddTableEntry + offset
  let actionType := d.number action 1
  let paramSize := actionType.2.number (action + offParamSize) 1
  let ctrl := { d.ctrl with actionType := actionType.1, actionName := action + offActionName }
  if p4MaxNumberOfActionParameters < paramSize.1 then
    (-2, { paramSize.2 with ctrl := ctrl })
  else
    (0, (unpackActionParams sizeofP4AddTableEntry paramSize.1 0 (offset + sizeofP4Action)
      { paramSize.2 with ctrl := { ctrl with numActionParams := paramSize.1 } }).2)

def handleP4AddTableEntry (d : Decoding) : ℤ × Decoding :=
  let type := d.number offType 1
  let xid := type.2.number offXid 4
  let readSize := xid.2.number offReadSize 1
  let ctrl := { d.ctrl with type := type.1, xid := xid.1, tableName := offTableName }
  if p4MaxNumberOfFieldMatches < readSize.1 then
    (-1, { readSize.2 with ctrl := ctrl })
  else
    let walk := unpackFieldMatches sizeofP4AddTableEntry readSize.1 0 0
      { readSize.2 with ctrl := { ctrl with numFieldMatches := readSize.1 } }
    handleEntryAction walk.1 walk.2

/-- The result of `handle_p4_msg`; `called` says that the callback was called. -/
structure Handled where
  rval : ℤ
  called : Bool
  decoding : Decoding

/-- The `switch` of `handle_p4_msg`. -/
def switchType (type : ℕ) (d : Decoding) : Handled :=
  if type = p4tSetDefaultAction then
    let handled := handleP4SetDefaultAction d
    if handled.1 < 0 then ⟨handled.1, false, handled.2⟩ else ⟨0, true, handled.2⟩
  else if type = p4tAddTableEntry then
    let handled := handleP4AddTableEntry d
    if handled.1 < 0 then ⟨handled.1, false, handled.2⟩ else ⟨0, true, handled.2⟩
  else if type = p4tCtrlInitialized then
    ⟨0, true, (handleP4CtrlInitialized d).2⟩
  else
    ⟨-100, true, d⟩

/-- `handle_p4_msg`; `ctrl` is what the variable `ctrl_m` holds at first. -/
def handleP4Msg (ctrl : P4CtrlMsg) (buffer : Buffer) (length : ℕ) : Handled :=
  if length < sizeofP4Header then
    ⟨-1, false, ctrl, buffer, []⟩
  else
    let header : Decoding := ⟨ctrl, netconvP4Header 0 ⟨buffer, []⟩⟩
    let msglen := header.number offLength 2
    if length < msglen.1 then
      ⟨-1, false, msglen.2⟩
    else
      let type := msglen.2.number offType 1
      switchType type.1 type.2

end T4P4S
