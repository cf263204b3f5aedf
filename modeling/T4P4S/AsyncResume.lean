/-
Crypto operations that suspend a packet, and the same operations made at once.

In the mode `ASYNC_MODE_PD` a crypto operation jumps out of the handling of the packet.
When its result is there, `do_handle_packet` is called again with the next
`program_restore_phase`: the headers are reset, the packet is parsed again and the code before
the operation runs again, on the packet as the device leaves it.

* **`asyncHandle_eq_atReturn`** — what the code behind the call gets: the code before it has
  been run once more for each operation;
* **`sameResult_iff`** — when that makes no difference for a program, and when for none.
-/
import T4P4S.Lib.ByteString
import T4P4S.Packet

open ByteString

namespace T4P4S

/-! ### The crypto device -/

/-- `crypto_task_type_e` -/
inductive CryptoTaskType
  | encrypt
  | decrypt
  | md5Hmac
  deriving DecidableEq

/-- `crypto_task_s`, with the bytes of the mbuf that `data` points to. -/
structure CryptoTask where
  type : CryptoTaskType
  data : List Byte
  offset : ℕ
  paddingLength : ℕ
  plainLengthToEncrypt : ℕ

/-- What the device makes of the bytes it is given. -/
structure CryptoDevice where
  encrypt : List Byte → List Byte
  decrypt : List Byte → List Byte
  md5Hmac : List Byte → List Byte

/-- `n` bytes from `off` on. -/
def part (w : List Byte) (off n : ℕ) : List Byte := (w.drop off).take n

/-- Other bytes in place of `n` bytes from `off` on. -/
def replacePart (w : List Byte) (off n : ℕ) (bs : List Byte) : List Byte :=
  w.take off ++ bs ++ w.drop (off + n)

/-- `create_crypto_task`, with what is put in front of the data (nothing, or the address of
the `pd_store`).  It is undefined when the offset is behind the packet. -/
def createCryptoTask (front : List Byte) (type : CryptoTaskType) (offset : ℕ)
    (wrapper : List Byte) : Option CryptoTask :=
  if offset ≤ wrapper.length then
    let plainLength := wrapper.length - offset
    -- Ciphers work on blocks of 16 bytes, the HMAC takes the packet as it is.
    let paddingLength := if type = .md5Hmac then 0 else (16 - plainLength % 16) % 16
    some
      { type := type
        data := front ++ (wrapper ++ List.replicate paddingLength 0)
        offset := offset + front.length
        paddingLength := paddingLength
        plainLengthToEncrypt := plainLength }
  else
    none

/-- `crypto_task_to_rte_crypto_op`, and what the device then does: it works in place, and puts
the digest of an HMAC behind the data. -/
def CryptoDevice.execute (V : CryptoDevice) (task : CryptoTask) : List Byte :=
  let length := task.plainLengthToEncrypt + task.paddingLength
  match task.type with
  | .encrypt =>
    replacePart task.data task.offset length (V.encrypt (part task.data task.offset length))
  | .decrypt =>
    replacePart task.data task.offset length (V.decrypt (part task.data task.offset length))
  | .md5Hmac => task.data ++ V.md5Hmac (part task.data task.offset task.plainLengthToEncrypt)

/-! ### Handling a packet -/

/-- The members of `packet_descriptor_t` that are set with the packet's size and for the
deparser, and the others: headers, metadata, local variables. -/
structure ProgramDescriptor (D : Type) where
  parsedSize : ℤ
  payloadSize : ℤ
  deparseHdrinstCount : ℕ
  isDeparseReordering : Bool
  members : D

/-- What the code of a program works on: the packet, its descriptor, and the registers and
counters. -/
structure Handling (D M : Type) where
  wrapper : List Byte
  pd : ProgramDescriptor D
  memories : M

variable {D M : Type}

/-- `reset_pd` -/
def resetPd (wrapper : List Byte) (pd : ProgramDescriptor D) : ProgramDescriptor D :=
  { pd with
    parsedSize := 0
    payloadSize := wrapper.length
    deparseHdrinstCount := 0
    isDeparseReordering := false }

/-- A packet whose handling stopped at a crypto operation: its task, and what is in its
`pd_store`. -/
structure Suspension (D M : Type) where
  task : CryptoTask
  pdStore : ProgramDescriptor D
  programRestorePhase : ℕ
  memories : M

/-- A call does not return if what it does is undefined, or if it jumps to the main loop. -/
inductive CallOutcome (σ α : Type)
  | undefined
  | jumped (s : σ)
  | returned (a : α)

def CallOutcome.bind {σ α β : Type} (o : CallOutcome σ α) (f : α → CallOutcome σ β) :
    CallOutcome σ β :=
  match o with
  | .undefined => .undefined
  | .jumped s => .jumped s
  | .returned a => f a

theorem CallOutcome.bind_assoc {σ α β γ : Type} (o : CallOutcome σ α) (f : α → CallOutcome σ β)
    (g : β → CallOutcome σ γ) : (o.bind f).bind g = o.bind fun a => (f a).bind g := by
  cases o with
  | undefined => rfl
  | jumped s => rfl
  | returned a => rfl

def CallOutcome.ofOption {σ α : Type} : Option α → CallOutcome σ α
  | none => .undefined
  | some a => .returned a

/-- The outcome of handling a packet that may be suspended. -/
abbrev HandlingOutcome (D M : Type) := CallOutcome (Suspension D M) (Handling D M)

/-- The address of a `pd_store`, as it is put in front of the data. -/
structure StoreAddress where
  bytes : List Byte
  length_eq : bytes.length = 8

/-- A crypto operation of an extern: its type, its offset and its phase. -/
abbrev CryptoOperation (D M : Type) :=
  CryptoTaskType → ℕ → ℕ → Handling D M → HandlingOutcome D M

variable (V : CryptoDevice) (A : StoreAddress)

/-- `do_crypto_task`, for a packet that has a `pd_store`.  What `reset_pd` then does to the
descriptor of the main loop is lost when the packet is resumed. -/
def doCryptoTaskPd (phase : ℕ) (type : CryptoTaskType) (offset : ℕ) (h : Handling D M) :
    HandlingOutcome D M :=
  match createCryptoTask A.bytes type offset h.wrapper with
  | none => .undefined
  | some task => .jumped ⟨task, h.pd, phase, h.memories⟩

/-- `do_async_crypto_operation` in the mode `ASYNC_MODE_PD`. -/
def doAsyncCryptoOperation (programRestorePhase : ℕ) : CryptoOperation D M :=
  fun type offset phase h =>
    if programRestorePhase = phase then doCryptoTaskPd A phase type offset h else .returned h

/-- `process_crypto_op_result`.  The position that the digest is copied from is a `uint8_t`. -/
def processCryptoOpResult (task : CryptoTask) (data : List Byte) : List Byte :=
  match task.type with
  | .encrypt => data
  | .decrypt => data
  | .md5Hmac =>
    let targetRelative := task.offset + task.plainLengthToEncrypt
    -- `uint8_t from_relative`
    let fromRelative :=
      (task.offset + task.plainLengthToEncrypt + task.paddingLength) % 2 ^ 8
    let data := replacePart data targetRelative 16 (part data fromRelative 16)
    data.take (data.length - task.paddingLength)

/-- `do_async_crypto_operation` in the mode `ASYNC_MODE_OFF`, that is
`do_sync_crypto_operation`. -/
def doSyncCryptoOperation : CryptoOperation D M :=
  fun type offset _ h =>
    match createCryptoTask [] type offset h.wrapper with
    | none => .undefined
    | some task =>
      let wrapper := processCryptoOpResult task (V.execute task)
      .returned { h with wrapper := wrapper, pd := resetPd wrapper h.pd }

/-! ### The externs -/

/-- The first block of `ipsec_encapsulate`: what was behind the Ethernet header goes behind
an ESP header and an IV, with padding and a trailer behind it.  `tailroom` has the bytes that
`rte_pktmbuf_append` adds.  With less than an Ethernet header the length to move is negative. -/
def encapsulate (tailroom : ℕ → Byte) (h : Handling D M) : Option (Handling D M) :=
  let wrapperSize := h.wrapper.length
  if 14 ≤ wrapperSize then
    let lengthToEncryptFromOriginal := wrapperSize - 14
    let paddingSize := (16 - (lengthToEncryptFromOriginal + 2) % 16) % 16
    let toEncryptSize := lengthToEncryptFromOriginal + paddingSize + 2
    let appended := h.wrapper ++
      (List.range (8 + 16 + toEncryptSize + 34 - wrapperSize)).map fun i =>
        tailroom (wrapperSize + i)
    -- The ranges overlap, and the bytes are moved with `memmove`.
    let moved := replacePart appended 58 toEncryptSize (part appended 14 toEncryptSize)
    let esp := [0, 0, 0x02, 0x22] ++ [0, 0, 0, 1] ++ List.replicate 16 0
    let headed := replacePart moved 34 24 esp
    let trailer := (List.range paddingSize).map (fun i => BitVec.ofNat 8 (i + 1)) ++
      [BitVec.ofNat 8 paddingSize, 4]
    some { h with
      wrapper := replacePart headed (58 + lengthToEncryptFromOriginal) (paddingSize + 2) trailer }
  else
    none

/-- The last block of `ipsec_encapsulate`: the digest is cut off, and the IPv4 header is set.
It is undefined when the packet is shorter than that header. -/
def keepHmac (rawCksum : List Byte → BitVec 16) (h : Handling D M) :
    Option (Handling D M) :=
  let wrapper := h.wrapper.take (h.wrapper.length - 4)
  if 34 ≤ wrapper.length then
    let wrapper := replacePart wrapper 17 1 [BitVec.ofNat 8 wrapper.length - 14]
    let wrapper := replacePart wrapper 24 2 [0, 0]
    let wrapper := replacePart wrapper 23 4 [0x32, 0, 0, 0]
    let wrapper := replacePart wrapper 26 4 [3, 3, 3, 3]
    let wrapper := replacePart wrapper 30 4 [4, 4, 4, 4]
    let cksum := rawCksum (part wrapper 14 20)
    -- As in `rte_ipv4_cksum`, a sum of all ones is not complemented.
    let cksum := if cksum = 0xffff then cksum else ~~~cksum
    some { h with
      wrapper := replacePart wrapper 24 2 (hostBytes 2 cksum.toNat)
      pd := { h.pd with payloadSize := wrapper.length } }
  else
    none

/-- The externs that may suspend a packet.  The argument of the last two is an expression of
the program. -/
inductive CryptoExtern (D M : Type)
  | ipsecEncapsulate (tailroom : ℕ → Byte) (rawCksum : List Byte → BitVec 16)
  | asyncEncrypt (offset : Handling D M → Byte)
  | asyncDecrypt (offset : Handling D M → Byte)

/-- The body of an extern, entered in the phase that the packet is in. -/
def CryptoExtern.run (op : CryptoOperation D M) (phase : ℕ) (h : Handling D M) :
    CryptoExtern D M → HandlingOutcome D M
  | .ipsecEncapsulate tailroom rawCksum =>
    -- `goto PHASE1` and `goto PHASE2` leave out what comes before.
    (if phase = 1 ∨ phase = 2 then .returned h
      else (CallOutcome.ofOption (encapsulate tailroom h)).bind (op .encrypt 58 0)).bind fun h =>
    (if phase = 2 then .returned h else op .md5Hmac 34 1 h).bind fun h =>
    CallOutcome.ofOption (keepHmac rawCksum h)
  | .asyncEncrypt offset => op .encrypt (offset h).toNat 0 h
  | .asyncDecrypt offset => op .decrypt (offset h).toNat 1 h

/-! ### The two ways to handle a packet -/

/-- A program that calls a crypto extern.  `before` is what `process_packet` does up to the
call, and says if the call is reached; `resetHeaders` is `reset_headers` and
`set_handle_packet_metadata`. -/
structure CallingProgram (D M : Type) where
  resetHeaders : D → D
  before : Handling D M → Handling D M × Bool
  call : CryptoExtern D M

variable (P : CallingProgram D M)

/-- The start of `handle_packet`. -/
def CallingProgram.start (h : Handling D M) : Handling D M :=
  { h with
    pd := { h.pd with
      parsedSize := 0
      deparseHdrinstCount := 0
      isDeparseReordering := false
      members := P.resetHeaders h.pd.members } }

/-- `handle_packet` up to where the call of the extern is made, and what comes of it. -/
def CallingProgram.upToReturn (op : CryptoOperation D M) (phase : ℕ) (h : Handling D M) :
    CallOutcome (Suspension D M) (Handling D M × Bool) :=
  let (h, called) := P.before (P.start h)
  if called then
    (P.call.run op phase h).bind fun h => .returned (h, true)
  else
    .returned (h, false)

/-- The main loop: it gives the task to the device, takes the address off the result, and
restores the descriptor. -/
def Suspension.resume (s : Suspension D M) : Handling D M where
  wrapper := (V.execute s.task).drop 8
  pd := s.pdStore
  memories := s.memories

/-- The handling of a packet that may be suspended, up to where the call returns or is passed
by.  `fuel` bounds the number of times that it is resumed. -/
def asyncHandle : ℕ → ℕ → Handling D M → Option (Handling D M × Bool)
  | fuel, phase, h =>
    match P.upToReturn (doAsyncCryptoOperation A phase) phase h with
    | .undefined => none
    | .returned r => some r
    | .jumped s =>
      match fuel with
      | 0 => none
      | fuel + 1 => asyncHandle fuel (s.programRestorePhase + 1) (s.resume V)

/-- The handling of a packet with blocking operations. -/
def syncHandle (h : Handling D M) : Option (Handling D M × Bool) :=
  match P.upToReturn (doSyncCryptoOperation V) 0 h with
  | .returned r => some r
  | _ => none

/-! ### What comes of the operations -/

/-- What an operation makes of a packet. -/
def operate (type : CryptoTaskType) (offset : ℕ) (wrapper : List Byte) : Option (List Byte) :=
  (createCryptoTask [] type offset wrapper).map V.execute

/-- What a blocking operation makes of a packet. -/
def operateBlocking (type : CryptoTaskType) (offset : ℕ) (wrapper : List Byte) :
    Option (List Byte) :=
  (createCryptoTask [] type offset wrapper).map fun task =>
    processCryptoOpResult task (V.execute task)

/-- What a blocking operation leaves, besides the packet. -/
def Handling.blocking (h : Handling D M) (wrapper : List Byte) : Handling D M :=
  { h with wrapper := wrapper, pd := resetPd wrapper h.pd }

namespace CallingProgram

/-- The code before the call, run again on what an operation made of the packet. -/
def again (h : Handling D M) (wrapper : List Byte) : Handling D M × Bool :=
  P.before (P.start { h with wrapper := wrapper })

/-- `ipsec_encapsulate` from `PHASE2` on. -/
def phase2 (rawCksum : List Byte → BitVec 16) (h : Handling D M) (wrapper : List Byte) :
    Option (Handling D M × Bool) :=
  let (h, called) := P.again h wrapper
  if called then (keepHmac rawCksum h).map fun h => (h, true) else some (h, false)

/-- `ipsec_encapsulate` from `PHASE1` on. -/
def phase1 (rawCksum : List Byte → BitVec 16) (h : Handling D M) (wrapper : List Byte) :
    Option (Handling D M × Bool) :=
  let (h, called) := P.again h wrapper
  if called then
    (operate V .md5Hmac 34 h.wrapper).bind fun wrapper => P.phase2 rawCksum h wrapper
  else
    some (h, false)

/-- Where the call returns or is passed by, if the code before it is run again after each
operation. -/
def atReturn (h : Handling D M) : Option (Handling D M × Bool) :=
  let (h, called) := P.before (P.start h)
  if called then
    match P.call with
    | .ipsecEncapsulate tailroom rawCksum =>
      (encapsulate tailroom h).bind fun h =>
        (operate V .encrypt 58 h.wrapper).bind fun wrapper => P.phase1 V rawCksum h wrapper
    | .asyncEncrypt offset =>
      (operate V .encrypt (offset h).toNat h.wrapper).map fun wrapper => P.again h wrapper
    | .asyncDecrypt _ => some (h, true)
  else
    some (h, false)

/-- Where the call returns or is passed by, with blocking operations. -/
def blockingReturn (h : Handling D M) : Option (Handling D M × Bool) :=
  let (h, called) := P.before (P.start h)
  if called then
    match P.call with
    | .ipsecEncapsulate tailroom rawCksum =>
      (encapsulate tailroom h).bind fun h =>
        (operate V .encrypt 58 h.wrapper).bind fun wrapper =>
          (operateBlocking V .md5Hmac 34 wrapper).bind fun wrapper' =>
            (keepHmac rawCksum ((h.blocking wrapper).blocking wrapper')).map fun h => (h, true)
    | .asyncEncrypt offset =>
      (operate V .encrypt (offset h).toNat h.wrapper).map fun wrapper =>
        (h.blocking wrapper, true)
    | .asyncDecrypt offset =>
      (operate V .decrypt (offset h).toNat h.wrapper).map fun wrapper =>
        (h.blocking wrapper, true)
  else
    some (h, false)

/-- The code before the call can be run again after each operation: up to `E` it gets to where
the blocking operations return to.  For `async_decrypt`, whose phase no packet is in, the
operation has to change nothing. -/
def RepeatsUpTo (E : Handling D M × Bool → Handling D M × Bool → Prop) (h : Handling D M) :
    Prop :=
  let (h, called) := P.before (P.start h)
  called = true →
    match P.call with
    | .ipsecEncapsulate tailroom rawCksum =>
      ∀ h₁ ∈ encapsulate tailroom h, ∀ wrapper ∈ operate V .encrypt 58 h₁.wrapper,
        ∀ wrapper' ∈ operateBlocking V .md5Hmac 34 wrapper,
          ∀ h₂ ∈ keepHmac rawCksum ((h₁.blocking wrapper).blocking wrapper'),
            ∃ r ∈ P.phase1 V rawCksum h₁ wrapper, E r (h₂, true)
    | .asyncEncrypt offset =>
      ∀ wrapper ∈ operate V .encrypt (offset h).toNat h.wrapper,
        E (P.again h wrapper) (h.blocking wrapper, true)
    | .asyncDecrypt offset =>
      ∀ wrapper ∈ operate V .decrypt (offset h).toNat h.wrapper,
        E (h, true) (h.blocking wrapper, true)

end CallingProgram

/-- What follows the call finds the same metadata, and makes the same packet, registers and
counters. -/
def Alike (rest : Bool → Handling D M → Handling D M) (r r' : Handling D M × Bool) : Prop :=
  r.1.pd.members = r'.1.pd.members ∧
    (rest r.2 r.1).wrapper = (rest r'.2 r'.1).wrapper ∧
    (rest r.2 r.1).memories = (rest r'.2 r'.1).memories

/-- The packet ends as with blocking operations, if these are defined.  `rest` is what follows
where the call returns (`true`) or is passed by, `deparse_packet` included. -/
def SameResult (rest : Bool → Handling D M → Handling D M) (h : Handling D M) : Prop :=
  ∀ r ∈ syncHandle V P h, ∃ r' ∈ asyncHandle V A P 2 0 h, Alike rest r' r

variable {V A P}

/-! ### The task on its way to the device -/

theorem part_append (front w : List Byte) (off n : ℕ) :
    part (front ++ w) (off + front.length) n = part w off n := by
  rw [part, part, Nat.add_comm, List.drop_length_add_append]

theorem replacePart_append (front w bs : List Byte) (off n : ℕ) :
    replacePart (front ++ w) (off + front.length) n bs = front ++ replacePart w off n bs := by
  have hend : off + front.length + n = front.length + (off + n) := by omega
  rw [replacePart, replacePart, hend, Nat.add_comm off, List.take_length_add_append,
    List.drop_length_add_append, List.append_assoc, List.append_assoc, List.append_assoc]

theorem StoreAddress.drop_append (w : List Byte) : (A.bytes ++ w).drop 8 = w :=
  List.drop_left' A.length_eq

/-- The address in front of the data is not in the way of the device. -/
theorem operate_eq_drop {type : CryptoTaskType} {offset : ℕ} {wrapper : List Byte}
    {task : CryptoTask} (htask : createCryptoTask A.bytes type offset wrapper = some task) :
    operate V type offset wrapper = some ((V.execute task).drop 8) := by
  rw [createCryptoTask] at htask
  split at htask
  next hoffset =>
    obtain rfl := Option.some.inj htask
    rw [operate, createCryptoTask, if_pos hoffset, Option.map_some]
    -- The offset of the task is counted from the address on, so it gives the same bytes.
    congr 1
    cases type with
    | encrypt =>
      simp only [CryptoDevice.execute, part_append, replacePart_append, StoreAddress.drop_append]
      rfl
    | decrypt =>
      simp only [CryptoDevice.execute, part_append, replacePart_append, StoreAddress.drop_append]
      rfl
    | md5Hmac =>
      simp only [CryptoDevice.execute, part_append, List.append_assoc, StoreAddress.drop_append]
      rfl
  next => cases htask

/-! ### Resumed packets -/

/-- A packet that stops at an operation is handled again, on what the operation makes of it. -/
theorem asyncHandle_of_operation {type : CryptoTaskType} {offset phase fuel : ℕ}
    {h h' : Handling D M} {f : Handling D M → CallOutcome (Suspension D M) (Handling D M × Bool)}
    (hstop : P.upToReturn (doAsyncCryptoOperation A phase) phase h =
      (doCryptoTaskPd A phase type offset h').bind f) :
    asyncHandle V A P (fuel + 1) phase h =
      (operate V type offset h'.wrapper).bind fun wrapper =>
        asyncHandle V A P fuel (phase + 1) { h' with wrapper := wrapper } := by
  rw [asyncHandle, hstop, doCryptoTaskPd]
  cases htask : createCryptoTask A.bytes type offset h'.wrapper with
  -- Whether the task can be made does not depend on the address.
  | none =>
    have hnone : operate V type offset h'.wrapper = none := by
      rw [createCryptoTask] at htask
      split at htask
      next => cases htask
      next hoffset => rw [operate, createCryptoTask, if_neg hoffset, Option.map_none]
    rw [hnone]
    rfl
  | some task =>
    rw [operate_eq_drop htask]
    rfl

/-- A packet that gets to the end of the call. -/
theorem asyncHandle_of_returned {phase fuel : ℕ} {h : Handling D M} {r : Handling D M × Bool}
    (hreturn : P.upToReturn (doAsyncCryptoOperation A phase) phase h = .returned r) :
    asyncHandle V A P fuel phase h = some r := by
  rw [asyncHandle, hreturn]

theorem upToReturn_of_not_called {op : CryptoOperation D M} {phase : ℕ} {h h' : Handling D M}
    (hbefore : P.before (P.start h) = (h', false)) :
    P.upToReturn op phase h = .returned (h', false) := by
  rw [CallingProgram.upToReturn, hbefore]
  rfl

theorem upToReturn_of_called (op : CryptoOperation D M) (phase : ℕ) {h h' : Handling D M}
    (hbefore : P.before (P.start h) = (h', true)) :
    P.upToReturn op phase h =
      (P.call.run op phase h').bind fun h => .returned (h, true) := by
  rw [CallingProgram.upToReturn, hbefore]
  rfl

section Ipsec

variable {tailroom : ℕ → Byte} {rawCksum : List Byte → BitVec 16}

theorem run_ipsecEncapsulate_of_none {op : CryptoOperation D M} {h : Handling D M}
    (hencapsulate : encapsulate tailroom h = none) :
    (CryptoExtern.ipsecEncapsulate tailroom rawCksum).run op 0 h = .undefined := by
  change (CallOutcome.bind (CallOutcome.bind (.ofOption (encapsulate tailroom h)) _) _) = _
  rw [hencapsulate]
  rfl

/-- From phase 0 on, `ipsec_encapsulate` runs through both of its operations. -/
theorem run_ipsecEncapsulate_of_some {op : CryptoOperation D M} {h h₁ : Handling D M}
    (hencapsulate : encapsulate tailroom h = some h₁) :
    (CryptoExtern.ipsecEncapsulate tailroom rawCksum).run op 0 h =
      (op .encrypt 58 0 h₁).bind fun h =>
        (op .md5Hmac 34 1 h).bind fun h => CallOutcome.ofOption (keepHmac rawCksum h) := by
  change (CallOutcome.bind (CallOutcome.bind (.ofOption (encapsulate tailroom h)) _) _) = _
  rw [hencapsulate]
  rfl

theorem asyncHandle_phase2 (hcall : P.call = .ipsecEncapsulate tailroom rawCksum)
    (h : Handling D M) (wrapper : List Byte) (fuel : ℕ) :
    asyncHandle V A P fuel 2 { h with wrapper := wrapper } = P.phase2 rawCksum h wrapper := by
  rw [CallingProgram.phase2, CallingProgram.again]
  rcases hbefore : P.before (P.start { h with wrapper := wrapper }) with ⟨h', called⟩
  cases called with
  | false => exact asyncHandle_of_returned (upToReturn_of_not_called hbefore)
  | true =>
    -- `goto PHASE2`: no operation is left, so the call returns.
    have hrun : P.call.run (doAsyncCryptoOperation A 2) 2 h' =
        CallOutcome.ofOption (keepHmac rawCksum h') := by
      rw [hcall]
      rfl
    rw [asyncHandle, upToReturn_of_called _ _ hbefore, hrun]
    dsimp only
    cases keepHmac rawCksum h' with
    | none => rfl
    | some h'' => rfl

theorem asyncHandle_phase1 (hcall : P.call = .ipsecEncapsulate tailroom rawCksum)
    (h : Handling D M) (wrapper : List Byte) (fuel : ℕ) :
    asyncHandle V A P (fuel + 1) 1 { h with wrapper := wrapper } =
      P.phase1 V rawCksum h wrapper := by
  rw [CallingProgram.phase1, CallingProgram.again]
  rcases hbefore : P.before (P.start { h with wrapper := wrapper }) with ⟨h', called⟩
  cases called with
  | false => exact asyncHandle_of_returned (upToReturn_of_not_called hbefore)
  | true =>
    -- `goto PHASE1`: the next operation is the HMAC.
    have hrun : P.call.run (doAsyncCryptoOperation A 1) 1 h' =
        (doCryptoTaskPd A 1 .md5Hmac 34 h').bind fun h =>
          CallOutcome.ofOption (keepHmac rawCksum h) := by
      rw [hcall]
      rfl
    have hstop := upToReturn_of_called (doAsyncCryptoOperation A 1) 1 hbefore
    rw [hrun, CallOutcome.bind_assoc] at hstop
    rw [asyncHandle_of_operation hstop]
    dsimp only
    rw [if_pos rfl]
    congr 1
    funext wrapper'
    exact asyncHandle_phase2 hcall h' wrapper' fuel

end Ipsec

theorem asyncHandle_eq_atReturn (h : Handling D M) (fuel : ℕ) :
    asyncHandle V A P (fuel + 2) 0 h = P.atReturn V h := by
  rw [CallingProgram.atReturn]
  rcases hbefore : P.before (P.start h) with ⟨h', called⟩
  cases called with
  | false => exact asyncHandle_of_returned (upToReturn_of_not_called hbefore)
  | true =>
    have hreturn := upToReturn_of_called (doAsyncCryptoOperation A 0) 0 hbefore
    dsimp only
    rw [if_pos rfl]
    cases hcall : P.call with
    | ipsecEncapsulate tailroom rawCksum =>
      rw [hcall] at hreturn
      dsimp only
      cases hencapsulate : encapsulate tailroom h' with
      | none =>
        rw [asyncHandle, hreturn, run_ipsecEncapsulate_of_none hencapsulate]
        rfl
      | some h₁ =>
        rw [run_ipsecEncapsulate_of_some hencapsulate, CallOutcome.bind_assoc] at hreturn
        rw [asyncHandle_of_operation hreturn]
        dsimp only [Option.bind]
        congr 1
        funext wrapper
        exact asyncHandle_phase1 hcall h₁ wrapper fuel
    | asyncEncrypt offset =>
      rw [hcall] at hreturn
      -- Resumed in phase 1, the operation for phase 0 is passed by.
      rw [asyncHandle_of_operation hreturn]
      dsimp only
      cases operate V .encrypt (offset h').toNat h'.wrapper with
      | none => rfl
      | some wrapper =>
        dsimp only [Option.bind, Option.map]
        rw [CallingProgram.again]
        rcases hagain : P.before (P.start { h' with wrapper := wrapper }) with ⟨h₁, called⟩
        cases called with
        | false => exact asyncHandle_of_returned (upToReturn_of_not_called hagain)
        | true =>
          have hreturn' := upToReturn_of_called (doAsyncCryptoOperation A 1) 1 hagain
          rw [hcall] at hreturn'
          exact asyncHandle_of_returned hreturn'
    -- The operation is for phase 1, and the packet is in phase 0.
    | asyncDecrypt offset =>
      rw [hcall] at hreturn
      exact asyncHandle_of_returned hreturn

/-- A packet is not resumed more than twice. -/
theorem asyncHandle_add_two (h : Handling D M) (fuel : ℕ) :
    asyncHandle V A P (fuel + 2) 0 h = asyncHandle V A P 2 0 h := by
  rw [asyncHandle_eq_atReturn h fuel, ← asyncHandle_eq_atReturn h 0]

/-! ### Blocking operations -/

theorem doSyncCryptoOperation_eq (type : CryptoTaskType) (offset phase : ℕ) (h : Handling D M) :
    doSyncCryptoOperation V type offset phase h =
      CallOutcome.ofOption ((operateBlocking V type offset h.wrapper).map h.blocking) := by
  rw [doSyncCryptoOperation, operateBlocking]
  cases createCryptoTask [] type offset h.wrapper with
  | none => rfl
  | some task => rfl

/-- Only the digest of an HMAC is moved. -/
theorem operateBlocking_eq {type : CryptoTaskType} (htype : type ≠ .md5Hmac) (offset : ℕ)
    (wrapper : List Byte) :
    operateBlocking V type offset wrapper = operate V type offset wrapper := by
  rw [operateBlocking, operate, createCryptoTask]
  split
  · cases type with
    | encrypt => rfl
    | decrypt => rfl
    | md5Hmac => exact absurd rfl htype
  · rfl

theorem syncHandle_eq_blockingReturn (h : Handling D M) :
    syncHandle V P h = P.blockingReturn V h := by
  rw [syncHandle, CallingProgram.blockingReturn]
  rcases hbefore : P.before (P.start h) with ⟨h', called⟩
  cases called with
  | false =>
    rw [upToReturn_of_not_called hbefore]
    rfl
  | true =>
    rw [upToReturn_of_called (doSyncCryptoOperation V) 0 hbefore]
    dsimp only
    rw [if_pos rfl]
    cases P.call with
    | ipsecEncapsulate tailroom rawCksum =>
      dsimp only
      cases hencapsulate : encapsulate tailroom h' with
      | none =>
        rw [run_ipsecEncapsulate_of_none hencapsulate]
        rfl
      | some h₁ =>
        rw [run_ipsecEncapsulate_of_some hencapsulate]
        dsimp only [Option.bind]
        -- Each operation returns to the next statement, in the same call.
        rw [doSyncCryptoOperation_eq, operateBlocking_eq (by decide)]
        cases operate V .encrypt 58 h₁.wrapper with
        | none => rfl
        | some wrapper =>
          dsimp only [CallOutcome.ofOption, CallOutcome.bind, Option.map]
          rw [doSyncCryptoOperation_eq]
          change _ = (operateBlocking V .md5Hmac 34 (h₁.blocking wrapper).wrapper).bind _
          cases operateBlocking V .md5Hmac 34 (h₁.blocking wrapper).wrapper with
          | none => rfl
          | some wrapper' =>
            dsimp only [CallOutcome.ofOption, CallOutcome.bind, Option.map, Option.bind]
            cases keepHmac rawCksum ((h₁.blocking wrapper).blocking wrapper') with
            | none => rfl
            | some h₂ => rfl
    | asyncEncrypt offset =>
      rw [CryptoExtern.run, doSyncCryptoOperation_eq, operateBlocking_eq (by decide)]
      dsimp only
      cases operate V .encrypt (offset h').toNat h'.wrapper with
      | none => rfl
      | some wrapper => rfl
    | asyncDecrypt offset =>
      rw [CryptoExtern.run, doSyncCryptoOperation_eq, operateBlocking_eq (by decide)]
      dsimp only
      cases operate V .decrypt (offset h').toNat h'.wrapper with
      | none => rfl
      | some wrapper => rfl

/-! ### When the two ways agree -/

theorem agree_iff_repeatsUpTo {E : Handling D M × Bool → Handling D M × Bool → Prop}
    (hE : ∀ r, E r r) (h : Handling D M) :
    (∀ r ∈ syncHandle V P h, ∃ r' ∈ asyncHandle V A P 2 0 h, E r' r) ↔ P.RepeatsUpTo V E h := by
  rw [syncHandle_eq_blockingReturn, asyncHandle_eq_atReturn h 0, CallingProgram.blockingReturn,
    CallingProgram.atReturn, CallingProgram.RepeatsUpTo]
  rcases P.before (P.start h) with ⟨h', called⟩
  cases called with
  | false =>
    constructor
    · intro _ hcalled
      cases hcalled
    · exact fun _ r hr => ⟨r, hr, hE r⟩
  | true =>
    dsimp only
    rw [if_pos rfl, if_pos rfl, forall_prop_of_true rfl]
    cases P.call with
    | ipsecEncapsulate tailroom rawCksum =>
      dsimp only
      cases encapsulate tailroom h' with
      | none => simp only [Option.bind_none, Option.not_mem_none, false_imp_iff, implies_true]
      | some h₁ =>
        simp only [Option.bind_some, Option.mem_some, forall_eq']
        cases operate V .encrypt 58 h₁.wrapper with
        | none => simp only [Option.bind_none, Option.not_mem_none, false_imp_iff, implies_true]
        | some wrapper =>
          simp only [Option.bind_some, Option.mem_some, forall_eq']
          cases operateBlocking V .md5Hmac 34 wrapper with
          | none => simp only [Option.bind_none, Option.not_mem_none, false_imp_iff, implies_true]
          | some wrapper' =>
            simp only [Option.bind_some, Option.mem_some, forall_eq', Option.forall_mem_map]
    | asyncEncrypt offset =>
      dsimp only
      cases operate V .encrypt (offset h').toNat h'.wrapper with
      | none => simp only [Option.map_none, Option.not_mem_none, false_imp_iff, implies_true]
      | some wrapper =>
        simp only [Option.map_some, Option.mem_some, forall_eq', exists_eq_left']
    | asyncDecrypt offset =>
      simp only [Option.forall_mem_map, Option.mem_some, exists_eq_left']

/-- A program has the same result both ways iff, up to what follows the call, the code before
it can be run again after each operation.  Whatever follows has the same result iff the code
before the call gets to exactly where the blocking operations return to. -/
theorem sameResult_iff (rest : Bool → Handling D M → Handling D M) (h : Handling D M) :
    (SameResult V A P rest h ↔ P.RepeatsUpTo V (Alike rest) h) ∧
      ((∀ rest, SameResult V A P rest h) ↔ P.RepeatsUpTo V Eq h) := by
  refine ⟨agree_iff_repeatsUpTo (fun r => ⟨rfl, rfl, rfl⟩) h, ?_⟩
  rw [← agree_iff_repeatsUpTo (A := A) (fun r => rfl) h]
  constructor
  · intro hall r hr
    classical
    -- What follows may tell the state that the blocking operations lead to from all others.
    let rest' : Bool → Handling D M → Handling D M := fun called h' =>
      { h' with wrapper := if (h', called) = r then [] else [0] }
    obtain ⟨r', hr', -, hwrapper, -⟩ := hall rest' r hr
    refine ⟨r', hr', ?_⟩
    by_contra hne
    simp only [rest', if_neg hne] at hwrapper
    simp at hwrapper
  · intro heq rest r hr
    obtain ⟨r', hr', rfl⟩ := heq r hr
    exact ⟨r', hr', rfl, rfl, rfl⟩

/-! ### A packet that is counted twice -/

/-- A device that flips all bits. -/
def flipDevice : CryptoDevice where
  encrypt := List.map (~~~·)
  decrypt := List.map (~~~·)
  md5Hmac := fun _ => List.replicate 16 0

/-- A program that parses nothing and encrypts the whole packet, after something that is done
to the registers and counters. -/
def encryptAfter {M : Type} (effect : M → M) : CallingProgram Unit M where
  resetHeaders := id
  before := fun h =>
    ({ h with
        pd := { h.pd with payloadSize := h.wrapper.length }
        memories := effect h.memories }, true)
  call := .asyncEncrypt fun _ => 0

-- Nothing is done to them: the code before the call can be run again.
example (h : Handling Unit M) : (encryptAfter id).RepeatsUpTo V Eq h :=
  fun _ _ _ => rfl

/-- Sixteen bytes, with a counter at 0. -/
def sixteenBytes : Handling Unit ℕ where
  wrapper := List.replicate 16 0
  pd := ⟨0, 0, 0, false, ()⟩
  memories := 0

theorem countedTwice_not_sameResult :
    ¬ SameResult flipDevice ⟨List.replicate 8 0, rfl⟩ (encryptAfter (· + 1)) (fun _ h => h)
      sixteenBytes := by
  intro hsame
  obtain ⟨r, hr, -, -, hmemories⟩ := hsame _ rfl
  obtain rfl := Option.some.inj hr
  revert hmemories
  decide

end T4P4S
