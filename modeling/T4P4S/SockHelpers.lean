/-
Reading the messages of the controller from its socket.

`read_p4_msg` reads a header, whose `length` says how long the message is, and then
the rest of the message.

* **`framingLaw_iff`** — the reader delivers the messages, however the stream is
  split, iff its buffer has room for a header and the `length` of each message is
  at least that of the header and at most that of the buffer.
-/
import T4P4S.Messages

open ByteString

namespace T4P4S

/-- What is still to come from a socket: the chunks that `read` finds, one at a time. -/
abbrev Sock := List (List Byte)

def sockRead (sock : Sock) (nbytes : ℕ) : List Byte × Sock :=
  match sock with
  | [] => ([], [])
  | chunk :: sock =>
    if chunk.length ≤ nbytes then (chunk, sock) else (chunk.take nbytes, chunk.drop nbytes :: sock)

/-- The result of a function that reads into a buffer. -/
structure ReadResult where
  rval : ℤ
  buffer : Buffer
  sock : Sock

/-- The loop of `read_fix`, into the buffer from `off` on.  As each turn reads a byte or
returns, `nbytes` turns are enough. -/
def readFixLoop (off : ℕ) (nbytes : ℤ) : ℕ → Sock → Buffer → ℕ → ReadResult
  | 0, sock, buffer, rbytes => ⟨rbytes, buffer, sock⟩
  | turns + 1, sock, buffer, rbytes =>
    if rbytes < nbytes then
      let rd := sockRead sock (nbytes - rbytes).toNat
      if rd.1.length = 0 then
        ⟨0, buffer, rd.2⟩
      else
        readFixLoop off nbytes turns rd.2 (Write.run buffer ⟨off + rbytes, rd.1⟩)
          (rbytes + rd.1.length)
    else
      ⟨rbytes, buffer, sock⟩

def readFix (sock : Sock) (buffer : Buffer) (off : ℕ) (nbytes : ℤ) : ReadResult :=
  readFixLoop off nbytes nbytes.toNat sock buffer 0

def readP4Msg (sock : Sock) (buffer : Buffer) (length : ℕ) : ReadResult :=
  if length < sizeofP4Header then
    ⟨-1, buffer, sock⟩
  else
    let hd := readFix sock buffer 0 sizeofP4Header
    if hd.rval ≤ 0 then
      hd
    else
      let msglen := hd.buffer.netNumber offLength 2
      if length < msglen then
        ⟨-100, hd.buffer, hd.sock⟩
      else if msglen = sizeofP4Header then
        ⟨msglen, hd.buffer, hd.sock⟩
      else
        let body := readFix hd.sock hd.buffer sizeofP4Header ((msglen : ℤ) - sizeofP4Header)
        if body.rval ≤ 0 then body else ⟨msglen, body.buffer, body.sock⟩

/-- What a turn of the loop of `backend_processor` does with what it reads into a
memory cell. -/
structure Turn where
  rv : ℤ
  data : Buffer
  sock : Sock
  /-- `fifo_add_msg` is called with the cell -/
  queued : Bool
  /-- the loop ends, and the connection is closed -/
  closed : Bool

def backendTurn (sock : Sock) (data : Buffer) (length : ℕ) : Turn :=
  let rd := readP4Msg sock data length
  ⟨rd.rval, rd.buffer, rd.sock, decide (0 < rd.rval), decide (rd.rval = 0)⟩

/-- A message on the stream: a header, and what its `length` counts behind it. -/
structure P4Msg where
  bytes : List Byte
  length_eq : bytes.length = max sizeofP4Header (hostNat ((bytes.drop offLength).take 2).reverse)

namespace P4Msg

/-- The `length` field. -/
def msglen (m : P4Msg) : ℕ := hostNat ((m.bytes.drop offLength).take 2).reverse

/-- The `length` lies in `[8, L]`. -/
def InRange (m : P4Msg) (length : ℕ) : Prop := sizeofP4Header ≤ m.msglen ∧ m.msglen ≤ length

instance (m : P4Msg) (length : ℕ) : Decidable (m.InRange length) :=
  inferInstanceAs (Decidable (_ ∧ _))

end P4Msg

def streamOf (msgs : List P4Msg) : List Byte := (msgs.map P4Msg.bytes).flatten

/-- The turns of the loop, whatever the memory cells hold, give the messages one for
one and then the end of the stream; a message out of range gives an error that is not the
end of the stream, after which the connection is closed or the next message is read. -/
def Delivers (length : ℕ) : Sock → List P4Msg → Prop
  | sock, [] => ∀ data, (backendTurn sock data length).rv = 0 ∧
      (backendTurn sock data length).closed = true
  | sock, m :: msgs => ∀ data,
    let turn := backendTurn sock data length
    if m.InRange length then
      turn.rv = m.bytes.length ∧ slice turn.data 0 m.bytes.length = m.bytes ∧
        turn.queued = true ∧ turn.closed = false ∧ Delivers length turn.sock msgs
    else
      turn.rv < 0 ∧ turn.queued = false ∧
        (turn.closed = true ∨
          turn.sock.flatten = streamOf msgs ∧ Delivers length turn.sock msgs)

/-- The messages are delivered, however the stream is split into chunks. -/
def FramingLaw (length : ℕ) (msgs : List P4Msg) : Prop :=
  ∀ sock : Sock, [] ∉ sock → sock.flatten = streamOf msgs → Delivers length sock msgs

/-! ### What is read -/

/-- A `read` takes something off the stream, and not too much. -/
theorem sockRead_spec {sock : Sock} (hsock : [] ∉ sock) (hne : sock.flatten ≠ []) {n : ℕ}
    (hn : 0 < n) :
    sock.flatten = (sockRead sock n).1 ++ (sockRead sock n).2.flatten ∧
      0 < (sockRead sock n).1.length ∧ (sockRead sock n).1.length ≤ n ∧
      [] ∉ (sockRead sock n).2 := by
  cases sock with
  | nil => exact absurd rfl hne
  | cons chunk sock =>
    rw [List.mem_cons, not_or] at hsock
    have hchunk : 0 < chunk.length := List.length_pos_of_ne_nil fun h => hsock.1 h.symm
    by_cases hle : chunk.length ≤ n
    · rw [sockRead, if_pos hle]
      exact ⟨List.flatten_cons, hchunk, hle, hsock.2⟩
    · rw [sockRead, if_neg hle]
      refine ⟨?_, ?_, ?_, ?_⟩
      · rw [List.flatten_cons, List.flatten_cons, ← List.append_assoc, List.take_append_drop]
      · rw [List.length_take]
        omega
      · exact List.length_take_le n chunk
      · rw [List.mem_cons, not_or]
        refine ⟨?_, hsock.2⟩
        intro h
        have hlen := congrArg List.length h
        rw [List.length_drop, List.length_nil] at hlen
        omega

/-- The loop of `read_fix` with `n` bytes to go. -/
theorem readFixLoop_of_le (off : ℕ) {n : ℕ} {turns : ℕ} (hturns : n ≤ turns) {sock : Sock}
    (hsock : [] ∉ sock) (hn : n ≤ sock.flatten.length) (buffer : Buffer) (rbytes : ℕ) :
    ∃ sock', readFixLoop off ((rbytes + n : ℕ) : ℤ) turns sock buffer rbytes =
        ⟨((rbytes + n : ℕ) : ℤ), Write.run buffer ⟨off + rbytes, sock.flatten.take n⟩, sock'⟩ ∧
      [] ∉ sock' ∧ sock'.flatten = sock.flatten.drop n := by
  induction turns generalizing n sock buffer rbytes with
  | zero =>
    obtain rfl : n = 0 := Nat.le_zero.mp hturns
    exact ⟨sock, by rw [List.take_zero, Write.run_nil, Nat.add_zero]; rfl, hsock, rfl⟩
  | succ turns ih =>
    rcases Nat.eq_zero_or_pos n with rfl | hpos
    · refine ⟨sock, ?_, hsock, rfl⟩
      rw [readFixLoop, if_neg (by omega), List.take_zero, Write.run_nil, Nat.add_zero]
    -- There is something to read, so this turn reads at least a byte.
    · have hne : sock.flatten ≠ [] := List.ne_nil_of_length_pos (by omega)
      have hleft : (((rbytes + n : ℕ) : ℤ) - rbytes).toNat = n := by omega
      obtain ⟨hflat, hread, hreadle, hsock'⟩ := sockRead_spec hsock hne hpos
      rw [readFixLoop, if_pos (by omega), hleft]
      dsimp only
      rw [if_neg (by omega)]
      set data := (sockRead sock n).1 with hdata
      set rest := (sockRead sock n).2 with hrest
      have hlen := congrArg List.length hflat
      rw [List.length_append] at hlen
      obtain ⟨sock', hloop, hne', hflat'⟩ := ih (n := n - data.length) (by omega) hsock' (by omega)
        (Write.run buffer ⟨off + rbytes, data⟩) (rbytes + data.length)
      -- What this turn has read and what is left make up what was asked for.
      have htotal : rbytes + data.length + (n - data.length) = rbytes + n := by omega
      rw [htotal] at hloop
      refine ⟨sock', ?_, hne', ?_⟩
      · rw [hloop, ← Nat.add_assoc, Write.run_append, hflat, List.take_append,
          List.take_of_length_le hreadle]
      · rw [hflat', hflat, List.drop_append, List.drop_of_length_le hreadle, List.nil_append]

theorem readFix_of_le (off : ℕ) {n : ℕ} {sock : Sock} (hsock : [] ∉ sock)
    (hn : n ≤ sock.flatten.length) (buffer : Buffer) :
    ∃ sock', readFix sock buffer off n =
        ⟨n, Write.run buffer ⟨off, sock.flatten.take n⟩, sock'⟩ ∧
      [] ∉ sock' ∧ sock'.flatten = sock.flatten.drop n := by
  have h := readFixLoop_of_le off (Nat.le_refl n) hsock hn buffer 0
  rwa [Nat.zero_add] at h

theorem eq_nil_of_flatten {sock : Sock} (hsock : [] ∉ sock) (h : sock.flatten = []) : sock = [] := by
  cases sock with
  | nil => rfl
  | cons chunk sock =>
    rw [List.flatten_cons, List.append_eq_nil_iff] at h
    exact absurd (h.1 ▸ List.mem_cons_self) hsock

section Read

variable {length : ℕ} {sock : Sock} (hsock : [] ∉ sock)

/-- A reader without room for a header. -/
theorem readP4Msg_small (hlen : length < sizeofP4Header) (data : Buffer) :
    readP4Msg sock data length = ⟨-1, data, sock⟩ := by
  rw [readP4Msg, if_pos hlen]

include hsock

/-- At the end of the stream. -/
theorem readP4Msg_eof (hlen : sizeofP4Header ≤ length) (h : sock.flatten = []) (data : Buffer) :
    (readP4Msg sock data length).rval = 0 := by
  obtain rfl := eq_nil_of_flatten hsock h
  rw [readP4Msg, if_neg (by omega)]
  rfl

variable {m : P4Msg} {rest : List Byte} (h : sock.flatten = m.bytes ++ rest)

include h

/-- The header of a message is read, and its `length` is what the message says. -/
theorem readFix_header (data : Buffer) :
    ∃ sock', readFix sock data 0 sizeofP4Header =
        ⟨sizeofP4Header, Write.run data ⟨0, m.bytes.take sizeofP4Header⟩, sock'⟩ ∧
      [] ∉ sock' ∧ sock'.flatten = m.bytes.drop sizeofP4Header ++ rest ∧
      Buffer.netNumber (Write.run data ⟨0, m.bytes.take sizeofP4Header⟩) offLength 2 = m.msglen := by
  have hlen : sizeofP4Header ≤ m.bytes.length := by
    rw [m.length_eq]
    exact Nat.le_max_left ..
  obtain ⟨sock', hread, hne, hflat⟩ := readFix_of_le 0 (n := sizeofP4Header) hsock
    (by rw [h, List.length_append]; omega) data
  rw [h, List.take_append_of_le_length hlen] at hread
  rw [h, List.drop_append_of_le_length hlen] at hflat
  refine ⟨sock', hread, hne, hflat, ?_⟩
  have hpart := slice_run_part data ⟨0, m.bytes.take sizeofP4Header⟩ (i := offLength) (n := 2) (by
    show offLength + 2 ≤ (m.bytes.take sizeofP4Header).length
    rw [List.length_take, Nat.min_eq_left hlen]
    decide)
  dsimp only at hpart
  rw [Nat.zero_add, List.drop_take, List.take_take] at hpart
  have hfield : ((m.bytes.drop offLength).take 2).length = 2 := by
    rw [List.length_take, List.length_drop]
    unfold sizeofP4Header at hlen
    unfold offLength
    omega
  -- The length in the header is in network order.
  have hswap := byteSwap_hostNat ((m.bytes.drop offLength).take 2)
  rw [hfield] at hswap
  rw [Buffer.netNumber, Buffer.number, hpart]
  exact hswap

/-- A message in range is read as a whole. -/
theorem readP4Msg_inRange (hlen : sizeofP4Header ≤ length) (hm : m.InRange length)
    (data : Buffer) :
    ∃ sock', readP4Msg sock data length =
        ⟨m.bytes.length, Write.run data ⟨0, m.bytes⟩, sock'⟩ ∧
      [] ∉ sock' ∧ sock'.flatten = rest := by
  obtain ⟨sock₁, hhead, hne, hflat, hmsglen⟩ := readFix_header hsock h data
  have hbytes : m.bytes.length = m.msglen := by
    rw [m.length_eq]
    exact Nat.max_eq_right hm.1
  rw [readP4Msg, if_neg (by omega), hhead]
  dsimp only
  rw [hmsglen, if_neg (by decide), if_neg (by have := hm.2; omega)]
  -- A message that is a header only is complete.
  by_cases hshort : m.msglen = sizeofP4Header
  · rw [hbytes, if_pos hshort, List.take_of_length_le (by omega)]
    refine ⟨sock₁, rfl, hne, ?_⟩
    rw [hflat, List.drop_of_length_le (by omega), List.nil_append]
  · have hbody : (m.bytes.drop sizeofP4Header).length = m.msglen - sizeofP4Header := by
      rw [List.length_drop, hbytes]
    obtain ⟨sock₂, hread, hne₂, hflat₂⟩ := readFix_of_le sizeofP4Header
      (n := m.msglen - sizeofP4Header) hne (by rw [hflat, List.length_append]; omega)
      (Write.run data ⟨0, m.bytes.take sizeofP4Header⟩)
    have hint : ((m.msglen : ℤ) - sizeofP4Header) = ((m.msglen - sizeofP4Header : ℕ) : ℤ) := by
      have := hm.1
      omega
    have hpos : 0 < m.msglen - sizeofP4Header := by
      have := hm.1
      omega
    rw [hflat, List.take_append_of_le_length (by omega), ← hbody, List.take_length] at hread
    rw [hflat, List.drop_append_of_le_length (by omega), ← hbody, List.drop_length,
      List.nil_append] at hflat₂
    rw [if_neg hshort, hint, ← hbody, hread]
    dsimp only
    rw [if_neg (by omega)]
    refine ⟨sock₂, ?_, hne₂, hflat₂⟩
    -- The body was stored right behind the header.
    have happend := Write.run_append data 0 (m.bytes.take sizeofP4Header)
      (m.bytes.drop sizeofP4Header)
    have hheader : (m.bytes.take sizeofP4Header).length = sizeofP4Header := by
      rw [List.length_take]
      have := hm.1
      omega
    rw [hheader, Nat.zero_add, List.take_append_drop] at happend
    rw [happend, hbytes]

/-- Of a message that is too long only the header is read. -/
theorem readP4Msg_long (hlen : sizeofP4Header ≤ length) (hm : length < m.msglen)
    (data : Buffer) :
    (readP4Msg sock data length).rval = -100 ∧
      (readP4Msg sock data length).sock.flatten = m.bytes.drop sizeofP4Header ++ rest := by
  obtain ⟨sock₁, hhead, -, hflat, hmsglen⟩ := readFix_header hsock h data
  rw [readP4Msg, if_neg (by omega), hhead]
  dsimp only
  rw [hmsglen, if_neg (by decide), if_pos hm]
  exact ⟨rfl, hflat⟩

/-- A message that is shorter than its header looks like the end of the stream. -/
theorem readP4Msg_short (hlen : sizeofP4Header ≤ length) (hm : m.msglen < sizeofP4Header)
    (data : Buffer) : (readP4Msg sock data length).rval = 0 := by
  obtain ⟨sock₁, hhead, -, -, hmsglen⟩ := readFix_header hsock h data
  have hneg : ((m.msglen : ℤ) - sizeofP4Header).toNat = 0 := by omega
  rw [readP4Msg, if_neg (by omega), hhead]
  dsimp only
  rw [hmsglen, if_neg (by decide), if_neg (by omega), if_neg (by omega), readFix, hneg]
  rfl

end Read

/-! ### The law -/

theorem flatten_cons {sock : Sock} {m : P4Msg} {msgs : List P4Msg}
    (h : sock.flatten = streamOf (m :: msgs)) : sock.flatten = m.bytes ++ streamOf msgs := h

/-- The messages in range are delivered. -/
theorem delivers_of_inRange {length : ℕ} (hlen : sizeofP4Header ≤ length) {msgs : List P4Msg}
    (hmsgs : ∀ m ∈ msgs, m.InRange length) {sock : Sock} (hsock : [] ∉ sock)
    (h : sock.flatten = streamOf msgs) : Delivers length sock msgs := by
  induction msgs generalizing sock with
  | nil =>
    intro data
    have hrv := readP4Msg_eof hsock hlen h data
    exact ⟨hrv, decide_eq_true hrv⟩
  | cons m msgs ih =>
    intro data
    rw [List.forall_mem_cons] at hmsgs
    obtain ⟨sock', hread, hne, hflat⟩ := readP4Msg_inRange hsock (flatten_cons h) hlen hmsgs.1 data
    have hpos : 0 < m.bytes.length := by
      rw [m.length_eq]
      exact Nat.lt_of_lt_of_le (by decide) (Nat.le_max_left ..)
    rw [backendTurn, hread]
    dsimp only
    rw [if_pos hmsgs.1]
    refine ⟨rfl, slice_run data ⟨0, m.bytes⟩, decide_eq_true (by omega),
      decide_eq_false (by omega), ih hmsgs.2 hne hflat⟩

/-- An error is no end of the stream, so that the next message has to be the next one
to read. -/
theorem not_skipped {length : ℕ} {sock : Sock} {m : P4Msg} {msgs : List P4Msg}
    (hm : ¬ m.InRange length) (hdel : Delivers length sock (m :: msgs)) (data : Buffer) :
    (readP4Msg sock data length).rval < 0 ∧
      (readP4Msg sock data length).sock.flatten = streamOf msgs := by
  have hturn := hdel data
  dsimp only at hturn
  rw [if_neg hm] at hturn
  obtain ⟨hrv, -, hclosed | hnext⟩ := hturn
  · exact absurd (of_decide_eq_true hclosed) (Int.ne_of_lt hrv)
  · exact ⟨hrv, hnext.1⟩

/-- Nothing is delivered by a reader that has no room for a header. -/
theorem room_of_delivers {length : ℕ} {msgs : List P4Msg} {sock : Sock}
    (h : sock.flatten = streamOf msgs) (hdel : Delivers length sock msgs) :
    sizeofP4Header ≤ length := by
  by_contra hlen
  rw [Nat.not_le] at hlen
  cases msgs with
  | nil =>
    have hrv := (hdel fun _ => 0).1
    rw [backendTurn, readP4Msg_small hlen] at hrv
    have hneg : (-1 : ℤ) = 0 := hrv
    omega
  | cons m msgs =>
    have hm : ¬ m.InRange length := fun hm => by
      have hle := hm.1.trans hm.2
      omega
    have hnext := (not_skipped hm hdel fun _ => 0).2
    rw [readP4Msg_small hlen, h] at hnext
    have hlength : (m.bytes ++ streamOf msgs).length = (streamOf msgs).length :=
      congrArg List.length hnext
    rw [List.length_append, m.length_eq] at hlength
    have hmax := Nat.le_max_left sizeofP4Header m.msglen
    unfold sizeofP4Header P4Msg.msglen at *
    omega

/-- A message out of range is not delivered: the reader stops in front of its body, or takes
it for the end of the stream. -/
theorem inRange_of_delivers {length : ℕ} (hlen : sizeofP4Header ≤ length) {msgs : List P4Msg}
    {sock : Sock} (hsock : [] ∉ sock) (h : sock.flatten = streamOf msgs)
    (hdel : Delivers length sock msgs) : ∀ m ∈ msgs, m.InRange length := by
  induction msgs generalizing sock with
  | nil => exact fun m hm => absurd hm List.not_mem_nil
  | cons m msgs ih =>
    have hm : m.InRange length := by
      by_contra hm
      obtain ⟨hrv, hnext⟩ := not_skipped hm hdel fun _ => 0
      by_cases hlong : length < m.msglen
      · rw [(readP4Msg_long hsock (flatten_cons h) hlen hlong fun _ => 0).2] at hnext
        have hlength := congrArg List.length hnext
        have hbytes : m.bytes.length = max sizeofP4Header m.msglen := m.length_eq
        rw [List.length_append, List.length_drop, hbytes, Nat.max_eq_right (by omega)] at hlength
        omega
      · have hshort : m.msglen < sizeofP4Header := by
          by_contra hshort
          exact hm ⟨Nat.not_lt.mp hshort, Nat.not_lt.mp hlong⟩
        have hzero := readP4Msg_short hsock (flatten_cons h) hlen hshort fun _ => 0
        omega
    obtain ⟨sock', hread, hne, hflat⟩ := readP4Msg_inRange hsock (flatten_cons h) hlen hm fun _ => 0
    have hturn := hdel fun _ => 0
    dsimp only at hturn
    rw [if_pos hm, backendTurn, hread] at hturn
    exact List.forall_mem_cons.mpr ⟨hm, ih hne hflat hturn.2.2.2.2⟩

/-- Every stream comes in some chunks. -/
theorem exists_sock (bytes : List Byte) : ∃ sock : Sock, [] ∉ sock ∧ sock.flatten = bytes := by
  refine ⟨bytes.map fun b => [b], ?_, ?_⟩
  · simp
  · rw [← List.flatMap_def, List.flatMap_singleton']

/-- **The messages are delivered however the stream is split iff the reader has room for
a header and each message is in range.** -/
theorem framingLaw_iff (length : ℕ) (msgs : List P4Msg) :
    FramingLaw length msgs ↔ sizeofP4Header ≤ length ∧ ∀ m ∈ msgs, m.InRange length := by
  constructor
  · intro h
    obtain ⟨sock, hsock, hflat⟩ := exists_sock (streamOf msgs)
    have hdel := h sock hsock hflat
    have hlen := room_of_delivers hflat hdel
    exact ⟨hlen, inRange_of_delivers hlen hsock hflat hdel⟩
  · exact fun h sock hsock hflat => delivers_of_inRange h.1 h.2 hsock hflat

/-- A header whose `length` is 5. -/
def shortMsg : P4Msg := ⟨[1, 0, 0, 5, 0, 0, 0, 0], by decide⟩

/-- A header whose `length` is 9, and a body that is one byte long. -/
def longMsg : P4Msg := ⟨[1, 0, 0, 9, 0, 0, 0, 0, 7], by decide⟩

/-- The short message looks like the end of the stream, and the body of the long one is
left for a reader with room for 8 bytes. -/
theorem not_framingLaw_short_long : ¬ FramingLaw 2048 [shortMsg] ∧ ¬ FramingLaw 8 [longMsg] := by
  constructor
  · intro h
    have hskip := not_skipped (by decide) (h [shortMsg.bytes] (by decide) rfl) fun _ => 0
    exact absurd hskip.1 (by decide)
  · intro h
    have hskip := not_skipped (by decide) (h [longMsg.bytes] (by decide) rfl) fun _ => 0
    exact absurd hskip.2 (by decide)

end T4P4S
