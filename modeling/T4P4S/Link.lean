/-
The two ways of the connection between dataplane and controller.

A message waits in a queue until a thread writes it to the socket; at the other end
a thread reads it into a cell and puts that into a queue.  The threads run side by side,
so that a run is any order of their steps.

* **`Link.Carries.step`** — a way keeps its messages as they are and in order, and says so
  when it loses one;
* **`Link.Carries.arrives`** — the threads can take the oldest message to the end.
-/
import T4P4S.CellOwners
import T4P4S.SockHelpers

open ByteString

namespace T4P4S

/-! ### Writing to the socket -/

/-- `write`, where the kernel has room for so many bytes; less than none is an error. -/
def sockWrite (sock : Sock) (bytes : List Byte) (room : ℤ) : ℤ × Sock :=
  if room < 0 then
    (-1, sock)
  else
    let chunk := bytes.take room.toNat
    (chunk.length, if chunk = [] then sock else sock ++ [chunk])

structure WriteResult where
  rval : ℤ
  sock : Sock

/-- The loop of `write_fix`, with the room that each call of `write` finds.  `none` if the loop
is not over after these calls. -/
def writeFixLoop (buffer : Buffer) (nbytes : ℤ) : List ℤ → Sock → ℕ → Option WriteResult
  | [], sock, wbytes => if wbytes < nbytes then none else some ⟨wbytes, sock⟩
  | room :: rooms, sock, wbytes =>
    if wbytes < nbytes then
      let wr := sockWrite sock (slice buffer wbytes (nbytes - wbytes).toNat) room
      if wr.1 < 0 then some ⟨wr.1, wr.2⟩
      else writeFixLoop buffer nbytes rooms wr.2 (wbytes + wr.1.toNat)
    else
      some ⟨wbytes, sock⟩

def writeFix (sock : Sock) (buffer : Buffer) (nbytes : ℤ) (rooms : List ℤ) : Option WriteResult :=
  writeFixLoop buffer nbytes rooms sock 0

def writeP4Msg (sock : Sock) (buffer : Buffer) (length : ℕ) (rooms : List ℤ) :
    Option WriteResult :=
  if length < sizeofP4Header then
    some ⟨-1, sock⟩
  else
    let msglen := buffer.netNumber offLength 2
    if length < msglen then some ⟨-1, sock⟩ else writeFix sock buffer msglen rooms

/-- The loop of `write_fix` with `n` bytes to go, on a connection that stands. -/
theorem writeFixLoop_flatten {buffer : Buffer} {rooms : List ℤ} (hrooms : ∀ room ∈ rooms, 0 ≤ room)
    {n wbytes : ℕ} {sock : Sock} {wr : WriteResult}
    (h : writeFixLoop buffer ((wbytes + n : ℕ) : ℤ) rooms sock wbytes = some wr) :
    wr.rval = ((wbytes + n : ℕ) : ℤ) ∧
      wr.sock.flatten = sock.flatten ++ slice buffer wbytes n ∧ ([] ∉ sock → [] ∉ wr.sock) := by
  induction rooms generalizing n wbytes sock with
  | nil =>
    rw [writeFixLoop] at h
    split_ifs at h with hlt
    obtain rfl := Option.some.inj h
    obtain rfl : n = 0 := by omega
    exact ⟨rfl, (List.append_nil _).symm, id⟩
  | cons room rooms ih =>
    obtain ⟨hroom, hrooms⟩ := List.forall_mem_cons.mp hrooms
    rw [writeFixLoop] at h
    split_ifs at h with hlt
    · have hleft : (((wbytes + n : ℕ) : ℤ) - wbytes).toNat = n := by omega
      rw [hleft, sockWrite, if_neg (Int.not_lt.mpr hroom)] at h
      dsimp only at h
      rw [if_neg (by omega)] at h
      -- This turn writes `k` of the bytes.
      set k := min room.toNat n with hk
      have htake : (slice buffer wbytes n).take room.toNat = slice buffer wbytes k := by
        have hsplit := slice_add buffer wbytes k (n - k)
        rw [show k + (n - k) = n by omega] at hsplit
        rw [hsplit, List.take_append, length_slice]
        rcases Nat.le_total room.toNat n with hle | hle
        · rw [show room.toNat = k by omega, Nat.sub_self, List.take_zero, List.append_nil,
            List.take_of_length_le (length_slice ..).le]
        · rw [show n - k = 0 by omega, List.take_of_length_le (by rw [length_slice]; omega)]
          show _ ++ List.take _ [] = _
          rw [List.take_nil, List.append_nil]
      rw [htake, length_slice, Int.toNat_natCast,
        show wbytes + n = wbytes + k + (n - k) by omega] at h
      obtain ⟨hrval, hflat, hne⟩ := ih hrooms h
      have hchunk : (if slice buffer wbytes k = [] then sock
          else sock ++ [slice buffer wbytes k]).flatten = sock.flatten ++ slice buffer wbytes k := by
        split_ifs with hnil
        · rw [hnil, List.append_nil]
        · rw [List.flatten_append, List.flatten_singleton]
      refine ⟨?_, ?_, fun hsock => hne ?_⟩
      · rw [hrval, show wbytes + k + (n - k) = wbytes + n by omega]
      · have hsplit := slice_add buffer wbytes k (n - k)
        rw [show k + (n - k) = n by omega] at hsplit
        rw [hflat, hchunk, hsplit, List.append_assoc]
      · split_ifs with hnil
        · exact hsock
        · intro hmem
          rcases List.mem_append.mp hmem with hmem | hmem
          · exact hsock hmem
          · exact hnil (List.mem_singleton.mp hmem).symm
    · obtain rfl := Option.some.inj h
      obtain rfl : n = 0 := by omega
      exact ⟨rfl, (List.append_nil _).symm, id⟩

/-! ### Messages in cells -/

/-- The cell begins with the message. -/
def Begins (cell : Buffer) (m : P4Msg) : Prop := slice cell 0 m.bytes.length = m.bytes

section Message

variable {m : P4Msg} {cell : Buffer}

theorem P4Msg.length_bytes (hm : m.InRange p4BgMemCellSize) : m.bytes.length = m.msglen := by
  rw [m.length_eq]
  exact Nat.max_eq_right hm.1

/-- The cell has the length of the message. -/
theorem Begins.netNumber (h : Begins cell m) (hm : m.InRange p4BgMemCellSize) :
    cell.netNumber offLength 2 = m.bytes.length := by
  have hlen := P4Msg.length_bytes hm
  have hheader := hm.1
  have hslice : (m.bytes.drop offLength).take 2 = slice cell offLength 2 := by
    have hle : offLength + 2 ≤ m.bytes.length :=
      (by decide : offLength + 2 ≤ sizeofP4Header).trans (hheader.trans hlen.ge)
    have hpart := @slice_part _ cell 0 _ _ _ hle
    rwa [h, Nat.zero_add] at hpart
  rw [Buffer.netNumber_eq, ← hslice, hlen]
  rfl

theorem writeP4Msg_eq (h : Begins cell m) (hm : m.InRange p4BgMemCellSize) (sock : Sock)
    (rooms : List ℤ) :
    writeP4Msg sock cell p4BgMemCellSize rooms = writeFix sock cell m.bytes.length rooms := by
  have hmax : m.bytes.length ≤ p4BgMemCellSize := (P4Msg.length_bytes hm).le.trans hm.2
  rw [writeP4Msg, if_neg (by decide)]
  dsimp only
  rw [h.netNumber hm, if_neg (Nat.not_lt.mpr hmax)]

/-- Where there is room for the message, one call of `write` is enough. -/
theorem exists_writeP4Msg (h : Begins cell m) (hm : m.InRange p4BgMemCellSize) (sock : Sock) :
    ∃ wr, writeP4Msg sock cell p4BgMemCellSize [(m.bytes.length : ℤ)] = some wr := by
  have hpos : 0 < m.bytes.length := by
    rw [P4Msg.length_bytes hm]
    exact Nat.lt_of_lt_of_le (by decide) hm.1
  rw [writeP4Msg_eq h hm, writeFix, writeFixLoop, if_pos (Int.ofNat_lt.mpr hpos), sockWrite,
    if_neg (Int.not_lt.mpr (Int.natCast_nonneg _))]
  dsimp only
  rw [if_neg (Int.not_lt.mpr (Int.natCast_nonneg _)), writeFixLoop, if_neg]
  · exact ⟨_, rfl⟩
  · rw [List.length_take, length_slice]
    omega

/-- Such a message is written to the socket as it is. -/
theorem writeP4Msg_flatten (h : Begins cell m) (hm : m.InRange p4BgMemCellSize) {sock : Sock}
    {rooms : List ℤ} (hrooms : ∀ room ∈ rooms, 0 ≤ room) {wr : WriteResult}
    (hwrite : writeP4Msg sock cell p4BgMemCellSize rooms = some wr) :
    0 ≤ wr.rval ∧ wr.sock.flatten = sock.flatten ++ m.bytes ∧ ([] ∉ sock → [] ∉ wr.sock) := by
  rw [writeP4Msg_eq h hm, writeFix, show m.bytes.length = 0 + m.bytes.length by omega] at hwrite
  obtain ⟨hrval, hflat, hne⟩ := writeFixLoop_flatten hrooms hwrite
  rw [h] at hflat
  exact ⟨by omega, hflat, hne⟩

end Message

/-! ### Queues of messages -/

/-- There is room for one more. -/
def Fifo.HasSpace {α : Type*} (q : Fifo α) : Prop := q.size < p4BgQueueSize

instance {α : Type*} (q : Fifo α) : Decidable q.HasSpace := inferInstanceAs (Decidable (_ < _))

/-- The cells in the queue hold the messages. -/
def Queued (q : Fifo Buffer) (msgs : List P4Msg) : Prop :=
  ∃ cells, q.Holds p4BgQueueSize cells ∧ List.Forall₂ Begins cells msgs

section Queued

variable {q : Fifo Buffer} {msgs : List P4Msg} {m : P4Msg} {cell : Buffer}

theorem queued_init (queue : ℕ → Option Buffer) : Queued (fifoInit queue) [] :=
  ⟨[], holds_init (by decide) queue, .nil⟩

theorem Queued.add (h : Queued q msgs) (hspace : q.HasSpace) (hcell : Begins cell m) :
    Queued (fifoAddMsg p4BgQueueSize q cell).1 (msgs ++ [m]) := by
  obtain ⟨cells, hholds, hcells⟩ := h
  have hlt : cells.length < p4BgQueueSize := by
    have hsize := hholds.size
    have hroom : q.size < p4BgQueueSize := hspace
    omega
  exact ⟨cells ++ [cell], hholds.add hlt cell, List.rel_append hcells (.cons hcell .nil)⟩

/-- The queue's owner takes the first message. -/
theorem Queued.remove (h : Queued q msgs) {q' : Fifo Buffer}
    (hremove : fifoRemoveMsg p4BgQueueSize q = (q', some cell)) :
    ∃ m rest, msgs = m :: rest ∧ Begins cell m ∧ Queued q' rest := by
  obtain ⟨cells, hholds, hcells⟩ := h
  cases hcells with
  | nil =>
    have hempty : ¬ 0 < q.size := by
      have hsize := hholds.size
      rw [List.length_nil] at hsize
      omega
    rw [fifoRemoveMsg, if_neg hempty] at hremove
    exact absurd (Prod.mk.inj hremove).2 (Option.some_ne_none _).symm
  | cons hcell hcells =>
    obtain ⟨hrest, hfirst⟩ := hholds.remove
    rw [hremove] at hrest hfirst
    obtain rfl := Option.some.inj hfirst
    exact ⟨_, _, rfl, hcell, _, hrest, hcells⟩

theorem Queued.exists_remove (h : Queued q (m :: msgs)) :
    ∃ q' cell, fifoRemoveMsg p4BgQueueSize q = (q', some cell) := by
  obtain ⟨cells, hholds, hcells⟩ := h
  cases hcells with
  | @cons cell => exact ⟨_, cell, Prod.ext rfl hholds.remove.2⟩

theorem Queued.size_eq (h : Queued q msgs) : q.size = msgs.length := by
  obtain ⟨cells, hholds, hcells⟩ := h
  rw [hholds.size, hcells.length_eq]

end Queued

/-! ### One way of the connection -/

/-- The queue of the thread that writes, the socket, and the queue behind the thread that reads. -/
structure Link where
  out : Fifo Buffer
  sock : Sock
  inp : Fifo Buffer

namespace Link

/-- Two empty queues, in memory with the given contents. -/
def fresh (out inp : ℕ → Option Buffer) : Link := ⟨fifoInit out, [], fifoInit inp⟩

/-- A cell is put into the first queue. -/
def send (l : Link) (cell : Buffer) : Link :=
  { l with out := (fifoAddMsg p4BgQueueSize l.out cell).1 }

/-- A turn of one of the two threads; the flag says whether a message is lost.  The thread that
reads needs a cell, and `free` says when there is one. -/
inductive Step (free : Link → Prop) : Link → Bool → Link → Prop
  /-- `output_processor`, while the connection stands -/
  | write {l : Link} {out : Fifo Buffer} {cell : Buffer} {rooms : List ℤ} {wr : WriteResult}
      (hremove : fifoRemoveMsg p4BgQueueSize l.out = (out, some cell))
      (hrooms : ∀ room ∈ rooms, 0 ≤ room)
      (hwrite : writeP4Msg l.sock cell p4BgMemCellSize rooms = some wr) :
      Step free l (decide (wr.rval < 0)) { l with out := out, sock := wr.sock }
  /-- `backend_processor` or `execute_controller`, with a cell that holds anything; while
  there is no free cell or nothing is on the socket, it waits -/
  | read {l : Link} {data : Buffer} {turn : Turn} (hfree : free l)
      (hturn : backendTurn l.sock data p4BgMemCellSize = turn) (hread : turn.closed = false) :
      Step free l (!(turn.queued && decide l.inp.HasSpace))
        { l with
          sock := turn.sock
          inp := if turn.queued then (fifoAddMsg p4BgQueueSize l.inp turn.data).1 else l.inp }

/-- The messages in the queue behind the reader, on the socket, and in the other queue. -/
structure Holding (l : Link) (ins wires outs : List P4Msg) : Prop where
  inp : Queued l.inp ins
  nonempty : [] ∉ l.sock
  sock : l.sock.flatten = streamOf wires
  out : Queued l.out outs
  inRange : ∀ m ∈ ins ++ wires ++ outs, m.InRange p4BgMemCellSize

/-- The messages that are underway, the oldest first. -/
def Carries (l : Link) (msgs : List P4Msg) : Prop :=
  ∃ ins wires outs, msgs = ins ++ wires ++ outs ∧ l.Holding ins wires outs

section Carries

variable {l l' : Link} {msgs : List P4Msg} {m : P4Msg} {cell : Buffer}

theorem carries_fresh (out inp : ℕ → Option Buffer) : (fresh out inp).Carries [] :=
  ⟨[], [], [], rfl, queued_init inp, List.not_mem_nil, rfl, queued_init out, nofun⟩

theorem Carries.send (h : l.Carries msgs) (hspace : l.out.HasSpace) (hcell : Begins cell m)
    (hm : m.InRange p4BgMemCellSize) : (l.send cell).Carries (msgs ++ [m]) := by
  obtain ⟨ins, wires, outs, rfl, hholding⟩ := h
  refine ⟨ins, wires, outs ++ [m], by rw [← List.append_assoc], hholding.inp, hholding.nonempty,
    hholding.sock, hholding.out.add hspace hcell, ?_⟩
  rw [← List.append_assoc]
  exact List.forall_mem_append.mpr ⟨hholding.inRange, List.forall_mem_singleton.mpr hm⟩

/-- What does not fit into the queue is lost. -/
theorem send_full (hfull : ¬ l.out.HasSpace) : l.send cell = l := by
  rw [Link.send, fifoAddMsg_full hfull]

/-- The oldest message is taken. -/
theorem Carries.remove (h : l.Carries msgs) {inp : Fifo Buffer}
    (hremove : fifoRemoveMsg p4BgQueueSize l.inp = (inp, some cell)) :
    ∃ m rest, msgs = m :: rest ∧ Begins cell m ∧ m.InRange p4BgMemCellSize ∧
      ({ l with inp := inp } : Link).Carries rest := by
  obtain ⟨ins, wires, outs, rfl, hholding⟩ := h
  obtain ⟨m, rest, rfl, hcell, hrest⟩ := hholding.inp.remove hremove
  obtain ⟨hm, hothers⟩ := List.forall_mem_cons.mp hholding.inRange
  exact ⟨m, rest ++ wires ++ outs, rfl, hcell, hm, rest, wires, outs, rfl,
    { hholding with inp := hrest, inRange := hothers }⟩

/-- A message that is whole on the socket is read into the cell. -/
theorem backendTurn_message {sock : Sock} (hsock : [] ∉ sock) {wires : List P4Msg}
    (hflat : sock.flatten = streamOf (m :: wires)) (hm : m.InRange p4BgMemCellSize)
    (data : Buffer) :
    (backendTurn sock data p4BgMemCellSize).queued = true ∧
      (backendTurn sock data p4BgMemCellSize).closed = false ∧
      Begins (backendTurn sock data p4BgMemCellSize).data m ∧
      [] ∉ (backendTurn sock data p4BgMemCellSize).sock ∧
      (backendTurn sock data p4BgMemCellSize).sock.flatten = streamOf wires := by
  obtain ⟨sock', hread, hne, hrest⟩ :=
    readP4Msg_inRange hsock (flatten_cons hflat) (by decide) hm data
  have hpos : 0 < m.bytes.length := by
    rw [P4Msg.length_bytes hm]
    exact Nat.lt_of_lt_of_le (by decide) hm.1
  rw [backendTurn, hread]
  exact ⟨decide_eq_true (Int.natCast_pos.mpr hpos),
    decide_eq_false (Int.natCast_pos.mpr hpos).ne', slice_run data ⟨0, m.bytes⟩, hne, hrest⟩

section Holding

variable {ins wires outs : List P4Msg}

/-- A message goes from the queue to the socket. -/
theorem Holding.write (h : l.Holding ins wires (m :: outs)) {out : Fifo Buffer}
    (hremove : fifoRemoveMsg p4BgQueueSize l.out = (out, some cell)) {rooms : List ℤ}
    (hrooms : ∀ room ∈ rooms, 0 ≤ room) {wr : WriteResult}
    (hwrite : writeP4Msg l.sock cell p4BgMemCellSize rooms = some wr) :
    0 ≤ wr.rval ∧
      ({ l with out := out, sock := wr.sock } : Link).Holding ins (wires ++ [m]) outs := by
  obtain ⟨m', rest, heq, hcell, hrest⟩ := h.out.remove hremove
  obtain ⟨rfl, rfl⟩ := List.cons.inj heq
  have hm : m.InRange p4BgMemCellSize := h.inRange m
    (List.mem_append_right _ List.mem_cons_self)
  obtain ⟨hrval, hflat, hne⟩ := writeP4Msg_flatten hcell hm hrooms hwrite
  refine ⟨hrval, h.inp, hne h.nonempty, ?_, hrest, ?_⟩
  · rw [hflat, h.sock]
    simp [streamOf]
  · have hinRange := h.inRange
    rwa [show ins ++ wires ++ m :: outs = ins ++ (wires ++ [m]) ++ outs by simp] at hinRange

/-- A message goes from the socket to the queue behind it. -/
theorem Holding.read (h : l.Holding ins (m :: wires) outs) (hspace : l.inp.HasSpace)
    (data : Buffer) :
    ({ l with
        sock := (backendTurn l.sock data p4BgMemCellSize).sock
        inp := (fifoAddMsg p4BgQueueSize l.inp
          (backendTurn l.sock data p4BgMemCellSize).data).1 } : Link).Holding
      (ins ++ [m]) wires outs := by
  have hm : m.InRange p4BgMemCellSize := h.inRange m
    (List.mem_append_left _ (List.mem_append_right _ List.mem_cons_self))
  obtain ⟨-, -, hcell, hne, hflat⟩ := backendTurn_message h.nonempty h.sock hm data
  refine ⟨h.inp.add hspace hcell, hne, hflat, h.out, ?_⟩
  have hinRange := h.inRange
  rwa [show ins ++ m :: wires ++ outs = ins ++ [m] ++ wires ++ outs by simp] at hinRange

/-- It is lost if the queue is full. -/
theorem Holding.drop (h : l.Holding ins (m :: wires) outs) (data : Buffer) :
    ({ l with sock := (backendTurn l.sock data p4BgMemCellSize).sock } : Link).Holding
      ins wires outs := by
  have hm : m.InRange p4BgMemCellSize := h.inRange m
    (List.mem_append_left _ (List.mem_append_right _ List.mem_cons_self))
  obtain ⟨-, -, -, hne, hflat⟩ := backendTurn_message h.nonempty h.sock hm data
  refine ⟨h.inp, hne, hflat, h.out, fun m' hm' => h.inRange m' ?_⟩
  simp only [List.mem_append, List.mem_cons] at hm' ⊢
  tauto

end Holding

section Turns

variable {free : Link → Prop}

/-- **No turn changes a message or the order of the messages**, and one that loses none leaves
them all underway; the reader loses one only if its queue is full. -/
theorem Carries.step (h : l.Carries msgs) {lost : Bool} (hstep : Step free l lost l') :
    (lost = true → free l ∧ ¬ l.inp.HasSpace) ∧
      ∃ msgs', msgs'.Sublist msgs ∧ (lost = false → msgs' = msgs) ∧ l'.Carries msgs' := by
  obtain ⟨ins, wires, outs, rfl, hholding⟩ := h
  cases hstep with
  | write hremove hrooms hwrite =>
    obtain ⟨m, rest, rfl, -, -⟩ := hholding.out.remove hremove
    obtain ⟨hrval, hwritten⟩ := hholding.write hremove hrooms hwrite
    refine ⟨fun hlost => ?_, _, List.Sublist.refl _, fun _ => rfl, ins, wires ++ [m], rest,
      by simp, hwritten⟩
    exact absurd (of_decide_eq_true hlost) (Int.not_lt.mpr hrval)
  | @read data turn hfree hturn hread =>
    subst hturn
    cases wires with
    | nil =>
      -- The reader would still be waiting.
      have heof := readP4Msg_eof hholding.nonempty (by decide : sizeofP4Header ≤ p4BgMemCellSize)
        hholding.sock data
      exact absurd (decide_eq_true heof) (ne_true_of_eq_false hread)
    | cons m wires =>
      have hm : m.InRange p4BgMemCellSize := hholding.inRange m
        (List.mem_append_left _ (List.mem_append_right _ List.mem_cons_self))
      obtain ⟨hqueued, -⟩ := backendTurn_message hholding.nonempty hholding.sock hm data
      simp only [hqueued, Bool.true_and, if_true]
      by_cases hspace : l.inp.HasSpace
      · exact ⟨fun hlost => absurd hlost (by simp [hspace]), _, List.Sublist.refl _, fun _ => rfl,
          ins ++ [m], wires, outs, by simp, hholding.read hspace data⟩
      · rw [fifoAddMsg_full hspace]
        refine ⟨fun _ => ⟨hfree, hspace⟩, ins ++ wires ++ outs, ?_, fun h => ?_, ins, wires, outs,
          rfl, hholding.drop data⟩
        · exact ((List.Sublist.refl ins).append (List.sublist_cons_self m wires)).append
            (List.Sublist.refl outs)
        · exact absurd h (by simp [hspace])

/-- A run of the threads that loses nothing. -/
def Turns (free : Link → Prop) : Link → Link → Prop :=
  Relation.ReflTransGen fun l l' => Step free l false l'

/-- The threads put nothing into the queue of the one that writes. -/
theorem Turns.out_size_le (h : l.Turns free l') : l'.out.size ≤ l.out.size := by
  induction h with
  | refl => exact le_rfl
  | tail _ hturn ih =>
    refine le_trans ?_ ih
    generalize hlost : false = lost at hturn
    cases hturn with
    | write hremove _ _ =>
      rw [fifoRemoveMsg] at hremove
      split_ifs at hremove with hpos
      · rw [← (Prod.mk.inj hremove).1]
        exact Int.sub_le_self _ (by decide)
      · exact (Option.some_ne_none _ (Prod.mk.inj hremove).2.symm).elim
    | read _ _ _ => exact le_rfl

/-- There is room on the socket for the first message of the queue. -/
theorem Holding.exists_write {ins wires outs : List P4Msg} (h : l.Holding ins wires (m :: outs)) :
    ∃ l', Step free l false l' ∧ l'.Holding ins (wires ++ [m]) outs := by
  obtain ⟨out, cell, hremove⟩ := h.out.exists_remove
  obtain ⟨m', _, heq, hcell, -⟩ := h.out.remove hremove
  obtain ⟨rfl, -⟩ := List.cons.inj heq
  have hm : m.InRange p4BgMemCellSize :=
    h.inRange m (List.mem_append_right _ List.mem_cons_self)
  obtain ⟨wr, hwrite⟩ := exists_writeP4Msg hcell hm l.sock
  have hrooms : ∀ room ∈ [(m.bytes.length : ℤ)], 0 ≤ room :=
    List.forall_mem_singleton.mpr (Int.natCast_nonneg _)
  obtain ⟨hrval, hwritten⟩ := h.write hremove hrooms hwrite
  have hstep := @Step.write free _ _ _ _ _ hremove hrooms hwrite
  rw [decide_eq_false (Int.not_lt.mpr hrval)] at hstep
  exact ⟨_, hstep, hwritten⟩

/-- The whole queue can be written to the socket. -/
theorem Carries.exists_flushed (h : l.Carries msgs) :
    ∃ l', l.Turns free l' ∧ l'.Carries msgs ∧ l'.out.size = 0 := by
  obtain ⟨ins, wires, outs, rfl, hholding⟩ := h
  induction outs generalizing l wires with
  | nil => exact ⟨l, .refl, ⟨ins, wires, [], rfl, hholding⟩, hholding.out.size_eq⟩
  | cons m outs ih =>
    obtain ⟨l₁, hstep, hholding₁⟩ := @Holding.exists_write l m free ins wires outs hholding
    obtain ⟨l₂, hturns, hcarries, hempty⟩ := ih (wires ++ [m]) hholding₁
    rw [← List.append_assoc, List.append_assoc (ins ++ wires)] at hcarries
    exact ⟨l₂, .head hstep hturns, hcarries, hempty⟩

/-- With an empty queue behind it and a free cell, the socket can be read. -/
theorem Holding.arrives {wires outs : List P4Msg} (h : l.Holding [] (m :: wires) outs)
    (hfree : free l) : ∃ l', Step free l false l' ∧ l'.Holding [m] wires outs := by
  have hspace : l.inp.HasSpace := by
    show l.inp.size < p4BgQueueSize
    rw [h.inp.size_eq]
    decide
  have hm : m.InRange p4BgMemCellSize := h.inRange m (List.mem_cons_self ..)
  let data : Buffer := fun _ => 0
  obtain ⟨hqueued, hclosed, -⟩ := backendTurn_message h.nonempty h.sock hm data
  have hstep := @Step.read free l data _ hfree rfl hclosed
  simp only [hqueued, Bool.true_and, if_true, decide_eq_true hspace] at hstep
  exact ⟨_, hstep, h.read hspace data⟩

/-- **The oldest message can arrive**, without a loss, if cells are free while nothing waits
behind the reader. -/
theorem Carries.arrives (h : l.Carries (m :: msgs)) (hfree : ∀ l, l.inp.size = 0 → free l) :
    ∃ l' inp cell, l.Turns free l' ∧ l'.Carries (m :: msgs) ∧
      fifoRemoveMsg p4BgQueueSize l'.inp = (inp, some cell) := by
  obtain ⟨ins, wires, outs, heq, hholding⟩ := h
  cases ins with
  | cons m' ins =>
    obtain ⟨inp, cell, hremove⟩ := hholding.inp.exists_remove
    exact ⟨l, inp, cell, .refl, ⟨_, _, _, heq, hholding⟩, hremove⟩
  | nil =>
    cases wires with
    | cons m' wires =>
      obtain ⟨l', hstep, hholding'⟩ := hholding.arrives (hfree l hholding.inp.size_eq)
      obtain ⟨inp, cell, hremove⟩ := hholding'.inp.exists_remove
      exact ⟨l', inp, cell, .single hstep, ⟨[m'], wires, outs, heq, hholding'⟩, hremove⟩
    | nil =>
      cases outs with
      | nil => exact absurd heq (List.cons_ne_nil _ _)
      | cons m' outs =>
        obtain ⟨l₁, hstep, hwritten⟩ := @Holding.exists_write l m' free [] [] outs hholding
        obtain ⟨l₂, hstep', hholding'⟩ := hwritten.arrives (hfree l₁ hwritten.inp.size_eq)
        obtain ⟨inp, cell, hremove⟩ := hholding'.inp.exists_remove
        exact ⟨l₂, inp, cell, .tail (.single hstep) hstep', ⟨[m'], [], outs, heq, hholding'⟩, hremove⟩

end Turns

/-- Nothing is in the queues or on the socket. -/
def Idle (l : Link) : Prop := l.out.size = 0 ∧ l.sock = [] ∧ l.inp.size = 0

theorem Idle.hasSpace (h : l.Idle) : l.out.HasSpace := by
  show l.out.size < p4BgQueueSize
  rw [h.1]
  decide

theorem Carries.idle_iff (h : l.Carries msgs) : l.Idle ↔ msgs = [] := by
  obtain ⟨ins, wires, outs, rfl, hholding⟩ := h
  have hins := hholding.inp.size_eq
  have houts := hholding.out.size_eq
  constructor
  · rintro ⟨hout, hsock, hinp⟩
    have hwires : wires = [] := by
      have hstream := hholding.sock
      rw [hsock] at hstream
      cases wires with
      | nil => rfl
      | cons m wires =>
        -- Each message has a header.
        have hheader : sizeofP4Header ≤ m.bytes.length := m.length_eq ▸ Nat.le_max_left ..
        have hnil : m.bytes = [] := (List.append_eq_nil_iff.mp hstream.symm).1
        rw [hnil] at hheader
        exact absurd hheader (by decide)
    rw [List.length_eq_zero_iff.mp (by omega : ins.length = 0),
      List.length_eq_zero_iff.mp (by omega : outs.length = 0), hwires]
    rfl
  · intro hnil
    obtain ⟨hfront, rfl⟩ := List.append_eq_nil_iff.mp hnil
    obtain ⟨rfl, rfl⟩ := List.append_eq_nil_iff.mp hfront
    have hsock : l.sock = [] := by
      have hstream := hholding.sock
      cases hchunks : l.sock with
      | nil => rfl
      | cons chunk chunks =>
        rw [hchunks] at hstream
        obtain ⟨rfl, -⟩ := List.append_eq_nil_iff.mp hstream
        exact absurd (hchunks ▸ List.mem_cons_self) hholding.nonempty
    exact ⟨by rw [houts]; rfl, hsock, by rw [hins]; rfl⟩

end Carries

end Link

end T4P4S
