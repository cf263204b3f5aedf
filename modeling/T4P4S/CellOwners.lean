/-
Who holds the message cells of the control plane.

`backend_processor` takes a cell for each message it reads and hands it to
`input_processor` through a queue; the data plane takes one for each digest and
hands it to `output_processor`.  The processors put the cells back.  The threads run
side by side, so that a run is any order of their steps.

* **`noLeak_iff`** — in a run each used cell has exactly one holder in every state,
  iff no step drops the cell that it holds: no read fails, no queue is full, no name
  or field is too long, and nothing is in a queue when the backend stops.
-/
import T4P4S.Fifo
import T4P4S.MemCells
import T4P4S.Messages

open LinkedList

namespace T4P4S

/-- `P4_BG_QUEUE_SIZE` -/
def p4BgQueueSize : ℕ := 1024

/-- `P4_MAX_FIELD_LIST_NAME_LEN` -/
def p4MaxFieldListNameLen : ℕ := 128

/-- `P4_MAX_FIELD_VALUE_LENGTH` -/
def p4MaxFieldValueLength : UInt32 := 32

/-- `sizeof(struct p4_digest)` -/
def sizeofP4Digest : ℕ := 140

/-- `sizeof(struct p4_digest_field)` -/
def sizeofP4DigestField : ℕ := 164

/-- Where `backend_processor` stands. -/
inductive Reader
  /-- in front of `select` -/
  | selecting
  /-- in the loop around `touch_mem_cell` -/
  | touching
  /-- in `read_p4_msg`, with the cell it reads to -/
  | reading (cell : ℕ)
  | stopped

/-- Where `input_processor` or `output_processor` stands. -/
inductive Processor
  /-- in `fifo_wait` -/
  | waiting
  /-- behind `fifo_remove_msg`, with what that returned -/
  | removed (memCell : Option ℕ)
  /-- at work on the message in the cell -/
  | handling (memCell : ℕ)
  | stopped

/-- A queue and the thread that empties it. -/
structure Port where
  queue : Fifo ℕ
  processor : Processor

/-- The two queues of `backend_t`. -/
inductive Side
  | input
  | output
  deriving DecidableEq

/-- `Digest_t`: its cell, and the length in the header of the message in there. -/
structure Digest where
  memCell : ℕ
  length : ℕ

/-- `backend_t`, with what its threads hold, and the digests for which a caller has a
pointer. -/
structure Backend where
  pool : MemPool
  shutdown : Bool
  reader : Reader
  ports : Side → Port
  digests : List Digest

/-- The backend after `launch_backend`, if `create_backend` has made the pool on memory with the
given contents. -/
def launchBackend (queueSize : ℕ) (bg : MemPool) (queue : Side → ℕ → Option ℕ) : Backend where
  pool := createMemCells queueSize bg
  shutdown := false
  reader := .selecting
  ports side := ⟨fifoInit (queue side), .waiting⟩
  digests := []

/-! ### Digests -/

/-- `create_digest`; the flag says whether there is memory for the `Digest_t`. -/
def createDigest (bgt : MemPool) (memory : Bool) (name : List Byte) : MemPool × Option Digest :=
  if memory then
    match touchMemCell bgt with
    | (bgt, none) => (bgt, none)
    | (bgt, some memCell) =>
      if name.length > p4MaxFieldListNameLen - 1 then (bgt, none)
      else (bgt, some ⟨memCell, sizeofP4Digest⟩)
  else
    (bgt, none)

/-- `add_p4_digest_field`; the flag says whether the pointer it returns is not `NULL`. -/
def addP4DigestField (d : Digest) (maxlength : ℕ) : Digest × Bool :=
  if d.length + sizeofP4DigestField > maxlength then (d, false)
  else ({ d with length := d.length + sizeofP4DigestField }, true)

/-- The `bytelength` of `add_digest_field`. -/
def digestByteLength (bitlength : UInt32) : UInt32 := (bitlength - 1) / 8 + 1

/-- `add_digest_field`; the flag says whether the pointer it returns is not `NULL`.
`none` if it writes through a `NULL` pointer. -/
def addDigestField (d : Digest) (maxlength : ℕ) (bitlength : UInt32) : Option (Digest × Bool) :=
  let (d, dfield) := addP4DigestField d maxlength
  if digestByteLength bitlength > p4MaxFieldValueLength then some (d, false)
  else if dfield then some (d, true)
  else none

/-! ### Steps -/

/-- What one of the threads does up to the point where others may go on. -/
inductive Event
  /-- `select` returns; a message is ready, or the time is over -/
  | select (ready : Bool)
  | touch
  /-- `read_p4_msg` returns -/
  | read (rv : ℤ)
  /-- `fifo_wait` and `fifo_remove_msg` -/
  | remove (side : Side)
  /-- the branches behind `fifo_remove_msg` -/
  | check (side : Side)
  /-- the message was handled, and `detouch_mem_cell` is called -/
  | detouch (side : Side)
  /-- `create_digest` -/
  | create (memory : Bool) (name : List Byte)
  /-- `add_digest_field`, whose result the caller assigns to its pointer or ignores -/
  | addField (digest : ℕ) (bitlength : UInt32) (assigned : Bool)
  /-- `send_digest` -/
  | send (digest : ℕ)
  /-- `stop_backend` -/
  | stop

def Backend.setPort (st : Backend) (side : Side) (port : Port) : Backend :=
  { st with ports := Function.update st.ports side port }

/-- `fifo_add_msg` on the queue; the flag says whether the pointer it returns is not `NULL`. -/
def Port.addMsg (port : Port) (memCell : ℕ) : Port × Bool :=
  let (queue, added) := fifoAddMsg p4BgQueueSize port.queue memCell
  ({ port with queue := queue }, added)

/-- `fifo_remove_msg` on the queue, by its processor. -/
def Port.removeMsg (port : Port) : Port :=
  let (queue, memCell) := fifoRemoveMsg p4BgQueueSize port.queue
  ⟨queue, .removed memCell⟩

/-- One step of the backend; `none` where the event cannot happen. -/
def Backend.step (st : Backend) : Event → Option Backend
  | .select ready =>
    match st.reader with
    | .selecting =>
      some { st with
        reader := if st.shutdown then .stopped else if ready then .touching else .selecting }
    | _ => none
  | .touch =>
    match st.reader with
    | .touching =>
      let (pool, memCell) := touchMemCell st.pool
      some { st with
        pool := pool
        reader := memCell.elim .touching .reading }
    | _ => none
  | .read rv =>
    match st.reader with
    | .reading memCell =>
      if rv > 0 then
        some ({ st with reader := .selecting }.setPort .input ((st.ports .input).addMsg memCell).1)
      else if rv = 0 then some { st with reader := .stopped }
      else some { st with reader := .selecting }
    | _ => none
  | .remove side =>
    match (st.ports side).processor with
    | .waiting => some (st.setPort side (st.ports side).removeMsg)
    | _ => none
  | .check side =>
    match (st.ports side).processor with
    | .removed memCell =>
      let processor := if st.shutdown then .stopped else memCell.elim .waiting .handling
      some (st.setPort side ⟨(st.ports side).queue, processor⟩)
    | _ => none
  | .detouch side =>
    match (st.ports side).processor with
    | .handling memCell =>
      (detouchMemCell st.pool memCell).map fun pool =>
        { st with pool := pool }.setPort side ⟨(st.ports side).queue, .waiting⟩
    | _ => none
  | .create memory name =>
    let (pool, digest) := createDigest st.pool memory name
    some { st with
      pool := pool
      digests := digest.toList ++ st.digests }
  | .addField digest bitlength assigned => do
    let d ← st.digests[digest]?
    let (d, ok) ← addDigestField d (st.pool.length d.memCell) bitlength
    let digests := if assigned && !ok then st.digests.eraseIdx digest else st.digests.set digest d
    return { st with digests := digests }
  | .send digest => do
    let d ← st.digests[digest]?
    let (port, added) := (st.ports .output).addMsg d.memCell
    let digests := if added then st.digests.eraseIdx digest else st.digests
    return { st with digests := digests }.setPort .output port
  | .stop => some { st with shutdown := true }

/-- The state after a list of events. -/
def Backend.run (st : Backend) (events : List Event) : Option Backend :=
  events.foldlM Backend.step st

/-! ### The law -/

def Reader.cells : Reader → List ℕ
  | .reading memCell => [memCell]
  | _ => []

def Processor.cells : Processor → List ℕ
  | .removed memCell => memCell.toList
  | .handling memCell => [memCell]
  | _ => []

def Port.cells (port : Port) : List ℕ :=
  port.queue.elements p4BgQueueSize ++ port.processor.cells

/-- The cells that somebody has: the reader, the queues, the processors, and the digests that
can still be sent. -/
def Backend.holders (st : Backend) : List ℕ :=
  st.reader.cells ++ (st.ports .input).cells ++ (st.ports .output).cells ++
    st.digests.map Digest.memCell

/-- What should hold of the cells: each cell in the used list has exactly one holder, and
with no holder all cells are in the unused list. -/
structure NoLeak (queueSize : ℕ) (st : Backend) : Prop where
  used : ∃ used, Linked st.pool.next st.pool.usedHead used none ∧
    used.Nodup ∧ used.Perm st.holders
  unused : st.holders = [] → ∃ unused, Linked st.pool.next st.pool.unusedHead unused none ∧
    unused.Perm (List.range queueSize)

/-- Whether the step hands on the cell that it has. -/
def HandsOn (st : Backend) : Event → Prop
  | .read rv => 0 < rv ∧ (st.ports .input).queue.size < p4BgQueueSize
  | .check side => st.shutdown → (st.ports side).processor.cells = []
  | .create memory name =>
    memory → st.pool.unusedHead.isSome → name.length ≤ p4MaxFieldListNameLen - 1
  | .addField _ bitlength assigned =>
    assigned → digestByteLength bitlength ≤ p4MaxFieldValueLength
  | .send _ => (st.ports .output).queue.size < p4BgQueueSize
  | _ => True

/-- Whether each step of a run hands on the cell that it has. -/
def HandOver : Backend → List Event → Prop
  | _, [] => True
  | st, event :: events => ∀ st', st.step event = some st' → HandsOn st event ∧ HandOver st' events

/-! ### Accounts -/

/-- The lists of the pool are well formed, and its used cells are those in `held`. -/
def OwnsCells (queueSize : ℕ) (bgt : MemPool) (held : List ℕ) : Prop :=
  ∃ used unused, PoolLists queueSize ⟨bgt, held⟩ used unused

section Owns

variable {queueSize : ℕ} {bgt : MemPool} {held held' : List ℕ}

theorem OwnsCells.perm (h : OwnsCells queueSize bgt held) (hperm : held.Perm held') :
    OwnsCells queueSize bgt held' := by
  obtain ⟨used, unused, hlists⟩ := h
  exact ⟨used, unused, { hlists with held := hlists.held.trans hperm }⟩

theorem OwnsCells.of_count (h : OwnsCells queueSize bgt held)
    (hcount : ∀ c, held.count c = held'.count c) : OwnsCells queueSize bgt held' :=
  h.perm (List.perm_iff_count.mpr hcount)

/-- A cell is taken, if there is one. -/
theorem OwnsCells.touch (h : OwnsCells queueSize bgt held) :
    (bgt.unusedHead = none ∧ touchMemCell bgt = (bgt, none)) ∨
      ∃ bgt' c, bgt.unusedHead.isSome ∧ touchMemCell bgt = (bgt', some c) ∧
        OwnsCells queueSize bgt' (c :: held) := by
  obtain ⟨used, unused, hlists⟩ := h
  cases unused with
  | nil => exact .inl ⟨hlists.unused_next, touchMemCell_empty hlists⟩
  | cons c unused =>
    obtain ⟨htouch, hlists'⟩ := touchMemCell_lists hlists
    refine .inr ⟨_, c, ?_, htouch, c :: used, unused, hlists'⟩
    rw [hlists.unused_next.1]
    rfl

/-- A cell that somebody holds can be put back. -/
theorem OwnsCells.detouch {c : ℕ} (h : OwnsCells queueSize bgt (c :: held)) :
    ∃ bgt', detouchMemCell bgt c = some bgt' ∧ OwnsCells queueSize bgt' held := by
  obtain ⟨used, unused, hlists⟩ := h
  obtain ⟨a, b, rfl⟩ := List.append_of_mem (hlists.held.mem_iff.mpr List.mem_cons_self)
  obtain ⟨bgt', hres, -, -, hlists'⟩ := detouchMemCell_lists hlists
  rw [List.erase_cons_head] at hlists'
  exact ⟨bgt', hres, _, _, hlists'⟩

end Owns

/-- The used cells are those of the holders and the lost ones, and the queues are as
they should be. -/
structure Accounts (queueSize : ℕ) (st : Backend) (lost : List ℕ) : Prop where
  owns : OwnsCells queueSize st.pool (st.holders ++ lost)
  queues : ∀ side, ∃ elements, (st.ports side).queue.Holds p4BgQueueSize elements

section Accounts

variable {queueSize : ℕ} {st st' : Backend} {lost : List ℕ}

theorem count_holders (st : Backend) (c : ℕ) : st.holders.count c =
    st.reader.cells.count c + (st.ports .input).cells.count c +
      (st.ports .output).cells.count c + (st.digests.map Digest.memCell).count c := by
  rw [Backend.holders, List.count_append, List.count_append, List.count_append]

/-- What the reader had is replaced by what it has now. -/
theorem count_reader (st : Backend) (reader : Reader) (c : ℕ) :
    ({ st with reader := reader } : Backend).holders.count c + st.reader.cells.count c =
      st.holders.count c + reader.cells.count c := by
  rw [count_holders, count_holders]
  dsimp only
  omega

theorem count_digests (st : Backend) (digests : List Digest) (c : ℕ) :
    ({ st with digests := digests } : Backend).holders.count c +
        (st.digests.map Digest.memCell).count c =
      st.holders.count c + (digests.map Digest.memCell).count c := by
  rw [count_holders, count_holders]
  dsimp only
  omega

/-- What a port had is replaced by what it has now. -/
theorem count_setPort (st : Backend) (side : Side) (port : Port) (c : ℕ) :
    (st.setPort side port).holders.count c + (st.ports side).cells.count c =
      st.holders.count c + port.cells.count c := by
  rw [count_holders, count_holders]
  cases side with
  | input =>
    show st.reader.cells.count c + port.cells.count c + (st.ports .output).cells.count c +
      (st.digests.map Digest.memCell).count c + _ = _
    omega
  | output =>
    show st.reader.cells.count c + (st.ports .input).cells.count c + port.cells.count c +
      (st.digests.map Digest.memCell).count c + _ = _
    omega

theorem count_portCells (port : Port) (c : ℕ) : port.cells.count c =
    (port.queue.elements p4BgQueueSize).count c + port.processor.cells.count c := by
  rw [Port.cells, List.count_append]

/-- What a processor had is replaced by what it has now. -/
theorem count_setProcessor (st : Backend) (side : Side) (processor : Processor) (c : ℕ) :
    (st.setPort side ⟨(st.ports side).queue, processor⟩).holders.count c +
        (st.ports side).processor.cells.count c =
      st.holders.count c + processor.cells.count c := by
  have hset := count_setPort st side ⟨(st.ports side).queue, processor⟩ c
  rw [count_portCells, count_portCells] at hset
  dsimp only at hset
  omega

theorem queues_setPort (h : ∀ side, ∃ elements, (st.ports side).queue.Holds p4BgQueueSize elements)
    {side : Side} {port : Port} (hport : ∃ elements, port.queue.Holds p4BgQueueSize elements) :
    ∀ s, ∃ elements, ((st.setPort side port).ports s).queue.Holds p4BgQueueSize elements := by
  intro s
  by_cases hs : s = side
  · show ∃ elements, (Function.update st.ports side port s).queue.Holds p4BgQueueSize elements
    rw [hs, Function.update_self]
    exact hport
  · show ∃ elements, (Function.update st.ports side port s).queue.Holds p4BgQueueSize elements
    rw [Function.update_of_ne hs]
    exact h s

/-- A cell that is added to a queue is in there, or lost if the queue is full. -/
theorem addMsg_count {port : Port} (h : ∃ elements, port.queue.Holds p4BgQueueSize elements)
    (memCell : ℕ) : ∃ more,
      (∃ elements, (port.addMsg memCell).1.queue.Holds p4BgQueueSize elements) ∧
      (∀ c, (port.addMsg memCell).1.cells.count c + more.count c =
        port.cells.count c + [memCell].count c) ∧
      (more = [] ↔ port.queue.size < p4BgQueueSize) := by
  obtain ⟨elements, hholds⟩ := h
  by_cases hroom : port.queue.size < p4BgQueueSize
  · have hlt : elements.length < p4BgQueueSize := by
      have hsize := hholds.size
      omega
    have hadd := hholds.add hlt memCell
    refine ⟨[], ⟨_, hadd⟩, fun c => ?_, iff_of_true rfl hroom⟩
    show ((fifoAddMsg p4BgQueueSize port.queue memCell).1.elements p4BgQueueSize ++
      port.processor.cells).count c + 0 = _
    rw [hadd.elements_eq, count_portCells, hholds.elements_eq, List.count_append, List.count_append]
    omega
  · have hfull : (port.addMsg memCell).1 = port := by
      rw [Port.addMsg, fifoAddMsg_full hroom]
    rw [hfull]
    exact ⟨[memCell], ⟨_, hholds⟩, fun c => rfl, iff_of_false (List.cons_ne_nil _ _) hroom⟩

/-- A cell that is removed from a queue is in the hands of its processor. -/
theorem removeMsg_count {port : Port} (hprocessor : port.processor = .waiting)
    (h : ∃ elements, port.queue.Holds p4BgQueueSize elements) :
    (∃ elements, port.removeMsg.queue.Holds p4BgQueueSize elements) ∧
      ∀ c, port.removeMsg.cells.count c = port.cells.count c := by
  have hcells : port.cells = port.queue.elements p4BgQueueSize := by
    rw [Port.cells, hprocessor]
    exact List.append_nil _
  have hcells' : port.removeMsg.cells =
      (fifoRemoveMsg p4BgQueueSize port.queue).1.elements p4BgQueueSize ++
        (fifoRemoveMsg p4BgQueueSize port.queue).2.toList := rfl
  obtain ⟨elements, hholds⟩ := h
  rw [hcells', hcells, hholds.elements_eq]
  cases elements with
  | nil =>
    have hempty : fifoRemoveMsg p4BgQueueSize port.queue = (port.queue, none) := by
      rw [fifoRemoveMsg, if_neg]
      rw [hholds.size]
      exact lt_irrefl _
    rw [hempty, hholds.elements_eq]
    refine ⟨⟨[], ?_⟩, fun c => rfl⟩
    rw [Port.removeMsg, hempty]
    exact hholds
  | cons memCell elements =>
    obtain ⟨hrest, hfirst⟩ := hholds.remove
    refine ⟨⟨_, hrest⟩, fun c => ?_⟩
    rw [hrest.elements_eq, hfirst, List.count_append, List.count_cons, Option.toList_some,
      List.count_singleton]

/-! ### What one step loses -/

/-- The step loses nothing exactly if it hands on its cell, and what it loses is no one's. -/
def Loses (queueSize : ℕ) (st' : Backend) (lost : List ℕ) (handsOn : Prop) : Prop :=
  ∃ more, Accounts queueSize st' (more ++ lost) ∧ (more = [] ↔ handsOn)

theorem loses_none {handsOn : Prop} (htrue : handsOn) (h : Accounts queueSize st' lost) :
    Loses queueSize st' lost handsOn :=
  ⟨[], h, iff_of_true rfl htrue⟩

theorem loses_one {c : ℕ} {handsOn : Prop} (hfalse : ¬ handsOn)
    (h : Accounts queueSize st' (c :: lost)) : Loses queueSize st' lost handsOn :=
  ⟨[c], h, iff_of_false (List.cons_ne_nil _ _) hfalse⟩

/-- With the same pool, it is enough to count the cells. -/
theorem Accounts.of_count {lost' : List ℕ} (h : Accounts queueSize st lost)
    (hpool : st'.pool = st.pool)
    (hqueues : ∀ side, ∃ elements, (st'.ports side).queue.Holds p4BgQueueSize elements)
    (hcount : ∀ c, st.holders.count c + lost.count c = st'.holders.count c + lost'.count c) :
    Accounts queueSize st' lost' := by
  refine ⟨?_, hqueues⟩
  rw [hpool]
  refine h.owns.of_count fun c => ?_
  rw [List.count_append, List.count_append]
  exact hcount c

theorem Accounts.select (h : Accounts queueSize st lost) {ready : Bool}
    (hstep : st.step (.select ready) = some st') :
    Loses queueSize st' lost (HandsOn st (.select ready)) := by
  rw [Backend.step] at hstep
  split at hstep
  · rename_i hreader
    obtain rfl := Option.some.inj hstep
    -- The reader has no cell before and none after.
    have hcells : (if st.shutdown then Reader.stopped else if ready then .touching
        else .selecting).cells = st.reader.cells := by
      rw [hreader]
      split_ifs <;> rfl
    refine loses_none trivial (h.of_count rfl h.queues fun c => ?_)
    have hcount := count_reader st (if st.shutdown then .stopped else if ready then .touching
      else .selecting) c
    rw [hcells] at hcount
    omega
  · exact nomatch hstep

theorem Accounts.touch (h : Accounts queueSize st lost) (hstep : st.step .touch = some st') :
    Loses queueSize st' lost (HandsOn st .touch) := by
  rw [Backend.step] at hstep
  split at hstep
  · rename_i hreader
    obtain ⟨-, htouch⟩ | ⟨pool, c, -, htouch, howns⟩ := h.owns.touch
    · rw [htouch] at hstep
      obtain rfl := Option.some.inj hstep
      refine loses_none trivial (h.of_count rfl h.queues fun d => ?_)
      have hcount := count_reader st .touching d
      rw [hreader] at hcount
      exact congrArg (· + _) hcount.symm
    · rw [htouch] at hstep
      obtain rfl := Option.some.inj hstep
      refine loses_none trivial ⟨howns.of_count fun d => ?_, h.queues⟩
      have hcount := count_reader st (.reading c) d
      rw [hreader, show Reader.cells (.reading c) = [c] from rfl, List.count_singleton,
        show Reader.touching.cells = [] from rfl, List.count_nil] at hcount
      rw [List.count_cons, List.count_append, List.count_append]
      show _ = ({ st with reader := .reading c } : Backend).holders.count d + _
      omega
  · exact nomatch hstep

theorem Accounts.read (h : Accounts queueSize st lost) {rv : ℤ}
    (hstep : st.step (.read rv) = some st') :
    Loses queueSize st' lost (HandsOn st (.read rv)) := by
  rw [Backend.step] at hstep
  split at hstep
  · rename_i memCell hreader
    -- Without its cell, the reader has none.
    have hdrop : ∀ reader : Reader, reader.cells = [] → ∀ c,
        ({ st with reader := reader } : Backend).holders.count c + [memCell].count c =
          st.holders.count c := by
      intro reader hcells c
      have hcount := count_reader st reader c
      rw [hreader, hcells] at hcount
      exact hcount
    by_cases hrv : rv > 0
    · rw [if_pos hrv] at hstep
      obtain rfl := Option.some.inj hstep
      obtain ⟨more, hholds, hadd, hmore⟩ := addMsg_count (h.queues .input) memCell
      refine ⟨more, ?_, hmore.trans (and_iff_right hrv).symm⟩
      refine h.of_count rfl (queues_setPort h.queues hholds) fun c => ?_
      have hset := count_setPort { st with reader := .selecting } .input
        ((st.ports .input).addMsg memCell).1 c
      have hcell := hdrop .selecting rfl c
      have hcount := hadd c
      rw [List.count_append]
      dsimp only at hset
      omega
    · have hfail : ¬ HandsOn st (.read rv) := fun hon => hrv hon.1
      rw [if_neg hrv] at hstep
      have hlost : ∃ reader : Reader, reader.cells = [] ∧ st' = { st with reader := reader } := by
        split_ifs at hstep
        · exact ⟨.stopped, rfl, (Option.some.inj hstep).symm⟩
        · exact ⟨.selecting, rfl, (Option.some.inj hstep).symm⟩
      obtain ⟨reader, hcells, rfl⟩ := hlost
      refine loses_one (c := memCell) hfail (h.of_count rfl h.queues fun c => ?_)
      have hcell := hdrop reader hcells c
      rw [List.count_singleton] at hcell
      rw [List.count_cons]
      omega
  · exact nomatch hstep

theorem Accounts.remove (h : Accounts queueSize st lost) {side : Side}
    (hstep : st.step (.remove side) = some st') :
    Loses queueSize st' lost (HandsOn st (.remove side)) := by
  rw [Backend.step] at hstep
  split at hstep
  · rename_i hprocessor
    obtain rfl := Option.some.inj hstep
    obtain ⟨hholds, hremove⟩ := removeMsg_count hprocessor (h.queues side)
    refine loses_none trivial (h.of_count rfl (queues_setPort h.queues hholds) fun c => ?_)
    have hset := count_setPort st side (st.ports side).removeMsg c
    have hcount := hremove c
    omega
  · exact nomatch hstep

theorem Accounts.check (h : Accounts queueSize st lost) {side : Side}
    (hstep : st.step (.check side) = some st') :
    Loses queueSize st' lost (HandsOn st (.check side)) := by
  rw [Backend.step] at hstep
  split at hstep
  · rename_i memCell hprocessor
    obtain rfl := Option.some.inj hstep
    have hset := count_setProcessor st side
    rw [hprocessor] at hset
    have hqueues : ∀ processor s, ∃ elements,
        ((st.setPort side ⟨(st.ports side).queue, processor⟩).ports s).queue.Holds
          p4BgQueueSize elements :=
      fun _ => queues_setPort h.queues (h.queues side)
    cases hshutdown : st.shutdown with
    | false =>
      -- The processor keeps the cell, or goes on without one.
      have hcells : (memCell.elim .waiting .handling : Processor).cells =
          (Processor.removed memCell).cells := by
        cases memCell <;> rfl
      have hon : HandsOn st (.check side) := by
        intro hdown
        exact absurd (hshutdown.symm.trans hdown) Bool.false_ne_true
      refine loses_none hon (h.of_count rfl (hqueues _) fun c => ?_)
      have hcount := hset (memCell.elim .waiting .handling) c
      rw [hcells] at hcount
      exact congrArg (· + _) (Nat.add_right_cancel hcount).symm
    | true =>
      -- The processor stops, with the cell if there is one.
      have hstop := hset .stopped
      cases memCell with
      | none =>
        have hon : HandsOn st (.check side) := by
          intro _
          rw [hprocessor]
          rfl
        refine loses_none hon (h.of_count rfl (hqueues _) fun c => ?_)
        exact congrArg (· + _) (hstop c).symm
      | some memCell =>
        have hfail : ¬ HandsOn st (.check side) := by
          intro hon
          have hcells := hon hshutdown
          rw [hprocessor] at hcells
          exact nomatch hcells
        refine loses_one (c := memCell) hfail (h.of_count rfl (hqueues _) fun c => ?_)
        have hcount : _ + [memCell].count c = st.holders.count c := hstop c
        rw [List.count_singleton] at hcount
        rw [List.count_cons, if_pos rfl, ← hcount]
        omega
  · exact nomatch hstep

theorem Accounts.detouch (h : Accounts queueSize st lost) {side : Side}
    (hstep : st.step (.detouch side) = some st') :
    Loses queueSize st' lost (HandsOn st (.detouch side)) := by
  rw [Backend.step] at hstep
  split at hstep
  · rename_i memCell hprocessor
    have hset := count_setProcessor st side .waiting
    rw [hprocessor] at hset
    have howns : OwnsCells queueSize st.pool (memCell ::
        ((st.setPort side ⟨(st.ports side).queue, .waiting⟩).holders ++ lost)) := by
      refine h.owns.of_count fun c => ?_
      have hcount : _ + [memCell].count c = st.holders.count c := hset c
      rw [List.count_singleton] at hcount
      rw [List.count_cons, List.count_append, List.count_append, ← hcount]
      exact Nat.add_right_comm ..
    obtain ⟨pool, hres, howns'⟩ := howns.detouch
    rw [hres] at hstep
    obtain rfl := Option.some.inj hstep
    exact loses_none trivial ⟨howns', queues_setPort h.queues (h.queues side)⟩
  · exact nomatch hstep

theorem Accounts.create (h : Accounts queueSize st lost) {memory : Bool} {name : List Byte}
    (hstep : st.step (.create memory name) = some st') :
    Loses queueSize st' lost (HandsOn st (.create memory name)) := by
  rw [Backend.step, createDigest] at hstep
  by_cases hmemory : memory
  · rw [if_pos hmemory] at hstep
    obtain ⟨hnone, htouch⟩ | ⟨pool, c, hsome, htouch, howns⟩ := h.owns.touch
    · rw [htouch] at hstep
      obtain rfl := Option.some.inj hstep
      have hon : HandsOn st (.create memory name) := by
        intro _ hsome
        rw [hnone] at hsome
        exact nomatch hsome
      exact loses_none hon h
    · rw [htouch] at hstep
      by_cases hname : name.length > p4MaxFieldListNameLen - 1
      · dsimp only at hstep
        rw [if_pos hname] at hstep
        obtain rfl := Option.some.inj hstep
        have hfail : ¬ HandsOn st (.create memory name) := fun hon =>
          absurd (hon hmemory hsome) (not_le.mpr hname)
        exact loses_one (c := c) hfail ⟨howns.perm List.perm_middle.symm, h.queues⟩
      · dsimp only at hstep
        rw [if_neg hname] at hstep
        obtain rfl := Option.some.inj hstep
        have hon : HandsOn st (.create memory name) := fun _ _ => not_lt.mp hname
        refine loses_none hon ⟨howns.of_count fun d => ?_, h.queues⟩
        have hcount := count_digests st (⟨c, sizeofP4Digest⟩ :: st.digests) d
        rw [List.map_cons, List.count_cons] at hcount
        rw [List.count_cons, List.count_append, List.count_append]
        show _ = ({ st with digests := ⟨c, sizeofP4Digest⟩ :: st.digests } : Backend).holders.count d
          + _
        dsimp only at hcount
        omega
  · rw [if_neg hmemory] at hstep
    obtain rfl := Option.some.inj hstep
    exact loses_none (fun hyes => absurd hyes hmemory) h

/-- A field leaves the digest in its cell, and comes back as `NULL` exactly if it is too long. -/
theorem addDigestField_eq {d d' : Digest} {maxlength : ℕ} {bitlength : UInt32} {ok : Bool}
    (h : addDigestField d maxlength bitlength = some (d', ok)) :
    d'.memCell = d.memCell ∧ (ok ↔ digestByteLength bitlength ≤ p4MaxFieldValueLength) := by
  have hcell : (addP4DigestField d maxlength).1.memCell = d.memCell := by
    rw [addP4DigestField]
    split_ifs <;> rfl
  rw [addDigestField] at h
  dsimp only at h
  by_cases hlong : digestByteLength bitlength > p4MaxFieldValueLength
  · rw [if_pos hlong] at h
    obtain ⟨rfl, rfl⟩ := Prod.mk.inj (Option.some.inj h)
    exact ⟨hcell, iff_of_false Bool.false_ne_true (UInt32.not_le.mpr hlong)⟩
  · rw [if_neg hlong] at h
    split_ifs at h
    obtain ⟨rfl, rfl⟩ := Prod.mk.inj (Option.some.inj h)
    exact ⟨hcell, iff_of_true rfl (UInt32.not_lt.mp hlong)⟩

theorem count_eraseIdx {digests : List Digest} {i : ℕ} {d : Digest} (hi : digests[i]? = some d)
    (c : ℕ) : ((digests.eraseIdx i).map Digest.memCell).count c + [d.memCell].count c =
      (digests.map Digest.memCell).count c := by
  obtain ⟨hlt, rfl⟩ := List.getElem?_eq_some_iff.mp hi
  have hperm := (List.getElem_cons_eraseIdx_perm hlt).map Digest.memCell
  rw [← hperm.count_eq, List.map_cons, List.count_cons (l := List.map _ _), List.count_singleton]

theorem Accounts.addField (h : Accounts queueSize st lost) {digest : ℕ} {bitlength : UInt32}
    {assigned : Bool} (hstep : st.step (.addField digest bitlength assigned) = some st') :
    Loses queueSize st' lost (HandsOn st (.addField digest bitlength assigned)) := by
  obtain ⟨d, hd, hstep⟩ := Option.bind_eq_some_iff.mp hstep
  obtain ⟨⟨d', ok⟩, hadd, hstep⟩ := Option.bind_eq_some_iff.mp hstep
  obtain ⟨hcell, hok⟩ := addDigestField_eq hadd
  have hst' : st' = { st with
      digests := if assigned && !ok then st.digests.eraseIdx digest
        else st.digests.set digest d' } := (Option.some.inj hstep).symm
  by_cases hdrop : assigned && !ok
  · -- The caller assigns `NULL` to its pointer.
    obtain ⟨hassigned, hnull⟩ := Bool.and_eq_true_iff.mp hdrop
    have hfail : ¬ HandsOn st (.addField digest bitlength assigned) := by
      intro hon
      rw [hok.mpr (hon hassigned)] at hnull
      exact nomatch hnull
    rw [if_pos hdrop] at hst'
    subst hst'
    refine loses_one (c := d.memCell) hfail (h.of_count rfl h.queues fun c => ?_)
    have hcount := count_digests st (st.digests.eraseIdx digest) c
    have herase := count_eraseIdx hd c
    rw [List.count_singleton] at herase
    rw [List.count_cons]
    omega
  · have hon : HandsOn st (.addField digest bitlength assigned) := by
      intro hassigned
      refine hok.mp ?_
      by_contra hnull
      exact hdrop (by rw [hassigned, Bool.eq_false_iff.mpr hnull]; rfl)
    rw [if_neg hdrop] at hst'
    subst hst'
    refine loses_none hon (h.of_count rfl h.queues fun c => ?_)
    have hset : (st.digests.set digest d').map Digest.memCell = st.digests.map Digest.memCell := by
      rw [List.map_set, hcell]
      obtain ⟨hlt, rfl⟩ := List.getElem?_eq_some_iff.mp hd
      rw [← List.getElem_map Digest.memCell (h := by rwa [List.length_map]), List.set_getElem_self]
    have hcount := count_digests st (st.digests.set digest d') c
    rw [hset] at hcount
    exact congrArg (· + _) (Nat.add_right_cancel hcount).symm

theorem Accounts.send (h : Accounts queueSize st lost) {digest : ℕ}
    (hstep : st.step (.send digest) = some st') :
    Loses queueSize st' lost (HandsOn st (.send digest)) := by
  obtain ⟨d, hd, hstep⟩ := Option.bind_eq_some_iff.mp hstep
  have hst' : st' = ({ st with digests := st.digests.eraseIdx digest } : Backend).setPort .output
      ((st.ports .output).addMsg d.memCell).1 := (Option.some.inj hstep).symm
  subst hst'
  obtain ⟨more, hholds, hadd, hmore⟩ := addMsg_count (h.queues .output) d.memCell
  refine ⟨more, h.of_count rfl (queues_setPort h.queues hholds) fun c => ?_, hmore⟩
  have hset := count_setPort { st with digests := st.digests.eraseIdx digest } .output
    ((st.ports .output).addMsg d.memCell).1 c
  have hcount := count_digests st (st.digests.eraseIdx digest) c
  have herase := count_eraseIdx hd c
  have hcell := hadd c
  rw [List.count_append]
  dsimp only at hset
  omega

theorem Accounts.step (h : Accounts queueSize st lost) {event : Event}
    (hstep : st.step event = some st') : Loses queueSize st' lost (HandsOn st event) := by
  cases event with
  | select ready => exact h.select hstep
  | touch => exact h.touch hstep
  | read rv => exact h.read hstep
  | remove side => exact h.remove hstep
  | check side => exact h.check hstep
  | detouch side => exact h.detouch hstep
  | create memory name => exact h.create hstep
  | addField digest bitlength assigned => exact h.addField hstep
  | send digest => exact h.send hstep
  | stop =>
    obtain rfl := Option.some.inj hstep
    exact loses_none trivial ⟨h.owns, h.queues⟩

/-! ### Runs -/

theorem Accounts.noLeak (h : Accounts queueSize st []) : NoLeak queueSize st := by
  obtain ⟨used, unused, hlists⟩ := h.owns
  have hheld : used.Perm st.holders := by
    have hheld := hlists.held
    rw [List.append_nil] at hheld
    exact hheld
  refine ⟨⟨used, hlists.used_next, (List.nodup_append.mp hlists.nodup).1, hheld⟩, ?_⟩
  intro hnone
  rw [hnone] at hheld
  obtain rfl := hheld.eq_nil
  exact ⟨unused, hlists.unused_next, hlists.cells⟩

/-- With each used cell held by someone, none is lost. -/
theorem Accounts.lost_eq_nil (h : Accounts queueSize st lost) (hlaw : NoLeak queueSize st) :
    lost = [] := by
  obtain ⟨used, unused, hlists⟩ := h.owns
  obtain ⟨used', hlinked, -, hheld'⟩ := hlaw.used
  obtain rfl := hlists.used_next.unique hlinked
  have hlength := (hheld'.symm.trans hlists.held).length_eq
  rw [List.length_append] at hlength
  exact List.eq_nil_of_length_eq_zero (by omega)

theorem accounts_launchBackend (queueSize : ℕ) (bg : MemPool) (queue : Side → ℕ → Option ℕ) :
    Accounts queueSize (launchBackend queueSize bg queue) [] :=
  ⟨(createMemCells_inv bg queueSize).1.lists, fun side => ⟨[], holds_init (by decide) (queue side)⟩⟩

theorem Accounts.noLeak_run (h : Accounts queueSize st []) (events : List Event) :
    (∀ es, es <+: events → ∀ st', st.run es = some st' → NoLeak queueSize st') ↔
      HandOver st events := by
  induction events generalizing st with
  | nil =>
    refine iff_of_true ?_ trivial
    intro es hes st' hrun
    obtain rfl := List.prefix_nil.mp hes
    obtain rfl := Option.some.inj hrun
    exact h.noLeak
  | cons event events ih =>
    constructor
    · intro hlaw st' hstep
      have hrun : ∀ es, st.run (event :: es) = st'.run es := by
        intro es
        rw [Backend.run, List.foldlM_cons, hstep]
        rfl
      -- The law in the next state tells that this step has lost nothing.
      obtain ⟨more, haccounts, hmore⟩ := h.step hstep
      have hnil : more ++ [] = [] :=
        haccounts.lost_eq_nil (hlaw [event] (List.prefix_append [event] events) st' (hrun []))
      rw [hnil] at haccounts
      rw [List.append_nil] at hnil
      refine ⟨hmore.mp hnil, (ih haccounts).mp fun es hes st'' hrun' => ?_⟩
      exact hlaw (event :: es) (List.cons_prefix_cons.mpr ⟨rfl, hes⟩) st'' ((hrun es).trans hrun')
    · intro hover es hes st'' hrun
      cases es with
      | nil =>
        obtain rfl := Option.some.inj hrun
        exact h.noLeak
      | cons e es =>
        obtain ⟨rfl, hes'⟩ := List.cons_prefix_cons.mp hes
        rw [Backend.run, List.foldlM_cons] at hrun
        obtain ⟨st', hstep, hrun⟩ := Option.bind_eq_some_iff.mp hrun
        obtain ⟨hon, hover⟩ := hover st' hstep
        obtain ⟨more, haccounts, hmore⟩ := h.step hstep
        rw [hmore.mpr hon] at haccounts
        exact (ih haccounts).mpr hover es hes' st'' hrun

end Accounts

/-- **Each used cell has exactly one holder in every state of a run, iff every step of it
hands on the cell that it has.** -/
theorem noLeak_iff (queueSize : ℕ) (bg : MemPool) (queue : Side → ℕ → Option ℕ)
    (events : List Event) :
    (∀ es, es <+: events → ∀ st, (launchBackend queueSize bg queue).run es = some st →
        NoLeak queueSize st) ↔
      HandOver (launchBackend queueSize bg queue) events :=
  (accounts_launchBackend queueSize bg queue).noLeak_run events

/-- A message that is longer than a cell, for which `read_p4_msg` returns `-100`: no one has
the cell it was read to, and it is not unused. -/
theorem not_noLeak_read : ¬ ∀ (events : List Event) (st : Backend),
    (launchBackend 1 emptyPool fun _ _ => none).run events = some st → NoLeak 1 st := by
  intro h
  have hlaw := h [.select true, .touch, .read (-100)] _ rfl
  obtain ⟨used, hlinked, -, hheld⟩ := hlaw.used
  obtain rfl := hheld.eq_nil
  exact nomatch hlinked

end T4P4S
