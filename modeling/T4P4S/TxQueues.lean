/-
The transmit queues of an lcore.

`send_single_packet` puts an mbuf into the table of its egress port and sends the
table when it is full; `tx_burst_queue_drain` sends all tables from time to time.
The driver may take any number of the mbufs that it is offered, the others are freed.

* **`txLaw_iff`** — in every run, each mbuf is in the table of its own port, taken by
  the driver for that port, or freed, once and in the order of sending, iff each egress
  port is one for which there is a table.
-/
import Mathlib.Algebra.GroupWithZero.Nat
import Mathlib.Algebra.Order.Group.Int
import Mathlib.Data.List.Perm.Basic
import Mathlib.Data.List.Range
import Mathlib.Logic.Function.Basic
import T4P4S.Lib.Lockstep

open Lockstep

namespace T4P4S

/-! ### The driver and the tables -/

/-- A call of `rte_eth_tx_burst`, and how many of the mbufs the driver took. -/
structure TxBurst (α : Type) where
  port : ℕ
  queueid : ℕ
  txPkts : List α
  ret : ℕ

/-- `rte_eth_tx_burst`: how many mbufs it takes, after the calls that were made before. -/
structure TxDriver (α : Type) where
  txBurst : List (TxBurst α) → ℕ → ℕ → List α → ℕ
  le_length : ∀ bursts port queueid txPkts,
    txBurst bursts port queueid txPkts ≤ txPkts.length

/-- `MAX_PKT_BURST` -/
def maxPktBurst : ℕ := 32

/-- `MBUF_TABLE_SIZE` -/
def mbufTableSize : ℕ := 32

/-- `mbuf_table`.  A cell is `none` until it is written. -/
structure MbufTable (α : Type) where
  len : ℕ
  mTable : ℕ → Option α

/-- The members of `lcore_hardware_conf` that are for transmission. -/
structure TxConf (α : Type) where
  txQueueId : ℕ → ℕ
  txMbufs : ℕ → MbufTable α

/-- What stays the same during a run.  `nb_ports` is at most `RTE_MAX_ETHPORTS`, as
`get_nb_ports` has it. -/
structure TxParams where
  rteMaxEthports : ℕ
  nbPorts : ℕ
  nbPorts_le : nbPorts ≤ rteMaxEthports
  nbPorts_lt : nbPorts < 2 ^ 8
  drainTsc : ℕ

/-- The configuration and the time of the last draining of an lcore, and what became of
the mbufs that left it. -/
structure TxState (α : Type) where
  hw : TxConf α
  prevTsc : ℕ
  bursts : List (TxBurst α)
  freed : List α

variable {α : Type} (P : TxParams) (D : TxDriver α)

namespace TxConf

/-- `conf->hw.tx_mbufs[port].len = len` -/
def setLen (hw : TxConf α) (port len : ℕ) : TxConf α :=
  { hw with txMbufs := Function.update hw.txMbufs port { hw.txMbufs port with len := len } }

/-- `conf->hw.tx_mbufs[port].m_table[i] = mbuf` -/
def setCell (hw : TxConf α) (port i : ℕ) (mbuf : α) : TxConf α :=
  { hw with
    txMbufs := Function.update hw.txMbufs port
      { hw.txMbufs port with mTable := Function.update (hw.txMbufs port).mTable i (some mbuf) } }

end TxConf

/-! ### The functions -/

/-- `send_burst`, undefined for a port without a table and on cells that were not
written. -/
def sendBurst (st : TxState α) (n port : ℕ) : Option (TxState α) :=
  if port < P.rteMaxEthports then
    let queueid := st.hw.txQueueId port
    ((List.range n).mapM (st.hw.txMbufs port).mTable).map fun mTable =>
      let ret := D.txBurst st.bursts port queueid mTable
      { st with
        bursts := st.bursts ++ [⟨port, queueid, mTable, ret⟩]
        freed := st.freed ++ mTable.drop ret }
  else
    none

/-- One turn of the loop of `tx_burst_queue_drain`. -/
def drainPort (st : TxState α) (portid : ℕ) : Option (TxState α) :=
  if (st.hw.txMbufs portid).len = 0 then some st
  else
    -- the port is passed on as an `uint8_t`
    (sendBurst P D st (st.hw.txMbufs portid).len (portid % 2 ^ 8)).map fun st =>
      { st with hw := st.hw.setLen portid 0 }

/-- `tx_burst_queue_drain`, at the time `cur_tsc`. -/
def txBurstQueueDrain (st : TxState α) (curTsc : ℕ) : Option (TxState α) :=
  let diffTsc := (curTsc + 2 ^ 64 - st.prevTsc) % 2 ^ 64
  if P.drainTsc < diffTsc then
    ((List.range P.nbPorts).foldlM (drainPort P D) st).map fun st =>
      { st with prevTsc := curTsc }
  else
    some st

/-- `add_packet_to_queue`, undefined when it writes outside of the tables. -/
def addPacketToQueue (hw : TxConf α) (mbuf : α) (port : ℕ) : Option (TxConf α × ℕ) :=
  let queueLength := (hw.txMbufs port).len
  if port < P.rteMaxEthports ∧ queueLength < mbufTableSize then
    some (hw.setCell port queueLength mbuf, queueLength + 1)
  else
    none

def dpdkSendPacket (st : TxState α) (mbuf : α) (port : ℕ) : Option (TxState α) :=
  (addPacketToQueue P st.hw mbuf port).bind fun (hw, queueLength) =>
    let st := { st with hw := hw }
    if queueLength = maxPktBurst then
      (sendBurst P D st maxPktBurst port).map fun st => { st with hw := st.hw.setLen port 0 }
    else
      some { st with hw := st.hw.setLen port queueLength }

/-- `send_single_packet`.  The egress port is an `int`, the port of `dpdk_send_packet`
an `uint8_t`. -/
def sendSinglePacket (st : TxState α) (pkt : α) (egressPort : ℤ) : Option (TxState α) :=
  dpdkSendPacket P D st pkt (egressPort % 2 ^ 8).toNat

inductive TxOp (α : Type)
  | sendSinglePacket (pkt : α) (egressPort : ℤ)
  | txBurstQueueDrain (curTsc : ℕ)

def TxState.step (st : TxState α) : TxOp α → Option (TxState α)
  | .sendSinglePacket pkt egressPort => sendSinglePacket P D st pkt egressPort
  | .txBurstQueueDrain curTsc => txBurstQueueDrain P D st curTsc

/-- The state in which an lcore starts, its memory being zero but for the queues that
were set up. -/
def TxState.init (txQueueId : ℕ → ℕ) : TxState α where
  hw := { txQueueId := txQueueId, txMbufs := fun _ => ⟨0, fun _ => none⟩ }
  prevTsc := 0
  bursts := []
  freed := []

/-! ### What should hold -/

/-- The mbufs that were handed over, with their egress ports, in order. -/
def sentBy (sent : List (ℤ × α)) : TxOp α → List (ℤ × α)
  | .sendSinglePacket pkt egressPort => sent ++ [(egressPort, pkt)]
  | .txBurstQueueDrain _ => sent

/-- The mbufs that were sent to the egress port. -/
def sentTo (sent : List (ℤ × α)) (egressPort : ℤ) : List α :=
  (sent.filter fun p => p.1 = egressPort).map Prod.snd

/-- The mbufs that the driver was offered for the port. -/
def TxState.offered (st : TxState α) (port : ℕ) : List α :=
  (st.bursts.filter fun b => b.port = port).flatMap TxBurst.txPkts

/-- The table holds the mbufs. -/
def MbufTable.Holds (t : MbufTable α) (queued : List α) : Prop :=
  t.len = queued.length ∧ ∀ i < queued.length, t.mTable i = queued[i]?

/-- The mbufs in the first `len` cells of the table. -/
def MbufTable.pkts (t : MbufTable α) : List α := (List.range t.len).filterMap t.mTable

/-- The mbufs that were sent on the port or wait to be. -/
def TxState.transmitted (st : TxState α) (port : ℕ) : List α :=
  st.offered port ++ (st.hw.txMbufs port).pkts

/-- The accounts of an lcore after the mbufs `sent` were handed over: each egress port
has a table of its own; the mbufs for it are those that the driver was offered, in
order, and then those in the table, which has room for one more; of each offer the
driver took a first part, for the lcore's queue, and the rest was freed. -/
structure TxLaw (txQueueId : ℕ → ℕ) (sent : List (ℤ × α)) (st : TxState α) : Prop where
  port : ∀ p ∈ sent, ∃ port : ℕ, p.1 = port ∧ port < P.rteMaxEthports
  queued : ∀ port < P.rteMaxEthports, ∃ queued, (st.hw.txMbufs port).Holds queued ∧
    queued.length < mbufTableSize ∧ sentTo sent port = st.offered port ++ queued
  burst : ∀ b ∈ st.bursts, b.port < P.rteMaxEthports ∧ b.queueid = txQueueId b.port ∧
    b.ret ≤ b.txPkts.length
  freed : st.freed = st.bursts.flatMap fun b => b.txPkts.drop b.ret
  queueId : st.hw.txQueueId = txQueueId

theorem sentTo_append (sent new : List (ℤ × α)) (egressPort : ℤ) :
    sentTo (sent ++ new) egressPort = sentTo sent egressPort ++ sentTo new egressPort := by
  rw [sentTo, List.filter_append, List.map_append]
  rfl

theorem sentTo_singleton (pkt : α) (egressPort e : ℤ) :
    sentTo [(egressPort, pkt)] e = if egressPort = e then [pkt] else [] := by
  by_cases he : egressPort = e <;> simp [sentTo, he]

theorem offered_append {st st' : TxState α} {b : TxBurst α} (hb : st'.bursts = st.bursts ++ [b])
    (port : ℕ) :
    st'.offered port = st.offered port ++ if b.port = port then b.txPkts else [] := by
  rw [TxState.offered, hb, List.filter_append, List.flatMap_append]
  by_cases hport : b.port = port <;> simp [TxState.offered, hport]

/-! ### Tables -/

theorem MbufTable.holds_nil (mTable : ℕ → Option α) : (⟨0, mTable⟩ : MbufTable α).Holds [] :=
  ⟨rfl, fun _ hi => absurd hi (Nat.not_lt_zero _)⟩

/-- A cell is written behind the others; the length is not changed yet. -/
theorem getElem?_push {m : ℕ → Option α} {queued : List α}
    (h : ∀ i < queued.length, m i = queued[i]?) (pkt : α) :
    ∀ i < (queued ++ [pkt]).length,
      Function.update m queued.length (some pkt) i = (queued ++ [pkt])[i]? := by
  intro i hi
  rw [List.length_append, List.length_singleton] at hi
  by_cases hlast : i = queued.length
  · rw [hlast, Function.update_self, List.getElem?_append_right le_rfl, Nat.sub_self]
    rfl
  · rw [Function.update_of_ne hlast, List.getElem?_append_left (by omega), h i (by omega)]

/-! ### What the functions do -/

variable {P D}

/-- The call of the driver when the mbufs of a port are sent. -/
def TxState.call (D : TxDriver α) (st : TxState α) (port : ℕ) (txPkts : List α) : TxBurst α :=
  ⟨port, st.hw.txQueueId port, txPkts, D.txBurst st.bursts port (st.hw.txQueueId port) txPkts⟩

/-- The first cells of a table are sent. -/
theorem sendBurst_eq {st : TxState α} {port : ℕ} (hport : port < P.rteMaxEthports)
    {queued : List α} (h : ∀ i < queued.length, (st.hw.txMbufs port).mTable i = queued[i]?) :
    sendBurst P D st queued.length port =
      some { st with
        bursts := st.bursts ++ [st.call D port queued]
        freed := st.freed ++ queued.drop (st.call D port queued).ret } := by
  rw [sendBurst, if_pos hport, mapM_range_eq_some h]
  rfl

theorem addPacketToQueue_eq {hw : TxConf α} {port : ℕ} {queued : List α}
    (hport : port < P.rteMaxEthports) (h : (hw.txMbufs port).Holds queued)
    (hlt : queued.length < mbufTableSize) (pkt : α) :
    addPacketToQueue P hw pkt port =
      some (hw.setCell port queued.length pkt, queued.length + 1) := by
  rw [addPacketToQueue, h.1, if_pos ⟨hport, hlt⟩]

/-- A packet is sent: the table gets it, and is sent if it is full. -/
theorem dpdkSendPacket_eq {st : TxState α} {port : ℕ} {queued : List α}
    (hport : port < P.rteMaxEthports) (h : (st.hw.txMbufs port).Holds queued)
    (hlt : queued.length < mbufTableSize) (pkt : α) :
    dpdkSendPacket P D st pkt port = some
      (if queued.length + 1 = maxPktBurst then
        { st with
          hw := (st.hw.setCell port queued.length pkt).setLen port 0
          bursts := st.bursts ++ [st.call D port (queued ++ [pkt])]
          freed := st.freed ++ (queued ++ [pkt]).drop (st.call D port (queued ++ [pkt])).ret }
      else
        { st with
          hw := (st.hw.setCell port queued.length pkt).setLen port (queued.length + 1) }) := by
  rw [dpdkSendPacket, addPacketToQueue_eq hport h hlt, Option.bind_some]
  by_cases hfull : queued.length + 1 = maxPktBurst
  · have hlen : maxPktBurst = (queued ++ [pkt]).length := by
      rw [List.length_append, List.length_singleton, hfull]
    -- the last cell was written, while `len` still is that of the table before
    have hcells : ∀ i < (queued ++ [pkt]).length,
        ((st.hw.setCell port queued.length pkt).txMbufs port).mTable i = (queued ++ [pkt])[i]? := by
      simp only [TxConf.setCell, Function.update_self]
      exact getElem?_push h.2 pkt
    simp only [if_pos hfull]
    rw [hlen, sendBurst_eq hport hcells]
    rfl
  · simp only [if_neg hfull]

theorem dpdkSendPacket_eq_none {port : ℕ} (hport : ¬ port < P.rteMaxEthports) (st : TxState α)
    (pkt : α) : dpdkSendPacket P D st pkt port = none := by
  rw [dpdkSendPacket, addPacketToQueue, if_neg fun h => hport h.1]
  rfl

theorem drainPort_eq {st : TxState α} {port : ℕ} {queued : List α}
    (hport : port < P.rteMaxEthports) (h256 : port < 2 ^ 8)
    (h : (st.hw.txMbufs port).Holds queued) (hne : queued ≠ []) :
    drainPort P D st port = some
      { st with
        hw := st.hw.setLen port 0
        bursts := st.bursts ++ [st.call D port queued]
        freed := st.freed ++ queued.drop (st.call D port queued).ret } := by
  have hlen : queued.length ≠ 0 := fun h0 => hne (List.length_eq_zero_iff.mp h0)
  rw [drainPort, h.1, if_neg hlen, Nat.mod_eq_of_lt h256, sendBurst_eq hport h.2]
  rfl

/-! ### The accounts -/

variable {txQueueId : ℕ → ℕ} {sent new : List (ℤ × α)} {st st' : TxState α}

/-- A step that works on one port, and keeps the accounts of this port, keeps those of all:
it adds `new` to what was sent, changes the port's table and may call the driver once. -/
theorem TxLaw.of_port (hlaw : TxLaw P txQueueId sent st) {port : ℕ}
    (hport : port < P.rteMaxEthports) (hnew : ∀ p ∈ new, p.1 = port)
    (hother : ∀ q, q ≠ port → st'.hw.txMbufs q = st.hw.txMbufs q)
    (hqueueId : st'.hw.txQueueId = st.hw.txQueueId)
    (hbursts : (st'.bursts = st.bursts ∧ st'.freed = st.freed) ∨
      ∃ txPkts, st'.bursts = st.bursts ++ [st.call D port txPkts] ∧
        st'.freed = st.freed ++ txPkts.drop (st.call D port txPkts).ret)
    (hqueued : ∃ queued, (st'.hw.txMbufs port).Holds queued ∧ queued.length < mbufTableSize ∧
      sentTo (sent ++ new) port = st'.offered port ++ queued) :
    TxLaw P txQueueId (sent ++ new) st' := by
  refine ⟨?_, ?_, ?_, ?_, hqueueId.trans hlaw.queueId⟩
  · intro p hp
    rcases List.mem_append.mp hp with hp | hp
    · exact hlaw.port p hp
    · exact ⟨port, hnew p hp, hport⟩
  · intro q hq
    by_cases hsame : q = port
    · rw [hsame]
      exact hqueued
    -- The other ports: nothing new is sent to them, and the driver is not offered anything.
    · obtain ⟨queued, hholds, hlt, hsent⟩ := hlaw.queued q hq
      have hnone : sentTo new q = [] := by
        rw [sentTo, List.map_eq_nil_iff, List.filter_eq_nil_iff]
        intro p hp
        rw [hnew p hp, decide_eq_true_eq]
        omega
      have hoffered : st'.offered q = st.offered q := by
        rcases hbursts with ⟨hb, -⟩ | ⟨txPkts, hb, -⟩
        · rw [TxState.offered, hb]
          rfl
        · have hne : (st.call D port txPkts).port ≠ q := Ne.symm hsame
          rw [offered_append hb, if_neg hne, List.append_nil]
      refine ⟨queued, ?_, hlt, ?_⟩
      · rw [hother q hsame]
        exact hholds
      · rw [sentTo_append, hnone, List.append_nil, hoffered]
        exact hsent
  · rcases hbursts with ⟨hb, -⟩ | ⟨txPkts, hb, -⟩
    · rw [hb]
      exact hlaw.burst
    · rw [hb, List.forall_mem_append, List.forall_mem_singleton]
      exact ⟨hlaw.burst, hport, congrFun hlaw.queueId port, D.le_length _ _ _ _⟩
  · rcases hbursts with ⟨hb, hf⟩ | ⟨txPkts, hb, hf⟩
    · rw [hb, hf]
      exact hlaw.freed
    · rw [hb, hf, List.flatMap_append, ← hlaw.freed, List.flatMap_singleton]
      rfl

/-- A port is drained. -/
theorem TxLaw.drainPort (hlaw : TxLaw P txQueueId sent st) {port : ℕ} (hport : port < P.nbPorts) :
    ∃ st', drainPort P D st port = some st' ∧ TxLaw P txQueueId sent st' := by
  have hmax := hport.trans_le P.nbPorts_le
  obtain ⟨queued, hholds, -, hsent⟩ := hlaw.queued port hmax
  by_cases hempty : queued = []
  · refine ⟨st, ?_, hlaw⟩
    rw [T4P4S.drainPort, hholds.1, hempty]
    rfl
  · refine ⟨_, drainPort_eq hmax (hport.trans P.nbPorts_lt) hholds hempty, ?_⟩
    -- All that was in the table has been offered, and the table is empty.
    rw [← List.append_nil sent]
    refine hlaw.of_port (D := D) hmax (fun _ hp => absurd hp List.not_mem_nil) (fun q hq => ?_) rfl
      (.inr ⟨queued, rfl, rfl⟩) ⟨[], ?_, Nat.zero_lt_succ 31, ?_⟩
    · simp only [TxConf.setLen, Function.update_of_ne hq]
    · simp only [TxConf.setLen, Function.update_self]
      exact MbufTable.holds_nil _
    · rw [List.append_nil, List.append_nil, hsent]
      refine .trans ?_ (offered_append rfl port).symm
      exact congrArg (st.offered port ++ ·) (if_pos rfl).symm

theorem TxLaw.txBurstQueueDrain (hlaw : TxLaw P txQueueId sent st) (curTsc : ℕ) :
    ∃ st', txBurstQueueDrain P D st curTsc = some st' ∧ TxLaw P txQueueId sent st' := by
  rw [T4P4S.txBurstQueueDrain]
  split_ifs
  · obtain ⟨st', hst', hlaw'⟩ := foldlM_of_step (l := List.range P.nbPorts)
      (fun port hport _ h => TxLaw.drainPort (D := D) h (List.mem_range.mp hport)) hlaw
    rw [hst']
    exact ⟨_, rfl, ⟨hlaw'.port, hlaw'.queued, hlaw'.burst, hlaw'.freed, hlaw'.queueId⟩⟩
  · exact ⟨st, rfl, hlaw⟩

/-- A packet is sent to a port that has a table. -/
theorem TxLaw.dpdkSendPacket (hlaw : TxLaw P txQueueId sent st) {port : ℕ}
    (hport : port < P.rteMaxEthports) (pkt : α) :
    ∃ st', dpdkSendPacket P D st pkt port = some st' ∧
      TxLaw P txQueueId (sent ++ [((port : ℤ), pkt)]) st' := by
  obtain ⟨queued, hholds, hlt, hsent⟩ := hlaw.queued port hport
  have hsent' : sentTo (sent ++ [((port : ℤ), pkt)]) port =
      st.offered port ++ (queued ++ [pkt]) := by
    rw [sentTo_append, sentTo_singleton, if_pos rfl, hsent, List.append_assoc]
  refine ⟨_, dpdkSendPacket_eq hport hholds hlt pkt, ?_⟩
  -- The table is full and is sent at once, or it has room for one more.
  split_ifs with hfull
  · refine hlaw.of_port (D := D) hport (fun p hp => ?_) (fun q hq => ?_) rfl
      (.inr ⟨queued ++ [pkt], rfl, rfl⟩) ⟨[], ?_, Nat.zero_lt_succ 31, ?_⟩
    · rw [List.mem_singleton.mp hp]
    · simp only [TxConf.setLen, TxConf.setCell, Function.update_of_ne hq]
    · simp only [TxConf.setLen, TxConf.setCell, Function.update_self]
      exact MbufTable.holds_nil _
    · rw [hsent', List.append_nil]
      refine .trans ?_ (offered_append rfl port).symm
      exact congrArg (st.offered port ++ ·) (if_pos rfl).symm
  · refine hlaw.of_port (D := D) hport (fun p hp => ?_) (fun q hq => ?_) rfl (.inl ⟨rfl, rfl⟩)
      ⟨queued ++ [pkt], ?_, ?_, hsent'⟩
    · rw [List.mem_singleton.mp hp]
    · simp only [TxConf.setLen, TxConf.setCell, Function.update_of_ne hq]
    · simp only [TxConf.setLen, TxConf.setCell, Function.update_self]
      exact ⟨by rw [List.length_append, List.length_singleton], getElem?_push hholds.2 pkt⟩
    · rw [List.length_append, List.length_singleton]
      simp only [maxPktBurst, mbufTableSize] at hfull hlt ⊢
      omega

/-- The mbufs for a port are, each once, taken by the driver, freed or in the table. -/
theorem TxLaw.once (hlaw : TxLaw P txQueueId sent st) {port : ℕ}
    (hport : port < P.rteMaxEthports) : ∃ queued, (st.hw.txMbufs port).Holds queued ∧
      (sentTo sent port).Perm
        ((st.bursts.filter fun b => b.port = port).flatMap (fun b => b.txPkts.take b.ret) ++
          (st.bursts.filter fun b => b.port = port).flatMap (fun b => b.txPkts.drop b.ret) ++
          queued) := by
  obtain ⟨queued, hholds, -, hsent⟩ := hlaw.queued port hport
  refine ⟨queued, hholds, ?_⟩
  rw [hsent]
  refine List.Perm.append_right queued (.trans (.of_eq ?_) (List.flatMap_append_perm _ _ _).symm)
  simp only [List.take_append_drop]
  rfl

theorem MbufTable.Holds.pkts_eq {t : MbufTable α} {queued : List α} (h : t.Holds queued) :
    t.pkts = queued := by
  rw [MbufTable.pkts, h.1, filterMap_range_eq h.2]

/-- What was sent on a port, or waits to be, is what was handed over for it. -/
theorem TxLaw.transmitted_eq (hlaw : TxLaw P txQueueId sent st) {port : ℕ}
    (hport : port < P.rteMaxEthports) : st.transmitted port = sentTo sent port := by
  obtain ⟨queued, hholds, -, hsent⟩ := hlaw.queued port hport
  rw [TxState.transmitted, hholds.pkts_eq, hsent]

theorem mem_of_mem_sentTo {egressPort : ℤ} {pkt : α} (h : pkt ∈ sentTo sent egressPort) :
    (egressPort, pkt) ∈ sent := by
  obtain ⟨p, hp, rfl⟩ := List.mem_map.mp h
  obtain ⟨hmem, hport⟩ := List.mem_filter.mp hp
  rwa [← of_decide_eq_true hport]

/-- Only what was handed over is freed. -/
theorem TxLaw.exists_of_mem_freed (hlaw : TxLaw P txQueueId sent st) {pkt : α}
    (h : pkt ∈ st.freed) : ∃ egressPort, (egressPort, pkt) ∈ sent := by
  rw [hlaw.freed] at h
  obtain ⟨b, hb, hpkt⟩ := List.mem_flatMap.mp h
  obtain ⟨queued, -, -, hsent⟩ := hlaw.queued b.port (hlaw.burst b hb).1
  refine ⟨b.port, mem_of_mem_sentTo ?_⟩
  rw [hsent]
  refine List.mem_append_left _ (List.mem_flatMap.mpr ⟨b, ?_, List.mem_of_mem_drop hpkt⟩)
  exact List.mem_filter.mpr ⟨hb, decide_eq_true rfl⟩

/-! ### Runs -/

theorem MbufTable.Holds.unique {t : MbufTable α} {l l' : List α} (h : t.Holds l)
    (h' : t.Holds l') : l = l' := by
  have hlen : l.length = l'.length := h.1.symm.trans h'.1
  refine List.ext_getElem? ?_
  intro i
  by_cases hi : i < l.length
  · rw [← h.2 i hi, h'.2 i (hlen ▸ hi)]
  · rw [List.getElem?_eq_none (not_lt.mp hi), List.getElem?_eq_none (hlen ▸ not_lt.mp hi)]

/-- The egress port is the number of a table. -/
def HasTable (P : TxParams) : TxOp α → Prop
  | .sendSinglePacket _ egressPort =>
    ∃ port : ℕ, egressPort = port ∧ port < P.rteMaxEthports ∧ port < 2 ^ 8
  | .txBurstQueueDrain _ => True

/-- A packet whose port is not the one that `uint8_t` makes of it gets into the table of
another port. -/
theorem TxLaw.lt_of_send (hlaw : TxLaw P txQueueId sent st) {port : ℕ} {pkt : α}
    (hst' : sendSinglePacket P D st pkt port = some st')
    (hlaw' : TxLaw P txQueueId (sent ++ [((port : ℤ), pkt)]) st') : port < 2 ^ 8 := by
  by_contra hge
  obtain ⟨_, hp, hport⟩ := hlaw'.port _ (List.mem_append_right _ (List.mem_singleton.mpr rfl))
  obtain rfl := Int.ofNat_inj.mp hp
  have htrunc : ((port : ℤ) % 2 ^ 8).toNat = port % 2 ^ 8 := by omega
  have hne : ((port % 2 ^ 8 : ℕ) : ℤ) ≠ port := by omega
  obtain ⟨_, hst'', hlaw''⟩ := hlaw.dpdkSendPacket (D := D)
    ((Nat.mod_le port (2 ^ 8)).trans_lt hport) pkt
  rw [sendSinglePacket, htrunc, hst''] at hst'
  obtain rfl := Option.some_inj.mp hst'
  obtain ⟨queued, hholds, -, hsent⟩ := hlaw'.queued port hport
  obtain ⟨queued', hholds', -, hsent'⟩ := hlaw''.queued port hport
  -- The packet would be in the accounts of both ports.
  obtain rfl := hholds.unique hholds'
  rw [← hsent', sentTo_append, sentTo_append, sentTo_singleton, sentTo_singleton, if_pos rfl,
    if_neg hne] at hsent
  have := congrArg List.length hsent
  rw [List.length_append, List.length_append] at this
  exact absurd this (by simp)

theorem txStep_iff (hlaw : TxLaw P txQueueId sent st) (op : TxOp α) :
    (∃ st', st.step P D op = some st' ∧ TxLaw P txQueueId (sentBy sent op) st') ↔
      HasTable P op := by
  cases op with
  | sendSinglePacket pkt egressPort =>
    constructor
    · rintro ⟨st', hst', hlaw'⟩
      obtain ⟨port, hp, hport⟩ :=
        hlaw'.port _ (List.mem_append_right _ (List.mem_singleton.mpr rfl))
      obtain rfl : egressPort = port := hp
      exact ⟨port, rfl, hport, hlaw.lt_of_send hst' hlaw'⟩
    · rintro ⟨port, rfl, hport, h256⟩
      have htrunc : ((port : ℤ) % 2 ^ 8).toNat = port := by omega
      obtain ⟨st', hst', hlaw'⟩ := hlaw.dpdkSendPacket (D := D) hport pkt
      refine ⟨st', ?_, hlaw'⟩
      rw [TxState.step, sendSinglePacket, htrunc, hst']
  | txBurstQueueDrain curTsc =>
    exact iff_of_true (hlaw.txBurstQueueDrain curTsc) trivial

theorem txLaw_init (txQueueId : ℕ → ℕ) :
    TxLaw P txQueueId ([] : List (ℤ × α)) (.init txQueueId) where
  port := fun _ hp => absurd hp List.not_mem_nil
  queued := fun _ _ => ⟨[], MbufTable.holds_nil _, Nat.zero_lt_succ 31, rfl⟩
  burst := fun _ hb => absurd hb List.not_mem_nil
  freed := rfl
  queueId := rfl

/-- **The accounts are right after each step of a run iff each egress port in it is
the number of a table.** -/
theorem txLaw_iff (P : TxParams) (D : TxDriver α) (txQueueId : ℕ → ℕ) (ops : List (TxOp α)) :
    Agrees (TxState.step P D) sentBy (TxLaw P txQueueId) ops [] (.init txQueueId) ↔
      ∀ op ∈ ops, HasTable P op := by
  rw [Agrees.iff_along (R := TxLaw P txQueueId) (fun _ _ op hlaw => txStep_iff hlaw op)
    (txLaw_init txQueueId), along_const]

/-- `T4P4S_BROADCAST_PORT` -/
def t4p4sBroadcastPort : ℤ := 100

/-- A packet for the broadcast port is written outside of the tables. -/
theorem broadcastPort_not_txLaw : ¬ ∀ (P : TxParams) (D : TxDriver ℕ) (txQueueId : ℕ → ℕ)
    (ops : List (TxOp ℕ)),
    Agrees (TxState.step P D) sentBy (TxLaw P txQueueId) ops [] (.init txQueueId) := by
  intro hlaw
  obtain ⟨st', hst', -⟩ := hlaw ⟨32, 4, by decide, by decide, 0⟩
    ⟨fun _ _ _ txPkts => txPkts.length, fun _ _ _ _ => le_rfl⟩ (fun _ => 0)
    [.sendSinglePacket 0 t4p4sBroadcastPort]
  cases hst'

end T4P4S
