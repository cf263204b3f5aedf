/-
The set-up of the ports and of the lcores' queues.

`dpdk_init_port` configures a port with a transmit queue for each lcore and then goes over
the lcore ids below the number of lcores, while the ids that are enabled may be any.  An
lcore that it does not reach keeps the queue 0 of its zeroed configuration.

* **`queueLaw_iff`** — the exact configurations in which each lcore that runs the packet
  loop has a transmit queue of its own on each port, that was set up before the port was
  started.
-/
import Mathlib.Data.List.Count
import Mathlib.Data.List.Range
import Mathlib.Data.Nat.Bitwise
import Mathlib.Logic.Function.Basic
import T4P4S.Tables

namespace T4P4S

/-! ### The ports -/

/-- A call that sets up a port. -/
inductive EthCall
  | devConfigure (port nbRxQueue nbTxQueue : ℕ)
  | txQueueSetup (port queue socket : ℕ)
  | rxQueueSetup (port queue socket : ℕ)
  | devStart (port : ℕ)
  deriving DecidableEq

/-- The number of transmit queues that a call configures on the port. -/
def EthCall.txQueues (port : ℕ) : EthCall → Option ℕ
  | .devConfigure p _ nbTxQueue => if p = port then some nbTxQueue else none
  | _ => none

/-- The number of transmit queues configured on a port; the last call is the first of the
list. -/
def configuredTx (calls : List EthCall) (port : ℕ) : ℕ :=
  (calls.findSome? (EthCall.txQueues port)).getD 0

/-- What the ports answer after the calls that were made.  A queue that is not configured is
an invalid argument of `rte_eth_tx_queue_setup`. -/
structure EthDev where
  ret : List EthCall → EthCall → ℤ
  lt_configuredTx : ∀ calls port queue socket,
    0 ≤ ret calls (.txQueueSetup port queue socket) → queue < configuredTx calls port

/-! ### Configuration -/

/-- `struct lcore_params` -/
structure LcoreParams where
  portId : ℕ
  queueId : ℕ
  lcoreId : ℕ

/-- What `dpdk_init_nic` finds: the lcores of the EAL, one of them the main one, the number of
ports and the arguments of the program.  The port mask has a bit for each port. -/
structure NicConf where
  rteMaxLcore : ℕ
  isLcoreEnabled : ℕ → Bool
  lt_of_enabled : ∀ l, isLcoreEnabled l = true → l < rteMaxLcore
  exists_enabled : ∃ l, isLcoreEnabled l = true
  lcoreToSocketId : ℕ → ℕ
  numaOn : Bool
  rteEthDevCountAvail : ℕ
  rteMaxEthports : ℕ
  rteMaxEthports_le : rteMaxEthports ≤ 32
  enabledPortMask : BitVec 32
  lcoreParams : List LcoreParams
  mempoolCreate : ℕ → Bool
  startCryptoNode : Bool

/-- `struct lcore_rx_queue` -/
structure LcoreRxQueue where
  portId : ℕ
  queueId : ℕ

/-- The members of `lcore_hardware_conf` for the queues; `n_rx_queue` is the length of the
list. -/
structure LcoreHw where
  rxQueueList : List LcoreRxQueue
  txQueueId : ℕ → ℕ

structure NicState where
  hw : ℕ → LcoreHw
  pktmbufPool : ℕ → Bool
  calls : List EthCall

/-- `lcore_conf` is zeroed when the program starts. -/
def NicState.start : NicState where
  hw := fun _ => ⟨[], fun _ => 0⟩
  pktmbufPool := fun _ => false
  calls := []

def NicState.setHw (st : NicState) (lcoreId : ℕ) (hw : LcoreHw) : NicState :=
  { st with hw := Function.update st.hw lcoreId hw }

@[simp] theorem NicState.setHw_self (st : NicState) (l : ℕ) (hw : LcoreHw) :
    (st.setHw l hw).hw l = hw := by
  show Function.update st.hw l hw l = hw
  rw [Function.update_self]

theorem NicState.setHw_of_ne (st : NicState) {l l' : ℕ} (hne : l' ≠ l) (hw : LcoreHw) :
    (st.setHw l hw).hw l' = st.hw l' := by
  show Function.update st.hw l hw l' = st.hw l'
  rw [Function.update_of_ne hne]

/-- `MAX_RX_QUEUE_PER_LCORE` -/
def maxRxQueuePerLcore : ℕ := 16

variable (N : NicConf) (D : EthDev)

namespace NicConf

/-- `NB_SOCKETS` -/
def nbSockets : ℕ := 8

/-- `rte_lcore_count` -/
def rteLcoreCount : ℕ := (List.range N.rteMaxLcore).countP N.isLcoreEnabled

/-- `get_nb_ports` -/
def getNbPorts : ℕ := min (N.rteEthDevCountAvail % 2 ^ 8) N.rteMaxEthports

def isPortDisabled (portid : ℕ) : Bool := !N.enabledPortMask.getLsbD portid

/-- `MAX_TX_QUEUE_PER_PORT` -/
def maxTxQueuePerPort : ℕ := N.rteMaxEthports

/-- `get_socketid` -/
def getSocketid (lcoreId : ℕ) : Except Halt ℕ :=
  let socketid := if N.numaOn then N.lcoreToSocketId lcoreId else 0
  if nbSockets ≤ socketid then .error .exited else .ok socketid

/-- `get_port_n_rx_queues` -/
def getPortNRxQueues (port : ℕ) : ℕ :=
  ((N.lcoreParams.filter fun p => p.portId = port).foldl (fun n p => max n (p.queueId + 1)) 0) %
    2 ^ 8

/-- `check_port_config` -/
def checkPortConfig (nbPorts : ℕ) : Bool :=
  N.lcoreParams.all fun p => decide (p.portId < nbPorts) && !N.isPortDisabled p.portId

/-- The number that `dpdk_init_nic` passes to `dpdk_init_port` as `nb_lcores`. -/
def portLcores : ℕ := if N.startCryptoNode then N.rteLcoreCount - 1 else N.rteLcoreCount

end NicConf

/-! ### The functions -/

/-- A call with a negative result is followed by `rte_exit`. -/
def ethCall (st : NicState) (call : EthCall) : Except Halt NicState :=
  if D.ret st.calls call < 0 then .error .exited else .ok { st with calls := call :: st.calls }

/-- One turn of the loop of `init_lcore_rx_queues`. -/
def initLcoreRxQueue (st : NicState) (p : LcoreParams) : Except Halt NicState :=
  if p.lcoreId < N.rteMaxLcore then
    let hw := st.hw p.lcoreId
    if maxRxQueuePerLcore ≤ hw.rxQueueList.length then .error .exited
    else
      .ok (st.setHw p.lcoreId
        { hw with rxQueueList := hw.rxQueueList ++ [⟨p.portId, p.queueId⟩] })
  else
    .error .undefined

/-- `init_mbuf_pool`, for an lcore that is enabled. -/
def initMbufPool (st : NicState) (lcoreId : ℕ) : Except Halt NicState :=
  if N.isLcoreEnabled lcoreId then do
    let socketid ← N.getSocketid lcoreId
    if st.pktmbufPool socketid then .ok st
    else if N.mempoolCreate socketid then
      .ok { st with pktmbufPool := Function.update st.pktmbufPool socketid true }
    else
      .error .exited
  else
    .ok st

/-- `init_tx_on_lcore` -/
def initTxOnLcore (st : NicState) (lcoreId portid queueid : ℕ) :
    Except Halt (NicState × Bool) :=
  if N.isLcoreEnabled lcoreId then do
    let socketid ← N.getSocketid lcoreId
    let st ← ethCall D st (.txQueueSetup portid queueid socketid)
    let hw := st.hw lcoreId
    return (st.setHw lcoreId { hw with txQueueId := Function.update hw.txQueueId portid queueid },
      true)
  else
    .ok (st, false)

/-- One turn of the loop of `dpdk_init_port`, with the next `queueid`. -/
def initTxStep (portid : ℕ) (s : NicState × ℕ) (lcoreId : ℕ) : Except Halt (NicState × ℕ) := do
  let (st, done) ← initTxOnLcore N D s.1 lcoreId portid s.2
  return (st, if done then s.2 + 1 else s.2)

/-- `dpdk_init_port` -/
def dpdkInitPort (nbLcores : ℕ) (st : NicState) (portid : ℕ) : Except Halt NicState :=
  if N.isPortDisabled portid then .ok st
  else do
    let nTxQueue := min nbLcores N.maxTxQueuePerPort
    let st ← ethCall D st (.devConfigure portid (N.getPortNRxQueues portid) (nTxQueue % 2 ^ 16))
    let s ← (List.range nbLcores).foldlM (initTxStep N D portid) (st, 0)
    return s.1

/-- `dpdk_init_rx_queue` -/
def dpdkInitRxQueue (lcoreId : ℕ) (st : NicState) (q : LcoreRxQueue) : Except Halt NicState := do
  let socketid ← N.getSocketid lcoreId
  ethCall D st (.rxQueueSetup q.portId q.queueId socketid)

/-- `dpdk_init_lcore` -/
def dpdkInitLcore (st : NicState) (lcoreId : ℕ) : Except Halt NicState :=
  if N.isLcoreEnabled lcoreId then
    (st.hw lcoreId).rxQueueList.foldlM (dpdkInitRxQueue N D lcoreId) st
  else
    .ok st

/-- One turn of the loop of `dpdk_init_nic` that starts the ports. -/
def startPort (st : NicState) (portid : ℕ) : Except Halt NicState :=
  if N.isPortDisabled portid then .ok st else ethCall D st (.devStart portid)

def dpdkInitNic : Except Halt NicState := do
  let st ← N.lcoreParams.foldlM (initLcoreRxQueue N) .start
  let nbPorts := N.getNbPorts
  if N.checkPortConfig nbPorts then
    let st ← (List.range N.rteMaxLcore).foldlM (initMbufPool N)
      { st with pktmbufPool := fun _ => false }
    let st ← (List.range nbPorts).foldlM (dpdkInitPort N D N.portLcores) st
    let st ← (List.range N.rteMaxLcore).foldlM (dpdkInitLcore N D) st
    (List.range nbPorts).foldlM (startPort N D) st
  else
    .error .exited

/-! ### What should hold -/

/-- `is_crypto_node`, in a program that is compiled with `START_CRYPTO_NODE`. -/
def NicConf.IsCryptoNode (lcoreId : ℕ) : Prop :=
  N.startCryptoNode = true ∧ lcoreId = N.rteLcoreCount - 1

/-- The lcores whose `dpdk_main_loop` receives packets. -/
def RunsPacketLoop (st : NicState) (lcoreId : ℕ) : Prop :=
  N.isLcoreEnabled lcoreId = true ∧ (st.hw lcoreId).rxQueueList ≠ [] ∧ ¬ N.IsCryptoNode lcoreId

/-- The queue was set up, and the port was started later. -/
def SetUpBeforeStart (calls : List EthCall) (port queue : ℕ) : Prop :=
  ∃ after before socket, calls = after ++ before ∧ .devStart port ∈ after ∧
    .devStart port ∉ before ∧ .txQueueSetup port queue socket ∈ before

/-- Each lcore that runs the packet loop has a configured transmit queue of its own on each
enabled port. -/
def QueueLaw (st : NicState) : Prop :=
  ∀ port < N.getNbPorts, N.isPortDisabled port = false →
    (∀ l, RunsPacketLoop N st l →
      (st.hw l).txQueueId port < configuredTx st.calls port ∧
        SetUpBeforeStart st.calls port ((st.hw l).txQueueId port)) ∧
    ∀ l l', RunsPacketLoop N st l → RunsPacketLoop N st l' → l ≠ l' →
      (st.hw l).txQueueId port ≠ (st.hw l').txQueueId port

/-- An enabled lcore with receive queues that is not the crypto node. -/
def NicConf.Receives (l : ℕ) : Prop :=
  N.isLcoreEnabled l = true ∧ (∃ p ∈ N.lcoreParams, p.lcoreId = l) ∧ ¬ N.IsCryptoNode l

/-- The lcore that gets the queue 0. -/
def NicConf.First (m : ℕ) : Prop :=
  m < N.portLcores ∧ N.isLcoreEnabled m = true ∧ ∀ m' < m, N.isLcoreEnabled m' = false

/-- An lcore beyond the loop is alone there, and the queue 0 is set up for an lcore that does
not receive. -/
def QueuesFit : Prop :=
  ∀ l, N.Receives l → N.portLcores ≤ l →
    (∀ l', N.Receives l' → N.portLcores ≤ l' → l' = l) ∧ ∃ m, N.First m ∧ ¬ N.Receives m

/-! ### Calls -/

variable {N D}

theorem ethCall_eq_ok {st st' : NicState} {c : EthCall} :
    ethCall D st c = .ok st' ↔ 0 ≤ D.ret st.calls c ∧ st' = { st with calls := c :: st.calls } := by
  rw [ethCall]
  split
  · next h => exact ⟨fun h' => (by cases h'), fun h' => absurd h'.1 (Int.not_le.mpr h)⟩
  · next h => exact ⟨fun h' => ⟨Int.not_lt.mp h, (Except.ok.inj h').symm⟩, fun h' => by rw [h'.2]⟩

/-- Other calls do not change the number of queues. -/
theorem configuredTx_append {port : ℕ} (new : List EthCall) {calls : List EthCall}
    (h : ∀ c ∈ new, c.txQueues port = none) :
    configuredTx (new ++ calls) port = configuredTx calls port := by
  rw [configuredTx, configuredTx, List.findSome?_append,
    List.findSome?_eq_none_iff.mpr h, Option.none_or]

namespace NicConf

variable (N)

/-- The queue that the loop gives to an lcore: as many as enabled lcores before it. -/
def queueOf (l : ℕ) : ℕ := (List.range l).countP N.isLcoreEnabled

/-- The socket of an lcore. -/
def socketOf (l : ℕ) : ℕ := if N.numaOn then N.lcoreToSocketId l else 0

variable {N}

theorem queueOf_succ (l : ℕ) :
    N.queueOf (l + 1) = if N.isLcoreEnabled l then N.queueOf l + 1 else N.queueOf l := by
  rw [queueOf, List.range_succ, List.countP_append, List.countP_singleton, ← queueOf]
  split <;> rfl

theorem queueOf_mono : Monotone N.queueOf := by
  refine monotone_nat_of_le_succ fun l => ?_
  rw [queueOf_succ]
  split
  · exact Nat.le_succ _
  · exact Nat.le_refl _

theorem queueOf_lt {l l' : ℕ} (hl : N.isLcoreEnabled l = true) (hlt : l < l') :
    N.queueOf l < N.queueOf l' := by
  have hsucc := queueOf_succ (N := N) l
  rw [if_pos hl] at hsucc
  calc N.queueOf l < N.queueOf (l + 1) := by rw [hsucc]; exact Nat.lt_succ_self _
    _ ≤ N.queueOf l' := queueOf_mono hlt

theorem queueOf_eq_zero {l : ℕ} : N.queueOf l = 0 ↔ ∀ m < l, N.isLcoreEnabled m = false := by
  rw [queueOf, List.countP_eq_zero]
  exact ⟨fun h m hm => Bool.eq_false_iff.mpr (h m (List.mem_range.mpr hm)),
    fun h m hm => Bool.eq_false_iff.mp (h m (List.mem_range.mp hm))⟩

theorem queueOf_inj {l l' : ℕ} (hl : N.isLcoreEnabled l = true) (hl' : N.isLcoreEnabled l' = true)
    (hne : l ≠ l') : N.queueOf l ≠ N.queueOf l' := by
  rcases Nat.lt_or_gt_of_ne hne with hlt | hlt
  · exact (queueOf_lt hl hlt).ne
  · exact (queueOf_lt hl' hlt).ne'

theorem getSocketid_eq_ok {l s : ℕ} (h : N.getSocketid l = .ok s) : s = N.socketOf l := by
  have hif : (if nbSockets ≤ N.socketOf l then Except.error Halt.exited else .ok (N.socketOf l)) =
      .ok s := h
  split at hif
  · cases hif
  · exact (Except.ok.inj hif).symm

end NicConf

/-! ### Receive queues -/

theorem initLcoreRxQueue_eq_ok {st st' : NicState} {p : LcoreParams}
    (h : initLcoreRxQueue N st p = .ok st') :
    st' = st.setHw p.lcoreId { st.hw p.lcoreId with
      rxQueueList := (st.hw p.lcoreId).rxQueueList ++ [⟨p.portId, p.queueId⟩] } := by
  rw [initLcoreRxQueue] at h
  split at h
  · dsimp only at h
    split at h
    · cases h
    · exact (Except.ok.inj h).symm
  · cases h

/-- The receive queues that the parameters give to an lcore, in their order. -/
theorem initLcoreRxQueues_hw {params : List LcoreParams} {st st' : NicState}
    (h : params.foldlM (initLcoreRxQueue N) st = .ok st') (l : ℕ) :
    (st'.hw l).rxQueueList = (st.hw l).rxQueueList ++
        (params.filter fun p => p.lcoreId = l).map (fun p => ⟨p.portId, p.queueId⟩) ∧
      (st'.hw l).txQueueId = (st.hw l).txQueueId := by
  induction params generalizing st with
  | nil =>
    obtain rfl : st = st' := Except.ok.inj h
    rw [List.filter_nil, List.map_nil, List.append_nil]
    exact ⟨rfl, rfl⟩
  | cons p params ih =>
    rw [List.foldlM_cons] at h
    obtain ⟨st₁, hp, hrest⟩ := bind_eq_ok.mp h
    obtain ⟨hrx, htx⟩ := ih hrest
    rw [hrx, htx, initLcoreRxQueue_eq_ok hp]
    by_cases hl : p.lcoreId = l
    · rw [hl, NicState.setHw_self, List.filter_cons_of_pos (by simpa using hl), List.map_cons,
        List.append_assoc, List.singleton_append]
      exact ⟨rfl, rfl⟩
    · rw [NicState.setHw_of_ne _ (Ne.symm hl), List.filter_cons_of_neg (by simpa using hl)]
      exact ⟨rfl, rfl⟩

theorem initLcoreRxQueue_calls (st : NicState) (p : LcoreParams) (st' : NicState)
    (hcalls : st.calls = []) (h : initLcoreRxQueue N st p = .ok st') : st'.calls = [] := by
  rw [initLcoreRxQueue_eq_ok h]
  exact hcalls

theorem initMbufPool_frame (hw : ℕ → LcoreHw) (calls : List EthCall) (st : NicState) (l : ℕ)
    (st' : NicState) (hst : st.hw = hw ∧ st.calls = calls)
    (h : initMbufPool N st l = .ok st') : st'.hw = hw ∧ st'.calls = calls := by
  rw [initMbufPool] at h
  split at h
  · obtain ⟨socketid, -, hpool⟩ := bind_eq_ok.mp h
    split at hpool
    · rwa [← Except.ok.inj hpool]
    · split at hpool
      · rwa [← Except.ok.inj hpool]
      · cases hpool
  · rwa [← Except.ok.inj h]

/-! ### The queues of one port -/

/-- The calls of the loop over the first lcores. -/
def NicConf.txCalls (N : NicConf) (portid k : ℕ) : List EthCall :=
  ((List.range k).filter N.isLcoreEnabled).reverse.map fun l =>
    .txQueueSetup portid (N.queueOf l) (N.socketOf l)

theorem mem_txCalls {portid k : ℕ} {c : EthCall} :
    c ∈ N.txCalls portid k ↔ ∃ l < k, N.isLcoreEnabled l = true ∧
      c = .txQueueSetup portid (N.queueOf l) (N.socketOf l) := by
  rw [NicConf.txCalls, List.mem_map]
  constructor
  · rintro ⟨l, hl, rfl⟩
    rw [List.mem_reverse, List.mem_filter, List.mem_range] at hl
    exact ⟨l, hl.1, hl.2, rfl⟩
  · rintro ⟨l, hlt, hl, rfl⟩
    refine ⟨l, ?_, rfl⟩
    rw [List.mem_reverse, List.mem_filter, List.mem_range]
    exact ⟨hlt, hl⟩

theorem txCalls_succ (portid k : ℕ) : N.txCalls portid (k + 1) =
    if N.isLcoreEnabled k then
      .txQueueSetup portid (N.queueOf k) (N.socketOf k) ::
        N.txCalls portid k
    else N.txCalls portid k := by
  rw [NicConf.txCalls, List.range_succ, List.filter_append, List.reverse_append, List.map_append]
  split
  · next h => rw [List.filter_cons_of_pos h, List.filter_nil]; rfl
  · next h => rw [List.filter_cons_of_neg h, List.filter_nil]; rfl

/-- The loop of `dpdk_init_port` over the first lcores. -/
structure TxDone (N : NicConf) (portid : ℕ) (st₀ : NicState) (k : ℕ) (s : NicState × ℕ) :
    Prop where
  queueid : s.2 = N.queueOf k
  rxQueueList : ∀ l, (s.1.hw l).rxQueueList = (st₀.hw l).rxQueueList
  txQueueId : ∀ l p, (s.1.hw l).txQueueId p =
    if p = portid ∧ l < k ∧ N.isLcoreEnabled l = true then N.queueOf l
    else (st₀.hw l).txQueueId p
  calls : s.1.calls = N.txCalls portid k ++ st₀.calls
  configured : ∀ l < k, N.isLcoreEnabled l = true → N.queueOf l < configuredTx st₀.calls portid

theorem configuredTx_txCalls (portid k port : ℕ) (calls : List EthCall) :
    configuredTx (N.txCalls portid k ++ calls) port = configuredTx calls port := by
  refine configuredTx_append _ fun c hc => ?_
  obtain ⟨l, -, -, rfl⟩ := mem_txCalls.mp hc
  rfl

theorem TxDone.step {portid k : ℕ} {st₀ : NicState} {s s' : NicState × ℕ}
    (hs : TxDone N portid st₀ k s) (h : initTxStep N D portid s k = .ok s') :
    TxDone N portid st₀ (k + 1) s' := by
  obtain ⟨⟨st, done⟩, hinit, hs'⟩ := bind_eq_ok.mp h
  obtain rfl := Except.ok.inj hs'
  have hbelow : ∀ l, l < k + 1 ↔ l < k ∨ l = k := fun l => Nat.lt_succ_iff_lt_or_eq
  rw [initTxOnLcore] at hinit
  split at hinit
  · next hk =>
    obtain ⟨socketid, hsocket, hcall⟩ := bind_eq_ok.mp hinit
    obtain ⟨st₁, hst₁, hst⟩ := bind_eq_ok.mp hcall
    obtain ⟨hret, rfl⟩ := ethCall_eq_ok.mp hst₁
    obtain ⟨rfl, rfl⟩ := Prod.mk.inj (Except.ok.inj hst)
    have hlt := D.lt_configuredTx _ _ _ _ hret
    rw [hs.calls, configuredTx_txCalls, hs.queueid] at hlt
    refine ⟨?_, fun l => ?_, fun l p => ?_, ?_, fun l hl henabled => ?_⟩
    · rw [if_pos rfl, N.queueOf_succ, if_pos hk, hs.queueid]
    · rw [← hs.rxQueueList l]
      by_cases hl : l = k
      · subst hl
        rw [NicState.setHw_self]
      · rw [NicState.setHw_of_ne _ hl]
    · by_cases hl : l = k
      · subst hl
        rw [NicState.setHw_self]
        dsimp only
        by_cases hp : p = portid
        · subst hp
          rw [Function.update_self, if_pos ⟨rfl, Nat.lt_succ_self l, hk⟩, hs.queueid]
        · rw [Function.update_of_ne hp, if_neg fun h => hp h.1, hs.txQueueId,
            if_neg fun h => hp h.1]
      · rw [NicState.setHw_of_ne _ hl]
        dsimp only
        rw [hs.txQueueId]
        refine if_congr ?_ rfl rfl
        rw [hbelow l, or_iff_left hl]
    · show _ :: s.1.calls = _
      rw [txCalls_succ, if_pos hk, hs.calls, hs.queueid, N.getSocketid_eq_ok hsocket]
      rfl
    · rcases (hbelow l).mp hl with hl | rfl
      · exact hs.configured l hl henabled
      · exact hlt
  · next hk =>
    obtain ⟨rfl, rfl⟩ := Prod.mk.inj (Except.ok.inj hinit)
    refine ⟨?_, hs.rxQueueList, fun l p => ?_, ?_, fun l hl henabled => ?_⟩
    · rw [if_neg Bool.false_ne_true, N.queueOf_succ, if_neg hk, hs.queueid]
    · rw [hs.txQueueId]
      refine if_congr (and_congr_right fun _ => ?_) rfl rfl
      rw [hbelow l]
      constructor
      · exact fun h => ⟨.inl h.1, h.2⟩
      · rintro ⟨hl | rfl, henabled⟩
        · exact ⟨hl, henabled⟩
        · exact absurd henabled hk
    · rw [txCalls_succ, if_neg hk, hs.calls]
    · rcases (hbelow l).mp hl with hl | rfl
      · exact hs.configured l hl henabled
      · exact absurd henabled hk

/-! ### All ports -/

/-- `dpdk_init_port` for the first ports, each with the loop over `n` lcores. -/
structure PortsDone (N : NicConf) (n : ℕ) (st₀ : NicState) (k : ℕ) (st : NicState) : Prop where
  rxQueueList : ∀ l, (st.hw l).rxQueueList = (st₀.hw l).rxQueueList
  txQueueId : ∀ l p, (st.hw l).txQueueId p =
    if p < k ∧ N.isPortDisabled p = false ∧ l < n ∧ N.isLcoreEnabled l = true then N.queueOf l
    else (st₀.hw l).txQueueId p
  configured : ∀ p < k, N.isPortDisabled p = false → ∀ l < n, N.isLcoreEnabled l = true →
    N.queueOf l < configuredTx st.calls p
  setUp : ∀ p q, (∃ s, .txQueueSetup p q s ∈ st.calls) ↔
    p < k ∧ N.isPortDisabled p = false ∧ ∃ l < n, N.isLcoreEnabled l = true ∧ q = N.queueOf l
  notStarted : ∀ p, .devStart p ∉ st.calls

theorem portsDone_zero {n : ℕ} {st₀ : NicState} (hcalls : st₀.calls = []) :
    PortsDone N n st₀ 0 st₀ where
  rxQueueList _ := rfl
  txQueueId l p := (if_neg fun h => absurd h.1 (Nat.not_lt_zero p)).symm
  configured p hp := absurd hp (Nat.not_lt_zero p)
  setUp p q := by
    rw [hcalls]
    exact iff_of_false (fun ⟨_, h⟩ => List.not_mem_nil h) fun h => Nat.not_lt_zero p h.1
  notStarted p := by
    rw [hcalls]
    exact List.not_mem_nil

theorem PortsDone.disabled {n k : ℕ} {st₀ st : NicState} (hst : PortsDone N n st₀ k st)
    (hk : N.isPortDisabled k = true) : PortsDone N n st₀ (k + 1) st := by
  have hbelow : ∀ p, (p < k + 1 ∧ N.isPortDisabled p = false) ↔
      (p < k ∧ N.isPortDisabled p = false) := by
    intro p
    rw [Nat.lt_succ_iff_lt_or_eq]
    constructor
    · rintro ⟨hp | rfl, henabled⟩
      · exact ⟨hp, henabled⟩
      · rw [hk] at henabled
        cases henabled
    · exact fun h => ⟨.inl h.1, h.2⟩
  refine ⟨hst.rxQueueList, fun l p => ?_, fun p hp henabled => ?_, fun p q => ?_, hst.notStarted⟩
  · rw [hst.txQueueId]
    refine if_congr ?_ rfl rfl
    rw [← and_assoc, ← hbelow p, and_assoc]
  · exact hst.configured p ((hbelow p).mp ⟨hp, henabled⟩).1 henabled
  · rw [hst.setUp, ← and_assoc, ← hbelow p, and_assoc]

theorem PortsDone.step {n k : ℕ} {st₀ st st' : NicState} (hst : PortsDone N n st₀ k st)
    (h : dpdkInitPort N D n st k = .ok st') : PortsDone N n st₀ (k + 1) st' := by
  rw [dpdkInitPort] at h
  split at h
  · next hk =>
    obtain rfl := Except.ok.inj h
    exact hst.disabled hk
  · next hk =>
    obtain ⟨st₁, hconfigure, hloop⟩ := bind_eq_ok.mp h
    obtain ⟨-, rfl⟩ := ethCall_eq_ok.mp hconfigure
    obtain ⟨s, hs, hst'⟩ := bind_eq_ok.mp hloop
    obtain rfl := Except.ok.inj hst'
    have hkfalse : N.isPortDisabled k = false := Bool.eq_false_iff.mpr hk
    have hdone := foldlM_range_inv (P := TxDone N k _) (fun i _ _ _ => TxDone.step)
      (⟨rfl, fun _ => rfl, fun l p => (if_neg fun h => absurd h.2.1 (Nat.not_lt_zero l)).symm, rfl,
        fun l hl => absurd hl (Nat.not_lt_zero l)⟩) hs
    refine ⟨fun l => (hdone.rxQueueList l).trans (hst.rxQueueList l), fun l p => ?_,
      fun p hp henabled l hl hlenabled => ?_, fun p q => ?_, fun p hp => ?_⟩
    · rw [hdone.txQueueId]
      dsimp only
      rw [hst.txQueueId]
      by_cases hp : p = k
      · subst hp
        simp only [Nat.lt_irrefl, Nat.lt_succ_self, hkfalse, true_and, false_and, if_false]
      · rw [if_neg fun h => hp h.1]
        refine if_congr (and_congr_left fun _ => ?_) rfl rfl
        rw [Nat.lt_succ_iff_lt_or_eq, or_iff_left hp]
    · rw [hdone.calls, configuredTx_txCalls]
      rcases Nat.lt_succ_iff_lt_or_eq.mp hp with hp | rfl
      · have hother : configuredTx (.devConfigure k (N.getPortNRxQueues k)
            (min n N.maxTxQueuePerPort % 2 ^ 16) :: st.calls) p = configuredTx st.calls p :=
          configuredTx_append [_] fun c hc => by
            rw [List.mem_singleton.mp hc]
            exact if_neg hp.ne'
        rw [hother]
        exact hst.configured p hp henabled l hl hlenabled
      · exact hdone.configured l hl hlenabled
    · rw [hdone.calls]
      have hold : (∃ s, .txQueueSetup p q s ∈ EthCall.devConfigure k (N.getPortNRxQueues k)
          (min n N.maxTxQueuePerPort % 2 ^ 16) :: st.calls) ↔
          ∃ s, .txQueueSetup p q s ∈ st.calls := by
        refine exists_congr fun s => ?_
        rw [List.mem_cons, or_iff_right (by rintro ⟨⟩)]
      simp only [List.mem_append, exists_or]
      rw [hold, hst.setUp]
      constructor
      · rintro (⟨s, hs⟩ | h)
        · obtain ⟨l, hl, henabled, heq⟩ := mem_txCalls.mp hs
          obtain ⟨rfl, rfl, -⟩ := EthCall.txQueueSetup.inj heq
          exact ⟨Nat.lt_succ_self p, hkfalse, l, hl, henabled, rfl⟩
        · exact ⟨Nat.lt_succ_of_lt h.1, h.2⟩
      · rintro ⟨hp, hpenabled, l, hl, henabled, rfl⟩
        rcases Nat.lt_succ_iff_lt_or_eq.mp hp with hp | rfl
        · exact .inr ⟨hp, hpenabled, l, hl, henabled, rfl⟩
        · exact .inl ⟨_, mem_txCalls.mpr ⟨l, hl, henabled, rfl⟩⟩
    · rw [hdone.calls, List.mem_append, List.mem_cons] at hp
      rcases hp with hp | hp | hp
      · obtain ⟨l, -, -, heq⟩ := mem_txCalls.mp hp
        cases heq
      · cases hp
      · exact hst.notStarted p hp

/-! ### Receive queues and start -/

/-- The configuration stays, and only calls that are not about transmit queues were added. -/
structure NicKept (st₀ st : NicState) (new : List EthCall) : Prop where
  hw : st.hw = st₀.hw
  calls : st.calls = new ++ st₀.calls
  noTx : ∀ c ∈ new, ∀ port, c.txQueues port = none
  noSetup : ∀ p q s, .txQueueSetup p q s ∉ new

theorem NicKept.refl (st : NicState) : NicKept st st [] :=
  ⟨rfl, rfl, fun _ h => absurd h List.not_mem_nil, fun _ _ _ => List.not_mem_nil⟩

theorem NicKept.call {st₀ st st' : NicState} {new : List EthCall} {c : EthCall}
    (hst : NicKept st₀ st new) (hno : ∀ port, c.txQueues port = none)
    (hset : ∀ p q s, EthCall.txQueueSetup p q s ≠ c) (h : ethCall D st c = .ok st') :
    NicKept st₀ st' (c :: new) := by
  obtain ⟨-, rfl⟩ := ethCall_eq_ok.mp h
  refine ⟨hst.hw, congrArg (c :: ·) hst.calls, fun d hd => ?_, fun p q s hmem => ?_⟩
  · rcases List.mem_cons.mp hd with rfl | hd
    · exact hno
    · exact hst.noTx d hd
  · rcases List.mem_cons.mp hmem with heq | hmem
    · exact hset p q s heq
    · exact hst.noSetup p q s hmem

/-- The loop over the lcores sets up receive queues and starts no port. -/
theorem dpdkInitLcore_kept {st₀ st st' : NicState} {l : ℕ}
    (hst : ∃ new, NicKept st₀ st new ∧ ∀ p, .devStart p ∉ new)
    (h : dpdkInitLcore N D st l = .ok st') :
    ∃ new, NicKept st₀ st' new ∧ ∀ p, .devStart p ∉ new := by
  rw [dpdkInitLcore] at h
  split at h
  · refine foldlM_inv (P := fun st => ∃ new, NicKept st₀ st new ∧ ∀ p, .devStart p ∉ new) ?_ hst h
    rintro st₁ q st₂ ⟨new, hnew, hstart⟩ hq
    obtain ⟨socketid, -, hcall⟩ := bind_eq_ok.mp hq
    refine ⟨_, hnew.call (fun _ => rfl) (by rintro _ _ _ ⟨⟩) hcall, fun p hp => ?_⟩
    rcases List.mem_cons.mp hp with hp | hp
    · cases hp
    · exact hstart p hp
  · rwa [← Except.ok.inj h]

theorem startPort_kept {st₀ st st' : NicState} {k : ℕ}
    (hst : ∃ new, NicKept st₀ st new ∧ ∀ p < k, N.isPortDisabled p = false → .devStart p ∈ new)
    (h : startPort N D st k = .ok st') :
    ∃ new, NicKept st₀ st' new ∧ ∀ p < k + 1, N.isPortDisabled p = false → .devStart p ∈ new := by
  obtain ⟨new, hnew, hstart⟩ := hst
  rw [startPort] at h
  split at h
  · next hk =>
    rw [← Except.ok.inj h]
    refine ⟨new, hnew, fun p hp henabled => ?_⟩
    rcases Nat.lt_succ_iff_lt_or_eq.mp hp with hp | rfl
    · exact hstart p hp henabled
    · rw [hk] at henabled
      cases henabled
  · refine ⟨_, hnew.call (fun _ => rfl) (by rintro _ _ _ ⟨⟩) h, fun p hp henabled => ?_⟩
    rcases Nat.lt_succ_iff_lt_or_eq.mp hp with hp | rfl
    · exact List.mem_cons_of_mem _ (hstart p hp henabled)
    · exact List.mem_cons_self

/-! ### The whole set-up -/

/-- What `dpdk_init_nic` leaves when it succeeds. -/
structure NicDone (N : NicConf) (st : NicState) : Prop where
  runs : ∀ l, RunsPacketLoop N st l ↔ N.Receives l
  port : ∀ l, N.Receives l → ∃ p < N.getNbPorts, N.isPortDisabled p = false
  txQueueId : ∀ l, N.isLcoreEnabled l = true → ∀ p < N.getNbPorts, N.isPortDisabled p = false →
    (st.hw l).txQueueId p = if l < N.portLcores then N.queueOf l else 0
  configured : ∀ p < N.getNbPorts, N.isPortDisabled p = false → ∀ l < N.portLcores,
    N.isLcoreEnabled l = true → N.queueOf l < configuredTx st.calls p
  setUp : ∀ p < N.getNbPorts, N.isPortDisabled p = false → ∀ q, SetUpBeforeStart st.calls p q ↔
    ∃ l < N.portLcores, N.isLcoreEnabled l = true ∧ q = N.queueOf l

theorem dpdkInitNic_eq_ok {st : NicState} (h : dpdkInitNic N D = .ok st) : NicDone N st := by
  obtain ⟨st₁, hrx, h⟩ := bind_eq_ok.mp h
  have hcalls₁ : st₁.calls = [] := foldlM_inv initLcoreRxQueue_calls rfl hrx
  have hhw₁ := initLcoreRxQueues_hw hrx
  dsimp only at h
  split at h
  · next hcheck =>
    obtain ⟨st₂, hpools, h⟩ := bind_eq_ok.mp h
    obtain ⟨hhw₂, hcalls₂⟩ := foldlM_inv (P := fun st => st.hw = st₁.hw ∧ st.calls = st₁.calls)
      (initMbufPool_frame st₁.hw st₁.calls) ⟨rfl, rfl⟩ hpools
    obtain ⟨st₃, hports, h⟩ := bind_eq_ok.mp h
    have hdone : PortsDone N N.portLcores st₂ N.getNbPorts st₃ :=
      foldlM_range_inv (P := PortsDone N N.portLcores st₂) (fun _ _ _ _ => PortsDone.step)
        (portsDone_zero (hcalls₂.trans hcalls₁)) hports
    obtain ⟨st₄, hlcores, hstarts⟩ := bind_eq_ok.mp h
    obtain ⟨new₄, hkept₄, hnostart⟩ := foldlM_inv (fun _ _ _ => dpdkInitLcore_kept)
      ⟨[], NicKept.refl st₃, fun _ => List.not_mem_nil⟩ hlcores
    obtain ⟨new, hkept, hstart⟩ := foldlM_range_inv
      (P := fun k st => ∃ new, NicKept st₄ st new ∧
        ∀ p < k, N.isPortDisabled p = false → .devStart p ∈ new)
      (fun _ _ _ _ => startPort_kept)
      ⟨[], NicKept.refl st₄, fun p hp => absurd hp (Nat.not_lt_zero p)⟩ hstarts
    have hhw : st.hw = st₃.hw := hkept.hw.trans hkept₄.hw
    have hrxList : ∀ l, (st.hw l).rxQueueList =
        (N.lcoreParams.filter fun p => p.lcoreId = l).map fun p => ⟨p.portId, p.queueId⟩ := by
      intro l
      rw [hhw, hdone.rxQueueList, hhw₂, (hhw₁ l).1]
      rfl
    refine ⟨fun l => ?_, ?_, fun l hl p hp henabled => ?_, fun p hp henabled l hl hlenabled => ?_,
      fun p hp henabled q => ?_⟩
    · rw [RunsPacketLoop, NicConf.Receives, hrxList l, Ne, List.map_eq_nil_iff,
        List.filter_eq_nil_iff]
      simp only [decide_eq_true_eq, not_forall, not_not, exists_prop]
    · rintro l ⟨-, ⟨p, hp, -⟩, -⟩
      have hport := List.all_eq_true.mp hcheck p hp
      rw [Bool.and_eq_true, decide_eq_true_eq, Bool.not_eq_true'] at hport
      exact ⟨p.portId, hport⟩
    · rw [hhw, hdone.txQueueId, hhw₂, (hhw₁ l).2]
      simp only [hp, henabled, hl, true_and, and_true]
      rfl
    · rw [hkept.calls, configuredTx_append _ fun c hc => hkept.noTx c hc p, hkept₄.calls,
        configuredTx_append _ fun c hc => hkept₄.noTx c hc p]
      exact hdone.configured p hp henabled l hl hlenabled
    · have hset := hdone.setUp p q
      constructor
      · rintro ⟨after, before, socket, hsplit, -, -, hmem⟩
        have hmem' : .txQueueSetup p q socket ∈ st.calls := by
          rw [hsplit]
          exact List.mem_append_right after hmem
        rw [hkept.calls, hkept₄.calls, List.mem_append, List.mem_append,
          or_iff_right (hkept.noSetup p q socket), or_iff_right (hkept₄.noSetup p q socket)]
          at hmem'
        exact (hset.mp ⟨socket, hmem'⟩).2.2
      · intro hq
        obtain ⟨socket, hmem⟩ := hset.mpr ⟨hp, henabled, hq⟩
        refine ⟨new, st₄.calls, socket, hkept.calls, hstart p hp henabled, ?_, ?_⟩
        · rw [hkept₄.calls, List.mem_append, not_or]
          exact ⟨hnostart p, hdone.notStarted p⟩
        · rw [hkept₄.calls]
          exact List.mem_append_right new₄ hmem
  · cases h

theorem first_of_queueOf {m : ℕ} (hlt : m < N.portLcores) (hm : N.isLcoreEnabled m = true)
    (hzero : N.queueOf m = 0) : N.First m :=
  ⟨hlt, hm, NicConf.queueOf_eq_zero.mp hzero⟩

/-- The first lcore is the only one with the queue 0. -/
theorem NicConf.First.eq {m l : ℕ} (hm : N.First m) (hl : N.isLcoreEnabled l = true)
    (hzero : N.queueOf l = 0) : l = m := by
  by_contra hne
  have hzero' := NicConf.queueOf_eq_zero.mpr hm.2.2
  exact NicConf.queueOf_inj hl hm.2.1 hne (hzero.trans hzero'.symm)

/-- **After a set-up that succeeds each lcore that runs the packet loop has a queue of its own
on each port iff the loop over the lcore ids reaches them all, or reaches all but one and the
first one that it reaches receives nothing.** -/
theorem queueLaw_iff {st : NicState} (h : dpdkInitNic N D = .ok st) :
    QueueLaw N st ↔ QueuesFit N := by
  have hdone := dpdkInitNic_eq_ok h
  have hbeyond : ∀ l, N.Receives l → N.portLcores ≤ l → ∀ p < N.getNbPorts,
      N.isPortDisabled p = false → (st.hw l).txQueueId p = 0 := by
    intro l hl hle p hp henabled
    rw [hdone.txQueueId l hl.1 p hp henabled, if_neg (Nat.not_lt.mpr hle)]
  have hwithin : ∀ l, N.Receives l → l < N.portLcores → ∀ p < N.getNbPorts,
      N.isPortDisabled p = false → (st.hw l).txQueueId p = N.queueOf l := by
    intro l hl hlt p hp henabled
    rw [hdone.txQueueId l hl.1 p hp henabled, if_pos hlt]
  constructor
  · intro hlaw l hl hle
    obtain ⟨p, hp, henabled⟩ := hdone.port l hl
    obtain ⟨heach, hdistinct⟩ := hlaw p hp henabled
    refine ⟨fun l' hl' hle' => ?_, ?_⟩
    · by_contra hne
      refine hdistinct l' l ((hdone.runs l').mpr hl') ((hdone.runs l).mpr hl) hne ?_
      rw [hbeyond l hl hle p hp henabled, hbeyond l' hl' hle' p hp henabled]
    · obtain ⟨m, hlt, hm, hzero⟩ :=
        (hdone.setUp p hp henabled _).mp (heach l ((hdone.runs l).mpr hl)).2
      rw [hbeyond l hl hle p hp henabled] at hzero
      refine ⟨m, first_of_queueOf hlt hm hzero.symm, fun hreceives => ?_⟩
      refine hdistinct l m ((hdone.runs l).mpr hl) ((hdone.runs m).mpr hreceives)
        (hlt.trans_le hle).ne' ?_
      rw [hbeyond l hl hle p hp henabled, hwithin m hreceives hlt p hp henabled, ← hzero]
  · intro hfit p hp henabled
    refine ⟨fun l hruns => ?_, fun l l' hruns hruns' hne heq => ?_⟩
    · have hl := (hdone.runs l).mp hruns
      -- the queue is that of an lcore which the loop reaches
      obtain ⟨m, hlt, hm, hqueue⟩ : ∃ m < N.portLcores, N.isLcoreEnabled m = true ∧
          (st.hw l).txQueueId p = N.queueOf m := by
        rcases Nat.lt_or_ge l N.portLcores with hlt | hle
        · exact ⟨l, hlt, hl.1, hwithin l hl hlt p hp henabled⟩
        · obtain ⟨-, m, hfirst, -⟩ := hfit l hl hle
          refine ⟨m, hfirst.1, hfirst.2.1, ?_⟩
          rw [hbeyond l hl hle p hp henabled, NicConf.queueOf_eq_zero.mpr hfirst.2.2]
      refine ⟨?_, (hdone.setUp p hp henabled _).mpr ⟨m, hlt, hm, hqueue⟩⟩
      rw [hqueue]
      exact hdone.configured p hp henabled m hlt hm
    · have hl := (hdone.runs l).mp hruns
      have hl' := (hdone.runs l').mp hruns'
      -- an lcore beyond the loop has the queue 0, which none of the others has
      have hmixed : ∀ a b, N.Receives a → N.Receives b → a < N.portLcores → N.portLcores ≤ b →
          (st.hw a).txQueueId p ≠ (st.hw b).txQueueId p := by
        intro a b ha hb hlt hle hab
        obtain ⟨-, m, hfirst, hnot⟩ := hfit b hb hle
        rw [hwithin a ha hlt p hp henabled, hbeyond b hb hle p hp henabled] at hab
        exact hnot (hfirst.eq ha.1 hab ▸ ha)
      rcases Nat.lt_or_ge l N.portLcores with hlt | hle
      · rcases Nat.lt_or_ge l' N.portLcores with hlt' | hle'
        · rw [hwithin l hl hlt p hp henabled, hwithin l' hl' hlt' p hp henabled] at heq
          exact NicConf.queueOf_inj hl.1 hl'.1 hne heq
        · exact hmixed l l' hl hl' hlt hle' heq
      · rcases Nat.lt_or_ge l' N.portLcores with hlt' | hle'
        · exact hmixed l' l hl' hl hlt' hle heq.symm
        · exact hne ((hfit l' hl' hle').1 l hl hle)

/-! ### An example -/

/-- Ports that take each call for a queue that is configured. -/
def willingDev : EthDev where
  ret calls
    | .txQueueSetup port queue _ => if queue < configuredTx calls port then 0 else -22
    | _ => 0
  lt_configuredTx calls port queue _ h := by
    by_contra hge
    dsimp only at h
    rw [if_neg hge] at h
    exact absurd h (by decide)

/-- Two lcores, each with a receive queue of the only port. -/
def twoLcores (second : ℕ) : NicConf where
  rteMaxLcore := second + 1
  isLcoreEnabled l := l == 0 || l == second
  lt_of_enabled l hl := by
    rw [Bool.or_eq_true, beq_iff_eq, beq_iff_eq] at hl
    omega
  exists_enabled := ⟨0, rfl⟩
  lcoreToSocketId _ := 0
  numaOn := true
  rteEthDevCountAvail := 1
  rteMaxEthports := 16
  rteMaxEthports_le := by decide
  enabledPortMask := 1
  lcoreParams := [⟨0, 0, 0⟩, ⟨0, 1, second⟩]
  mempoolCreate _ := true
  startCryptoNode := false

theorem twoLcores_succeeds (second : ℕ) (hsecond : second = 1 ∨ second = 2) :
    ∃ st, dpdkInitNic (twoLcores second) willingDev = .ok st := by
  have hok : (dpdkInitNic (twoLcores second) willingDev).isOk = true := by
    rcases hsecond with rfl | rfl <;> rfl
  cases hst : dpdkInitNic (twoLcores second) willingDev with
  | ok st => exact ⟨st, rfl⟩
  | error e =>
    rw [hst] at hok
    cases hok

theorem twoLcores_receives (second : ℕ) :
    (twoLcores second).Receives 0 ∧ (twoLcores second).Receives second := by
  have hnot : ∀ l, ¬ (twoLcores second).IsCryptoNode l := fun l h => Bool.false_ne_true h.1
  refine ⟨⟨rfl, ⟨⟨0, 0, 0⟩, List.mem_cons_self, rfl⟩, hnot 0⟩, ?_, ⟨⟨0, 1, second⟩, ?_, rfl⟩,
    hnot second⟩
  · show (second == 0 || second == second) = true
    rw [beq_self_eq_true, Bool.or_true]
  · exact List.mem_cons_of_mem _ List.mem_cons_self

/-- With the lcores 0 and 1 each has its own queue. -/
theorem contiguous_queueLaw :
    ∃ st, dpdkInitNic (twoLcores 1) willingDev = .ok st ∧ QueueLaw (twoLcores 1) st := by
  obtain ⟨st, hst⟩ := twoLcores_succeeds 1 (.inl rfl)
  refine ⟨st, hst, (queueLaw_iff hst).mpr fun l hl hle => ?_⟩
  have hlt : l < 2 := (twoLcores 1).lt_of_enabled l hl.1
  exact absurd hle (Nat.not_le.mpr hlt)

/-- With the lcores 0 and 2 both have the queue 0. -/
theorem not_queueLaw :
    ¬ ∀ (N : NicConf) (D : EthDev) (st : NicState), dpdkInitNic N D = .ok st → QueueLaw N st := by
  intro hlaw
  obtain ⟨st, hst⟩ := twoLcores_succeeds 2 (.inr rfl)
  obtain ⟨hfirst, hsecond⟩ := twoLcores_receives 2
  have hdone := dpdkInitNic_eq_ok hst
  obtain ⟨-, hdistinct⟩ := hlaw _ _ st hst 0 (by decide) rfl
  refine hdistinct 0 2 ((hdone.runs 0).mpr hfirst) ((hdone.runs 2).mpr hsecond) (by decide) ?_
  rw [hdone.txQueueId 0 hfirst.1 0 (by decide) rfl, hdone.txQueueId 2 hsecond.1 0 (by decide) rfl]
  rfl

end T4P4S
