/-
Sending a packet to all ports but the one it came from.

`broadcast_packet` goes over the ports and hands a clone of the packet to
`send_single_packet` for each of them, with the egress port of the packet, which is
`T4P4S_BROADCAST_PORT`, for a port.  The packet itself it keeps.

* **`not_broadcastLaw`** — no broadcast sends a copy on each other port and the packet
  itself, or frees it;
* **`sendPacket_broadcast_eq_none`** — when the broadcast port is behind the last of the
  tables, a broadcast to some other port is undefined.
-/
import T4P4S.TxQueues

namespace T4P4S

/-- What sending needs of an lcore: its transmit queues, and the mbufs, by their address,
with what they hold.  The mempool has `avail` more; `none` is `NULL`. -/
structure TxCore where
  tx : TxState (Option ℕ)
  mbufs : List (List (BitVec 8))
  avail : ℕ

namespace TxCore

/-- The bytes of a packet. -/
def bytes (st : TxCore) (pkt : Option ℕ) : Option (List (BitVec 8)) := pkt.bind (st.mbufs[·]?)

/-- `clone_packet`: an mbuf that was not in use, with the same bytes. -/
def clonePacket (st : TxCore) (wrapper : ℕ) : TxCore × Option ℕ :=
  match st.mbufs[wrapper]? with
  | some bytes =>
    if st.avail = 0 then (st, none)
    else ({ st with mbufs := st.mbufs ++ [bytes], avail := st.avail - 1 }, some st.mbufs.length)
  | none => (st, none)

end TxCore

variable (P : TxParams) (D : TxDriver (Option ℕ)) (portMask : BitVec 32) (wrapper : ℕ)

/-- The loop of `broadcast_packet`, over the ports that are left.  It has sent `nb_port`
packets; the shift of the mask is undefined for a port that is not a bit of it. -/
def broadcastLoop (egressPort ingressPort : ℤ) :
    List ℕ → ℕ → TxCore → Option TxCore
  | [], _, st => some st
  | portidx :: rest, nbPort, st =>
    if (nbPort : ℤ) < P.nbPorts - 1 then
      if (portidx : ℤ) = ingressPort then
        broadcastLoop egressPort ingressPort rest nbPort st
      else if 32 ≤ portidx then
        none
      else if portMask &&& (1 : BitVec 32) <<< portidx = 0 then
        broadcastLoop egressPort ingressPort rest nbPort st
      else
        let out := if nbPort < P.nbPorts then st.clonePacket wrapper else (st, some wrapper)
        (sendSinglePacket P D out.1.tx out.2 egressPort).bind fun tx =>
          broadcastLoop egressPort ingressPort rest (nbPort + 1) { out.1 with tx := tx }
    else
      some st

def broadcastPacket (egressPort ingressPort : ℤ) (st : TxCore) : Option TxCore :=
  broadcastLoop P D portMask wrapper egressPort ingressPort (List.range P.rteMaxEthports) 0 st

def sendPacket (egressPort ingressPort : ℤ) (st : TxCore) : Option TxCore :=
  if egressPort = t4p4sBroadcastPort then
    broadcastPacket P D portMask wrapper egressPort ingressPort st
  else
    (sendSinglePacket P D st.tx (some wrapper) egressPort).map fun tx => { st with tx := tx }

/-- The port is there and enabled. -/
def PortEnabled (port : ℕ) : Prop := port < P.nbPorts ∧ portMask.getLsbD port = true

/-- What a broadcast from the ingress port should do: one packet more, with the same
bytes, on each other enabled port and none on any other port, and the packet itself sent
once or freed. -/
structure BroadcastLaw (ingressPort : ℕ) (st st' : TxCore) : Prop where
  other : ∀ port, PortEnabled P portMask port → port ≠ ingressPort →
    ∃ pkt, st'.tx.transmitted port = st.tx.transmitted port ++ [pkt] ∧
      st'.bytes pkt = st.bytes (some wrapper)
  none : ∀ port < P.rteMaxEthports, ¬ PortEnabled P portMask port ∨ port = ingressPort →
    st'.tx.transmitted port = st.tx.transmitted port
  original : (∃ port < P.rteMaxEthports, (st'.tx.transmitted port).count (some wrapper) = 1) ∨
    some wrapper ∈ st'.tx.freed

/-! ### What the loop does -/

variable {P D portMask wrapper} {txQueueId : ℕ → ℕ} {egressPort ingressPort : ℤ}

/-- The lcore's accounts are right, and the packet is an mbuf that was not handed over. -/
structure Owns (P : TxParams) (txQueueId : ℕ → ℕ) (wrapper : ℕ) (st : TxCore) : Prop where
  law : ∃ sent, TxLaw P txQueueId sent st.tx ∧ ∀ p ∈ sent, p.2 ≠ some wrapper
  lt_length : wrapper < st.mbufs.length

theorem Owns.not_mem_transmitted {st : TxCore} (h : Owns P txQueueId wrapper st) {port : ℕ}
    (hport : port < P.rteMaxEthports) : some wrapper ∉ st.tx.transmitted port := by
  obtain ⟨sent, hlaw, hown⟩ := h.law
  rw [hlaw.transmitted_eq hport]
  exact fun hmem => hown _ (mem_of_mem_sentTo hmem) rfl

theorem Owns.not_mem_freed {st : TxCore} (h : Owns P txQueueId wrapper st) :
    some wrapper ∉ st.tx.freed := by
  obtain ⟨sent, hlaw, hown⟩ := h.law
  intro hmem
  obtain ⟨_, hsent⟩ := hlaw.exists_of_mem_freed hmem
  exact hown _ hsent rfl

/-- A clone is not the packet. -/
theorem clonePacket_ne {st : TxCore} (hlt : wrapper < st.mbufs.length) :
    (st.clonePacket wrapper).2 ≠ some wrapper := by
  rw [TxCore.clonePacket, List.getElem?_eq_getElem hlt]
  dsimp only
  split_ifs
  · exact Option.some_ne_none _ |>.symm
  · exact fun h => absurd (Option.some_inj.mp h) hlt.ne'

theorem clonePacket_tx (st : TxCore) : (st.clonePacket wrapper).1.tx = st.tx := by
  rw [TxCore.clonePacket]
  split
  · split_ifs <;> rfl
  · rfl

theorem clonePacket_length_le (st : TxCore) :
    st.mbufs.length ≤ (st.clonePacket wrapper).1.mbufs.length := by
  rw [TxCore.clonePacket]
  split
  · split_ifs
    · exact le_rfl
    · rw [List.length_append]
      exact Nat.le_add_right _ _
  · exact le_rfl

/-- Another packet is sent. -/
theorem Owns.send {st : TxCore} (h : Owns P txQueueId wrapper st) {pkt : Option ℕ}
    (hpkt : pkt ≠ some wrapper) {tx : TxState (Option ℕ)}
    (htx : sendSinglePacket P D st.tx pkt egressPort = some tx) :
    Owns P txQueueId wrapper { st with tx := tx } := by
  obtain ⟨sent, hlaw, hown⟩ := h.law
  rw [sendSinglePacket] at htx
  -- The accounts are kept for the port that the packet really goes to.
  by_cases hport : (egressPort % 2 ^ 8).toNat < P.rteMaxEthports
  · obtain ⟨tx', htx', hlaw'⟩ := hlaw.dpdkSendPacket (D := D) hport pkt
    obtain rfl := Option.some_inj.mp (htx'.symm.trans htx)
    refine ⟨⟨_, hlaw', ?_⟩, h.lt_length⟩
    intro p hp
    rcases List.mem_append.mp hp with hp | hp
    · exact hown p hp
    · rwa [List.mem_singleton.mp hp]
  · rw [dpdkSendPacket_eq_none hport] at htx
    cases htx

theorem Owns.clonePacket {st : TxCore} (h : Owns P txQueueId wrapper st) :
    Owns P txQueueId wrapper (st.clonePacket wrapper).1 := by
  refine ⟨?_, h.lt_length.trans_le (clonePacket_length_le st)⟩
  rw [clonePacket_tx]
  exact h.law

/-- The loop sends clones only. -/
theorem Owns.broadcastLoop {ports : List ℕ} {nbPort : ℕ} {st st' : TxCore}
    (h : Owns P txQueueId wrapper st)
    (hst' : broadcastLoop P D portMask wrapper egressPort ingressPort ports nbPort st = some st') :
    Owns P txQueueId wrapper st' := by
  induction ports generalizing nbPort st with
  | nil =>
    obtain rfl := Option.some_inj.mp hst'
    exact h
  | cons portidx rest ih =>
    rw [T4P4S.broadcastLoop] at hst'
    split_ifs at hst' with hcount _ _ _ hclone
    · exact ih h hst'
    · exact ih h hst'
    · change Option.bind _ _ = some st' at hst'
      obtain ⟨tx, htx, hrest⟩ := Option.bind_eq_some_iff.mp hst'
      exact ih (h.clonePacket.send (clonePacket_ne h.lt_length) htx) hrest
    -- in each turn of the loop a clone is taken, never the packet itself
    · exact absurd (show nbPort < P.nbPorts by omega) hclone
    · obtain rfl := Option.some_inj.mp hst'
      exact h

theorem and_shiftLeft_ne_zero {port : ℕ} (h32 : port < 32) (h : portMask.getLsbD port = true) :
    portMask &&& (1 : BitVec 32) <<< port ≠ 0 := by
  intro h0
  have hbit := congrArg (BitVec.getLsbD · port) h0
  simp only [BitVec.getLsbD_and, h, BitVec.getLsbD_shiftLeft, Nat.sub_self, h32] at hbit
  simp at hbit

/-- With the broadcast port behind the last table, the first clone is written outside of
the tables. -/
theorem broadcastLoop_eq_none (hmax : (P.rteMaxEthports : ℤ) ≤ t4p4sBroadcastPort)
    (hcount : 1 < P.nbPorts) {port : ℕ} (hbit : portMask.getLsbD port = true)
    (hne : (port : ℤ) ≠ ingressPort) {ports : List ℕ} (hport : port ∈ ports) (st : TxCore) :
    broadcastLoop P D portMask wrapper t4p4sBroadcastPort ingressPort ports 0 st = none := by
  have h0 : ((0 : ℕ) : ℤ) < P.nbPorts - 1 := by omega
  have hsend : ∀ (tx : TxState (Option ℕ)) (pkt : Option ℕ),
      sendSinglePacket P D tx pkt t4p4sBroadcastPort = none := by
    refine fun tx pkt => dpdkSendPacket_eq_none ?_ tx pkt
    rw [t4p4sBroadcastPort] at hmax ⊢
    omega
  induction ports with
  | nil => exact absurd hport List.not_mem_nil
  | cons portidx rest ih =>
    rw [broadcastLoop, if_pos h0]
    split_ifs with hingress h32 hdisabled
    · rcases List.mem_cons.mp hport with rfl | hrest
      · exact absurd hingress hne
      · exact ih hrest
    · rfl
    · rcases List.mem_cons.mp hport with rfl | hrest
      · exact absurd hdisabled (and_shiftLeft_ne_zero (by omega) hbit)
      · exact ih hrest
    all_goals
      dsimp only
      rw [hsend, Option.bind_none]

/-- **A broadcast to some other port is undefined when there is no table for the
broadcast port.** -/
theorem sendPacket_broadcast_eq_none (hmax : (P.rteMaxEthports : ℤ) ≤ t4p4sBroadcastPort)
    {port ingressPort : ℕ} (hport : PortEnabled P portMask port)
    (hingress : PortEnabled P portMask ingressPort) (hne : port ≠ ingressPort) (st : TxCore) :
    sendPacket P D portMask wrapper t4p4sBroadcastPort ingressPort st = none := by
  have hcount : 1 < P.nbPorts := by
    have := hport.1
    have := hingress.1
    omega
  rw [sendPacket, if_pos rfl, broadcastPacket]
  refine broadcastLoop_eq_none hmax hcount hport.2 (by omega) ?_ st
  exact List.mem_range.mpr (hport.1.trans_le P.nbPorts_le)

/-- **No broadcast does what it should: the packet itself is neither sent nor freed.** -/
theorem not_broadcastLaw {P : TxParams} {D : TxDriver (Option ℕ)} {txQueueId : ℕ → ℕ}
    {portMask : BitVec 32} {wrapper ingressPort : ℕ} {st : TxCore}
    (howns : Owns P txQueueId wrapper st) :
    ¬ ∃ st', sendPacket P D portMask wrapper t4p4sBroadcastPort ingressPort st = some st' ∧
      BroadcastLaw P portMask wrapper ingressPort st st' := by
  rintro ⟨st', hst', hlaw⟩
  rw [sendPacket, if_pos rfl] at hst'
  have howns' := howns.broadcastLoop hst'
  -- The packet was never handed over, so it is neither on a port nor freed.
  rcases hlaw.original with ⟨port, hport, hcount⟩ | hfreed
  · rw [List.count_eq_zero_of_not_mem (howns'.not_mem_transmitted hport)] at hcount
    cases hcount
  · exact howns'.not_mem_freed hfreed

/-! ### Two ports -/

/-- An lcore that has a packet of two bytes and has not sent anything. -/
def freshCore : TxCore := ⟨.init fun _ => 0, [[0x01, 0x02]], 8⟩

theorem freshCore_owns (P : TxParams) : Owns P (fun _ => 0) 0 freshCore :=
  ⟨⟨[], txLaw_init _, fun _ hp => absurd hp List.not_mem_nil⟩, Nat.zero_lt_one⟩

def twoPorts : TxParams := ⟨32, 2, by decide, by decide, 0⟩

/-- A driver that takes all mbufs. -/
def acceptAll : TxDriver (Option ℕ) := ⟨fun _ _ _ txPkts => txPkts.length, fun _ _ _ _ => le_rfl⟩

theorem freshCore_not_broadcast :
    ¬ ∃ st', sendPacket twoPorts acceptAll 3 0 t4p4sBroadcastPort 0 freshCore = some st' ∧
      BroadcastLaw twoPorts 3 0 0 freshCore st' :=
  not_broadcastLaw (freshCore_owns twoPorts)

/-- A packet from port 0 does not reach port 1. -/
theorem twoPorts_not_broadcast : ¬ ∀ (P : TxParams) (D : TxDriver (Option ℕ)) (portMask : BitVec 32)
    (wrapper ingressPort : ℕ) (st : TxCore) (txQueueId : ℕ → ℕ), Owns P txQueueId wrapper st →
    PortEnabled P portMask ingressPort →
    ∃ st', sendPacket P D portMask wrapper t4p4sBroadcastPort ingressPort st = some st' ∧
      BroadcastLaw P portMask wrapper ingressPort st st' := by
  intro hlaw
  obtain ⟨st', hst', -⟩ := hlaw twoPorts acceptAll 3 0 0 freshCore _ (freshCore_owns twoPorts)
    (by unfold PortEnabled; decide)
  have hnone : sendPacket twoPorts acceptAll 3 0 t4p4sBroadcastPort 0 freshCore = none := rfl
  exact Option.some_ne_none st' (hst'.symm.trans hnone)

end T4P4S
