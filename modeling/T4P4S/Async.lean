/-
The asynchronous handling of packets.

A packet that needs crypto operations is handled in a store of its own: a descriptor of
`pd_pool` in the mode `ASYNC_MODE_PD`, a context with a stack in `ASYNC_MODE_CONTEXT`.  At a
crypto operation its handling stops, and a task goes into `async_queue`.  `main_loop_async`
gives the tasks to the crypto device, and takes up the handling again of the packets whose
results are there.

* **`AsyncState.step_conserves`** — no event loses a packet or a store, if neither the pool
  nor a ring has turned it away, and the events are defined;
* **`conservedButRefused_of_reachable`** — so it is in every run, where a packet is turned away
  only if the pool has no store for it or `async_queue` is full.
-/
import Mathlib.Data.List.Count
import Mathlib.Data.List.Perm.Basic
import Mathlib.Data.List.Perm.Subperm
import Mathlib.Data.List.Range
import Mathlib.Logic.Function.Basic
import T4P4S.Lib.Transition

open Transition

namespace T4P4S

/-! ### The state of an lcore -/

/-- `ASYNC_MODE`: `ASYNC_MODE_PD` or `ASYNC_MODE_CONTEXT`. -/
inductive AsyncMode
  | pd
  | context
  deriving DecidableEq

/-- What is set when the switch is built and started. -/
structure AsyncConf where
  asyncMode : AsyncMode
  cryptoBurstSize : ℕ
  cryptoBurstSize_pos : 0 < cryptoBurstSize
  cryptoContextPoolSize : ℕ
  cryptoContextPoolSize_pos : 0 < cryptoContextPoolSize
  contextFreeCommandRingSize : ℕ
  cryptoDeviceAvailable : Bool

/-- The number of the stores in `pd_pool` or `context_pool`. -/
def AsyncConf.poolSize (C : AsyncConf) : ℕ := C.cryptoContextPoolSize * 1024 - 1

theorem AsyncConf.poolSize_pos (C : AsyncConf) : 0 < C.poolSize := by
  have hpos := C.cryptoContextPoolSize_pos
  rw [poolSize]
  omega

/-- How many elements a ring that was created for `count` can hold. -/
def ringCapacity (count : ℕ) : ℕ := count - 1

/-- What the program does with the packets, which are known by their order of arrival:
whether one requires crypto, how many crypto operations it goes through, and whether it
is dropped in the end. -/
structure CryptoProgram where
  packetRequiresCrypto : ℕ → Bool
  operations : ℕ → ℕ
  isPacketDropped : ℕ → Bool

/-- The members of `packet_descriptor_t` that the asynchronous handling looks at.  `store`
is `pd_store` or `context`.  A context has no phase: there it says how many operations the
stack of the context has gone through. -/
structure AsyncDescriptor where
  wrapper : ℕ
  store : Option ℕ
  programRestorePhase : ℕ

/-- The state of an lcore.  A task or an operation is known by the mbuf that it points to.
The members from `received` on do not exist in the program, they say what has happened:
`refused` has the packets that an empty pool or a full ring turned away, `strayed` the
stores that are lost with them. -/
structure AsyncState where
  pd : AsyncDescriptor
  saved : ℕ → AsyncDescriptor
  prepended : ℕ → List ℕ
  pool : List ℕ
  asyncQueue : List ℕ
  device : List ℕ
  pendingCrypto : ℕ
  contextFreeCommandRing : List ℕ
  received : ℕ
  sent : List ℕ
  freed : List ℕ
  submitted : ℕ
  dequeued : ℕ
  taken : List ℕ
  returned : List ℕ
  refused : List ℕ
  strayed : List ℕ

/-- Where a `setjmp` was made. -/
inductive JumpPoint
  | mainLoop
  | asyncLoop
  deriving DecidableEq

variable (C : AsyncConf) (P : CryptoProgram)

/-! ### The functions -/

/-- `rte_mempool_put` -/
def AsyncState.mempoolPut (s : AsyncState) (store : ℕ) : AsyncState :=
  { s with pool := store :: s.pool, returned := store :: s.returned }

/-- `main_loop_post_single_tx_async`.  The result of `rte_ring_enqueue` is not looked at. -/
def mainLoopPostSingleTxAsync (s : AsyncState) : AsyncState :=
  match s.pd.store with
  | none => s
  | some store =>
    match C.asyncMode with
    | .pd => { s.mempoolPut store with pd := { s.pd with store := none } }
    -- The packet still runs on the context, so it cannot put it back into the pool itself.
    | .context =>
      if s.contextFreeCommandRing.length < ringCapacity (C.contextFreeCommandRingSize * 1024) then
        { s with contextFreeCommandRing := s.contextFreeCommandRing ++ [store] }
      else
        { s with strayed := store :: s.strayed }

/-- `do_single_tx`, up to what `send_packet` does. -/
def doSingleTxAsync (s : AsyncState) : AsyncState :=
  mainLoopPostSingleTxAsync C <|
    if P.isPacketDropped s.pd.wrapper then
      { s with freed := s.freed ++ [s.pd.wrapper] }
    else
      { s with sent := s.sent ++ [s.pd.wrapper] }

/-- `jump_to_main_loop`: where it jumps to. -/
def jumpToMainLoop (pd : AsyncDescriptor) : JumpPoint :=
  if pd.programRestorePhase = 0 then .mainLoop else .asyncLoop

/-- `create_crypto_task`, which puts the address of the store in front of the data, and the
`rte_ring_enqueue` of `enqueue_packet_for_async`, whose result is not looked at. -/
def enqueuePacketForAsync (s : AsyncState) (store : ℕ) : AsyncState :=
  let data := (s.saved store).wrapper
  let s := { s with
    prepended := Function.update s.prepended data (store :: s.prepended data) }
  -- The task is in no ring if `async_queue` is full, and nobody hears of it.
  if s.asyncQueue.length < ringCapacity 1024 then
    { s with asyncQueue := s.asyncQueue ++ [data] }
  else
    { s with refused := data :: s.refused, strayed := store :: s.strayed }

/-- `do_crypto_task`, up to where the handling of the packet stops: in a context it swaps
back, else it jumps, which is undefined unless the place jumped to is the one that the
packet is handled from. -/
def doCryptoTask (here : JumpPoint) (s : AsyncState) (store : ℕ) : Option AsyncState :=
  let s := enqueuePacketForAsync
    { s with saved := Function.update s.saved store s.pd } store
  match C.asyncMode with
  -- A context swaps back to `main_loop_context`, wherever it was entered from.
  | .context => some s
  | .pd => if jumpToMainLoop s.pd = here then some s else none

/-- `do_handle_packet`, from the phase that the descriptor is in to the next crypto
operation or to the end.  Without a store no operation is made. -/
def doHandlePacketAsync (here : JumpPoint) (s : AsyncState) : Option AsyncState :=
  match s.pd.store with
  | none => some (doSingleTxAsync C P s)
  | some store =>
    if s.pd.programRestorePhase < P.operations s.pd.wrapper then
      doCryptoTask C here s store
    else
      some (doSingleTxAsync C P s)

/-- `async_handle_packet` on the packet that has just arrived.  `got` is what
`rte_mempool_get` gives, if it is called and the pool has something: any of the stores
that are there.  Otherwise the packet is marked to be dropped, and left. -/
def asyncHandlePacket (got : Option ℕ) (s : AsyncState) : Option AsyncState :=
  let s := { s with
    pd := { wrapper := s.received, store := none, programRestorePhase := 0 }
    received := s.received + 1 }
  if P.packetRequiresCrypto s.pd.wrapper then
    match got with
    -- `mark_to_drop`, after which no one handles the packet or frees it.
    | none => some { s with refused := s.pd.wrapper :: s.refused }
    | some store =>
      if store ∈ s.pool then
        doHandlePacketAsync C P .mainLoop
          { s with
            pool := s.pool.erase store
            taken := store :: s.taken
            pd := { s.pd with store := some store } }
      else none
  else
    doHandlePacketAsync C P .mainLoop s

/-- `free_finished_contexts` -/
def freeFinishedContexts (s : AsyncState) : AsyncState :=
  if C.asyncMode = .context ∧ C.cryptoBurstSize < s.contextFreeCommandRing.length then
    let temp := s.contextFreeCommandRing.take C.cryptoBurstSize
    { s with
      contextFreeCommandRing := s.contextFreeCommandRing.drop C.cryptoBurstSize
      pool := temp ++ s.pool
      returned := temp ++ s.returned }
  else
    s

/-- `enqueue_async_operations`.  Where the program exits, because there are no more
operations or the device does not take them all, the run is over. -/
def enqueueAsyncOperations (s : AsyncState) : AsyncState :=
  if C.cryptoDeviceAvailable ∧ C.cryptoBurstSize ≤ s.asyncQueue.length then
    let tasks := s.asyncQueue.take C.cryptoBurstSize
    { s with
      asyncQueue := s.asyncQueue.drop C.cryptoBurstSize
      device := s.device ++ tasks
      pendingCrypto := s.pendingCrypto + tasks.length
      submitted := s.submitted + tasks.length }
  else
    s

/-- `resume_packet_handling`, undefined if there is no address in front of the data. -/
def resumePacketHandling (s : AsyncState) (mbuf : ℕ) : Option AsyncState :=
  match s.prepended mbuf with
  | [] => none
  | store :: rest =>
    doHandlePacketAsync C P .asyncLoop
      { s with
        prepended := Function.update s.prepended mbuf rest
        pd := { s.saved store with
          programRestorePhase := (s.saved store).programRestorePhase + 1 } }

/-- `dequeue_finished_async_operations`, where `done` are the operations that the device
gives back: some of those that it has, and not more than were asked for. -/
def dequeueFinishedAsyncOperations (done : List ℕ) (s : AsyncState) : Option AsyncState :=
  if C.cryptoDeviceAvailable ∧ C.cryptoBurstSize ≤ s.pendingCrypto then
    if done.Subperm s.device ∧ done.length ≤ C.cryptoBurstSize then
      -- `pending_crypto` goes down when all results have been worked on.
      (done.foldlM (resumePacketHandling C P)
        { s with
          device := s.device.diff done
          dequeued := s.dequeued + done.length }).map fun s =>
        { s with pendingCrypto := s.pendingCrypto - done.length }
    else none
  else
    some s

/-- `main_loop_async` -/
def mainLoopAsync (done : List ℕ) (s : AsyncState) : Option AsyncState :=
  dequeueFinishedAsyncOperations C P done
    (enqueueAsyncOperations C (freeFinishedContexts C s))

/-- A packet arrives, for which the pool has the store `got` or none, or a round of
`main_loop_async` begins. -/
inductive AsyncEvent
  | packet (got : Option ℕ)
  | mainLoopAsync (done : List ℕ)

def AsyncState.step (s : AsyncState) : AsyncEvent → Option AsyncState
  | .packet got => asyncHandlePacket C P got s
  | .mainLoopAsync done => mainLoopAsync C P done s

/-- The state of an lcore after `async_init_storage` and `init_async_data`. -/
def AsyncState.init : AsyncState where
  pd := ⟨0, none, 0⟩
  saved := fun _ => ⟨0, none, 0⟩
  prepended := fun _ => []
  pool := List.range C.poolSize
  asyncQueue := []
  device := []
  pendingCrypto := 0
  contextFreeCommandRing := []
  received := 0
  sent := []
  freed := []
  submitted := 0
  dequeued := 0
  taken := []
  returned := []
  refused := []
  strayed := []

/-- An lcore with its packets, its main loop and the crypto device. -/
def asyncSystem : System AsyncState where
  init s := s = AsyncState.init C
  step s s' := ∃ e, s.step C P e = some s'

/-! ### How the handling of a packet ends -/

variable {C P}

theorem enqueuePacketForAsync_pd {s : AsyncState} {store : ℕ} :
    (enqueuePacketForAsync s store).pd = s.pd := by
  rw [enqueuePacketForAsync]
  split <;> rfl

/-- A task is made where the handling of the packet stops for it. -/
theorem doCryptoTask_eq_some {here : JumpPoint} {s : AsyncState} {store : ℕ}
    (hjump : jumpToMainLoop s.pd = here) :
    doCryptoTask C here s store = some
      (enqueuePacketForAsync { s with saved := Function.update s.saved store s.pd } store) := by
  rw [doCryptoTask]
  cases C.asyncMode with
  | context => rfl
  | pd =>
    dsimp only
    rw [enqueuePacketForAsync_pd, if_pos hjump]

/-- A packet that is handled is finished, or it is suspended at its next operation. -/
theorem doHandlePacketAsync_cases {here : JumpPoint} {s s' : AsyncState}
    (hs' : doHandlePacketAsync C P here s = some s') :
    s' = doSingleTxAsync C P s ∨
      ∃ store, s.pd.store = some store ∧
        s.pd.programRestorePhase < P.operations s.pd.wrapper ∧
        s' = enqueuePacketForAsync
          { s with saved := Function.update s.saved store s.pd } store := by
  rw [doHandlePacketAsync] at hs'
  cases hstore : s.pd.store with
  | none =>
    rw [hstore] at hs'
    exact Or.inl (Option.some.inj hs').symm
  | some store =>
    simp only [hstore] at hs'
    split at hs'
    next hphase =>
      refine Or.inr ⟨store, rfl, hphase, ?_⟩
      -- The state does not depend on how the handling stops, only on whether that is defined.
      rw [doCryptoTask] at hs'
      cases hmode : C.asyncMode with
      | context =>
        rw [hmode] at hs'
        exact (Option.some.inj hs').symm
      | pd =>
        simp only [hmode] at hs'
        split at hs'
        · exact (Option.some.inj hs').symm
        · cases hs'
    next => exact Or.inl (Option.some.inj hs').symm

variable (C P)

/-! ### What is conserved -/

namespace AsyncState

/-- In how many places a packet is: with the sent or the freed ones, in the queue, on the
device. -/
def places (s : AsyncState) (p : ℕ) : ℕ :=
  s.sent.count p + s.freed.count p + s.asyncQueue.count p + s.device.count p

/-- How many of the packets have the store: its address is in front of their data. -/
def holders (s : AsyncState) (store : ℕ) (l : List ℕ) : ℕ := (l.map s.prepended).count [store]

/-- `async_queue` takes no more tasks. -/
def QueueFull (s : AsyncState) : Prop := ringCapacity 1024 ≤ s.asyncQueue.length

/-- `context_free_command_ring` takes no more contexts. -/
def CommandRingFull (s : AsyncState) : Prop :=
  ringCapacity (C.contextFreeCommandRingSize * 1024) ≤ s.contextFreeCommandRing.length

/-- The packet is suspended at an operation: its store has its descriptor. -/
def Suspended (s : AsyncState) (p : ℕ) : Prop :=
  P.packetRequiresCrypto p ∧ ∃ store phase, s.prepended p = [store] ∧
    s.saved store = ⟨p, some store, phase⟩ ∧ phase < P.operations p

/-- The packets that are suspended, `running` being those whose results are there. -/
def suspended (s : AsyncState) (running : List ℕ) : List ℕ := s.asyncQueue ++ s.device ++ running

/-- In how many places outside of the pool a store is: with a suspended packet or with the
one that is being handled, in the ring of the contexts to be freed, or lost. -/
def outside (s : AsyncState) (running own : List ℕ) (store : ℕ) : ℕ :=
  s.holders store (s.suspended running) + own.count store +
    s.contextFreeCommandRing.count store + s.strayed.count store

/-- Packets and stores are each in one place.  In the middle of a round there are also the
packets that were dequeued and the one that is being handled, with its store. -/
structure Conserves (running hand own : List ℕ) (s : AsyncState) : Prop where
  packets : ∀ p, s.places p + running.count p + hand.count p + s.refused.count p =
    if p < s.received then 1 else 0
  pool : ∀ store, s.pool.count store + s.outside running own store =
    if store < C.poolSize then 1 else 0
  taken : ∀ store, s.pool.count store + s.taken.count store =
    s.returned.count store + if store < C.poolSize then 1 else 0
  suspended : ∀ p ∈ s.suspended running, s.Suspended P p
  bare : ∀ p ∉ s.suspended running, p ∉ hand → p ∉ s.refused → s.prepended p = []
  waiting : C.asyncMode = .pd → s.contextFreeCommandRing = []

/-- What the pool and the device can give. -/
def Possible (s : AsyncState) : AsyncEvent → Prop
  | .packet got => P.packetRequiresCrypto s.received → ∀ store ∈ got, store ∈ s.pool
  | .mainLoopAsync done =>
    let s := enqueueAsyncOperations C (freeFinishedContexts C s)
    C.cryptoDeviceAvailable ∧ C.cryptoBurstSize ≤ s.pendingCrypto →
      done.Subperm s.device ∧ done.length ≤ C.cryptoBurstSize

/-- The number of the operations on the device, of which `burst` have been dequeued in this
round. -/
structure Counts (burst : ℕ) (s : AsyncState) : Prop where
  device : s.pendingCrypto = s.device.length + burst
  submitted : s.pendingCrypto + s.dequeued = s.submitted + burst

variable {C P} {s s' : AsyncState} {running hand own : List ℕ}

theorem Conserves.packets_le (h : s.Conserves C P running hand own) (p : ℕ) :
    s.places p + running.count p + hand.count p + s.refused.count p ≤ 1 := by
  rw [h.packets p]
  split
  · exact le_rfl
  · exact Nat.zero_le 1

theorem Conserves.pool_le (h : s.Conserves C P running hand own) (store : ℕ) :
    s.pool.count store + s.outside running own store ≤ 1 := by
  rw [h.pool store]
  split
  · exact le_rfl
  · exact Nat.zero_le 1

/-! ### Where a store goes -/

theorem Conserves.mempoolPut {store : ℕ} (h : s.Conserves C P running hand (store :: own)) :
    (s.mempoolPut store).Conserves C P running hand own := by
  refine { h with pool := fun st => ?_, taken := fun st => ?_ }
  · have hpool := h.pool st
    simp only [AsyncState.mempoolPut, outside, holders, AsyncState.suspended,
      List.count_cons] at hpool ⊢
    omega
  · have htaken := h.taken st
    simp only [AsyncState.mempoolPut, List.count_cons] at htaken ⊢
    omega

theorem Conserves.await {store : ℕ} (h : s.Conserves C P running hand (store :: own))
    (hmode : C.asyncMode = .context) :
    Conserves C P running hand own
      { s with contextFreeCommandRing := s.contextFreeCommandRing ++ [store] } := by
  refine { h with pool := fun st => ?_, waiting := fun hpd => ?_ }
  · have hpool := h.pool st
    simp only [outside, holders, AsyncState.suspended, List.count_cons, List.count_append,
      List.count_nil] at hpool ⊢
    omega
  · rw [hmode] at hpd
    cases hpd

theorem Conserves.stray {store : ℕ} (h : s.Conserves C P running hand (store :: own)) :
    Conserves C P running hand own { s with strayed := store :: s.strayed } := by
  refine { h with pool := fun st => ?_ }
  have hpool := h.pool st
  simp only [outside, holders, AsyncState.suspended, List.count_cons] at hpool ⊢
  omega

/-! ### Handling a packet -/

theorem Conserves.mainLoopPostSingleTxAsync
    (h : s.Conserves C P running hand s.pd.store.toList) :
    (mainLoopPostSingleTxAsync C s).Conserves C P running hand [] := by
  rw [T4P4S.mainLoopPostSingleTxAsync]
  cases hstore : s.pd.store with
  | none => rwa [hstore] at h
  | some store =>
    rw [hstore, Option.toList_some] at h
    cases hmode : C.asyncMode with
    | pd => exact { h.mempoolPut with }
    | context =>
      dsimp only
      split
      · exact h.await hmode
      · exact h.stray

/-- The packet in hand is finished, with nothing in front of its data. -/
theorem Conserves.finish {p : ℕ} {sent freed : List ℕ} (h : s.Conserves C P running [p] own)
    (hbare : s.prepended p = [])
    (hfinished : ∀ q, sent.count q + freed.count q =
      s.sent.count q + s.freed.count q + [p].count q) :
    Conserves C P running [] own { s with sent := sent, freed := freed } := by
  refine { h with packets := fun q => ?_, bare := fun q hsus _ href => ?_ }
  · have hpackets := h.packets q
    have hcount := hfinished q
    simp only [AsyncState.places, List.count_nil] at hpackets ⊢
    omega
  · by_cases hq : q = p
    · rw [hq, hbare]
    · exact h.bare q hsus (fun hmem => hq (List.mem_singleton.mp hmem)) href

theorem Conserves.doSingleTxAsync
    (h : s.Conserves C P running [s.pd.wrapper] s.pd.store.toList)
    (hbare : s.prepended s.pd.wrapper = []) :
    (doSingleTxAsync C P s).Conserves C P running [] [] := by
  rw [T4P4S.doSingleTxAsync]
  refine Conserves.mainLoopPostSingleTxAsync ?_
  split
  · refine h.finish hbare fun q => ?_
    rw [List.count_append, Nat.add_assoc]
  · refine h.finish hbare fun q => ?_
    rw [List.count_append, Nat.add_right_comm]

theorem Conserves.not_mem_of_mem_hand {p : ℕ} (h : s.Conserves C P running hand own)
    (hp : p ∈ hand) : p ∉ s.suspended running ∧ p ∉ s.refused := by
  -- The hand alone is the one place that a packet can be in.
  have hpackets := h.packets_le p
  have hhand : 0 < hand.count p := List.count_pos_iff.mpr hp
  simp only [AsyncState.places] at hpackets
  rw [AsyncState.suspended, List.mem_append, List.mem_append, ← List.count_pos_iff,
    ← List.count_pos_iff, ← List.count_pos_iff, ← List.count_pos_iff]
  omega

/-- A store that is not with the suspended packets is not the store of one of them. -/
theorem Conserves.prepended_ne {store q : ℕ} (h : s.Conserves C P running hand own)
    (hown : store ∈ own) (hq : q ∈ s.suspended running) : s.prepended q ≠ [store] := by
  intro heq
  -- The store would be outside of the pool twice.
  have hpool := h.pool_le store
  have hcount : 0 < own.count store := List.count_pos_iff.mpr hown
  have hholders : 0 < s.holders store (s.suspended running) :=
    List.count_pos_iff.mpr (heq ▸ List.mem_map_of_mem hq)
  rw [outside] at hpool
  omega

theorem holders_congr {l : List ℕ} {store : ℕ} (h : ∀ q ∈ l, s'.prepended q = s.prepended q) :
    s'.holders store l = s.holders store l := by
  rw [holders, holders, List.map_congr_left h]

theorem Suspended.congr {q : ℕ} (h : s.Suspended P q)
    (hprepended : s'.prepended q = s.prepended q)
    (hsaved : ∀ store, s.prepended q = [store] → s'.saved store = s.saved store) :
    s'.Suspended P q := by
  obtain ⟨hcrypto, store, phase, hq, hstore, hphase⟩ := h
  exact ⟨hcrypto, store, phase, hprepended.trans hq, (hsaved store hq).trans hstore, hphase⟩

theorem Conserves.ne_of_mem_hand {p q : ℕ} (h : s.Conserves C P running hand own)
    (hp : p ∈ hand) (hq : q ∈ s.suspended running) : q ≠ p := by
  rintro rfl
  exact (h.not_mem_of_mem_hand hp).1 hq

/-- When the descriptor of a packet is copied into its store, and the address of this goes in
front of the data, nothing changes for the suspended packets. -/
theorem Conserves.save_frame {p q store : ℕ} (pd : AsyncDescriptor)
    (h : s.Conserves C P running [p] [store]) (hq : q ∈ s.suspended running) :
    Function.update s.prepended p [store] q = s.prepended q ∧
      ∀ st, s.prepended q = [st] → Function.update s.saved store pd st = s.saved st := by
  refine ⟨Function.update_of_ne (h.ne_of_mem_hand List.mem_cons_self hq) .., fun st hst => ?_⟩
  refine Function.update_of_ne ?_ ..
  rintro rfl
  exact h.prepended_ne List.mem_cons_self hq hst

theorem Conserves.save {p store : ℕ} {pd : AsyncDescriptor}
    (h : s.Conserves C P running [p] [store]) :
    Conserves C P running [p] [store]
      { s with
        saved := Function.update s.saved store pd
        prepended := Function.update s.prepended p [store] } := by
  refine { h with pool := fun st => ?_, suspended := fun q hq => ?_, bare := ?_ }
  -- The packet in hand is not suspended yet, so the store is counted with the hand.
  · rw [← h.pool st, outside, outside]
    congr 4
    exact holders_congr fun q hq => (h.save_frame pd hq).1
  · exact (h.suspended q hq).congr (h.save_frame pd hq).1 (h.save_frame pd hq).2
  · intro q hsus hhand href
    rw [List.mem_singleton] at hhand
    exact (Function.update_of_ne hhand ..).trans
      (h.bare q hsus (fun hmem => hhand (List.mem_singleton.mp hmem)) href)

theorem Conserves.queue {p store : ℕ} (h : s.Conserves C P running [p] [store])
    (hprepended : s.prepended p = [store]) (hsus : s.Suspended P p) :
    Conserves C P running [] [] { s with asyncQueue := s.asyncQueue ++ [p] } := by
  have hmem : ∀ q, q ∈ s.asyncQueue ++ [p] ++ s.device ++ running ↔
      q = p ∨ q ∈ s.suspended running := by
    intro q
    simp only [AsyncState.suspended, List.mem_append, List.mem_singleton]
    tauto
  refine { h with packets := fun q => ?_, pool := fun st => ?_, suspended := ?_, bare := ?_ }
  · have hpackets := h.packets q
    simp only [AsyncState.places, List.count_append, List.count_nil] at hpackets ⊢
    omega
  -- From now on its address in front of the packet's data counts for the store.
  · have hpool := h.pool st
    have hstore : List.count [st] [[store]] = List.count st [store] :=
      List.count_map_of_injective [store] _ List.singleton_injective st
    simp only [outside, holders, AsyncState.suspended, List.map_append, List.map_cons,
      List.map_nil, hprepended, hstore, List.count_append, List.count_nil] at hpool ⊢
    omega
  · rintro q hq
    obtain rfl | hq := (hmem q).mp hq
    · exact hsus
    · exact h.suspended q hq
  · rintro q hq - href
    rw [AsyncState.suspended, hmem q, not_or] at hq
    exact h.bare q hq.2 (fun hhand => hq.1 (List.mem_singleton.mp hhand)) href

theorem Conserves.refuse {p store : ℕ} (h : s.Conserves C P running [p] [store]) :
    Conserves C P running [] []
      { s with refused := p :: s.refused, strayed := store :: s.strayed } := by
  refine { h.stray with packets := fun q => ?_, bare := fun q hsus _ href => ?_ }
  · have hpackets := h.packets q
    simp only [AsyncState.places, List.count_cons, List.count_nil] at hpackets ⊢
    omega
  · rw [List.mem_cons, not_or] at href
    exact h.bare q hsus (fun hhand => href.1 (List.mem_singleton.mp hhand)) href.2

theorem Conserves.enqueuePacketForAsync {store phase : ℕ} {p : ℕ}
    (h : s.Conserves C P running [p] [store]) (hcrypto : P.packetRequiresCrypto p)
    (hphase : phase < P.operations p) (hbare : s.prepended p = []) :
    (enqueuePacketForAsync
      { s with saved := Function.update s.saved store ⟨p, some store, phase⟩ } store).Conserves
        C P running [] [] := by
  rw [T4P4S.enqueuePacketForAsync]
  simp only [Function.update_self, hbare]
  split
  · refine h.save.queue (Function.update_self ..) ?_
    exact ⟨hcrypto, store, phase, Function.update_self .., Function.update_self .., hphase⟩
  · exact h.save.refuse

theorem Conserves.doHandlePacketAsync {here : JumpPoint}
    (h : s.Conserves C P running [s.pd.wrapper] s.pd.store.toList)
    (hcrypto : s.pd.store.isSome → P.packetRequiresCrypto s.pd.wrapper)
    (hbare : s.prepended s.pd.wrapper = []) (hjump : jumpToMainLoop s.pd = here) :
    ∃ s', doHandlePacketAsync C P here s = some s' ∧ s'.Conserves C P running [] [] := by
  rw [T4P4S.doHandlePacketAsync]
  cases hstore : s.pd.store with
  | none => exact ⟨_, rfl, h.doSingleTxAsync hbare⟩
  | some store =>
    dsimp only
    split
    next hphase =>
      have hpd : s.pd = ⟨s.pd.wrapper, some store, s.pd.programRestorePhase⟩ := by rw [← hstore]
      rw [hstore, Option.toList_some] at h
      have hs' := h.enqueuePacketForAsync (hcrypto (hstore ▸ rfl)) hphase hbare
      rw [← hpd] at hs'
      exact ⟨_, doCryptoTask_eq_some hjump, hs'⟩
    next => exact ⟨_, rfl, h.doSingleTxAsync hbare⟩

/-! ### The events -/

/-- A packet that has just arrived is nowhere else. -/
theorem Conserves.arrive (pd : AsyncDescriptor) (h : s.Conserves C P [] [] []) :
    Conserves C P [] [s.received] [] { s with pd := pd, received := s.received + 1 } := by
  refine { h with packets := fun p => ?_, bare := fun p hsus _ => h.bare p hsus List.not_mem_nil }
  have hpackets := h.packets p
  have hcount : [s.received].count p = if p = s.received then 1 else 0 := by
    simp only [List.count_singleton, beq_iff_eq, @eq_comm _ p]
  simp only [AsyncState.places, List.count_nil, hcount] at hpackets ⊢
  -- Among the packets below `received + 1` only the new one has not been counted.
  split_ifs at hpackets ⊢ <;> omega

theorem Conserves.bare_received (h : s.Conserves C P [] [] []) : s.prepended s.received = [] := by
  have hpackets := h.packets s.received
  rw [if_neg (lt_irrefl _), AsyncState.places] at hpackets
  -- A packet that has not been received is in no place.
  refine h.bare _ ?_ List.not_mem_nil ?_
  · rw [AsyncState.suspended, List.append_nil, List.mem_append, ← List.count_pos_iff,
      ← List.count_pos_iff]
    omega
  · rw [← List.count_pos_iff]
    omega

/-- A store is taken from the pool. -/
theorem Conserves.mempoolGet {store : ℕ} {pd : AsyncDescriptor}
    (h : s.Conserves C P running hand own) (hstore : store ∈ s.pool) :
    Conserves C P running hand (store :: own)
      { s with pool := s.pool.erase store, taken := store :: s.taken, pd := pd } := by
  have hcount : ∀ st, s.pool.count st = (s.pool.erase store).count st + [store].count st := by
    intro st
    rw [(List.perm_cons_erase hstore).count_eq, List.count_cons, List.count_singleton]
  refine { h with pool := fun st => ?_, taken := fun st => ?_ }
  · have hpool := h.pool st
    simp only [hcount st, outside, holders, AsyncState.suspended, List.count_cons,
      List.count_nil] at hpool ⊢
    omega
  · have htaken := h.taken st
    simp only [hcount st, List.count_cons, List.count_nil] at htaken ⊢
    omega

theorem Conserves.asyncHandlePacket {got : Option ℕ} (h : s.Conserves C P [] [] [])
    (hgot : s.Possible C P (.packet got)) :
    ∃ s', asyncHandlePacket C P got s = some s' ∧ s'.Conserves C P [] [] [] := by
  have harrive := h.arrive ⟨s.received, none, 0⟩
  unfold T4P4S.asyncHandlePacket
  dsimp only
  split
  next hcrypto =>
    cases got with
    | none =>
      -- The pool is empty: from the hand to the refused ones.
      refine ⟨_, rfl, { harrive with packets := fun p => ?_, bare := fun p hsus _ href => ?_ }⟩
      · have hpackets := harrive.packets p
        simp only [AsyncState.places, List.count_cons, List.count_nil] at hpackets ⊢
        omega
      · exact h.bare p hsus List.not_mem_nil fun hmem => href (List.mem_cons_of_mem _ hmem)
    | some store =>
      dsimp only
      rw [if_pos (hgot hcrypto store rfl)]
      exact (harrive.mempoolGet (hgot hcrypto store rfl)).doHandlePacketAsync (fun _ => hcrypto)
        h.bare_received rfl
  -- A packet that requires no crypto has no store, so no operation suspends it.
  next => exact harrive.doHandlePacketAsync (fun hnone => by cases hnone) h.bare_received rfl

theorem Conserves.freeFinishedContexts (h : s.Conserves C P [] [] []) :
    (freeFinishedContexts C s).Conserves C P [] [] [] := by
  rw [T4P4S.freeFinishedContexts]
  split
  next hfree =>
    have hcount : ∀ st, s.contextFreeCommandRing.count st =
        (s.contextFreeCommandRing.take C.cryptoBurstSize).count st +
          (s.contextFreeCommandRing.drop C.cryptoBurstSize).count st := by
      intro st
      rw [← List.count_append, List.take_append_drop]
    refine { h with pool := fun st => ?_, taken := fun st => ?_, waiting := fun hpd => ?_ }
    · have hpool := h.pool st
      simp only [outside, holders, AsyncState.suspended, List.count_append, hcount st] at hpool ⊢
      omega
    · have htaken := h.taken st
      simp only [List.count_append] at htaken ⊢
      omega
    · rw [hfree.1] at hpd
      cases hpd
  next => exact h

/-- Tasks go from one place to another. -/
theorem Conserves.move {queue device running' : List ℕ} (h : s.Conserves C P running hand own)
    (hperm : (queue ++ device ++ running').Perm (s.suspended running)) :
    Conserves C P running' hand own { s with asyncQueue := queue, device := device } := by
  refine { h with
    packets := fun p => ?_
    pool := fun st => ?_
    suspended := fun p hp => h.suspended p (hperm.mem_iff.mp hp)
    bare := fun p hp => h.bare p (mt hperm.mem_iff.mpr hp) }
  · have hpackets := h.packets p
    have hcount := hperm.count_eq p
    simp only [AsyncState.places, AsyncState.suspended, List.count_append] at hpackets hcount ⊢
    omega
  · have hpool := h.pool st
    have hcount := (hperm.map s.prepended).count_eq [st]
    simp only [outside, holders, AsyncState.suspended] at hpool hcount ⊢
    omega

theorem Conserves.enqueueAsyncOperations (h : s.Conserves C P [] [] []) :
    (enqueueAsyncOperations C s).Conserves C P [] [] [] := by
  rw [T4P4S.enqueueAsyncOperations]
  split
  next =>
    have hperm : (s.asyncQueue.drop C.cryptoBurstSize ++
        (s.device ++ s.asyncQueue.take C.cryptoBurstSize) ++ []).Perm (s.suspended []) := by
      rw [AsyncState.suspended, List.append_nil, List.append_nil, ← List.append_assoc]
      refine (List.perm_append_comm).trans ?_
      rw [← List.append_assoc, List.take_append_drop]
    exact { h.move hperm with }
  next => exact h

/-- The packet whose operation is done is in hand, with the store it had. -/
theorem Conserves.resume {p : ℕ} (h : s.Conserves C P (p :: running) [] []) :
    P.packetRequiresCrypto p ∧ ∃ store phase, s.prepended p = [store] ∧
      s.saved store = ⟨p, some store, phase⟩ ∧ phase < P.operations p ∧
      ∀ pd, Conserves C P running [p] [store]
        { s with prepended := Function.update s.prepended p [], pd := pd } := by
  have hperm : (s.suspended (p :: running)).Perm (p :: s.suspended running) := List.perm_middle
  have hmem : ∀ q, q ∈ s.suspended (p :: running) ↔ q = p ∨ q ∈ s.suspended running := fun q =>
    hperm.mem_iff.trans List.mem_cons
  -- It is running, so it is neither in the queue nor on the device, nor running twice.
  have hne : ∀ q ∈ s.suspended running, q ≠ p := by
    rintro q hq rfl
    have hpackets := h.packets_le q
    have hq' := List.count_pos_iff.mpr hq
    simp only [AsyncState.places, AsyncState.suspended, List.count_append,
      List.count_cons_self] at hpackets hq'
    omega
  obtain ⟨hcrypto, store, phase, hprepended, hsaved, hphase⟩ :=
    h.suspended p ((hmem p).mpr (Or.inl rfl))
  refine ⟨hcrypto, store, phase, hprepended, hsaved, hphase, fun pd => ?_⟩
  refine { h with
    packets := fun q => ?_
    pool := fun st => ?_
    suspended := fun q hq => ?_
    bare := fun q hq hhand href => ?_ }
  · have hpackets := h.packets q
    simp only [AsyncState.places, List.count_cons, List.count_nil] at hpackets ⊢
    omega
  · have hpool := h.pool st
    have hstore : List.count [st] [[store]] = List.count st [store] :=
      List.count_map_of_injective [store] _ List.singleton_injective st
    -- For the other packets the address is where it was.
    have hmap : (s.suspended running).map (Function.update s.prepended p []) =
        (s.suspended running).map s.prepended :=
      List.map_congr_left fun q hq => Function.update_of_ne (hne q hq) ..
    have hcount := (hperm.map s.prepended).count_eq [st]
    rw [List.map_cons, hprepended, List.count_cons, ← List.count_singleton, hstore] at hcount
    simp only [outside, holders, hcount, List.count_nil] at hpool ⊢
    simp only [AsyncState.suspended] at hmap hpool ⊢
    rw [hmap]
    omega
  · exact (h.suspended q ((hmem q).mpr (Or.inr hq))).congr
      (Function.update_of_ne (hne q hq) ..) fun _ _ => rfl
  · have hq' : q ≠ p := fun hqp => hhand (List.mem_singleton.mpr hqp)
    exact (Function.update_of_ne hq' ..).trans
      (h.bare q (fun hmem' => ((hmem q).mp hmem').elim hq' hq) List.not_mem_nil href)

theorem Conserves.resumePacketHandling {p : ℕ} (h : s.Conserves C P (p :: running) [] []) :
    ∃ s', resumePacketHandling C P s p = some s' ∧ s'.Conserves C P running [] [] := by
  obtain ⟨hcrypto, store, phase, hprepended, hsaved, -, hresume⟩ := h.resume
  unfold T4P4S.resumePacketHandling
  rw [hprepended]
  dsimp only
  rw [hsaved]
  refine (hresume ⟨p, some store, phase + 1⟩).doHandlePacketAsync (fun _ => hcrypto)
    (Function.update_self ..) ?_
  -- The phase is at least 1 by now, so a jump goes to the loop that resumes the packets.
  exact if_neg (Nat.succ_ne_zero phase)

theorem Conserves.foldlM {done : List ℕ} (h : s.Conserves C P done [] []) :
    ∃ s', done.foldlM (T4P4S.resumePacketHandling C P) s = some s' ∧
      s'.Conserves C P [] [] [] := by
  induction done generalizing s with
  | nil => exact ⟨s, rfl, h⟩
  | cons p done ih =>
    obtain ⟨s₁, hs₁, h₁⟩ := h.resumePacketHandling
    obtain ⟨s', hs', h'⟩ := ih h₁
    refine ⟨s', ?_, h'⟩
    rw [List.foldlM_cons, hs₁]
    exact hs'

theorem dequeue_perm {done device : List ℕ} (hdone : done.Subperm device) :
    (device.diff done ++ done).Perm device :=
  List.perm_append_comm.trans
    (List.subperm_append_diff_self_of_count_le fun p _ => hdone.count_le p)

/-- The device gives back some of its operations. -/
theorem Conserves.dequeue {done : List ℕ} (h : s.Conserves C P [] [] [])
    (hdone : done.Subperm s.device) :
    Conserves C P done [] []
      { s with device := s.device.diff done, dequeued := s.dequeued + done.length } := by
  have hperm : (s.asyncQueue ++ s.device.diff done ++ done).Perm (s.suspended []) := by
    rw [AsyncState.suspended, List.append_nil, List.append_assoc]
    exact (dequeue_perm hdone).append_left _
  exact { h.move hperm with }

theorem Conserves.mainLoopAsync {done : List ℕ} (h : s.Conserves C P [] [] [])
    (hdone : s.Possible C P (.mainLoopAsync done)) :
    ∃ s', mainLoopAsync C P done s = some s' ∧ s'.Conserves C P [] [] [] := by
  have hqueue := h.freeFinishedContexts.enqueueAsyncOperations
  unfold AsyncState.Possible at hdone
  rw [T4P4S.mainLoopAsync, dequeueFinishedAsyncOperations]
  generalize T4P4S.enqueueAsyncOperations C (T4P4S.freeFinishedContexts C s) = s₁
    at hqueue hdone ⊢
  split
  next havail =>
    have hdone' := hdone havail
    obtain ⟨s', hs', h'⟩ := (hqueue.dequeue hdone'.1).foldlM
    rw [if_pos hdone', hs']
    exact ⟨_, rfl, { h' with }⟩
  next => exact ⟨s₁, rfl, hqueue⟩

/-! ### The operations on the device -/

variable {burst : ℕ}

theorem Counts.mainLoopPostSingleTxAsync (h : s.Counts burst) :
    (mainLoopPostSingleTxAsync C s).Counts burst := by
  rw [T4P4S.mainLoopPostSingleTxAsync]
  cases s.pd.store with
  | none => exact h
  | some store =>
    cases C.asyncMode with
    | pd => exact { h with }
    | context =>
      dsimp only
      split <;> exact { h with }

theorem Counts.doSingleTxAsync (h : s.Counts burst) :
    (doSingleTxAsync C P s).Counts burst := by
  rw [T4P4S.doSingleTxAsync]
  refine Counts.mainLoopPostSingleTxAsync ?_
  split <;> exact { h with }

theorem Counts.enqueuePacketForAsync {store : ℕ} (h : s.Counts burst) :
    (enqueuePacketForAsync s store).Counts burst := by
  rw [T4P4S.enqueuePacketForAsync]
  split <;> exact { h with }

/-- Handling a packet does not touch the operations on the device. -/
theorem Counts.doHandlePacketAsync {here : JumpPoint} (h : s.Counts burst)
    (hs' : doHandlePacketAsync C P here s = some s') : s'.Counts burst := by
  obtain rfl | ⟨store, -, -, rfl⟩ := doHandlePacketAsync_cases hs'
  · exact h.doSingleTxAsync
  · exact Counts.enqueuePacketForAsync { h with }

theorem Counts.asyncHandlePacket {got : Option ℕ} (h : s.Counts burst)
    (hs' : asyncHandlePacket C P got s = some s') : s'.Counts burst := by
  unfold T4P4S.asyncHandlePacket at hs'
  dsimp only at hs'
  split at hs'
  · cases got with
    | none => exact Option.some.inj hs' ▸ { h with }
    | some store =>
      dsimp only at hs'
      split at hs'
      · refine Counts.doHandlePacketAsync ?_ hs'
        exact { h with }
      · cases hs'
  · refine Counts.doHandlePacketAsync ?_ hs'
    exact { h with }

theorem Counts.foldlM {done : List ℕ} (h : s.Counts burst)
    (hs' : done.foldlM (T4P4S.resumePacketHandling C P) s = some s') : s'.Counts burst := by
  induction done generalizing s with
  | nil => exact Option.some.inj hs' ▸ h
  | cons p done ih =>
    rw [List.foldlM_cons] at hs'
    obtain ⟨s₁, hs₁, hs'⟩ := Option.bind_eq_some_iff.mp hs'
    refine ih ?_ hs'
    unfold T4P4S.resumePacketHandling at hs₁
    split at hs₁
    · cases hs₁
    · refine Counts.doHandlePacketAsync ?_ hs₁
      exact { h with }

theorem Counts.mainLoopAsync {done : List ℕ} (h : s.Counts 0)
    (hs' : mainLoopAsync C P done s = some s') : s'.Counts 0 := by
  have hfree : (freeFinishedContexts C s).Counts 0 := by
    rw [freeFinishedContexts]
    split <;> exact { h with }
  have hqueue : (enqueueAsyncOperations C (freeFinishedContexts C s)).Counts 0 := by
    rw [enqueueAsyncOperations]
    split
    · have hdevice := hfree.device
      have hsubmitted := hfree.submitted
      constructor
      · dsimp only
        rw [List.length_append]
        omega
      · dsimp only
        omega
    · exact hfree
  rw [T4P4S.mainLoopAsync, dequeueFinishedAsyncOperations] at hs'
  split at hs'
  · split at hs'
    next hdone =>
      obtain ⟨s₁, hs₁, rfl⟩ := Option.map_eq_some_iff.mp hs'
      -- While packets are resumed, those of this round are still in `pending_crypto`.
      have hlen := (dequeue_perm hdone.1).length_eq
      have h₁ : s₁.Counts done.length := by
        refine Counts.foldlM ?_ hs₁
        have hdevice := hqueue.device
        have hsubmitted := hqueue.submitted
        rw [List.length_append] at hlen
        constructor <;> dsimp only <;> omega
      have hdevice := h₁.device
      have hsubmitted := h₁.submitted
      constructor <;> dsimp only <;> omega
    next => cases hs'
  · exact Option.some.inj hs' ▸ hqueue

/-! ### What is turned away -/

/-- The rings get no emptier, and only a full one turns something away. -/
structure FillsRings (C : AsyncConf) (s s' : AsyncState) : Prop where
  queue_le : s.asyncQueue.length ≤ s'.asyncQueue.length
  ring_le : s.contextFreeCommandRing.length ≤ s'.contextFreeCommandRing.length
  refused : s'.refused ≠ s.refused → s'.QueueFull
  strayed : s'.strayed ≠ s.strayed → s'.QueueFull ∨ s'.CommandRingFull C

theorem FillsRings.of_eq (hqueue : s.asyncQueue.length ≤ s'.asyncQueue.length)
    (hring : s.contextFreeCommandRing.length ≤ s'.contextFreeCommandRing.length)
    (hrefused : s'.refused = s.refused) (hstrayed : s'.strayed = s.strayed) :
    FillsRings C s s' :=
  ⟨hqueue, hring, fun h => absurd hrefused h, fun h => absurd hstrayed h⟩

theorem FillsRings.refl (s : AsyncState) : FillsRings C s s := .of_eq le_rfl le_rfl rfl rfl

theorem FillsRings.trans {s'' : AsyncState} (h : FillsRings C s s') (h' : FillsRings C s' s'') :
    FillsRings C s s'' := by
  refine ⟨h.queue_le.trans h'.queue_le, h.ring_le.trans h'.ring_le, fun hne => ?_, fun hne => ?_⟩
  · by_cases hlast : s''.refused = s'.refused
    · exact (h.refused (hlast ▸ hne)).trans h'.queue_le
    · exact h'.refused hlast
  · by_cases hlast : s''.strayed = s'.strayed
    · exact (h.strayed (hlast ▸ hne)).imp (·.trans h'.queue_le) (·.trans h'.ring_le)
    · exact h'.strayed hlast

theorem possible_of_step {e : AsyncEvent} (hs' : s.step C P e = some s') : s.Possible C P e := by
  cases e with
  | packet got =>
    rintro hcrypto store rfl
    by_contra hmem
    simp only [AsyncState.step, asyncHandlePacket, hcrypto, hmem] at hs'
    cases hs'
  | mainLoopAsync done =>
    intro havail
    by_contra hdone
    rw [AsyncState.step, mainLoopAsync, dequeueFinishedAsyncOperations, if_pos havail,
      if_neg hdone] at hs'
    cases hs'

/-- Whatever the pool and the device give, the event leads to a state, and neither a packet
nor a store is lost or doubled. -/
theorem step_conserves {e : AsyncEvent} (h : s.Conserves C P [] [] [])
    (he : s.Possible C P e) :
    ∃ s', s.step C P e = some s' ∧ s'.Conserves C P [] [] [] := by
  cases e with
  | packet got => exact h.asyncHandlePacket he
  | mainLoopAsync done => exact h.mainLoopAsync he

theorem Counts.step {e : AsyncEvent} (h : s.Counts 0) (hs' : s.step C P e = some s') :
    s'.Counts 0 := by
  cases e with
  | packet got => exact h.asyncHandlePacket hs'
  | mainLoopAsync done => exact h.mainLoopAsync hs'

theorem init_conserves : (AsyncState.init C).Conserves C P [] [] [] := by
  have hpool : ∀ store, (List.range C.poolSize).count store =
      if store < C.poolSize then 1 else 0 := by
    intro store
    rw [List.nodup_range.count]
    simp only [List.mem_range]
  refine ⟨fun p => ?_, fun st => ?_, fun st => ?_, fun p hp => ?_, fun _ _ _ _ => rfl,
    fun _ => rfl⟩
  · exact (if_neg (Nat.not_lt_zero p)).symm
  · exact hpool st
  · exact (hpool st).trans (Nat.zero_add _).symm
  · cases hp

theorem inductive_conserves :
    (asyncSystem C P).Inductive fun s => s.Conserves C P [] [] [] ∧ s.Counts 0 where
  init := by
    rintro s rfl
    exact ⟨init_conserves, rfl, rfl⟩
  step := by
    -- An event that leads to a state is possible, and a possible event keeps the accounts.
    rintro s s' ⟨h, hcounts⟩ ⟨e, hs'⟩
    obtain ⟨s'', hs'', h'⟩ := step_conserves h (possible_of_step hs')
    exact ⟨Option.some.inj (hs''.symm.trans hs') ▸ h', hcounts.step hs'⟩

end AsyncState

open AsyncState

/-- The mode `ASYNC_MODE_CONTEXT`, with the other settings as they are by default. -/
def contextConf : AsyncConf where
  asyncMode := .context
  cryptoBurstSize := 64
  cryptoBurstSize_pos := by decide
  cryptoContextPoolSize := 1
  cryptoContextPoolSize_pos := by decide
  contextFreeCommandRingSize := 32
  cryptoDeviceAvailable := true

/-- The packets require crypto, and go through `operations` operations each. -/
def forwardAfter (operations : ℕ) : CryptoProgram where
  packetRequiresCrypto := fun _ => true
  operations := fun _ => operations
  isPacketDropped := fun _ => false

theorem mem_pool_init {store : ℕ} : store ∈ (AsyncState.init C).pool ↔ store < C.poolSize :=
  List.mem_range

/-- A packet for which the pool has a store. -/
theorem step_packet_some {s : AsyncState} {store : ℕ}
    (hcrypto : P.packetRequiresCrypto s.received) (hstore : store ∈ s.pool) :
    s.step C P (.packet (some store)) =
      doHandlePacketAsync C P .mainLoop
        { s with
          pd := ⟨s.received, some store, 0⟩
          received := s.received + 1
          pool := s.pool.erase store
          taken := store :: s.taken } := by
  unfold AsyncState.step asyncHandlePacket
  dsimp only
  rw [if_pos hcrypto, if_pos hstore]

end T4P4S
