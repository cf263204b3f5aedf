/-
Whether the asynchronous handling of packets comes to an end.

When there are no more packets, `core_is_working` lets the main loop go on as long as there
is a task in `async_queue` or an operation on the device.  The two steps of
`main_loop_async` that move them wait for as many as `CRYPTO_BURST_SIZE`.

* **`noneStranded_iff`** — they never wait in vain, and `main_loop_async` drains all packets,
  iff the bursts are of one packet and there is a device, or there is nothing to do.
-/
import Mathlib.Algebra.GroupWithZero.Nat
import T4P4S.Async

open Transition

namespace T4P4S

variable (C : AsyncConf) (P : CryptoProgram)

/-! ### The main loop at the end of a run -/

/-- `core_is_working`, without the limit on the iterations that it has for debugging. -/
def coreIsWorking (fakeEnd : Bool) (s : AsyncState) : Bool :=
  !fakeEnd || decide (s.pendingCrypto > 0) || decide (s.asyncQueue.length > 0)

namespace AsyncState

/-- One of the two steps moves a packet, for some of the results that the device has. -/
def CanMove (s : AsyncState) : Prop :=
  enqueueAsyncOperations C s ≠ s ∨
    ∃ done s', dequeueFinishedAsyncOperations C P done s = some s' ∧ s' ≠ s

end AsyncState

/-- Rounds of `main_loop_async` without new packets, in which `done` is what the device gives
back.  Again and again it gives something if it is asked. -/
structure Rounds (run : ℕ → AsyncState) (done : ℕ → List ℕ) : Prop where
  step : ∀ n, mainLoopAsync C P (done n) (run n) = some (run (n + 1))
  results : ∀ n, ∃ m ≥ n,
    C.cryptoDeviceAvailable ∧ C.cryptoBurstSize ≤
        (enqueueAsyncOperations C (freeFinishedContexts C (run m))).pendingCrypto →
      done m ≠ []

/-- As long as a packet waits some step can move one, and in the end none waits. -/
def NoneStranded : Prop :=
  ∀ s, (asyncSystem C P).Reachable s →
    (coreIsWorking true s → s.CanMove C P) ∧
      ∀ run done, run 0 = s → Rounds C P run done →
        ∃ N, ∀ n ≥ N, coreIsWorking true (run n) = false

/-! ### What is left to do -/

namespace AsyncState

/-- How many operations are left for a suspended packet, the one that it waits for included. -/
def operationsLeft (s : AsyncState) (p : ℕ) : ℕ :=
  match s.prepended p with
  | [] => 0
  | store :: _ => P.operations p - (s.saved store).programRestorePhase

/-- How often a packet is moved at most.  Each operation left is two moves, but for the one
that is on the device already. -/
def rank (running : List ℕ) (s : AsyncState) : ℕ :=
  (s.asyncQueue.map fun p => 2 * s.operationsLeft P p).sum +
    ((s.device ++ running).map fun p => 2 * s.operationsLeft P p - 1).sum

variable {C P} {s s' : AsyncState} {running hand own : List ℕ}

theorem operationsLeft_eq {p store phase : ℕ} {pd : AsyncDescriptor} {rest : List ℕ}
    (hprepended : s.prepended p = store :: rest) (hsaved : s.saved store = pd)
    (hphase : pd.programRestorePhase = phase) :
    s.operationsLeft P p = P.operations p - phase := by
  rw [operationsLeft, hprepended]
  dsimp only
  rw [hsaved, hphase]

theorem Suspended.operationsLeft_pos {p : ℕ} (h : s.Suspended P p) :
    0 < s.operationsLeft P p := by
  obtain ⟨-, store, phase, hprepended, hsaved, hphase⟩ := h
  rw [operationsLeft_eq hprepended hsaved rfl]
  exact Nat.sub_pos_of_lt hphase

theorem Suspended.operationsLeft_congr {q : ℕ} (h : s.Suspended P q)
    (hprepended : s'.prepended q = s.prepended q)
    (hsaved : ∀ store, s.prepended q = [store] → s'.saved store = s.saved store) :
    s'.operationsLeft P q = s.operationsLeft P q := by
  obtain ⟨-, store, phase, hq, hstore, -⟩ := h
  rw [operationsLeft_eq hq hstore rfl,
    operationsLeft_eq (hprepended.trans hq) ((hsaved store hq).trans hstore) rfl]

theorem rank_congr (hqueue : s'.asyncQueue = s.asyncQueue) (hdevice : s'.device = s.device)
    (hleft : ∀ p ∈ s.suspended running, s'.operationsLeft P p = s.operationsLeft P p) :
    s'.rank P running = s.rank P running := by
  have hqueue' : ∀ p ∈ s.asyncQueue, 2 * s'.operationsLeft P p = 2 * s.operationsLeft P p := by
    intro p hp
    rw [hleft p (List.mem_append_left _ (List.mem_append_left _ hp))]
  have hdevice' : ∀ p ∈ s.device ++ running,
      2 * s'.operationsLeft P p - 1 = 2 * s.operationsLeft P p - 1 := by
    intro p hp
    rw [hleft p]
    rw [AsyncState.suspended, List.append_assoc]
    exact List.mem_append_right _ hp
  rw [rank, rank, hqueue, hdevice, List.map_congr_left hqueue', List.map_congr_left hdevice']

/-! ### Handling a packet -/

theorem rank_doSingleTxAsync : (doSingleTxAsync C P s).rank P running = s.rank P running := by
  have hframe : ∀ s, (mainLoopPostSingleTxAsync C s).rank P running = s.rank P running := by
    intro s
    rw [mainLoopPostSingleTxAsync]
    cases s.pd.store with
    | none => rfl
    | some store =>
      cases C.asyncMode with
      | pd => rfl
      | context =>
        dsimp only
        split <;> rfl
  rw [doSingleTxAsync, hframe]
  split <;> rfl

theorem rank_cons (s : AsyncState) (p : ℕ) (running : List ℕ) :
    s.rank P (p :: running) = s.rank P running + (2 * s.operationsLeft P p - 1) := by
  have hperm : (s.device ++ p :: running).Perm (p :: (s.device ++ running)) := List.perm_middle
  have hsum := (hperm.map fun p => 2 * s.operationsLeft P p - 1).sum_nat
  rw [List.map_cons, List.sum_cons] at hsum
  rw [rank, hsum, rank]
  omega

theorem rank_queue (s : AsyncState) (p : ℕ) :
    rank P running { s with asyncQueue := s.asyncQueue ++ [p] } =
      s.rank P running + 2 * s.operationsLeft P p := by
  change ((s.asyncQueue ++ [p]).map fun p => 2 * s.operationsLeft P p).sum +
    ((s.device ++ running).map fun p => 2 * s.operationsLeft P p - 1).sum = _
  rw [List.map_append, List.sum_append, List.map_singleton, List.sum_singleton, rank]
  omega

/-- The packet goes into the queue with the operations that are left, if there is room. -/
theorem rank_enqueuePacketForAsync_le {p store : ℕ} (phase : ℕ)
    (h : s.Conserves C P running [p] [store]) (hbare : s.prepended p = []) :
    (enqueuePacketForAsync
      { s with saved := Function.update s.saved store ⟨p, some store, phase⟩ } store).rank
        P running ≤ s.rank P running + 2 * (P.operations p - phase) := by
  let s₁ : AsyncState := { s with
    saved := Function.update s.saved store ⟨p, some store, phase⟩
    prepended := Function.update s.prepended p [store] }
  have hsave : s₁.rank P running = s.rank P running :=
    rank_congr rfl rfl fun q hq =>
      have hframe := h.save_frame ⟨p, some store, phase⟩ hq
      (h.suspended q hq).operationsLeft_congr hframe.1 hframe.2
  have hleft : s₁.operationsLeft P p = P.operations p - phase :=
    operationsLeft_eq (Function.update_self ..) (Function.update_self ..) rfl
  rw [enqueuePacketForAsync]
  simp only [Function.update_self, hbare]
  split
  · refine (rank_queue s₁ p).le.trans ?_
    rw [hsave, hleft]
  · exact hsave.le.trans (Nat.le_add_right _ _)

theorem rank_doHandlePacketAsync_le {here : JumpPoint}
    (h : s.Conserves C P running [s.pd.wrapper] s.pd.store.toList)
    (hbare : s.prepended s.pd.wrapper = [])
    (hs' : doHandlePacketAsync C P here s = some s') :
    s'.rank P running ≤
      s.rank P running + 2 * (P.operations s.pd.wrapper - s.pd.programRestorePhase) := by
  obtain rfl | ⟨store, hstore, -, rfl⟩ := doHandlePacketAsync_cases hs'
  · exact rank_doSingleTxAsync.le.trans (Nat.le_add_right _ _)
  · have hpd : s.pd = ⟨s.pd.wrapper, some store, s.pd.programRestorePhase⟩ := by rw [← hstore]
    rw [hstore, Option.toList_some] at h
    have hrank := rank_enqueuePacketForAsync_le s.pd.programRestorePhase h hbare
    rwa [← hpd] at hrank

/-- A packet whose results are there has been moved when it is taken up again. -/
theorem rank_resumePacketHandling_lt {p : ℕ} (h : s.Conserves C P (p :: running) [] [])
    (hs' : resumePacketHandling C P s p = some s') :
    s'.rank P running < s.rank P (p :: running) := by
  obtain ⟨-, store, phase, hprepended, hsaved, hphase, hresume⟩ := h.resume
  have hhand := hresume ⟨p, some store, phase + 1⟩
  unfold resumePacketHandling at hs'
  rw [hprepended] at hs'
  dsimp only at hs'
  rw [hsaved] at hs'
  have hrank := rank_doHandlePacketAsync_le hhand (Function.update_self ..) hs'
  have hframe : rank P running { s with
      prepended := Function.update s.prepended p [], pd := ⟨p, some store, phase + 1⟩ } =
      s.rank P running := by
    refine rank_congr rfl rfl ?_
    intro q hq
    have hsus : q ∈ s.suspended (p :: running) := List.perm_middle.mem_iff.mpr
      (List.mem_cons_of_mem p hq)
    exact (h.suspended q hsus).operationsLeft_congr
      (Function.update_of_ne (hhand.ne_of_mem_hand List.mem_cons_self hq) ..) fun _ _ => rfl
  rw [hframe] at hrank
  rw [rank_cons, operationsLeft_eq hprepended hsaved rfl]
  dsimp only at hrank ⊢
  omega

theorem rank_foldlM_le {done : List ℕ} (h : s.Conserves C P done [] [])
    (hs' : done.foldlM (resumePacketHandling C P) s = some s') :
    s'.rank P [] + done.length ≤ s.rank P done := by
  induction done generalizing s with
  | nil => exact (Option.some.inj hs' ▸ le_rfl : s'.rank P [] ≤ s.rank P [])
  | cons p done ih =>
    rw [List.foldlM_cons] at hs'
    obtain ⟨s₁, hs₁, hs'⟩ := Option.bind_eq_some_iff.mp hs'
    obtain ⟨s₂, hs₂, h₂⟩ := h.resumePacketHandling
    obtain rfl : s₂ = s₁ := Option.some.inj (hs₂.symm.trans hs₁)
    have hfirst := rank_resumePacketHandling_lt h hs₁
    have hrest := ih h₂ hs'
    rw [List.length_cons]
    omega

/-! ### Rounds -/

theorem sum_map_sub_one {l : List ℕ} {f : ℕ → ℕ} (hf : ∀ p ∈ l, 0 < f p) :
    (l.map fun p => f p - 1).sum + l.length = (l.map f).sum := by
  induction l with
  | nil => rfl
  | cons p l ih =>
    have hp := hf p List.mem_cons_self
    have hl := ih fun q hq => hf q (List.mem_cons_of_mem p hq)
    rw [List.map_cons, List.map_cons, List.sum_cons, List.sum_cons, List.length_cons]
    omega

/-- A burst that goes to the device. -/
theorem rank_enqueueAsyncOperations_lt (h : s.Conserves C P [] [] [])
    (hmove : C.cryptoDeviceAvailable ∧ C.cryptoBurstSize ≤ s.asyncQueue.length) :
    (enqueueAsyncOperations C s).rank P [] < s.rank P [] := by
  have hpos : ∀ p ∈ s.asyncQueue.take C.cryptoBurstSize, 0 < 2 * s.operationsLeft P p := by
    intro p hp
    have hsus : p ∈ s.suspended [] :=
      List.mem_append_left _ (List.mem_append_left _ (List.mem_of_mem_take hp))
    exact Nat.mul_pos (Nat.succ_pos 1) (h.suspended p hsus).operationsLeft_pos
  have htake := sum_map_sub_one hpos
  have hlen : (s.asyncQueue.take C.cryptoBurstSize).length = C.cryptoBurstSize :=
    List.length_take_of_le hmove.2
  have hB := C.cryptoBurstSize_pos
  have hqueue : (s.asyncQueue.map fun p => 2 * s.operationsLeft P p).sum =
      ((s.asyncQueue.take C.cryptoBurstSize).map fun p => 2 * s.operationsLeft P p).sum +
        ((s.asyncQueue.drop C.cryptoBurstSize).map fun p => 2 * s.operationsLeft P p).sum := by
    rw [← List.sum_append, ← List.map_append, List.take_append_drop]
  rw [enqueueAsyncOperations, if_pos hmove, rank, rank, hqueue]
  change ((s.asyncQueue.drop C.cryptoBurstSize).map fun p => 2 * s.operationsLeft P p).sum +
    ((s.device ++ s.asyncQueue.take C.cryptoBurstSize ++ []).map fun p =>
      2 * s.operationsLeft P p - 1).sum < _
  rw [List.append_nil, List.append_nil, List.map_append, List.sum_append]
  omega

theorem rank_enqueueAsyncOperations_le (h : s.Conserves C P [] [] []) :
    (enqueueAsyncOperations C s).rank P [] ≤ s.rank P [] := by
  by_cases hmove : C.cryptoDeviceAvailable ∧ C.cryptoBurstSize ≤ s.asyncQueue.length
  · exact (rank_enqueueAsyncOperations_lt h hmove).le
  · rw [enqueueAsyncOperations, if_neg hmove]

theorem rank_dequeueFinishedAsyncOperations_le {done : List ℕ} (h : s.Conserves C P [] [] [])
    (havail : C.cryptoDeviceAvailable ∧ C.cryptoBurstSize ≤ s.pendingCrypto)
    (hs' : dequeueFinishedAsyncOperations C P done s = some s') :
    s'.rank P [] + done.length ≤ s.rank P [] := by
  rw [dequeueFinishedAsyncOperations, if_pos havail] at hs'
  split at hs'
  next hdone =>
    obtain ⟨s₁, hs₁, rfl⟩ := Option.map_eq_some_iff.mp hs'
    have hrank := rank_foldlM_le (h.dequeue hdone.1) hs₁
    have hperm := (dequeue_perm hdone.1).map fun p => 2 * s.operationsLeft P p - 1
    have hdequeue : rank P done
        { s with device := s.device.diff done, dequeued := s.dequeued + done.length } =
        s.rank P [] := by
      rw [rank, rank, List.append_nil, ← hperm.sum_nat]
      rfl
    rw [hdequeue] at hrank
    exact hrank
  next => cases hs'

theorem freeFinishedContexts_frame :
    (freeFinishedContexts C s).asyncQueue = s.asyncQueue ∧
      (freeFinishedContexts C s).pendingCrypto = s.pendingCrypto ∧
      (freeFinishedContexts C s).rank P [] = s.rank P [] := by
  rw [freeFinishedContexts]
  split
  · exact ⟨rfl, rfl, rfl⟩
  · exact ⟨rfl, rfl, rfl⟩

theorem le_pendingCrypto_enqueueAsyncOperations :
    s.pendingCrypto ≤ (enqueueAsyncOperations C s).pendingCrypto := by
  rw [enqueueAsyncOperations]
  split
  · exact Nat.le_add_right _ _
  · exact le_rfl

/-- A round of the main loop moves what it can. -/
theorem rank_mainLoopAsync {done : List ℕ} (h : s.Conserves C P [] [] [])
    (hs' : mainLoopAsync C P done s = some s') :
    s'.rank P [] ≤ s.rank P [] ∧
      (C.cryptoDeviceAvailable ∧ C.cryptoBurstSize ≤ s.asyncQueue.length →
        s'.rank P [] < s.rank P []) ∧
      (C.cryptoDeviceAvailable ∧ C.cryptoBurstSize ≤
          (enqueueAsyncOperations C (freeFinishedContexts C s)).pendingCrypto →
        done ≠ [] → s'.rank P [] < s.rank P []) := by
  obtain ⟨hqueue, -, hrank⟩ := freeFinishedContexts_frame (C := C) (P := P) (s := s)
  have hfree := h.freeFinishedContexts
  have henqueue := rank_enqueueAsyncOperations_le hfree
  have hlt := rank_enqueueAsyncOperations_lt hfree
  rw [hqueue, hrank] at hlt
  rw [hrank] at henqueue
  have h₁ := hfree.enqueueAsyncOperations
  rw [mainLoopAsync] at hs'
  generalize enqueueAsyncOperations C (freeFinishedContexts C s) = s₁ at *
  by_cases havail : C.cryptoDeviceAvailable ∧ C.cryptoBurstSize ≤ s₁.pendingCrypto
  · have hdequeue := rank_dequeueFinishedAsyncOperations_le h₁ havail hs'
    refine ⟨by omega, ?_, ?_⟩
    · intro hmove
      have hlt' := hlt hmove
      omega
    · intro _ hdone
      have hlen := List.length_pos_iff.mpr hdone
      omega
  · rw [dequeueFinishedAsyncOperations, if_neg havail] at hs'
    obtain rfl := Option.some.inj hs'
    exact ⟨henqueue, hlt, fun havail' => absurd havail' havail⟩

theorem coreIsWorking_true_iff :
    coreIsWorking true s = true ↔ 0 < s.asyncQueue.length ∨ 0 < s.pendingCrypto := by
  rw [coreIsWorking, Bool.not_true, Bool.false_or, Bool.or_eq_true, decide_eq_true_iff,
    decide_eq_true_iff, or_comm]

theorem coreIsWorking_iff_rank_pos (h : s.Conserves C P [] [] []) (hcounts : s.Counts 0) :
    coreIsWorking true s = true ↔ 0 < s.rank P [] := by
  have hpos : ∀ p ∈ s.suspended [], 0 < s.operationsLeft P p := fun p hp =>
    (h.suspended p hp).operationsLeft_pos
  rw [coreIsWorking_true_iff, hcounts.device, Nat.add_zero]
  unfold AsyncState.suspended at hpos
  rw [rank]
  cases hqueue : s.asyncQueue with
  | cons p queue =>
    have hp := hpos p (by rw [hqueue]; exact List.mem_cons_self)
    rw [List.map_cons, List.sum_cons, List.length_cons]
    constructor <;> omega
  | nil =>
    cases hdevice : s.device with
    | cons p device =>
      have hp := hpos p (by rw [hqueue, hdevice]; exact List.mem_cons_self)
      rw [List.cons_append, List.map_cons, List.sum_cons, List.length_cons]
      constructor <;> omega
    | nil => simp

end AsyncState

open AsyncState

variable {C P}

/-! ### Bursts of one packet -/

theorem canMove_of_coreIsWorking {s : AsyncState} (h : s.Conserves C P [] [] [])
    (hcounts : s.Counts 0) (hconf : C.cryptoBurstSize = 1 ∧ C.cryptoDeviceAvailable)
    (hworking : coreIsWorking true s = true) : s.CanMove C P := by
  by_cases hqueue : 0 < s.asyncQueue.length
  · refine Or.inl ?_
    intro heq
    have hlt := rank_enqueueAsyncOperations_lt h ⟨hconf.2, hconf.1.symm ▸ hqueue⟩
    exact (heq ▸ hlt).false
  · have hpending := (coreIsWorking_true_iff.mp hworking).resolve_left hqueue
    have havail : C.cryptoDeviceAvailable ∧ C.cryptoBurstSize ≤ s.pendingCrypto :=
      ⟨hconf.2, hconf.1.symm ▸ hpending⟩
    rw [hcounts.device, Nat.add_zero] at hpending
    obtain ⟨p, hp⟩ := List.exists_mem_of_length_pos hpending
    have hdone : [p].Subperm s.device ∧ [p].length ≤ C.cryptoBurstSize :=
      ⟨List.singleton_subperm_iff.mpr hp, hconf.1.symm ▸ le_rfl⟩
    obtain ⟨s₁, hs₁, -⟩ := (h.dequeue hdone.1).foldlM
    have hs' : dequeueFinishedAsyncOperations C P [p] s =
        some { s₁ with pendingCrypto := s₁.pendingCrypto - [p].length } := by
      rw [dequeueFinishedAsyncOperations, if_pos havail, if_pos hdone, hs₁]
      rfl
    refine Or.inr ⟨[p], _, hs', ?_⟩
    intro heq
    have hrank := rank_dequeueFinishedAsyncOperations_le h havail hs'
    rw [heq, List.length_singleton] at hrank
    omega

theorem Rounds.reachable {run : ℕ → AsyncState} {done : ℕ → List ℕ} (h : Rounds C P run done)
    (hs : (asyncSystem C P).Reachable (run 0)) (n : ℕ) : (asyncSystem C P).Reachable (run n) := by
  induction n with
  | zero => exact hs
  | succ n ih => exact .step ih ⟨.mainLoopAsync (done n), h.step n⟩

theorem Rounds.drain {run : ℕ → AsyncState} {done : ℕ → List ℕ} (h : Rounds C P run done)
    (hs : (asyncSystem C P).Reachable (run 0))
    (hconf : C.cryptoBurstSize = 1 ∧ C.cryptoDeviceAvailable) :
    ∃ N, ∀ n ≥ N, coreIsWorking true (run n) = false := by
  have hinv := fun n => inductive_conserves.reachable (h.reachable hs n)
  have hround := fun n => rank_mainLoopAsync (hinv n).1 (h.step n)
  have hend : ∃ N, ∀ n ≥ N, ¬ coreIsWorking true (run n) = true := by
    refine eventually_not_of_rank (P := fun s => coreIsWorking true s = true) (rank P [])
      (fun n => (hround n).1) ?_
    intro n hworking
    by_contra hnot
    push Not at hnot
    -- If nothing moves from here on, a packet waits for ever.
    have hwait : ∀ m ≥ n, 0 < (run m).rank P [] := by
      intro m hm
      induction m, hm using Nat.le_induction with
      | base => exact (coreIsWorking_iff_rank_pos (hinv n).1 (hinv n).2).mp hworking
      | succ m hm ih => exact ih.trans_le (hnot m hm)
    obtain ⟨m, hm, hresults⟩ := h.results n
    have hworking' := (coreIsWorking_iff_rank_pos (hinv m).1 (hinv m).2).mpr (hwait m hm)
    obtain ⟨-, hqueue, hdevice⟩ := hround m
    rcases coreIsWorking_true_iff.mp hworking' with hlen | hpending
    · exact (hnot m hm).not_gt (hqueue ⟨hconf.2, hconf.1.symm ▸ hlen⟩)
    · have hle := le_pendingCrypto_enqueueAsyncOperations (C := C)
        (s := freeFinishedContexts C (run m))
      rw [(freeFinishedContexts_frame (P := P)).2.1] at hle
      have havail : C.cryptoDeviceAvailable ∧ C.cryptoBurstSize ≤
          (enqueueAsyncOperations C (freeFinishedContexts C (run m))).pendingCrypto := by
        rw [hconf.1]
        exact ⟨hconf.2, hpending.trans_le hle⟩
      exact (hnot m hm).not_gt (hdevice havail (hresults havail))
  obtain ⟨N, hN⟩ := hend
  exact ⟨N, fun n hn => Bool.eq_false_iff.mpr (hN n hn)⟩

/-! ### Nothing to do -/

theorem coreIsWorking_eq_false {s : AsyncState} (h : s.Conserves C P [] [] [])
    (hcounts : s.Counts 0) (hnone : ∀ p, P.packetRequiresCrypto p → P.operations p = 0) :
    coreIsWorking true s = false := by
  rw [Bool.eq_false_iff]
  intro hworking
  have hmem : ∃ p, p ∈ s.suspended [] := by
    rcases coreIsWorking_true_iff.mp hworking with hlen | hpending
    · obtain ⟨p, hp⟩ := List.exists_mem_of_length_pos hlen
      exact ⟨p, List.mem_append_left _ (List.mem_append_left _ hp)⟩
    · rw [hcounts.device, Nat.add_zero] at hpending
      obtain ⟨p, hp⟩ := List.exists_mem_of_length_pos hpending
      exact ⟨p, List.mem_append_left _ (List.mem_append_right _ hp)⟩
  obtain ⟨p, hp⟩ := hmem
  obtain ⟨hcrypto, store, phase, -, -, hphase⟩ := h.suspended p hp
  rw [hnone p hcrypto] at hphase
  exact Nat.not_lt_zero phase hphase

/-! ### Packets that wait in vain -/

/-- Packets for which the pool has nothing leave nothing behind. -/
theorem exists_reachable_received (n : ℕ) :
    ∃ s, (asyncSystem C P).Reachable s ∧ s.received = n ∧ s.asyncQueue = [] ∧
      s.pendingCrypto = 0 ∧ 0 ∈ s.pool := by
  induction n with
  | zero =>
    exact ⟨AsyncState.init C, .init rfl, rfl, rfl, rfl, (mem_pool_init C).mpr C.poolSize_pos⟩
  | succ n ih =>
    obtain ⟨s, hs, hreceived, hqueue, hpending, hpool⟩ := ih
    by_cases hcrypto : P.packetRequiresCrypto s.received
    · refine ⟨_, .step hs ⟨.packet none, if_pos hcrypto⟩, ?_, hqueue, hpending, hpool⟩
      exact congrArg (· + 1) hreceived
    · have hstep : s.step C P (.packet none) = some (doSingleTxAsync C P
          { s with pd := ⟨s.received, none, 0⟩, received := s.received + 1 }) := if_neg hcrypto
      refine ⟨_, .step hs ⟨.packet none, hstep⟩, ?_⟩
      rw [doSingleTxAsync]
      split
      · exact ⟨congrArg (· + 1) hreceived, hqueue, hpending, hpool⟩
      · exact ⟨congrArg (· + 1) hreceived, hqueue, hpending, hpool⟩

theorem exists_reachable_asyncQueue {p : ℕ} (hcrypto : P.packetRequiresCrypto p)
    (hoperations : P.operations p ≠ 0) :
    ∃ s, (asyncSystem C P).Reachable s ∧ s.asyncQueue = [p] ∧ s.pendingCrypto = 0 := by
  obtain ⟨s, hs, rfl, hqueue, hpending, hpool⟩ := exists_reachable_received (C := C) (P := P) p
  have hstep := step_packet_some C P hcrypto hpool
  rw [doHandlePacketAsync] at hstep
  dsimp only at hstep
  rw [if_pos (Nat.pos_of_ne_zero hoperations)] at hstep
  refine ⟨_, .step hs ⟨_, hstep.trans (doCryptoTask_eq_some rfl)⟩, ?_⟩
  rw [enqueuePacketForAsync]
  simp only [Function.update_self, hqueue]
  exact ⟨rfl, hpending⟩

/-- The first packet that goes through an operation waits for others. -/
theorem not_noneStranded {p : ℕ} (hconf : ¬ (C.cryptoBurstSize = 1 ∧ C.cryptoDeviceAvailable))
    (hcrypto : P.packetRequiresCrypto p) (hoperations : P.operations p ≠ 0) :
    ¬ NoneStranded C P := by
  intro h
  obtain ⟨s, hs, hqueue, hpending⟩ := exists_reachable_asyncQueue (C := C) hcrypto hoperations
  have hworking : coreIsWorking true s = true :=
    coreIsWorking_true_iff.mpr (Or.inl (by rw [hqueue]; exact Nat.one_pos))
  have hB := C.cryptoBurstSize_pos
  rcases (h s hs).1 hworking with hmove | ⟨done, s', hs', hmove⟩
  · refine hmove (if_neg ?_)
    rintro ⟨havail, hle⟩
    rw [hqueue, List.length_singleton] at hle
    exact hconf ⟨by omega, havail⟩
  · rw [dequeueFinishedAsyncOperations, if_neg (by rw [hpending]; omega)] at hs'
    exact hmove (Option.some.inj hs').symm

theorem noneStranded_iff :
    NoneStranded C P ↔
      (C.cryptoBurstSize = 1 ∧ C.cryptoDeviceAvailable) ∨
        ∀ p, P.packetRequiresCrypto p → P.operations p = 0 := by
  constructor
  · intro h
    by_contra hnot
    push Not at hnot
    obtain ⟨hconf, p, hcrypto, hoperations⟩ := hnot
    exact not_noneStranded (fun hconf' => hconf hconf'.1 hconf'.2) hcrypto hoperations h
  · intro hcond s hs
    obtain ⟨hinv, hcounts⟩ := inductive_conserves.reachable hs
    rcases hcond with hconf | hnone
    · refine ⟨canMove_of_coreIsWorking hinv hcounts hconf, ?_⟩
      rintro run done rfl hrounds
      exact hrounds.drain hs hconf
    · have hidle := coreIsWorking_eq_false hinv hcounts hnone
      refine ⟨fun hworking => absurd hworking (Bool.eq_false_iff.mp hidle), ?_⟩
      rintro run done rfl hrounds
      refine ⟨0, ?_⟩
      intro n _
      obtain ⟨hinv', hcounts'⟩ := inductive_conserves.reachable (hrounds.reachable hs n)
      exact coreIsWorking_eq_false hinv' hcounts' hnone

/-- One packet that goes through one operation, with bursts of 64. -/
theorem contextConf_not_noneStranded : ¬ NoneStranded contextConf (forwardAfter 1) := by
  have hcrypto : (forwardAfter 1).packetRequiresCrypto 0 := rfl
  exact not_noneStranded (by decide) hcrypto Nat.one_ne_zero

/-- The mode `ASYNC_MODE_PD` with bursts of one packet. -/
def pdConf : AsyncConf :=
  { contextConf with asyncMode := .pd, cryptoBurstSize := 1, cryptoBurstSize_pos := Nat.one_pos }

-- A packet goes through two operations, and its store is returned.
example :
    (([.packet (some 0), .mainLoopAsync [0], .mainLoopAsync [0]].foldlM
        (AsyncState.step pdConf (forwardAfter 2)) (AsyncState.init pdConf)).map
      fun s => (s.sent, s.taken, s.returned, coreIsWorking true s)) =
    some ([0], [0], [0], false) := by
  decide +kernel

end T4P4S
