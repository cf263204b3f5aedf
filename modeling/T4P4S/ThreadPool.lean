/-
The thread pool of the control plane.

`dispatch` puts a job behind the others in a linked list and wakes a worker if the
list was empty; the workers run `do_work`, which takes the first job or waits on
`q_not_empty`.  What they do under `qlock` is one step here, and so is all of `dispatch`,
although `do_work` unlocks before it calls `pthread_cond_wait` and waits without the lock:
others may run in between, but a `dispatch` is not cut in two.  `do_work` also copies
`qsize` to itself without the lock, in two steps.  `shutdown` and
`dont_accept` are 0 from `create_threadpool` on, and their branches are left out.

* **`startedOnce`** — in every run in which no copy of `qsize` meets a change, each job
  is started at most once and in order, and `qhead`, `qtail` and `qsize` describe the
  list of the others;
* **`jobLaw`** — no worker sleeps beside a queued job with no wake-up on its way, if also
  a worker that goes to wait finds `qsize` zero still, and no job comes to a list that
  is not empty while a worker waits.
-/
import T4P4S.Lib.LinkedList
import T4P4S.Lib.Transition

open LinkedList Transition

namespace T4P4S

/-- Where a thread stands in `do_work`. -/
inductive WorkerState
  /-- in front of the copy of `qsize` -/
  | starting
  /-- in the copy of `qsize`, with the value that was read -/
  | copying (qsize : ℤ)
  /-- in `pthread_mutex_lock` -/
  | locking
  /-- behind the unlock of the loop, in front of `pthread_cond_wait` -/
  | unlocked
  /-- in `pthread_cond_wait` -/
  | waiting
  /-- woken, and about to get the lock again -/
  | woken
  /-- runs the job in the `work_t` at the address -/
  | running (cur : ℕ)
  deriving DecidableEq

/-- `_threadpool` with its `n` threads, and the `work_t` on the heap.  `dispatched` and
`started` are the jobs that were, in this order.  As long as fewer than `2 ^ 31` jobs are in
the list, `qsize` is the `int` of the source. -/
structure ThreadPool (α : Type*) (n : ℕ) where
  qsize : ℤ
  qhead : Option ℕ
  qtail : Option ℕ
  next : ℕ → Option ℕ
  job : ℕ → α
  allocated : ℕ → Bool
  workers : Fin n → WorkerState
  dispatched : List α
  started : List α

variable {α : Type*} {n : ℕ}

/-- `create_threadpool`, on a heap with the given contents. -/
def createThreadpool (next : ℕ → Option ℕ) (job : ℕ → α) : ThreadPool α n where
  qsize := 0
  qhead := none
  qtail := none
  next := next
  job := job
  allocated _ := false
  workers _ := .starting
  dispatched := []
  started := []

def ThreadPool.setWorker (pool : ThreadPool α n) (w : Fin n) (state : WorkerState) :
    ThreadPool α n :=
  { pool with workers := Function.update pool.workers w state }

/-- `pthread_cond_signal` on `q_not_empty`: one of the waiting threads is woken, if there
is one. -/
def ThreadPool.signal (pool : ThreadPool α n) : Option (Fin n) → Option (ThreadPool α n)
  | some w => if pool.workers w = .waiting then some (pool.setWorker w .woken) else none
  | none => if ∀ w, pool.workers w ≠ .waiting then some pool else none

/-- `dispatch`, with what `malloc` returns and the thread that the signal wakes; `none` where
it follows a `NULL` pointer, or where these cannot be. -/
def dispatch (pool : ThreadPool α n) (cur : ℕ) (job : α) (woken : Option (Fin n)) :
    Option (ThreadPool α n) :=
  if pool.allocated cur then none
  else
    let pool := { pool with
      allocated := Function.update pool.allocated cur true
      job := Function.update pool.job cur job
      next := Function.update pool.next cur none
      dispatched := pool.dispatched ++ [job] }
    if pool.qsize = 0 then
      { pool with qhead := some cur, qtail := some cur, qsize := pool.qsize + 1 }.signal woken
    else
      pool.qtail.map fun t => { pool with
        next := Function.update pool.next t (some cur)
        qtail := some cur
        qsize := pool.qsize + 1 }

/-- What `do_work` does between getting the lock and giving it up: it takes the first job,
or goes to wait.  `none` if it follows a `NULL` pointer. -/
def takeJob (pool : ThreadPool α n) (w : Fin n) : Option (ThreadPool α n) :=
  if pool.qsize = 0 then some (pool.setWorker w .unlocked)
  else
    pool.qhead.map fun cur =>
      let qsize := pool.qsize - 1
      { pool with
        qsize := qsize
        qhead := if qsize = 0 then none else pool.next cur
        qtail := if qsize = 0 then none else pool.qtail
        started := pool.started ++ [pool.job cur] }.setWorker w (.running cur)

/-- The steps of the threads. -/
inductive WorkEvent (α : Type*) (n : ℕ)
  | dispatch (cur : ℕ) (job : α) (woken : Option (Fin n))
  /-- the first and the second half of the copy of `qsize` -/
  | load (w : Fin n)
  | store (w : Fin n)
  /-- the worker gets the lock -/
  | lock (w : Fin n)
  /-- the call of `pthread_cond_wait` -/
  | wait (w : Fin n)
  /-- a wake-up without a signal -/
  | wake (w : Fin n)
  /-- the job returns -/
  | finish (w : Fin n)

/-- One step; `none` where the event cannot happen. -/
def ThreadPool.step (pool : ThreadPool α n) : WorkEvent α n → Option (ThreadPool α n)
  | .dispatch cur job woken => T4P4S.dispatch pool cur job woken
  | .load w =>
    match pool.workers w with
    | .starting => some (pool.setWorker w (.copying pool.qsize))
    | _ => none
  | .store w =>
    match pool.workers w with
    | .copying qsize => some ({ pool with qsize := qsize }.setWorker w .locking)
    | _ => none
  | .lock w =>
    match pool.workers w with
    | .locking => takeJob pool w
    | .woken => takeJob pool w
    | _ => none
  | .wait w =>
    match pool.workers w with
    | .unlocked => some (pool.setWorker w .waiting)
    | _ => none
  | .wake w =>
    match pool.workers w with
    | .waiting => some (pool.setWorker w .woken)
    | _ => none
  | .finish w =>
    match pool.workers w with
    | .running cur =>
      some ({ pool with
        allocated := Function.update pool.allocated cur false }.setWorker w .starting)
    | _ => none

/-- Runs of a new pool whose steps meet the condition. -/
def threadpoolSystem (α : Type*) (n : ℕ) (cond : ThreadPool α n → WorkEvent α n → Prop) :
    System (ThreadPool α n) where
  init pool := ∃ next job, pool = createThreadpool next job
  step pool pool' := ∃ event, cond pool event ∧ pool.step event = some pool'

/-! ### The law -/

/-- The fields of the pool describe the list of the jobs that were dispatched and not started;
these are behind the others. -/
def ThreadPool.Describes (pool : ThreadPool α n) (queue : List ℕ) : Prop :=
  Linked pool.next pool.qhead queue none ∧ pool.qtail = queue.getLast? ∧
    pool.qsize = queue.length ∧ pool.dispatched = pool.started ++ queue.map pool.job

/-- What should hold of the pool: each job is started once, in the order in which they were
dispatched; and with a job that was not started and a thread that waits, some
thread was woken. -/
structure JobLaw (pool : ThreadPool α n) : Prop where
  queue : ∃ queue, pool.Describes queue
  awake : pool.started.length < pool.dispatched.length → (∃ w, pool.workers w = .waiting) →
    ∃ w, pool.workers w = .woken

/-- Whether `qsize` is still what it was when it was read. -/
def StoresBack (pool : ThreadPool α n) : WorkEvent α n → Prop
  | .store w => ∀ qsize, pool.workers w = .copying qsize → pool.qsize = qsize
  | _ => True

/-- Whether no wake-up is lost in the step. -/
def KeepsWakeUps (pool : ThreadPool α n) : WorkEvent α n → Prop
  | .dispatch _ _ _ => pool.qsize = 0 ∨ ∀ w, pool.workers w ≠ .waiting
  | .wait _ => pool.qsize = 0
  | _ => True

/-! ### The list of jobs -/

/-- The list is well formed, no two workers run one `work_t`, and what is in the list or run is
not free. -/
structure JobInv (pool : ThreadPool α n) (queue : List ℕ) : Prop where
  describes : pool.Describes queue
  nodup : queue.Nodup
  allocated : ∀ c ∈ queue, pool.allocated c = true
  running : ∀ w c, pool.workers w = .running c → pool.allocated c = true ∧ c ∉ queue
  unique : ∀ w w' c, pool.workers w = .running c → pool.workers w' = .running c → w = w'

section JobInv

variable {pool pool' : ThreadPool α n} {queue : List ℕ} {w : Fin n}

theorem setWorker_self (state : WorkerState) : (pool.setWorker w state).workers w = state :=
  Function.update_self ..

theorem setWorker_of_ne {v : Fin n} (hv : v ≠ w) (state : WorkerState) :
    (pool.setWorker w state).workers v = pool.workers v :=
  Function.update_of_ne hv ..

/-- A worker that ends up without a job. -/
theorem JobInv.setWorker (h : JobInv pool queue) {state : WorkerState}
    (hstate : ∀ c, state ≠ .running c) : JobInv (pool.setWorker w state) queue := by
  have hrunning : ∀ v c, (pool.setWorker w state).workers v = .running c →
      pool.workers v = .running c := by
    intro v c hv
    by_cases hvw : v = w
    · rw [hvw, setWorker_self] at hv
      exact absurd hv (hstate c)
    · rwa [setWorker_of_ne hvw] at hv
  refine ⟨h.describes, h.nodup, h.allocated, ?_, ?_⟩
  · exact fun v c hv => h.running v c (hrunning v c hv)
  · exact fun v v' c hv hv' => h.unique v v' c (hrunning v c hv) (hrunning v' c hv')

theorem JobInv.qsize_eq_zero (h : JobInv pool queue) : pool.qsize = 0 ↔ queue = [] := by
  rw [h.describes.2.2.1, Int.natCast_eq_zero, List.length_eq_zero_iff]

/-- A worker that gets the lock takes the first job, or finds none. -/
theorem JobInv.takeJob (h : JobInv pool queue) (htake : takeJob pool w = some pool') :
    queue = [] ∧ pool' = pool.setWorker w .unlocked ∨
      ∃ c rest, queue = c :: rest ∧ JobInv pool' rest ∧
        pool'.workers = Function.update pool.workers w (.running c) := by
  obtain ⟨hlinked, htail, hsize, hjobs⟩ := h.describes
  rw [T4P4S.takeJob] at htake
  cases queue with
  | nil =>
    rw [if_pos (h.qsize_eq_zero.mpr rfl)] at htake
    exact .inl ⟨rfl, (Option.some.inj htake).symm⟩
  | cons c rest =>
    have hne : ¬ pool.qsize = 0 := fun hzero => List.cons_ne_nil _ _ (h.qsize_eq_zero.mp hzero)
    rw [if_neg hne, hlinked.1] at htake
    obtain rfl := Option.some.inj htake
    obtain ⟨hcrest, hrest⟩ := List.nodup_cons.mp h.nodup
    have hlast : pool.qsize - 1 = 0 ↔ rest = [] := by
      rw [hsize, List.length_cons, ← List.length_eq_zero_iff]
      omega
    refine .inr ⟨c, rest, rfl, ⟨⟨?_, ?_, ?_, ?_⟩, hrest, ?_, ?_, ?_⟩, rfl⟩
    · show Linked pool.next (if pool.qsize - 1 = 0 then none else pool.next c) rest none
      split_ifs with hzero
      · rw [hlast.mp hzero]
        rfl
      · exact hlinked.2
    · show (if pool.qsize - 1 = 0 then none else pool.qtail) = rest.getLast?
      split_ifs with hzero
      · rw [hlast.mp hzero]
        rfl
      · rw [htail, List.getLast?_cons_of_ne_nil (fun hnil => hzero (hlast.mpr hnil))]
    · show pool.qsize - 1 = rest.length
      rw [hsize, List.length_cons]
      omega
    · show pool.dispatched = pool.started ++ [pool.job c] ++ rest.map pool.job
      rw [hjobs, List.map_cons, List.append_assoc, List.singleton_append]
    · exact fun d hd => h.allocated d (List.mem_cons_of_mem c hd)
    · intro v d hv
      by_cases hvw : v = w
      · rw [hvw, setWorker_self] at hv
        obtain rfl := WorkerState.running.inj hv
        exact ⟨h.allocated c List.mem_cons_self, hcrest⟩
      · rw [setWorker_of_ne hvw] at hv
        obtain ⟨hd, hnot⟩ := h.running v d hv
        exact ⟨hd, fun hmem => hnot (List.mem_cons_of_mem c hmem)⟩
    · -- The job of the worker was in the list, and thus nobody else's.
      have hother : ∀ v d, v ≠ w → pool.workers v = .running d → d ≠ c := by
        rintro v d - hv rfl
        exact (h.running v d hv).2 List.mem_cons_self
      intro v v' d hv hv'
      by_cases hvw : v = w <;> by_cases hvw' : v' = w
      · rw [hvw, hvw']
      · rw [hvw, setWorker_self] at hv
        rw [setWorker_of_ne hvw'] at hv'
        exact absurd (WorkerState.running.inj hv).symm (hother v' d hvw' hv')
      · rw [hvw', setWorker_self] at hv'
        rw [setWorker_of_ne hvw] at hv
        exact absurd (WorkerState.running.inj hv').symm (hother v d hvw hv)
      · rw [setWorker_of_ne hvw] at hv
        rw [setWorker_of_ne hvw'] at hv'
        exact h.unique v v' d hv hv'

/-- A new `work_t` at the end of the list. -/
theorem JobInv.concat (h : JobInv pool queue) {cur : ℕ} (hcur : ¬ pool.allocated cur)
    (hallocated : pool'.allocated = Function.update pool.allocated cur true)
    (hworkers : ∀ v c, pool'.workers v = .running c → pool.workers v = .running c)
    (hdescribes : pool'.Describes (queue ++ [cur])) : JobInv pool' (queue ++ [cur]) := by
  have hmem : cur ∉ queue := fun hmem => hcur (h.allocated cur hmem)
  have hkeep : ∀ c, pool.allocated c = true → pool'.allocated c = true ∧ c ≠ cur := by
    intro c hc
    have hne : c ≠ cur := by
      rintro rfl
      exact hcur hc
    rw [hallocated, Function.update_of_ne hne]
    exact ⟨hc, hne⟩
  refine ⟨hdescribes, ?_, ?_, ?_, ?_⟩
  · exact List.nodup_append.mpr ⟨h.nodup, List.nodup_singleton cur, fun c hc d hd heq =>
      hmem (by rwa [← List.mem_singleton.mp hd, ← heq])⟩
  · intro c hc
    rcases List.mem_append.mp hc with hc | hc
    · exact (hkeep c (h.allocated c hc)).1
    · rw [List.mem_singleton.mp hc, hallocated, Function.update_self]
  · intro v c hv
    obtain ⟨hc, hnot⟩ := h.running v c (hworkers v c hv)
    obtain ⟨hc', hne⟩ := hkeep c hc
    refine ⟨hc', fun hmem => ?_⟩
    rcases List.mem_append.mp hmem with hmem | hmem
    · exact hnot hmem
    · exact hne (List.mem_singleton.mp hmem)
  · exact fun v v' c hv hv' => h.unique v v' c (hworkers v c hv) (hworkers v' c hv')

/-- `dispatch` on an empty list wakes a worker, if one waits; otherwise it wakes none. -/
theorem JobInv.dispatch (h : JobInv pool queue) {cur : ℕ} {job : α} {woken : Option (Fin n)}
    (hdispatch : dispatch pool cur job woken = some pool') :
    JobInv pool' (queue ++ [cur]) ∧
      (queue = [] ∧ (∃ v, pool'.workers = Function.update pool.workers v .woken) ∨
        (queue = [] → ∀ v, pool.workers v ≠ .waiting) ∧ pool'.workers = pool.workers) := by
  obtain ⟨hlinked, htail, hsize, hjobs⟩ := h.describes
  rw [T4P4S.dispatch] at hdispatch
  by_cases hcur : pool.allocated cur
  · rw [if_pos hcur] at hdispatch
    exact nomatch hdispatch
  rw [if_neg hcur] at hdispatch
  have hmem : cur ∉ queue := fun hmem => hcur (h.allocated cur hmem)
  -- The jobs in the list are what they were.
  have hmap : queue.map (Function.update pool.job cur job) = queue.map pool.job := by
    refine List.map_congr_left fun c hc => Function.update_of_ne ?_ ..
    rintro rfl
    exact hmem hc
  have hdispatched : pool.dispatched ++ [job] =
      pool.started ++ (queue ++ [cur]).map (Function.update pool.job cur job) := by
    rw [List.map_append, hmap, hjobs, List.map_singleton, Function.update_self, List.append_assoc]
  have hlength : pool.qsize + 1 = ((queue ++ [cur]).length : ℕ) := by
    rw [hsize, List.length_append, List.length_singleton]
    rfl
  dsimp only at hdispatch
  by_cases hzero : pool.qsize = 0
  · obtain rfl := h.qsize_eq_zero.mp hzero
    rw [if_pos hzero] at hdispatch
    have hfirst : Linked (Function.update pool.next cur none) (some cur) [cur] none :=
      ⟨rfl, Function.update_self ..⟩
    cases woken with
    | none =>
      rw [ThreadPool.signal] at hdispatch
      split_ifs at hdispatch with hnone
      obtain rfl := Option.some.inj hdispatch
      exact ⟨h.concat hcur rfl (fun _ _ hv => hv) ⟨hfirst, rfl, hlength, hdispatched⟩,
        .inr ⟨fun _ => hnone, rfl⟩⟩
    | some v =>
      rw [ThreadPool.signal] at hdispatch
      split_ifs at hdispatch with hwaiting
      obtain rfl := Option.some.inj hdispatch
      refine ⟨h.concat hcur rfl ?_ ⟨hfirst, rfl, hlength, hdispatched⟩,
        .inl ⟨rfl, v, rfl⟩⟩
      intro v' c hv'
      by_cases hvv : v' = v
      · rw [hvv, setWorker_self] at hv'
        exact nomatch hv'
      · rwa [setWorker_of_ne hvv] at hv'
  · rw [if_neg hzero] at hdispatch
    have hne : queue ≠ [] := fun hnil => hzero (h.qsize_eq_zero.mpr hnil)
    obtain ⟨front, t, rfl⟩ := (List.eq_nil_or_concat' queue).resolve_left hne
    rw [List.getLast?_concat] at htail
    rw [htail] at hdispatch
    obtain rfl := Option.some.inj hdispatch
    have hlinked' := hlinked.concat h.nodup hmem
    refine ⟨h.concat hcur rfl (fun _ _ hv => hv) ⟨?_, ?_, hlength, hdispatched⟩, .inr
      ⟨fun hnil => absurd hnil hne, rfl⟩⟩
    · rw [List.append_assoc]
      exact hlinked'
    · exact List.getLast?_concat.symm

/-- The `work_t` of a job that has returned is free again. -/
theorem JobInv.finish (h : JobInv pool queue) {cur : ℕ} (hcur : pool.workers w = .running cur) :
    JobInv ({ pool with
      allocated := Function.update pool.allocated cur false }.setWorker w .starting) queue := by
  have hrunning : ∀ v c, (pool.setWorker w .starting).workers v = .running c →
      v ≠ w ∧ pool.workers v = .running c := by
    intro v c hv
    by_cases hvw : v = w
    · rw [hvw, setWorker_self] at hv
      exact nomatch hv
    · rw [setWorker_of_ne hvw] at hv
      exact ⟨hvw, hv⟩
  have hkeep : ∀ c, c ≠ cur → pool.allocated c = true →
      Function.update pool.allocated cur false c = true := by
    intro c hc hallocated
    rw [Function.update_of_ne hc]
    exact hallocated
  refine ⟨h.describes, h.nodup, ?_, ?_, ?_⟩
  · intro c hc
    refine hkeep c ?_ (h.allocated c hc)
    rintro rfl
    exact (h.running w c hcur).2 hc
  · intro v c hv
    obtain ⟨hvw, hv'⟩ := hrunning v c hv
    obtain ⟨hallocated, hnot⟩ := h.running v c hv'
    refine ⟨hkeep c ?_ hallocated, hnot⟩
    rintro rfl
    exact hvw (h.unique v w c hv' hcur)
  · exact fun v v' c hv hv' => h.unique v v' c (hrunning v c hv).2 (hrunning v' c hv').2

/-! ### Wake-ups -/

/-- With a worker that waits, there is one job at most, and some worker was woken for it. -/
def Awake (pool : ThreadPool α n) (queue : List ℕ) : Prop :=
  (∃ v, pool.workers v = .waiting) →
    queue.length ≤ 1 ∧ (queue ≠ [] → ∃ v, pool.workers v = .woken)

theorem awake_nil (pool : ThreadPool α n) : Awake pool [] :=
  fun _ => ⟨Nat.zero_le 1, fun hne => absurd rfl hne⟩

/-- A worker that was not woken does something else than to wait. -/
theorem Awake.setWorker (h : Awake pool queue) {state : WorkerState}
    (hwoken : pool.workers w ≠ .woken) (hstate : state ≠ .waiting) :
    Awake (pool.setWorker w state) queue := by
  rintro ⟨v, hv⟩
  have hvw : v ≠ w := by
    rintro rfl
    rw [setWorker_self] at hv
    exact hstate hv
  rw [setWorker_of_ne hvw] at hv
  obtain ⟨hlength, hawake⟩ := h ⟨v, hv⟩
  refine ⟨hlength, fun hne => ?_⟩
  obtain ⟨u, hu⟩ := hawake hne
  refine ⟨u, ?_⟩
  have huw : u ≠ w := by
    rintro rfl
    exact hwoken hu
  rw [setWorker_of_ne huw]
  exact hu

/-! ### Steps -/

/-- What a step does to the list, and to the wake-ups if none is lost. -/
def StepInv (pool pool' : ThreadPool α n) (queue : List ℕ) (event : WorkEvent α n) : Prop :=
  ∃ queue', JobInv pool' queue' ∧
    (Awake pool queue → KeepsWakeUps pool event → Awake pool' queue')

theorem JobInv.step_dispatch (h : JobInv pool queue) {cur : ℕ} {job : α} {woken : Option (Fin n)}
    (hdispatch : T4P4S.dispatch pool cur job woken = some pool') :
    StepInv pool pool' queue (.dispatch cur job woken) := by
  obtain ⟨hinv, hworkers⟩ := h.dispatch hdispatch
  refine ⟨queue ++ [cur], hinv, fun _ hkeeps => ?_⟩
  rcases hworkers with ⟨rfl, v, hv⟩ | ⟨hnone, hsame⟩
  · exact fun _ => ⟨Nat.le_refl 1, fun _ => ⟨v, by rw [hv, Function.update_self]⟩⟩
  · -- Nobody waits: on an empty list the signal would have found him.
    rintro ⟨v, hv⟩
    rw [hsame] at hv
    rcases hkeeps with hzero | hwaiting
    · exact absurd hv (hnone (h.qsize_eq_zero.mp hzero) v)
    · exact absurd hv (hwaiting v)

theorem JobInv.step_lock (h : JobInv pool queue) (htake : T4P4S.takeJob pool w = some pool') :
    StepInv pool pool' queue (.lock w) := by
  rcases h.takeJob htake with ⟨rfl, rfl⟩ | ⟨c, rest, rfl, hinv, hworkers⟩
  · exact ⟨[], h.setWorker (fun _ => nofun), fun _ _ => awake_nil _⟩
  · refine ⟨rest, hinv, fun hawake _ => ?_⟩
    rintro ⟨v, hv⟩
    have hvw : v ≠ w := by
      rintro rfl
      rw [hworkers, Function.update_self] at hv
      exact nomatch hv
    rw [hworkers, Function.update_of_ne hvw] at hv
    -- With a worker that waits, the job was the only one.
    have hlength := (hawake ⟨v, hv⟩).1
    rw [List.length_cons] at hlength
    obtain rfl := List.eq_nil_of_length_eq_zero (by omega : rest.length = 0)
    exact awake_nil pool' ⟨v, by rw [hworkers, Function.update_of_ne hvw, hv]⟩

theorem JobInv.step (h : JobInv pool queue) {event : WorkEvent α n}
    (hstep : pool.step event = some pool') (hstore : StoresBack pool event) :
    StepInv pool pool' queue event := by
  cases event with
  | dispatch cur job woken => exact h.step_dispatch hstep
  | load w =>
    rw [ThreadPool.step] at hstep
    split at hstep
    · rename_i hw
      obtain rfl := Option.some.inj hstep
      refine ⟨queue, h.setWorker (fun _ => nofun), fun hawake _ => hawake.setWorker ?_ nofun⟩
      rw [hw]
      exact nofun
    · exact nomatch hstep
  | store w =>
    rw [ThreadPool.step] at hstep
    split at hstep
    · rename_i qsize hw
      -- The value is written over itself.
      obtain rfl := hstore qsize hw
      obtain rfl := Option.some.inj hstep
      refine ⟨queue, h.setWorker (fun _ => nofun), fun hawake _ => hawake.setWorker ?_ nofun⟩
      rw [hw]
      exact nofun
    · exact nomatch hstep
  | lock w =>
    rw [ThreadPool.step] at hstep
    split at hstep
    · exact h.step_lock hstep
    · exact h.step_lock hstep
    · exact nomatch hstep
  | wait w =>
    rw [ThreadPool.step] at hstep
    split at hstep
    · obtain rfl := Option.some.inj hstep
      refine ⟨queue, h.setWorker (fun _ => nofun), fun _ hkeeps => ?_⟩
      rw [h.qsize_eq_zero.mp hkeeps]
      exact awake_nil _
    · exact nomatch hstep
  | wake w =>
    rw [ThreadPool.step] at hstep
    split at hstep
    · rename_i hw
      obtain rfl := Option.some.inj hstep
      refine ⟨queue, h.setWorker (fun _ => nofun), fun hawake _ _ => ?_⟩
      exact ⟨(hawake ⟨w, hw⟩).1, fun _ => ⟨w, setWorker_self _⟩⟩
    · exact nomatch hstep
  | finish w =>
    rw [ThreadPool.step] at hstep
    split at hstep
    · rename_i cur hw
      obtain rfl := Option.some.inj hstep
      refine ⟨queue, h.finish hw, fun hawake _ => ?_⟩
      have hstart : Awake (pool.setWorker w .starting) queue := by
        refine hawake.setWorker ?_ nofun
        rw [hw]
        exact nofun
      exact hstart
    · exact nomatch hstep

end JobInv

/-! ### Runs -/

theorem jobInv_createThreadpool (next : ℕ → Option ℕ) (job : ℕ → α) :
    JobInv (createThreadpool next job : ThreadPool α n) [] :=
  ⟨⟨rfl, rfl, rfl, rfl⟩, List.nodup_nil, nofun, nofun, nofun⟩

theorem inductive_jobInv (α : Type*) (n : ℕ) :
    (threadpoolSystem α n StoresBack).Inductive fun pool => ∃ queue, JobInv pool queue := by
  constructor
  · rintro pool ⟨next, job, rfl⟩
    exact ⟨[], jobInv_createThreadpool next job⟩
  · rintro pool pool' ⟨queue, hinv⟩ ⟨event, hstore, hstep⟩
    obtain ⟨queue', hinv', -⟩ := hinv.step hstep hstore
    exact ⟨queue', hinv'⟩

/-- **In every run in which no copy of `qsize` meets a change, the fields of the pool describe the
list of the jobs that were not started, and the others were started once and in order.** -/
theorem startedOnce (α : Type*) (n : ℕ) :
    ∀ pool, (threadpoolSystem α n StoresBack).Reachable pool → ∃ queue, pool.Describes queue := by
  intro pool hpool
  obtain ⟨queue, hinv⟩ := (inductive_jobInv α n).reachable hpool
  exact ⟨queue, hinv.describes⟩

theorem inductive_awake (α : Type*) (n : ℕ) :
    (threadpoolSystem α n fun pool event => StoresBack pool event ∧ KeepsWakeUps pool event).Inductive
      fun pool => ∃ queue, JobInv pool queue ∧ Awake pool queue := by
  constructor
  · rintro pool ⟨next, job, rfl⟩
    exact ⟨[], jobInv_createThreadpool next job, awake_nil _⟩
  · rintro pool pool' ⟨queue, hinv, hawake⟩ ⟨event, ⟨hstore, hkeeps⟩, hstep⟩
    obtain ⟨queue', hinv', hawake'⟩ := hinv.step hstep hstore
    exact ⟨queue', hinv', hawake' hawake hkeeps⟩

/-- **In every run whose steps write `qsize` back unchanged and lose no wake-up, each job is
started once and in order, and no worker sleeps while a job is there and none is
woken.** -/
theorem jobLaw (α : Type*) (n : ℕ) :
    ∀ pool, (threadpoolSystem α n fun pool event =>
        StoresBack pool event ∧ KeepsWakeUps pool event).Reachable pool → JobLaw pool := by
  intro pool hpool
  obtain ⟨queue, hinv, hawake⟩ := (inductive_awake α n).reachable hpool
  refine ⟨⟨queue, hinv.describes⟩, fun hlt hwaiting => (hawake hwaiting).2 ?_⟩
  rintro rfl
  rw [hinv.describes.2.2.2, List.map_nil, List.append_nil] at hlt
  exact lt_irrefl _ hlt

/-- One worker, and a job that it finds when it has started. -/
theorem jobLaw_one : ∃ pool : ThreadPool Char 1, pool.started = ['a'] ∧ JobLaw pool := by
  have hinit : (threadpoolSystem Char 1 fun pool event =>
      StoresBack pool event ∧ KeepsWakeUps pool event).Reachable
        (createThreadpool (fun _ => none) fun _ => ' ') := .init ⟨_, _, rfl⟩
  have hdispatch := hinit.step ⟨.dispatch 0 'a' none, ⟨trivial, .inl rfl⟩, rfl⟩
  have hload := hdispatch.step ⟨.load 0, ⟨trivial, trivial⟩, rfl⟩
  have hstore := hload.step ⟨.store 0, ⟨fun _ => WorkerState.copying.inj, trivial⟩, rfl⟩
  have hlock := hstore.step ⟨.lock 0, ⟨trivial, trivial⟩, rfl⟩
  exact ⟨_, rfl, jobLaw Char 1 _ hlock⟩

theorem reachable_of_foldlM {pool pool' : ThreadPool α n} {events : List (WorkEvent α n)}
    (hpool : (threadpoolSystem α n fun _ _ => True).Reachable pool)
    (hrun : events.foldlM ThreadPool.step pool = some pool') :
    (threadpoolSystem α n fun _ _ => True).Reachable pool' := by
  induction events generalizing pool with
  | nil =>
    obtain rfl := Option.some.inj hrun
    exact hpool
  | cons event events ih =>
    obtain ⟨next, hstep, hrun⟩ := Option.bind_eq_some_iff.mp hrun
    exact ih (hpool.step ⟨event, trivial, hstep⟩) hrun

/-- A worker comes to `pthread_cond_wait` on an empty list. -/
def goToWait (w : Fin n) : List (WorkEvent α n) := [.load w, .store w, .lock w, .wait w]

/-- The three jobs of `launch_backend`, which come when its three workers wait. -/
def launchJobs : List (WorkEvent Char 3) :=
  goToWait 0 ++ goToWait 1 ++ goToWait 2 ++
    [.dispatch 0 'b' (some 0), .dispatch 1 'i' none, .dispatch 2 'o' none, .lock 0]

/-- The first job is taken, and no one is woken for the others. -/
theorem not_jobLaw_launch : ¬ ∀ pool : ThreadPool Char 3,
    (threadpoolSystem Char 3 fun _ _ => True).Reachable pool → JobLaw pool := by
  intro h
  have hreachable := reachable_of_foldlM (.init ⟨fun _ => none, fun _ => ' ', rfl⟩)
    (rfl : launchJobs.foldlM ThreadPool.step _ = some _)
  have hlaw := h _ hreachable
  obtain ⟨w, hw⟩ := hlaw.awake (by decide) ⟨1, rfl⟩
  revert w
  decide

end T4P4S
