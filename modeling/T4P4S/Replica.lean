/-
The replicas of the tables.

Each socket has `NB_REPLICA` replicas of each table, and each lcore a pointer to
one of them.  `CHANGE_TABLE` changes the next replica, switches the lcores'
pointers to it, waits, and changes the other replicas.  The control plane does
this in small steps, between which lcores start packets.

* **`replica_safe`** — a replica is not changed while an lcore uses it, and an
  update leaves all replicas alike, when every lcore is on the socket that its
  tables were created on.
-/
import T4P4S.Lib.Transition
import T4P4S.Tables

open Transition

namespace T4P4S

/-- `NB_SOCKETS` -/
def nbSockets : ℕ := 8

/-- `NB_REPLICA` -/
def nbReplica : ℕ := 2

/-- The machine and the program: `enabled` and `rteSocket` are
`rte_lcore_is_enabled` and `rte_lcore_to_socket_id`; `fresh tid` is the table
that `create_table` makes from `table_config[tid]`. -/
structure ReplicaConfig (T : Type) where
  nbTables : ℕ
  maxLcore : ℕ
  enabled : ℕ → Bool
  rteSocket : ℕ → ℕ
  numaOn : Bool
  fresh : ℕ → T

/-- A pointer `state[socket].tables[tid][replica]`. -/
structure TablePtr where
  socket : ℕ
  tid : ℕ
  replica : ℕ
  deriving DecidableEq

/-- `socket_state` -/
structure SocketState (T : Type) where
  tables : ℕ → ℕ → Option T
  activeReplica : ℕ → ℕ

/-- Where the control plane is in an update of table `tid` with the function `fn`.

`visit` is the loop over the sockets; `switching` is the loop of `change_replica`
over the lcores; `waiting` is the sleep, with the lcores that began a packet since;
`mutateRest` is the loop over the replicas. -/
inductive Ctl (T : Type)
  | idle
  | visit (tid : ℕ) (fn : T → T) (socket : ℕ)
  | switching (tid : ℕ) (fn : T → T) (socket next lcore : ℕ)
  | waiting (tid : ℕ) (fn : T → T) (socket next : ℕ) (begun : ℕ → Bool)
  | mutateRest (tid : ℕ) (fn : T → T) (socket next replica : ℕ)

/-- The replicas of all sockets, the pointers of all lcores, and the pointers that
the packet in work on an lcore was started with. -/
structure ReplicaState (T : Type) where
  socket : ℕ → SocketState T
  lcoreTables : ℕ → ℕ → Option TablePtr
  inWork : ℕ → ℕ → Option TablePtr
  ctl : Ctl T

variable {T : Type}

namespace ReplicaState

/-- `fun(state[socketid].tables[tableid][replica], par)` -/
def mutate (st : ReplicaState T) (p : TablePtr) (fn : T → T) : ReplicaState T :=
  { st with
    socket := Function.update st.socket p.socket
      { st.socket p.socket with
        tables := Function.update (st.socket p.socket).tables p.tid
          (Function.update ((st.socket p.socket).tables p.tid) p.replica
            (((st.socket p.socket).tables p.tid p.replica).map fn)) } }

/-- Put a pointer into `lcore_conf[lcore_id].state.tables[tid]`. -/
def point (st : ReplicaState T) (lcore : ℕ) (p : TablePtr) : ReplicaState T :=
  { st with
    lcoreTables := Function.update st.lcoreTables lcore
      (Function.update (st.lcoreTables lcore) p.tid (some p)) }

/-- `state[socketid].active_replica[tid] = replica` -/
def activate (st : ReplicaState T) (p : TablePtr) : ReplicaState T :=
  { st with
    socket := Function.update st.socket p.socket
      { st.socket p.socket with
        activeReplica := Function.update (st.socket p.socket).activeReplica p.tid p.replica } }

end ReplicaState

namespace ReplicaConfig

variable (C : ReplicaConfig T)

/-- `get_socketid`, without its exit. -/
def socketOf (lcore : ℕ) : ℕ := if C.numaOn then C.rteSocket lcore else 0

/-- `get_socketid` -/
def getSocketid (lcore : ℕ) : Except Halt ℕ :=
  if nbSockets ≤ C.socketOf lcore then .error .exited else .ok (C.socketOf lcore)

/-- The lcores that work. -/
def IsLcore (lcore : ℕ) : Prop := lcore < C.maxLcore ∧ C.enabled lcore = true

/-! ### Initialisation -/

/-- `create_tables_on_socket` -/
def createTablesOnSocket (st : ReplicaState T) (socketid : ℕ) : ReplicaState T :=
  { st with
    socket := Function.update st.socket socketid
      { tables := fun i j => if i < C.nbTables ∧ j < nbReplica then some (C.fresh i) else none
        activeReplica := fun i =>
          if i < C.nbTables then 0 else (st.socket socketid).activeReplica i } }

/-- `create_tables_on_lcore` -/
def createTablesOnLcore (st : ReplicaState T) (lcore : ℕ) : Except Halt (ReplicaState T) :=
  if C.enabled lcore = false then
    .ok st
  else do
    let socketid ← C.getSocketid lcore
    let st := if (st.socket socketid).tables 0 0 |>.isNone then C.createTablesOnSocket st socketid
      else st
    return { st with
      lcoreTables := Function.update st.lcoreTables lcore fun i =>
        if i < C.nbTables then some ⟨socketid, i, 0⟩ else st.lcoreTables lcore i }

/-- The memory of the program before `init_tables`. -/
def zeroState : ReplicaState T :=
  { socket := fun _ => { tables := fun _ _ => none, activeReplica := fun _ => 0 }
    lcoreTables := fun _ _ => none
    inWork := fun _ _ => none
    ctl := .idle }

/-- `init_tables`; the const entries are updates that come after it. -/
def initTables : Except Halt (ReplicaState T) :=
  (List.range C.maxLcore).foldlM C.createTablesOnLcore zeroState

/-! ### Steps -/

/-- One step of the control plane, `none` when it has nothing to do or sleeps. -/
def ctlStep (st : ReplicaState T) : Option (ReplicaState T) :=
  match st.ctl with
  | .idle => none
  | .visit tid fn socketid =>
    if socketid < nbSockets then
      if (st.socket socketid).tables 0 0 |>.isSome then
        let next := ((st.socket socketid).activeReplica tid + 1) % nbReplica
        some { st.mutate ⟨socketid, tid, next⟩ fn with ctl := .switching tid fn socketid next 0 }
      else
        some { st with ctl := .visit tid fn (socketid + 1) }
    else
      some { st with ctl := .idle }
  | .switching tid fn socketid next lcore =>
    if lcore < C.maxLcore then
      let st := if C.enabled lcore && C.rteSocket lcore == socketid then
          (st.point lcore ⟨socketid, tid, next⟩).activate ⟨socketid, tid, next⟩
        else st
      some { st with ctl := .switching tid fn socketid next (lcore + 1) }
    else
      some { st with ctl := .waiting tid fn socketid next fun _ => false }
  | .waiting tid fn socketid next begun =>
    -- the sleep is long enough for every lcore to begin a new packet
    if (List.range C.maxLcore).all fun lcore => !C.enabled lcore || begun lcore then
      some { st with ctl := .mutateRest tid fn socketid next 0 }
    else
      none
  | .mutateRest tid fn socketid next replica =>
    if replica < nbReplica then
      let st := if replica ≠ next then st.mutate ⟨socketid, tid, replica⟩ fn else st
      some { st with ctl := .mutateRest tid fn socketid next (replica + 1) }
    else
      some { st with ctl := .visit tid fn (socketid + 1) }

/-- An lcore starts a packet with the pointers that it has. -/
def startPacketOn (st : ReplicaState T) (lcore : ℕ) : ReplicaState T :=
  { st with
    inWork := Function.update st.inWork lcore (st.lcoreTables lcore)
    ctl := match st.ctl with
      | .waiting tid fn socketid next begun =>
        .waiting tid fn socketid next (Function.update begun lcore true)
      | ctl => ctl }

/-- The control plane begins an update, goes on with one, or an lcore starts a packet. -/
inductive Step : ReplicaState T → ReplicaState T → Prop
  | begin (st : ReplicaState T) (tid : ℕ) (fn : T → T) (h : st.ctl = .idle)
      (htid : tid < C.nbTables) : Step st { st with ctl := .visit tid fn 0 }
  | ctl (st st' : ReplicaState T) (h : C.ctlStep st = some st') : Step st st'
  | packet (st : ReplicaState T) (lcore : ℕ) (h : C.IsLcore lcore) :
      Step st (startPacketOn st lcore)

/-- Runs after `init_tables`. -/
def system : System (ReplicaState T) where
  init st := C.initTables = .ok st
  step := C.Step

/-! ### Safety -/

/-- The replica that the next step of the control plane changes. -/
def mutated (st : ReplicaState T) : Option TablePtr :=
  match st.ctl with
  | .visit tid _ socketid =>
    if socketid < nbSockets ∧ ((st.socket socketid).tables 0 0).isSome then
      some ⟨socketid, tid, ((st.socket socketid).activeReplica tid + 1) % nbReplica⟩
    else none
  | .mutateRest tid _ socketid next replica =>
    if replica < nbReplica ∧ replica ≠ next then some ⟨socketid, tid, replica⟩ else none
  | _ => none

/-- No replica is changed that an lcore points to or that a packet uses; between
updates all replicas of a table on a socket are alike, and the lcores of the socket
point to the active one. -/
structure Safe (st : ReplicaState T) : Prop where
  unused : ∀ p, mutated st = some p → ∀ lcore, C.IsLcore lcore →
    st.lcoreTables lcore p.tid ≠ some p ∧ st.inWork lcore p.tid ≠ some p
  alike : st.ctl = .idle → ∀ s, ((st.socket s).tables 0 0).isSome → ∀ tid < C.nbTables,
    ∀ r < nbReplica, (st.socket s).tables tid r = (st.socket s).tables tid 0
  active : st.ctl = .idle → ∀ s, ((st.socket s).tables 0 0).isSome → ∀ tid < C.nbTables,
    ∀ lcore, C.IsLcore lcore → C.socketOf lcore = s →
      st.lcoreTables lcore tid = some ⟨s, tid, (st.socket s).activeReplica tid⟩

/-! ### The invariant -/

/-- Some lcore has its tables on the socket. -/
def Initialised (s : ℕ) : Prop := ∃ lcore, C.IsLcore lcore ∧ C.socketOf lcore = s

/-- No update of the table is going on at the socket. -/
structure Settled (st : ReplicaState T) (s tid : ℕ) : Prop where
  active_lt : (st.socket s).activeReplica tid < nbReplica
  alike : ∃ t, ∀ r < nbReplica, (st.socket s).tables tid r = some t
  lcores : ∀ lcore, C.IsLcore lcore → C.socketOf lcore = s →
    st.lcoreTables lcore tid = some ⟨s, tid, (st.socket s).activeReplica tid⟩ ∧
    (st.inWork lcore tid = none ∨
      st.inWork lcore tid = some ⟨s, tid, (st.socket s).activeReplica tid⟩)

/-- The next replica is changed, the others below `replica` too. -/
def Changed (st : ReplicaState T) (s tid : ℕ) (fn : T → T) (next replica : ℕ) : Prop :=
  ∃ t, (st.socket s).tables tid next = some (fn t) ∧ ∀ r < nbReplica, r ≠ next →
    (st.socket s).tables tid r = some (if r < replica then fn t else t)

/-- The lcores below `bound` point to the next replica, which is the active one as
soon as one of them does. -/
def Switched (st : ReplicaState T) (s tid next bound : ℕ) : Prop :=
  ∀ lcore < bound, C.IsLcore lcore → C.socketOf lcore = s →
    st.lcoreTables lcore tid = some ⟨s, tid, next⟩ ∧ (st.socket s).activeReplica tid = next

/-- What holds at each point of an update. -/
def CtlInv (st : ReplicaState T) : Prop :=
  match st.ctl with
  | .idle => True
  | .visit tid _ _ => tid < C.nbTables
  | .switching tid fn s next lcore =>
    tid < C.nbTables ∧ C.Initialised s ∧ next < nbReplica ∧ Changed st s tid fn next 0 ∧
      C.Switched st s tid next lcore
  | .waiting tid fn s next begun =>
    tid < C.nbTables ∧ C.Initialised s ∧ next < nbReplica ∧ Changed st s tid fn next 0 ∧
      C.Switched st s tid next C.maxLcore ∧
      ∀ lcore, C.IsLcore lcore → C.socketOf lcore = s → begun lcore = true →
        st.inWork lcore tid = some ⟨s, tid, next⟩
  | .mutateRest tid fn s next replica =>
    tid < C.nbTables ∧ C.Initialised s ∧ next < nbReplica ∧ Changed st s tid fn next replica ∧
      C.Switched st s tid next C.maxLcore ∧
      ∀ lcore, C.IsLcore lcore → C.socketOf lcore = s →
        st.inWork lcore tid = some ⟨s, tid, next⟩

/-- The socket and the table that an update is working on. -/
def current (st : ReplicaState T) : Option (ℕ × ℕ) :=
  match st.ctl with
  | .idle => none
  | .visit _ _ _ => none
  | .switching tid _ s _ _ => some (s, tid)
  | .waiting tid _ s _ _ => some (s, tid)
  | .mutateRest tid _ s _ _ => some (s, tid)

structure Inv (st : ReplicaState T) : Prop where
  initialised : ∀ s, ((st.socket s).tables 0 0).isSome → C.Initialised s
  settled : ∀ s, C.Initialised s → ∀ tid < C.nbTables, current st ≠ some (s, tid) →
    C.Settled st s tid
  ctl : C.CtlInv st

/-! ### What a step leaves alone -/

/-- Two states have the same of table `tid` at socket `s`. -/
structure SameAt (st st' : ReplicaState T) (s tid : ℕ) : Prop where
  tables : (st'.socket s).tables tid = (st.socket s).tables tid
  active : (st'.socket s).activeReplica tid = (st.socket s).activeReplica tid
  lcores : ∀ lcore, C.IsLcore lcore → C.socketOf lcore = s →
    st'.lcoreTables lcore tid = st.lcoreTables lcore tid
  inWork : ∀ lcore, C.IsLcore lcore → C.socketOf lcore = s →
    st'.inWork lcore tid = st.inWork lcore tid

variable {C}

theorem Settled.of_sameAt {st st' : ReplicaState T} {s tid : ℕ} (h : C.Settled st s tid)
    (hsame : C.SameAt st st' s tid) : C.Settled st' s tid := by
  constructor
  · rw [hsame.active]
    exact h.active_lt
  · rw [hsame.tables]
    exact h.alike
  · intro lcore hl hs
    rw [hsame.lcores lcore hl hs, hsame.inWork lcore hl hs, hsame.active]
    exact h.lcores lcore hl hs

theorem mutate_tables (st : ReplicaState T) (p : TablePtr) (fn : T → T) (s tid r : ℕ) :
    ((st.mutate p fn).socket s).tables tid r =
      if s = p.socket ∧ tid = p.tid ∧ r = p.replica then
        ((st.socket p.socket).tables p.tid p.replica).map fn
      else (st.socket s).tables tid r := by
  unfold ReplicaState.mutate
  by_cases hs : s = p.socket
  · subst hs
    by_cases ht : tid = p.tid
    · subst ht
      by_cases hr : r = p.replica
      · subst hr
        simp
      · simp [hr]
    · simp [ht]
  · simp [hs]

theorem mutate_active (st : ReplicaState T) (p : TablePtr) (fn : T → T) (s : ℕ) :
    ((st.mutate p fn).socket s).activeReplica = (st.socket s).activeReplica := by
  unfold ReplicaState.mutate
  by_cases hs : s = p.socket
  · subst hs
    simp
  · simp [hs]

/-- A change of one replica is seen at its socket and table only. -/
theorem sameAt_mutate (st : ReplicaState T) (p : TablePtr) (fn : T → T) {s tid : ℕ}
    (hne : (p.socket, p.tid) ≠ (s, tid)) : C.SameAt st (st.mutate p fn) s tid := by
  refine ⟨?_, by rw [mutate_active], fun _ _ _ => rfl, fun _ _ _ => rfl⟩
  funext r
  rw [mutate_tables, if_neg]
  rintro ⟨rfl, rfl, -⟩
  exact hne rfl

theorem activate_tables (st : ReplicaState T) (p : TablePtr) (s : ℕ) :
    ((st.activate p).socket s).tables = (st.socket s).tables := by
  unfold ReplicaState.activate
  by_cases hs : s = p.socket
  · subst hs
    simp
  · simp [hs]

theorem mutate_isSome (st : ReplicaState T) (p : TablePtr) (fn : T → T) (s : ℕ) :
    (((st.mutate p fn).socket s).tables 0 0).isSome = ((st.socket s).tables 0 0).isSome := by
  rw [mutate_tables]
  split_ifs with h
  · obtain ⟨rfl, ht, hr⟩ := h
    rw [Option.isSome_map, ← ht, ← hr]
  · rfl

/-- The pointer of an lcore that is on the socket is seen there only. -/
theorem sameAt_point_activate (st : ReplicaState T) (p : TablePtr) {lcore s tid : ℕ}
    (hl : C.socketOf lcore = p.socket) (hne : (p.socket, p.tid) ≠ (s, tid)) :
    C.SameAt st ((st.point lcore p).activate p) s tid := by
  have hsplit : s ≠ p.socket ∨ tid ≠ p.tid := by
    by_contra h
    rw [not_or, not_not, not_not] at h
    exact hne (by rw [h.1, h.2])
  refine ⟨?_, ?_, ?_, fun _ _ _ => rfl⟩
  · show (Function.update st.socket p.socket _ s).tables tid = _
    by_cases hs : s = p.socket
    · subst hs
      simp [ReplicaState.point]
    · rw [Function.update_of_ne hs]
  · show (Function.update st.socket p.socket _ s).activeReplica tid = _
    by_cases hs : s = p.socket
    · subst hs
      have ht : tid ≠ p.tid := hsplit.resolve_left (fun h => h rfl)
      simp [ReplicaState.point, ht]
    · rw [Function.update_of_ne hs]
  · intro l _ hs
    show Function.update st.lcoreTables lcore _ l tid = _
    by_cases hll : l = lcore
    · subst hll
      have ht : tid ≠ p.tid := hsplit.resolve_left (fun h => h (hs.symm.trans hl))
      rw [Function.update_self, Function.update_of_ne ht]
    · rw [Function.update_of_ne hll]

theorem SameAt.withCtl {st st' : ReplicaState T} {s tid : ℕ} (h : C.SameAt st st' s tid)
    (ctl : Ctl T) : C.SameAt st { st' with ctl := ctl } s tid :=
  ⟨h.tables, h.active, h.lcores, h.inWork⟩

theorem Settled.withCtl {st : ReplicaState T} {s tid : ℕ} (h : C.Settled st s tid)
    (ctl : Ctl T) : C.Settled { st with ctl := ctl } s tid :=
  ⟨h.active_lt, h.alike, h.lcores⟩

/-! ### Initialisation keeps the invariant -/

/-- What `init_tables` has done for the lcores below `n`. -/
structure InitInv (C : ReplicaConfig T) (st : ReplicaState T) (n : ℕ) : Prop where
  ctl : st.ctl = .idle
  inWork : ∀ lcore tid, st.inWork lcore tid = none
  initialised : ∀ s, ((st.socket s).tables 0 0).isSome →
    ∃ lcore < n, C.enabled lcore = true ∧ C.socketOf lcore = s
  lcores : ∀ lcore < n, C.enabled lcore = true → ∀ tid < C.nbTables,
    st.lcoreTables lcore tid = some ⟨C.socketOf lcore, tid, 0⟩ ∧
    (st.socket (C.socketOf lcore)).activeReplica tid = 0 ∧
    ∀ r < nbReplica, (st.socket (C.socketOf lcore)).tables tid r = some (C.fresh tid)

/-- The state of a socket after `create_tables_on_lcore` for one of its lcores. -/
theorem createTablesOnLcore_socket {st : ReplicaState T} {n tid s : ℕ}
    (hst : InitInv C st n) (htid : tid < C.nbTables) {st₁ : ReplicaState T}
    (hst₁ : st₁ = if ((st.socket s).tables 0 0).isNone then C.createTablesOnSocket st s else st) :
    (st₁.socket s).activeReplica tid = 0 ∧
      ∀ r < nbReplica, (st₁.socket s).tables tid r = some (C.fresh tid) := by
  subst hst₁
  split_ifs with hnone
  · constructor
    · simp [createTablesOnSocket, htid]
    · intro r hr
      simp [createTablesOnSocket, htid, hr]
  · have hsome : ((st.socket s).tables 0 0).isSome := by
      simpa [Option.isSome_iff_ne_none] using hnone
    obtain ⟨lcore, hlt, hen, rfl⟩ := hst.initialised s hsome
    exact (hst.lcores lcore hlt hen tid htid).2

theorem InitInv.step {st st' : ReplicaState T} {n : ℕ} (hst : InitInv C st n)
    (h : C.createTablesOnLcore st n = .ok st') : InitInv C st' (n + 1) := by
  unfold createTablesOnLcore at h
  split_ifs at h with hen
  · obtain rfl := Except.ok.inj h
    refine ⟨hst.ctl, hst.inWork, ?_, ?_⟩
    · intro s hs
      obtain ⟨lcore, hlt, hl⟩ := hst.initialised s hs
      exact ⟨lcore, by omega, hl⟩
    · intro lcore hlt hen'
      have hne : lcore ≠ n := by
        rintro rfl
        simp [hen] at hen'
      exact hst.lcores lcore (by omega) hen'
  · obtain ⟨s, hsocket, hret⟩ := bind_eq_ok.mp h
    have hs : C.socketOf n = s := by
      unfold getSocketid at hsocket
      split_ifs at hsocket
      exact Except.ok.inj hsocket
    have hen' : C.enabled n = true := by simpa using hen
    set st₁ := if ((st.socket s).tables 0 0).isNone then C.createTablesOnSocket st s else st
      with hst₁
    -- Only the tables of the lcore's own socket are created, and only the first time.
    have hother : ∀ s' ≠ s, st₁.socket s' = st.socket s' := by
      intro s' hne
      rw [hst₁]
      split_ifs
      · exact Function.update_of_ne hne ..
      · rfl
    have hrest : st₁.ctl = st.ctl ∧ st₁.inWork = st.inWork ∧ st₁.lcoreTables = st.lcoreTables := by
      rw [hst₁]
      split_ifs <;> exact ⟨rfl, rfl, rfl⟩
    obtain rfl := Except.ok.inj hret
    refine ⟨hrest.1.trans hst.ctl, ?_, ?_, ?_⟩
    · intro lcore tid
      show st₁.inWork lcore tid = none
      rw [hrest.2.1]
      exact hst.inWork lcore tid
    · intro s' hs'
      by_cases hne : s' = s
      · exact ⟨n, Nat.lt_succ_self n, hen', hs.trans hne.symm⟩
      · have hold : ((st₁.socket s').tables 0 0).isSome := hs'
        rw [hother s' hne] at hold
        obtain ⟨lcore, hlt, hl⟩ := hst.initialised s' hold
        exact ⟨lcore, by omega, hl⟩
    · intro lcore hlt hl tid htid
      show Function.update st₁.lcoreTables n _ lcore tid = _ ∧ (st₁.socket _).activeReplica tid = 0 ∧
        ∀ r < nbReplica, (st₁.socket _).tables tid r = _
      by_cases hn : lcore = n
      · subst hn
        rw [Function.update_self, if_pos htid, hs]
        exact ⟨rfl, createTablesOnLcore_socket hst htid hst₁⟩
      -- An earlier lcore keeps its pointers, and its socket's tables if they were there.
      · obtain ⟨hpointer, hsock⟩ := hst.lcores lcore (by omega) hl tid htid
        rw [Function.update_of_ne hn, hrest.2.2]
        refine ⟨hpointer, ?_⟩
        by_cases hne : C.socketOf lcore = s
        · rw [hne]
          exact createTablesOnLcore_socket hst htid hst₁
        · rw [hother _ hne]
          exact hsock

theorem initInv_initTables {st : ReplicaState T} (h : C.initTables = .ok st) :
    InitInv C st C.maxLcore := by
  unfold initTables at h
  generalize C.maxLcore = n at h
  induction n generalizing st with
  | zero =>
    obtain rfl := Except.ok.inj h
    exact ⟨rfl, fun _ _ => rfl, fun s hs => by simp [zeroState] at hs, fun l hl => by omega⟩
  | succ n ih =>
    rw [List.range_succ, List.foldlM_append] at h
    obtain ⟨st₁, hst₁, hstep⟩ := bind_eq_ok.mp h
    have hstep' : C.createTablesOnLcore st₁ n = .ok st := by
      simpa using hstep
    exact (ih hst₁).step hstep'

theorem inv_init {st : ReplicaState T} (h : C.initTables = .ok st) : C.Inv st := by
  have hst := initInv_initTables h
  constructor
  · intro s hs
    obtain ⟨lcore, hlt, hen, hsock⟩ := hst.initialised s hs
    exact ⟨lcore, ⟨hlt, hen⟩, hsock⟩
  · rintro s ⟨lcore, ⟨hlt, hen⟩, rfl⟩ tid htid -
    obtain ⟨-, hactive, htables⟩ := hst.lcores lcore hlt hen tid htid
    refine ⟨by rw [hactive]; decide, ⟨_, htables⟩, ?_⟩
    intro l hl hs
    rw [hactive, ← hs]
    exact ⟨(hst.lcores l hl.1 hl.2 tid htid).1, .inl (hst.inWork l tid)⟩
  · rw [CtlInv, hst.ctl]
    trivial

/-! ### Steps keep the invariant -/

theorem current_ne {s tid s' tid' : ℕ} (h : some (s, tid) ≠ some (s', tid')) :
    (s, tid) ≠ (s', tid') := fun heq => h (congrArg some heq)

/-- At each other socket or table, a step that is seen at one of them only keeps
what is settled. -/
theorem Inv.settled_of_sameAt {st st' : ReplicaState T} (hinv : C.Inv st) {s tid : ℕ}
    (hcur : current st = some (s, tid) ∨ current st = none)
    (hsame : ∀ s' tid', (s, tid) ≠ (s', tid') → C.SameAt st st' s' tid') :
    ∀ s', C.Initialised s' → ∀ tid' < C.nbTables, some (s, tid) ≠ some (s', tid') →
      C.Settled st' s' tid' := by
  intro s' hs' tid' htid' hne
  refine (hinv.settled s' hs' tid' htid' ?_).of_sameAt (hsame s' tid' (current_ne hne))
  rcases hcur with h | h
  · rw [h]
    exact hne
  · rw [h]
    exact fun h => nomatch h

/-- The first change: the next replica of a table that is settled. -/
theorem Settled.mutate {st : ReplicaState T} {s tid : ℕ} (h : C.Settled st s tid) (fn : T → T) :
    Changed (st.mutate ⟨s, tid, ((st.socket s).activeReplica tid + 1) % nbReplica⟩ fn) s tid fn
      (((st.socket s).activeReplica tid + 1) % nbReplica) 0 := by
  obtain ⟨t, ht⟩ := h.alike
  refine ⟨t, ?_, fun r hr hne => ?_⟩
  · rw [mutate_tables, if_pos ⟨rfl, rfl, rfl⟩, ht _ (Nat.mod_lt _ (by decide))]
    rfl
  · rw [mutate_tables, if_neg (fun hall => hne hall.2.2), ht r hr, if_neg (Nat.not_lt_zero r)]

/-- The changes of the second phase, one replica after the other. -/
theorem Changed.step {st : ReplicaState T} {s tid next r : ℕ} {fn : T → T}
    (h : Changed st s tid fn next r) (hr : r < nbReplica) :
    Changed (if r ≠ next then st.mutate ⟨s, tid, r⟩ fn else st) s tid fn next (r + 1) := by
  obtain ⟨t, hnext, hrest⟩ := h
  by_cases hne : r = next
  · rw [if_neg (not_not.mpr hne)]
    refine ⟨t, hnext, ?_⟩
    intro q hq hqne
    rw [hrest q hq hqne]
    have hiff : q < r ↔ q < r + 1 := by omega
    simp only [hiff]
  · rw [if_pos hne]
    refine ⟨t, ?_, ?_⟩
    · rw [mutate_tables, if_neg (fun hall => hne hall.2.2.symm), hnext]
    · intro q hq hqne
      rw [mutate_tables]
      by_cases hqr : q = r
      · rw [if_pos ⟨rfl, rfl, hqr⟩, hqr, if_pos (Nat.lt_succ_self r)]
        show ((st.socket s).tables tid r).map fn = _
        rw [hrest r hr hne, if_neg (Nat.lt_irrefl r)]
        rfl
      · rw [if_neg (fun hall => hqr hall.2.2), hrest q hq hqne]
        have hiff : q < r ↔ q < r + 1 := by omega
        simp only [hiff]

/-- One round of `change_replica`, where every lcore is on the socket of its tables. -/
theorem Switched.step (hsocket : ∀ lcore, C.IsLcore lcore → C.rteSocket lcore = C.socketOf lcore)
    {st : ReplicaState T} {s tid next n : ℕ} (h : C.Switched st s tid next n)
    (hn : n < C.maxLcore) :
    C.Switched (if C.enabled n && C.rteSocket n == s then
      (st.point n ⟨s, tid, next⟩).activate ⟨s, tid, next⟩ else st) s tid next (n + 1) := by
  intro lcore hlt hl hls
  by_cases hcond : (C.enabled n && C.rteSocket n == s) = true
  · rw [if_pos hcond]
    have hactive : ((((st.point n ⟨s, tid, next⟩).activate ⟨s, tid, next⟩).socket s).activeReplica
        tid) = next := by
      simp [ReplicaState.activate]
    refine ⟨?_, hactive⟩
    show Function.update st.lcoreTables n _ lcore tid = _
    by_cases hln : lcore = n
    · subst hln
      rw [Function.update_self, Function.update_self]
    · rw [Function.update_of_ne hln]
      exact (h lcore (by omega) hl hls).1
  · rw [if_neg hcond]
    have hln : lcore ≠ n := by
      rintro rfl
      refine hcond ?_
      rw [hl.2, hsocket lcore hl, hls]
      simp
    exact h lcore (by omega) hl hls

/-- When all lcores are switched, so is the active replica. -/
theorem Switched.active {st : ReplicaState T} {s tid next : ℕ} (hs : C.Initialised s)
    (h : C.Switched st s tid next C.maxLcore) : (st.socket s).activeReplica tid = next := by
  obtain ⟨lcore, hl, hls⟩ := hs
  exact (h lcore hl.1 hl hls).2

/-- After the last change the table is settled again. -/
theorem Changed.settled {st : ReplicaState T} {s tid next r : ℕ} {fn : T → T}
    (h : Changed st s tid fn next r) (hr : nbReplica ≤ r) (hs : C.Initialised s)
    (hnext : next < nbReplica) (hswitched : C.Switched st s tid next C.maxLcore)
    (hwork : ∀ lcore, C.IsLcore lcore → C.socketOf lcore = s →
      st.inWork lcore tid = some ⟨s, tid, next⟩) : C.Settled st s tid := by
  have hactive := hswitched.active hs
  obtain ⟨t, hfirst, hrest⟩ := h
  refine ⟨hactive ▸ hnext, ⟨fn t, ?_⟩, ?_⟩
  · intro q hq
    by_cases hq' : q = next
    · rw [hq', hfirst]
    · rw [hrest q hq hq', if_pos (by omega)]
  · intro lcore hl hls
    rw [hactive]
    exact ⟨(hswitched lcore hl.1 hl hls).1, .inr (hwork lcore hl hls)⟩

theorem Inv.ctl_visit {st st' : ReplicaState T} (hinv : C.Inv st) {tid s : ℕ} {fn : T → T}
    (hc : st.ctl = .visit tid fn s) (h : C.ctlStep st = some st') : C.Inv st' := by
  have htid : tid < C.nbTables := by
    have hctl := hinv.ctl
    rwa [CtlInv, hc] at hctl
  have hcur : current st = none := by rw [current, hc]
  have hset : ∀ s, C.Initialised s → ∀ tid < C.nbTables, C.Settled st s tid := by
    intro s hs tid htid
    refine hinv.settled s hs tid htid ?_
    rw [hcur]
    exact fun h => nomatch h
  unfold ctlStep at h
  simp only [hc] at h
  split_ifs at h with hlt hsome
  · obtain rfl := Option.some.inj h
    have hs := hinv.initialised s hsome
    constructor
    · intro s' hs'
      exact hinv.initialised s' (by rwa [mutate_isSome] at hs')
    · exact hinv.settled_of_sameAt (.inr hcur)
        fun s' tid' hne => (sameAt_mutate st _ fn hne).withCtl _
    · exact ⟨htid, hs, Nat.mod_lt _ (by decide), (hset s hs tid htid).mutate fn,
        fun l hl => absurd hl (Nat.not_lt_zero l)⟩
  · obtain rfl := Option.some.inj h
    exact ⟨hinv.initialised, fun s' hs' tid' htid' _ => (hset s' hs' tid' htid').withCtl _, htid⟩
  · obtain rfl := Option.some.inj h
    exact ⟨hinv.initialised, fun s' hs' tid' htid' _ => (hset s' hs' tid' htid').withCtl _, trivial⟩

theorem Inv.ctl_switching
    (hsocket : ∀ lcore, C.IsLcore lcore → C.rteSocket lcore = C.socketOf lcore)
    {st st' : ReplicaState T} (hinv : C.Inv st) {tid s next n : ℕ} {fn : T → T}
    (hc : st.ctl = .switching tid fn s next n) (h : C.ctlStep st = some st') : C.Inv st' := by
  have hctl := hinv.ctl
  rw [CtlInv, hc] at hctl
  obtain ⟨htid, hs, hnext, hchanged, hswitched⟩ := hctl
  have hcur : current st = some (s, tid) := by rw [current, hc]
  unfold ctlStep at h
  simp only [hc] at h
  by_cases hlt : n < C.maxLcore
  · rw [if_pos hlt] at h
    obtain rfl := Option.some.inj h
    -- Switching an lcore over changes no table.
    have htables : ∀ s', ((if C.enabled n && C.rteSocket n == s then
        (st.point n ⟨s, tid, next⟩).activate ⟨s, tid, next⟩ else st).socket s').tables =
        (st.socket s').tables := by
      intro s'
      split_ifs
      · exact activate_tables _ _ s'
      · rfl
    constructor
    · intro s' hs'
      refine hinv.initialised s' ?_
      rw [← htables s']
      exact hs'
    · refine hinv.settled_of_sameAt (.inl hcur) fun s' tid' hne => SameAt.withCtl ?_ _
      split_ifs with hcond
      · rw [Bool.and_eq_true, beq_iff_eq] at hcond
        exact sameAt_point_activate st _ ((hsocket n ⟨hlt, hcond.1⟩).symm.trans hcond.2) hne
      · exact ⟨rfl, rfl, fun _ _ _ => rfl, fun _ _ _ => rfl⟩
    · refine ⟨htid, hs, hnext, ?_, hswitched.step hsocket hlt⟩
      obtain ⟨t, ht⟩ := hchanged
      refine ⟨t, ?_⟩
      show (_ : Option T) = _ ∧ _
      rw [htables s]
      exact ht
  · rw [if_neg hlt] at h
    obtain rfl := Option.some.inj h
    refine ⟨hinv.initialised, fun s' hs' tid' htid' hne => ?_, htid, hs, hnext, hchanged, ?_, ?_⟩
    · exact (hinv.settled s' hs' tid' htid' (by rw [hcur]; exact hne)).withCtl _
    · intro lcore hl
      -- All lcores have been visited, so all of the socket's are switched.
      exact hswitched lcore (by omega)
    · exact fun _ _ _ h => nomatch h

theorem Inv.ctl_waiting {st st' : ReplicaState T} (hinv : C.Inv st) {tid s next : ℕ}
    {fn : T → T} {begun : ℕ → Bool} (hc : st.ctl = .waiting tid fn s next begun)
    (h : C.ctlStep st = some st') : C.Inv st' := by
  have hctl := hinv.ctl
  rw [CtlInv, hc] at hctl
  obtain ⟨htid, hs, hnext, hchanged, hswitched, hbegun⟩ := hctl
  have hcur : current st = some (s, tid) := by rw [current, hc]
  unfold ctlStep at h
  simp only [hc] at h
  split_ifs at h with hall
  obtain rfl := Option.some.inj h
  refine ⟨hinv.initialised, fun s' hs' tid' htid' hne => ?_, htid, hs, hnext, hchanged, hswitched,
    ?_⟩
  · exact (hinv.settled s' hs' tid' htid' (by rw [hcur]; exact hne)).withCtl _
  · intro lcore hl hls
    refine hbegun lcore hl hls ?_
    have hlcore := List.all_eq_true.mp hall lcore (List.mem_range.mpr hl.1)
    simpa [hl.2] using hlcore

theorem Inv.ctl_mutateRest {st st' : ReplicaState T} (hinv : C.Inv st) {tid s next r : ℕ}
    {fn : T → T} (hc : st.ctl = .mutateRest tid fn s next r) (h : C.ctlStep st = some st') :
    C.Inv st' := by
  have hctl := hinv.ctl
  rw [CtlInv, hc] at hctl
  obtain ⟨htid, hs, hnext, hchanged, hswitched, hwork⟩ := hctl
  have hcur : current st = some (s, tid) := by rw [current, hc]
  unfold ctlStep at h
  simp only [hc] at h
  by_cases hlt : r < nbReplica
  · rw [if_pos hlt] at h
    obtain rfl := Option.some.inj h
    have hchanged' := hchanged.step hlt
    -- The replica in use has been changed already, before the switch.
    by_cases hne : r = next
    · rw [if_neg (not_not.mpr hne)] at hchanged' ⊢
      refine ⟨hinv.initialised, ?_, htid, hs, hnext, hchanged', hswitched, hwork⟩
      intro s' hs' tid' htid' hne
      exact (hinv.settled s' hs' tid' htid' (by rw [hcur]; exact hne)).withCtl _
    · rw [if_pos hne] at hchanged' ⊢
      refine ⟨fun s' hs' => hinv.initialised s' (by rwa [mutate_isSome] at hs'), ?_, htid, hs, hnext,
        hchanged', ?_, hwork⟩
      · exact hinv.settled_of_sameAt (.inl hcur)
          fun s' tid' hne => (sameAt_mutate st _ fn hne).withCtl _
      · intro lcore hl hl' hls
        rw [mutate_active]
        exact hswitched lcore hl hl' hls
  · rw [if_neg hlt] at h
    obtain rfl := Option.some.inj h
    refine ⟨hinv.initialised, fun s' hs' tid' htid' _ => Settled.withCtl ?_ _, htid⟩
    -- With the last replica changed, the replicas of this table are alike again.
    by_cases heq : (s, tid) = (s', tid')
    · obtain ⟨rfl, rfl⟩ := Prod.mk.inj heq
      exact hchanged.settled (by omega) hs hnext hswitched hwork
    · refine hinv.settled s' hs' tid' htid' ?_
      rw [hcur]
      exact fun h => heq (Option.some.inj h)

theorem Inv.ctlStep (hsocket : ∀ lcore, C.IsLcore lcore → C.rteSocket lcore = C.socketOf lcore)
    {st st' : ReplicaState T} (hinv : C.Inv st) (h : C.ctlStep st = some st') : C.Inv st' := by
  cases hc : st.ctl with
  | idle => simp [ReplicaConfig.ctlStep, hc] at h
  | visit tid fn s => exact hinv.ctl_visit hc h
  | switching tid fn s next n => exact hinv.ctl_switching hsocket hc h
  | waiting tid fn s next begun => exact hinv.ctl_waiting hc h
  | mutateRest tid fn s next r => exact hinv.ctl_mutateRest hc h

theorem Inv.begin {st : ReplicaState T} (hinv : C.Inv st) {tid : ℕ} {fn : T → T}
    (hc : st.ctl = .idle) (htid : tid < C.nbTables) :
    C.Inv { st with ctl := .visit tid fn 0 } := by
  have hcur : current st = none := by rw [current, hc]
  refine ⟨hinv.initialised, fun s hs tid' htid' _ => Settled.withCtl ?_ _, htid⟩
  refine hinv.settled s hs tid' htid' ?_
  rw [hcur]
  exact fun h => nomatch h

theorem current_startPacketOn (st : ReplicaState T) (lcore : ℕ) :
    current (startPacketOn st lcore) = current st := by
  unfold startPacketOn current
  cases st.ctl <;> rfl

/-- A packet that starts on a settled table uses its active replica. -/
theorem Settled.startPacketOn {st : ReplicaState T} {s tid : ℕ} (h : C.Settled st s tid)
    (lcore : ℕ) : C.Settled (startPacketOn st lcore) s tid := by
  refine ⟨h.active_lt, h.alike, fun l hl hls => ⟨(h.lcores l hl hls).1, ?_⟩⟩
  show Function.update st.inWork lcore _ l tid = none ∨ Function.update st.inWork lcore _ l tid = _
  by_cases heq : l = lcore
  · subst heq
    rw [Function.update_self]
    exact .inr (h.lcores l hl hls).1
  · rw [Function.update_of_ne heq]
    exact (h.lcores l hl hls).2

/-- A packet that starts after the switch uses the next replica. -/
theorem Switched.startPacketOn {st : ReplicaState T} {s tid next : ℕ}
    (h : C.Switched st s tid next C.maxLcore) {l : ℕ} (hl : C.IsLcore l) (hls : C.socketOf l = s)
    (lcore : ℕ) (hold : l ≠ lcore → st.inWork l tid = some ⟨s, tid, next⟩) :
    (ReplicaConfig.startPacketOn st lcore).inWork l tid = some ⟨s, tid, next⟩ := by
  show Function.update st.inWork lcore _ l tid = _
  by_cases heq : l = lcore
  · subst heq
    rw [Function.update_self]
    exact (h l hl.1 hl hls).1
  · rw [Function.update_of_ne heq]
    exact hold heq

theorem Inv.packet {st : ReplicaState T} (hinv : C.Inv st) (lcore : ℕ) :
    C.Inv (startPacketOn st lcore) := by
  refine ⟨hinv.initialised, ?_, ?_⟩
  · intro s hs tid htid hne
    rw [current_startPacketOn] at hne
    exact (hinv.settled s hs tid htid hne).startPacketOn lcore
  · have hctl := hinv.ctl
    cases hc : st.ctl with
    | idle =>
      rw [CtlInv, startPacketOn, hc]
      trivial
    | visit tid fn s =>
      rw [CtlInv, hc] at hctl
      rw [CtlInv, startPacketOn, hc]
      exact hctl
    | switching tid fn s next n =>
      rw [CtlInv, hc] at hctl
      rw [CtlInv, startPacketOn, hc]
      exact hctl
    | waiting tid fn s next begun =>
      rw [CtlInv, hc] at hctl
      obtain ⟨htid, hs, hnext, hchanged, hswitched, hbegun⟩ := hctl
      have hctl' : (startPacketOn st lcore).ctl =
          .waiting tid fn s next (Function.update begun lcore true) := by
        rw [startPacketOn, hc]
      rw [CtlInv, hctl']
      refine ⟨htid, hs, hnext, hchanged, hswitched, ?_⟩
      intro l hl hls hl'
      -- A packet that begins now works with the replica that has been switched to.
      refine hswitched.startPacketOn hl hls lcore fun hne => hbegun l hl hls ?_
      rwa [Function.update_of_ne hne] at hl'
    | mutateRest tid fn s next r =>
      rw [CtlInv, hc] at hctl
      obtain ⟨htid, hs, hnext, hchanged, hswitched, hwork⟩ := hctl
      have hctl' : (startPacketOn st lcore).ctl = .mutateRest tid fn s next r := by
        rw [startPacketOn, hc]
      rw [CtlInv, hctl']
      exact ⟨htid, hs, hnext, hchanged, hswitched, fun l hl hls =>
        hswitched.startPacketOn hl hls lcore fun _ => hwork l hl hls⟩

theorem inductive_inv
    (hsocket : ∀ lcore, C.IsLcore lcore → C.rteSocket lcore = C.socketOf lcore) :
    C.system.Inductive C.Inv := by
  constructor
  · exact fun st h => inv_init h
  · intro st st' hinv hstep
    cases hstep with
    | begin tid fn hc htid => exact hinv.begin hc htid
    | ctl _ h => exact hinv.ctlStep hsocket h
    | packet lcore _ => exact hinv.packet lcore

/-! ### Safety -/

/-- The lcores use a table that is settled through its active replica, on their own socket. -/
theorem Settled.unused {st : ReplicaState T} {lcore tid : ℕ}
    (h : C.Settled st (C.socketOf lcore) tid) (hl : C.IsLcore lcore) {p : TablePtr}
    (hp : p ≠ ⟨C.socketOf lcore, tid, (st.socket (C.socketOf lcore)).activeReplica tid⟩) :
    st.lcoreTables lcore tid ≠ some p ∧ st.inWork lcore tid ≠ some p := by
  obtain ⟨hpointer, hwork⟩ := h.lcores lcore hl rfl
  constructor
  · rw [hpointer]
    exact fun heq => hp (Option.some.inj heq).symm
  · rcases hwork with hnone | hsome
    · rw [hnone]
      exact fun heq => nomatch heq
    · rw [hsome]
      exact fun heq => hp (Option.some.inj heq).symm

theorem next_ne {a : ℕ} : (a + 1) % nbReplica ≠ a := by
  unfold nbReplica
  omega

theorem Inv.unused {st : ReplicaState T} (hinv : C.Inv st) {p : TablePtr}
    (hp : mutated st = some p) {lcore : ℕ} (hl : C.IsLcore lcore) :
    st.lcoreTables lcore p.tid ≠ some p ∧ st.inWork lcore p.tid ≠ some p := by
  have hctl := hinv.ctl
  cases hc : st.ctl with
  | idle => simp [mutated, hc] at hp
  | switching tid fn s next n => simp [mutated, hc] at hp
  | waiting tid fn s next begun => simp [mutated, hc] at hp
  | visit tid fn s =>
    rw [CtlInv, hc] at hctl
    have hcur : current st = none := by rw [current, hc]
    simp only [mutated, hc] at hp
    split_ifs at hp with hcond
    obtain rfl := Option.some.inj hp
    have hset := hinv.settled _ ⟨lcore, hl, rfl⟩ tid hctl (by rw [hcur]; exact fun h => nomatch h)
    -- The replica to be changed is the next one, which is not the active one.
    refine hset.unused hl ?_
    intro heq
    obtain ⟨rfl, hreplica⟩ : s = C.socketOf lcore ∧ _ := by simpa using heq
    exact next_ne hreplica
  | mutateRest tid fn s next r =>
    rw [CtlInv, hc] at hctl
    obtain ⟨htid, hs, hnext, hchanged, hswitched, hwork⟩ := hctl
    have hcur : current st = some (s, tid) := by rw [current, hc]
    simp only [mutated, hc] at hp
    split_ifs at hp with hcond
    obtain rfl := Option.some.inj hp
    -- On its socket every lcore has switched; on the others no replica of this one is used.
    by_cases hls : C.socketOf lcore = s
    · rw [(hswitched lcore hl.1 hl hls).1, hwork lcore hl hls]
      have hne : (some ⟨s, tid, next⟩ : Option TablePtr) ≠ some ⟨s, tid, r⟩ := by
        intro heq
        have hreplica : next = r := by simpa using heq
        exact hcond.2 hreplica.symm
      exact ⟨hne, hne⟩
    · have hset := hinv.settled _ ⟨lcore, hl, rfl⟩ tid htid (by
        rw [hcur]
        intro heq
        exact hls (Prod.mk.inj (Option.some.inj heq)).1.symm)
      refine hset.unused hl ?_
      intro heq
      have hsock : s = C.socketOf lcore := (TablePtr.mk.inj heq).1
      exact hls hsock.symm

theorem Inv.safe {st : ReplicaState T} (hinv : C.Inv st) : C.Safe st := by
  have hset : st.ctl = .idle → ∀ s, ((st.socket s).tables 0 0).isSome → ∀ tid < C.nbTables,
      C.Settled st s tid := by
    intro hidle s hs tid htid
    refine hinv.settled s (hinv.initialised s hs) tid htid ?_
    rw [current, hidle]
    exact fun h => nomatch h
  constructor
  · exact fun p hp lcore hl => hinv.unused hp hl
  · intro hidle s hs tid htid r hr
    obtain ⟨t, ht⟩ := (hset hidle s hs tid htid).alike
    rw [ht r hr, ht 0 (by decide)]
  · exact fun hidle s hs tid htid lcore hl hls =>
      ((hset hidle s hs tid htid).lcores lcore hl hls).1

/-- Where every lcore is on the socket that its tables were created on, no replica is
changed while an lcore uses it, and an update leaves the replicas alike. -/
theorem replica_safe (hsocket : ∀ lcore, C.IsLcore lcore → C.rteSocket lcore = C.socketOf lcore) :
    ∀ st, C.system.Reachable st → C.Safe st :=
  fun _ hst => ((inductive_inv hsocket).reachable hst).safe

/-! ### An lcore that is not on the socket of its tables -/

/-- Steps of the control plane. -/
def ctlSteps (C : ReplicaConfig T) : ℕ → ReplicaState T → Option (ReplicaState T)
  | 0, st => some st
  | n + 1, st => (ctlStep C st).bind (ctlSteps C n)

theorem reachable_ctlSteps {n : ℕ} {st st' : ReplicaState T} (hst : C.system.Reachable st)
    (h : C.ctlSteps n st = some st') : C.system.Reachable st' := by
  induction n generalizing st with
  | zero =>
    obtain rfl := Option.some.inj h
    exact hst
  | succ n ih =>
    obtain ⟨st₁, hst₁, hrest⟩ := Option.bind_eq_some_iff.mp h
    exact ih (.step hst (.ctl _ _ hst₁)) hrest

/-- One table, and one lcore on the second socket. -/
def secondSocket (numaOn : Bool) : ReplicaConfig (List ℕ) where
  nbTables := 1
  maxLcore := 1
  enabled := fun _ => true
  rteSocket := fun _ => 1
  numaOn := numaOn
  fresh := fun _ => []

/-- The start of an update that adds an entry. -/
def secondSocketBegin (numaOn : Bool) : ReplicaState (List ℕ) :=
  { ((secondSocket numaOn).initTables.toOption.getD zeroState) with
    ctl := .visit 0 (fun entries => 7 :: entries) 0 }

/-- The update after `n` steps of the control plane, then a packet, and a last step of
the control plane. -/
def secondSocketState (numaOn : Bool) (n : ℕ) : ReplicaState (List ℕ) :=
  let st := ((secondSocket numaOn).ctlSteps n (secondSocketBegin numaOn)).getD zeroState
  ((secondSocket numaOn).ctlStep (startPacketOn st 0)).getD zeroState

theorem reachable_secondSocketBegin (numaOn : Bool) :
    (secondSocket numaOn).system.Reachable (secondSocketBegin numaOn) := by
  have hinit : (secondSocket numaOn).initTables =
      .ok ((secondSocket numaOn).initTables.toOption.getD zeroState) := by
    cases numaOn <;> rfl
  refine .step (.init hinit) (.begin _ 0 _ ?_ Nat.one_pos)
  cases numaOn <;> rfl

theorem reachable_secondSocketState {numaOn : Bool} {n : ℕ} {st st' : ReplicaState (List ℕ)}
    (h : (secondSocket numaOn).ctlSteps n (secondSocketBegin numaOn) = some st)
    (h' : (secondSocket numaOn).ctlStep (startPacketOn st 0) = some st') :
    (secondSocket numaOn).system.Reachable (secondSocketState numaOn n) := by
  have hlcore : (secondSocket numaOn).IsLcore 0 := ⟨Nat.one_pos, rfl⟩
  have hst := reachable_ctlSteps (reachable_secondSocketBegin numaOn) h
  have hstate : secondSocketState numaOn n = st' := by
    rw [secondSocketState, h, Option.getD_some, h', Option.getD_some]
  rw [hstate]
  exact .step (.step hst (.packet _ 0 hlcore)) (.ctl _ _ h')

/-- With NUMA on, the first replica of the second socket is changed when the lcore
has left it. -/
theorem secondSocket_safe :
    (secondSocket true).Safe (secondSocketState true 4) ∧
      mutated (secondSocketState true 4) = some ⟨1, 0, 0⟩ ∧
      (secondSocketState true 4).lcoreTables 0 0 = some ⟨1, 0, 1⟩ := by
  refine ⟨replica_safe (fun lcore _ => rfl) _ ?_, rfl, rfl⟩
  exact reachable_secondSocketState rfl rfl

/-- With NUMA off, the tables are on the first socket, and `change_replica` does not
find the lcore there. -/
theorem secondSocket_not_safe :
    ¬ ∀ st, (secondSocket false).system.Reachable st → (secondSocket false).Safe st := by
  intro hsafe
  have hstate := hsafe (secondSocketState false 3) (reachable_secondSocketState rfl rfl)
  have hlcore : (secondSocket false).IsLcore 0 := ⟨by decide, rfl⟩
  have hmutated : mutated (secondSocketState false 3) = some ⟨0, 0, 0⟩ := rfl
  exact (hstate.unused _ hmutated 0 hlcore).1 rfl

end ReplicaConfig

end T4P4S
