/-
What packets see of the tables while the control plane changes them.

A packet looks tables up through the pointers that its lcore had when the packet came.
All updates go one after the other through all sockets and replicas, so at each moment
an lcore's pointers lead to the tables as the updates up to some point left them.

* **`snapshots`** — the tables as one log of updates; a packet reads all tables as the
  first updates of the log left them, at most the one in progress missing;
* **`replica_snapshots`** — the updates and lookups of the switch are those of `snapshots`,
  and between updates every replica has all the updates.
-/
import T4P4S.Lib.Simulation
import T4P4S.Replica

open Transition

namespace T4P4S

variable {T : Type}

/-- What is seen of the switch: an update is begun, `CHANGE_TABLE` is done, a packet
comes to an lcore, and a packet finds `t` as the table. -/
inductive TableEvent (T : Type)
  | update (tid : ℕ) (fn : T → T)
  | done
  | packet (lcore : ℕ)
  | lookup (lcore tid : ℕ) (t : T)

/-! ### The tables as a log of updates -/

abbrev UpdateLog (T : Type) := List (ℕ × (T → T))

/-- Table `tid` after all updates of the log. -/
def tableAfter (fresh : ℕ → T) (log : UpdateLog T) (tid : ℕ) : T :=
  log.foldl (fun t u => if u.1 = tid then u.2 t else t) (fresh tid)

/-- The updates so far, whether the last one is in progress, and how many of them the
packet that is in work on an lcore sees. -/
structure Snapshots (T : Type) where
  log : UpdateLog T
  busy : Bool
  started : ℕ → Option ℕ

namespace Snapshots

inductive Step (fresh : ℕ → T) : Snapshots T → Option (TableEvent T) → Snapshots T → Prop
  | update (a : Snapshots T) (tid : ℕ) (fn : T → T) (h : a.busy = false) :
      Step fresh a (some (.update tid fn))
        { a with log := a.log ++ [(tid, fn)], busy := true }
  | done (a : Snapshots T) (h : a.busy = true) :
      Step fresh a (some .done) { a with busy := false }
  | packet (a : Snapshots T) (lcore v : ℕ) (hle : v ≤ a.log.length)
      (hlast : a.log.length ≤ v + a.busy.toNat) (hmono : ∀ v' ∈ a.started lcore, v' ≤ v) :
      Step fresh a (some (.packet lcore))
        { a with started := Function.update a.started lcore (some v) }
  | lookup (a : Snapshots T) (lcore tid v : ℕ) (h : a.started lcore = some v) :
      Step fresh a (some (.lookup lcore tid (tableAfter fresh (a.log.take v) tid))) a

end Snapshots

/-- Each packet sees one state of all the tables, and an lcore never goes back. -/
def snapshots (fresh : ℕ → T) : LabelledSystem (Snapshots T) (TableEvent T) where
  init a := a = { log := [], busy := false, started := fun _ => none }
  step := Snapshots.Step fresh

namespace TableEvent

/-- The packet that is in work after these events was started after `pre`. -/
def LastPacket (lcore : ℕ) (pre tr : List (TableEvent T)) : Prop :=
  ∃ mid, tr = pre ++ packet lcore :: mid ∧ packet lcore ∉ mid

theorem LastPacket.concat {lcore : ℕ} {pre tr : List (TableEvent T)} {e : TableEvent T}
    (h : LastPacket lcore pre tr) (he : e ≠ packet lcore) : LastPacket lcore pre (tr ++ [e]) := by
  obtain ⟨mid, rfl, hmid⟩ := h
  refine ⟨mid ++ [e], by rw [List.append_assoc]; rfl, ?_⟩
  rw [List.mem_append, List.mem_singleton, not_or]
  exact ⟨hmid, he.symm⟩

/-- There is only one such packet. -/
theorem LastPacket.unique {lcore : ℕ} {pre pre' tr : List (TableEvent T)}
    (h : LastPacket lcore pre tr) (h' : LastPacket lcore pre' tr) : pre = pre' := by
  obtain ⟨mid, rfl, hmid⟩ := h
  obtain ⟨mid', heq, hmid'⟩ := h'
  rcases List.append_eq_append_iff.mp heq with ⟨as, rfl, has⟩ | ⟨as, rfl, has⟩
  · cases as with
    | nil => rw [List.append_nil]
    | cons e as =>
      obtain ⟨-, rfl⟩ := List.cons_eq_cons.mp has
      exact absurd (List.mem_append_right _ List.mem_cons_self) hmid
  · cases as with
    | nil => rw [List.append_nil]
    | cons e as =>
      obtain ⟨-, rfl⟩ := List.cons_eq_cons.mp has
      exact absurd (List.mem_append_right _ List.mem_cons_self) hmid'

end TableEvent

namespace ReplicaState

/-- The table that a pointer leads to. -/
def table (st : ReplicaState T) (p : TablePtr) : Option T :=
  (st.socket p.socket).tables p.tid p.replica

end ReplicaState

namespace ReplicaConfig

variable (C : ReplicaConfig T)

/-- An update has come to its end in this state. -/
def doneEvent (st : ReplicaState T) : Option (TableEvent T) :=
  match st.ctl with
  | .idle => some .done
  | _ => none

inductive SeenStep : ReplicaState T → Option (TableEvent T) → ReplicaState T → Prop
  | begin (st : ReplicaState T) (tid : ℕ) (fn : T → T) (h : st.ctl = .idle)
      (htid : tid < C.nbTables) :
      SeenStep st (some (.update tid fn)) { st with ctl := .visit tid fn 0 }
  | ctl (st st' : ReplicaState T) (h : C.ctlStep st = some st') :
      SeenStep st (doneEvent st') st'
  | packet (st : ReplicaState T) (lcore : ℕ) (h : C.IsLcore lcore) :
      SeenStep st (some (.packet lcore)) (startPacketOn st lcore)
  | lookup (st : ReplicaState T) (lcore tid : ℕ) (p : TablePtr) (t : T) (h : C.IsLcore lcore)
      (htid : tid < C.nbTables) (hp : st.inWork lcore tid = some p) (ht : st.table p = some t) :
      SeenStep st (some (.lookup lcore tid t)) st

/-- The switch after `init_tables`, with what it shows. -/
def seen : LabelledSystem (ReplicaState T) (TableEvent T) where
  init st := C.initTables = .ok st
  step := C.SeenStep

end ReplicaConfig

/-! ### How far an update has come -/

namespace Ctl

/-- The update in progress. -/
def updating : Ctl T → Option (ℕ × (T → T))
  | .idle => none
  | .visit tid fn _ => some (tid, fn)
  | .switching tid fn _ _ _ => some (tid, fn)
  | .waiting tid fn _ _ _ => some (tid, fn)
  | .mutateRest tid fn _ _ _ => some (tid, fn)

/-- The replica has the update in progress. -/
def Written (s r : ℕ) : Ctl T → Prop
  | .idle => True
  | .visit _ _ s₀ => s < s₀
  | .switching _ _ s₀ next _ => s < s₀ ∨ s = s₀ ∧ r = next
  | .waiting _ _ s₀ next _ => s < s₀ ∨ s = s₀ ∧ r = next
  | .mutateRest _ _ s₀ next replica => s < s₀ ∨ s = s₀ ∧ (r = next ∨ r < replica)

/-- An lcore of the socket has the update in progress. -/
def SwitchedOver (lcore s : ℕ) : Ctl T → Prop
  | .idle => True
  | .visit _ _ s₀ => s < s₀
  | .switching _ _ s₀ _ n => s < s₀ ∨ s = s₀ ∧ lcore < n
  | .waiting _ _ s₀ _ _ => s ≤ s₀
  | .mutateRest _ _ s₀ _ _ => s ≤ s₀

theorem written_idle (s r : ℕ) : (idle : Ctl T).Written s r := trivial

theorem switchedOver_idle (lcore s : ℕ) : (idle : Ctl T).SwitchedOver lcore s := trivial

end Ctl

/-- The updates that are in a copy which has the one in progress, or has it not. -/
noncomputable def updatesIn (log : UpdateLog T) (written : Prop) : ℕ :=
  open Classical in if written then log.length else log.length - 1

theorem updatesIn_of {log : UpdateLog T} {written : Prop} (h : written) :
    updatesIn log written = log.length := if_pos h

theorem updatesIn_of_not {log : UpdateLog T} {written : Prop} (h : ¬ written) :
    updatesIn log written = log.length - 1 := if_neg h

theorem updatesIn_le (log : UpdateLog T) (written : Prop) :
    updatesIn log written ≤ log.length := by
  by_cases h : written
  · rw [updatesIn_of h]
  · rw [updatesIn_of_not h]
    omega

theorem le_updatesIn (log : UpdateLog T) (written : Prop) :
    log.length - 1 ≤ updatesIn log written := by
  by_cases h : written
  · rw [updatesIn_of h]
    omega
  · rw [updatesIn_of_not h]

theorem updatesIn_congr {log : UpdateLog T} {written written' : Prop}
    (h : written ↔ written') : updatesIn log written = updatesIn log written' := by
  rw [propext h]

/-! ### Tables after updates -/

theorem tableAfter_concat (fresh : ℕ → T) (log : UpdateLog T) (u : ℕ × (T → T)) (tid : ℕ) :
    tableAfter fresh (log ++ [u]) tid =
      if u.1 = tid then u.2 (tableAfter fresh log tid) else tableAfter fresh log tid := by
  rw [tableAfter, List.foldl_append]
  rfl

theorem take_updatesIn (log : UpdateLog T) (u : ℕ × (T → T)) (written : Prop) :
    (log ++ [u]).take (updatesIn (log ++ [u]) written) = log ++ [u] ∧ written ∨
      (log ++ [u]).take (updatesIn (log ++ [u]) written) = log ∧ ¬ written := by
  by_cases h : written
  · rw [updatesIn_of h, List.take_length]
    exact .inl ⟨rfl, h⟩
  · rw [updatesIn_of_not h, List.length_append, List.length_singleton, Nat.add_sub_cancel,
      List.take_left]
    exact .inr ⟨rfl, h⟩

/-- The update in progress makes no difference to another table. -/
theorem tableAfter_updatesIn {fresh : ℕ → T} {log : UpdateLog T} {u : ℕ × (T → T)} {tid : ℕ}
    (hne : u.1 ≠ tid) (written : Prop) :
    tableAfter fresh ((log ++ [u]).take (updatesIn (log ++ [u]) written)) tid =
      tableAfter fresh log tid := by
  rcases take_updatesIn log u written with ⟨h, -⟩ | ⟨h, -⟩
  · rw [h, tableAfter_concat, if_neg hne]
  · rw [h]

/-! ### The tables of a state and the log -/

namespace ReplicaConfig

variable (C : ReplicaConfig T)

/-- What the replicas hold, and what the lcores' pointers and the packets lead to. -/
structure Views (st : ReplicaState T) (log : UpdateLog T) (started : ℕ → Option ℕ) : Prop where
  replicas : ∀ s, C.Initialised s → ∀ tid < C.nbTables, ∀ r < nbReplica,
    (st.socket s).tables tid r =
      some (tableAfter C.fresh (log.take (updatesIn log (st.ctl.Written s r))) tid)
  pointers : ∀ lcore, C.IsLcore lcore → ∀ tid < C.nbTables,
    ∃ p, st.lcoreTables lcore tid = some p ∧ p.tid = tid ∧
      st.table p = some (tableAfter C.fresh
        (log.take (updatesIn log (st.ctl.SwitchedOver lcore (C.socketOf lcore)))) tid)
  packets : ∀ lcore, C.IsLcore lcore → ∀ tid < C.nbTables, ∀ p ∈ st.inWork lcore tid,
    p.tid = tid ∧ ∃ v ∈ started lcore, st.table p = some (tableAfter C.fresh (log.take v) tid)
  started : ∀ lcore, C.IsLcore lcore → ∀ v ∈ started lcore,
    v ≤ updatesIn log (st.ctl.SwitchedOver lcore (C.socketOf lcore))

/-- A state of the switch and the state of the log that it stands for. -/
structure Reads (st : ReplicaState T) (a : Snapshots T) : Prop where
  inv : C.Inv st
  busy : a.busy = st.ctl.updating.isSome
  last : ∀ u ∈ st.ctl.updating, ∃ log, a.log = log ++ [u]
  views : C.Views st a.log a.started

variable {C}

theorem table_mutate {st : ReplicaState T} {p q : TablePtr} {fn : T → T} (h : q ≠ p) :
    (st.mutate p fn).table q = st.table q := by
  rw [ReplicaState.table, mutate_tables, if_neg]
  · rfl
  · rintro ⟨hs, ht, hr⟩
    exact h (by cases p; cases q; simp_all)

/-- The control plane goes on and leaves tables and pointers as they are. -/
theorem Views.withCtl {st : ReplicaState T} {log : UpdateLog T} {started : ℕ → Option ℕ}
    {ctl : Ctl T} (h : C.Views st log started)
    (hwritten : ∀ s, C.Initialised s → ∀ r < nbReplica, ctl.Written s r ↔ st.ctl.Written s r)
    (hover : ∀ lcore, C.IsLcore lcore →
      (ctl.SwitchedOver lcore (C.socketOf lcore) ↔
        st.ctl.SwitchedOver lcore (C.socketOf lcore))) :
    C.Views { st with ctl := ctl } log started := by
  constructor
  · intro s hs tid htid r hr
    rw [updatesIn_congr (hwritten s hs r hr)]
    exact h.replicas s hs tid htid r hr
  · intro lcore hl tid htid
    rw [updatesIn_congr (hover lcore hl)]
    exact h.pointers lcore hl tid htid
  · exact h.packets
  · intro lcore hl v hv
    rw [updatesIn_congr (hover lcore hl)]
    exact h.started lcore hl v hv

/-- The control plane changes a replica that no lcore uses. -/
theorem Views.mutate {st : ReplicaState T} {log : UpdateLog T} {started : ℕ → Option ℕ}
    {ctl : Ctl T} {s tid r : ℕ} {fn : T → T} (h : C.Views st (log ++ [(tid, fn)]) started)
    (hs : C.Initialised s) (htid : tid < C.nbTables) (hr : r < nbReplica)
    (hnot : ¬ st.ctl.Written s r)
    (hunused : ∀ lcore, C.IsLcore lcore →
      st.lcoreTables lcore tid ≠ some ⟨s, tid, r⟩ ∧ st.inWork lcore tid ≠ some ⟨s, tid, r⟩)
    (hwritten : ∀ s', ∀ r' < nbReplica,
      ctl.Written s' r' ↔ st.ctl.Written s' r' ∨ s' = s ∧ r' = r)
    (hover : ∀ lcore, C.IsLcore lcore →
      (ctl.SwitchedOver lcore (C.socketOf lcore) ↔
        st.ctl.SwitchedOver lcore (C.socketOf lcore))) :
    C.Views { st.mutate ⟨s, tid, r⟩ fn with ctl := ctl } (log ++ [(tid, fn)]) started := by
  constructor
  · intro s' hs' tid' htid' r' hr'
    show ((st.mutate ⟨s, tid, r⟩ fn).socket s').tables tid' r' = _
    rw [mutate_tables]
    by_cases heq : s' = s ∧ tid' = tid ∧ r' = r
    · obtain ⟨rfl, rfl, rfl⟩ := heq
      rw [if_pos ⟨rfl, rfl, rfl⟩, h.replicas _ hs' _ htid' _ hr', updatesIn_of_not hnot,
        updatesIn_of ((hwritten _ _ hr').mpr (.inr ⟨rfl, rfl⟩)), List.take_length,
        List.length_append, List.length_singleton, Nat.add_sub_cancel, List.take_left,
        tableAfter_concat, if_pos rfl]
      rfl
    · rw [if_neg heq, h.replicas s' hs' tid' htid' r' hr']
      by_cases ht : tid = tid'
      · subst ht
        have hne : ¬ (s' = s ∧ r' = r) := fun hsr => heq ⟨hsr.1, rfl, hsr.2⟩
        rw [updatesIn_congr ((hwritten s' r' hr').trans (or_iff_left hne))]
      · rw [tableAfter_updatesIn ht, tableAfter_updatesIn ht]
  · intro lcore hl tid' htid'
    obtain ⟨p, hp, hpt, htable⟩ := h.pointers lcore hl tid' htid'
    refine ⟨p, hp, hpt, ?_⟩
    have hne : p ≠ ⟨s, tid, r⟩ := by
      rintro rfl
      obtain rfl : tid = tid' := hpt
      exact (hunused lcore hl).1 hp
    show (st.mutate ⟨s, tid, r⟩ fn).table p = _
    rw [table_mutate hne, htable, updatesIn_congr (hover lcore hl)]
  · intro lcore hl tid' htid' p hp
    obtain ⟨hpt, v, hv, htable⟩ := h.packets lcore hl tid' htid' p hp
    refine ⟨hpt, v, hv, ?_⟩
    have hne : p ≠ ⟨s, tid, r⟩ := by
      rintro rfl
      obtain rfl : tid = tid' := hpt
      exact (hunused lcore hl).2 hp
    show (st.mutate ⟨s, tid, r⟩ fn).table p = _
    rw [table_mutate hne, htable]
  · intro lcore hl v hv
    rw [updatesIn_congr (hover lcore hl)]
    exact h.started lcore hl v hv

/-- `change_replica` goes on to the next lcore. -/
theorem Views.switch (hsocket : ∀ lcore, C.IsLcore lcore → C.rteSocket lcore = C.socketOf lcore)
    {st : ReplicaState T} {log : UpdateLog T} {started : ℕ → Option ℕ} {tid s next n : ℕ}
    {fn : T → T} (h : C.Views st (log ++ [(tid, fn)]) started)
    (hc : st.ctl = .switching tid fn s next n) (hn : n < C.maxLcore) (htid : tid < C.nbTables)
    (hs : C.Initialised s) (hnext : next < nbReplica) :
    C.Views { (if C.enabled n && C.rteSocket n == s then
        (st.point n ⟨s, tid, next⟩).activate ⟨s, tid, next⟩ else st) with
      ctl := .switching tid fn s next (n + 1) } (log ++ [(tid, fn)]) started := by
  by_cases hcond : (C.enabled n && C.rteSocket n == s) = true
  · rw [if_pos hcond]
    rw [Bool.and_eq_true, beq_iff_eq] at hcond
    have hln : C.IsLcore n := ⟨hn, hcond.1⟩
    have hns : C.socketOf n = s := (hsocket n hln).symm.trans hcond.2
    have htables : ∀ p, ((st.point n ⟨s, tid, next⟩).activate ⟨s, tid, next⟩).table p =
        st.table p := by
      intro p
      rw [ReplicaState.table, activate_tables]
      rfl
    -- The lcores that are not `n` stay as they are; `n` may only go forward.
    have hother : ∀ lcore, lcore ≠ n →
        ((Ctl.switching tid fn s next (n + 1)).SwitchedOver lcore (C.socketOf lcore) ↔
          st.ctl.SwitchedOver lcore (C.socketOf lcore)) := by
      intro lcore hne
      rw [hc]
      show _ ∨ _ ∧ _ < n + 1 ↔ _ ∨ _ ∧ _ < n
      have hlt : lcore < n + 1 ↔ lcore < n := by omega
      rw [hlt]
    have hself : (Ctl.switching tid fn s next (n + 1)).SwitchedOver n (C.socketOf n) :=
      .inr ⟨hns, Nat.lt_succ_self n⟩
    constructor
    · intro s' hs' tid' htid' r hr
      show (((st.point n ⟨s, tid, next⟩).activate ⟨s, tid, next⟩).socket s').tables tid' r = _
      rw [activate_tables]
      refine (h.replicas s' hs' tid' htid' r hr).trans ?_
      rw [hc]
      rfl
    · intro lcore hl tid' htid'
      obtain ⟨p, hp, hpt, htable⟩ := h.pointers lcore hl tid' htid'
      show ∃ p, Function.update st.lcoreTables n _ lcore tid' = some p ∧ _ ∧
        ((st.point n ⟨s, tid, next⟩).activate ⟨s, tid, next⟩).table p = _
      by_cases hne : lcore = n
      · subst hne
        rw [Function.update_self]
        by_cases ht : tid' = tid
        · subst ht
          refine ⟨_, Function.update_self .., rfl, ?_⟩
          have hwritten : st.ctl.Written s next := by
            rw [hc]
            exact .inr ⟨rfl, rfl⟩
          rw [htables, updatesIn_of hself, ← updatesIn_of hwritten]
          exact h.replicas s hs tid' htid' next hnext
        · refine ⟨p, (Function.update_of_ne ht ..).trans hp, hpt, ?_⟩
          rw [htables, htable, tableAfter_updatesIn (Ne.symm ht), tableAfter_updatesIn (Ne.symm ht)]
      · rw [Function.update_of_ne hne]
        refine ⟨p, hp, hpt, ?_⟩
        rw [htables, htable, updatesIn_congr (hother lcore hne)]
    · intro lcore hl tid' htid' p hp
      obtain ⟨hpt, v, hv, htable⟩ := h.packets lcore hl tid' htid' p hp
      exact ⟨hpt, v, hv, (htables p).trans htable⟩
    · intro lcore hl v hv
      by_cases hne : lcore = n
      · subst hne
        rw [updatesIn_of hself]
        exact (h.started lcore hl v hv).trans (updatesIn_le ..)
      · rw [updatesIn_congr (hother lcore hne)]
        exact h.started lcore hl v hv
  · rw [if_neg hcond]
    refine h.withCtl ?_ ?_
    · intro s' _ r _
      rw [hc]
      exact Iff.rfl
    · intro lcore hl
      rw [hc]
      -- Lcore `n` is none of the socket's.
      have hne : C.socketOf lcore = s → lcore ≠ n := by
        rintro hls rfl
        rw [hl.2, hsocket lcore hl, hls] at hcond
        exact hcond (by simp)
      show _ ∨ _ ∧ _ < n + 1 ↔ _ ∨ _ ∧ _ < n
      refine or_congr_right (and_congr_right fun hls => ?_)
      have hln := hne hls
      omega

/-- A packet takes the lcore's pointers. -/
theorem Views.packet {st : ReplicaState T} {log : UpdateLog T} {started : ℕ → Option ℕ}
    (h : C.Views st log started) (lcore : ℕ) :
    C.Views { st with inWork := Function.update st.inWork lcore (st.lcoreTables lcore) } log
      (Function.update started lcore
        (some (updatesIn log (st.ctl.SwitchedOver lcore (C.socketOf lcore))))) := by
  refine ⟨h.replicas, h.pointers, ?_, ?_⟩
  · intro l hl tid htid p hp
    show p.tid = tid ∧ ∃ v ∈ Function.update started lcore _ l, st.table p = _
    have hp' : p ∈ Function.update st.inWork lcore (st.lcoreTables lcore) l tid := hp
    by_cases hne : l = lcore
    · subst hne
      rw [Function.update_self] at hp' ⊢
      obtain ⟨q, hq, hqt, htable⟩ := h.pointers l hl tid htid
      obtain rfl : q = p := Option.some.inj (hq.symm.trans hp')
      exact ⟨hqt, _, rfl, htable⟩
    · rw [Function.update_of_ne hne] at hp' ⊢
      exact h.packets l hl tid htid p hp'
  · intro l hl v hv
    by_cases hne : l = lcore
    · subst hne
      rw [Function.update_self] at hv
      exact (Option.some.inj hv).ge
    · rw [Function.update_of_ne hne] at hv
      exact h.started l hl v hv

/-- An update is begun when the last one is done. -/
theorem Views.begin {st : ReplicaState T} {log : UpdateLog T} {started : ℕ → Option ℕ}
    (h : C.Views st log started) (hc : st.ctl = .idle) (tid : ℕ) (fn : T → T) :
    C.Views { st with ctl := .visit tid fn 0 } (log ++ [(tid, fn)]) started := by
  have hall : ∀ n, (log ++ [(tid, fn)]).length - 1 = n → n = log.length := by
    intro n hn
    rw [List.length_append, List.length_singleton] at hn
    omega
  have hwritten : ∀ s r, ¬ (Ctl.visit tid fn 0).Written s r := fun s _ => Nat.not_lt_zero s
  have hover : ∀ lcore s, ¬ (Ctl.visit tid fn 0).SwitchedOver lcore s :=
    fun _ s => Nat.not_lt_zero s
  constructor
  · intro s hs tid' htid' r hr
    rw [updatesIn_of_not (hwritten s r), hall _ rfl, List.take_left]
    refine (h.replicas s hs tid' htid' r hr).trans ?_
    rw [hc, updatesIn_of (Ctl.written_idle s r), List.take_length]
  · intro lcore hl tid' htid'
    obtain ⟨p, hp, hpt, htable⟩ := h.pointers lcore hl tid' htid'
    refine ⟨p, hp, hpt, htable.trans ?_⟩
    rw [hc, updatesIn_of (Ctl.switchedOver_idle lcore _), updatesIn_of_not (hover lcore _), hall _ rfl,
      List.take_left, List.take_length]
  · intro lcore hl tid' htid' p hp
    obtain ⟨hpt, v, hv, htable⟩ := h.packets lcore hl tid' htid' p hp
    have hle : v ≤ log.length := (h.started lcore hl v hv).trans (updatesIn_le ..)
    refine ⟨hpt, v, hv, ?_⟩
    rw [List.take_append_of_le_length hle]
    exact htable
  · intro lcore hl v hv
    rw [updatesIn_of_not (hover lcore _), hall _ rfl]
    exact (h.started lcore hl v hv).trans (updatesIn_le ..)

/-! ### The steps -/

/-- The update that is in progress is the last of the log. -/
theorem Reads.log_eq {st : ReplicaState T} {a : Snapshots T} (h : C.Reads st a) {tid : ℕ}
    {fn : T → T} (hu : st.ctl.updating = some (tid, fn)) :
    ∃ log, a.log = log ++ [(tid, fn)] ∧ C.Views st (log ++ [(tid, fn)]) a.started := by
  obtain ⟨log, hlog⟩ := h.last _ hu
  have hviews := h.views
  rw [hlog] at hviews
  exact ⟨log, hlog, hviews⟩

/-- A step that goes on with the update in progress. -/
theorem Reads.of_views {st st' : ReplicaState T} {a : Snapshots T} (h : C.Reads st a)
    (hinv : C.Inv st') (hu : st'.ctl.updating = st.ctl.updating)
    (hviews : C.Views st' a.log a.started) : C.Reads st' a := by
  refine ⟨hinv, ?_, ?_, hviews⟩
  · rw [hu]
    exact h.busy
  · rw [hu]
    exact h.last

theorem Reads.ctl_visit {st st' : ReplicaState T} {a : Snapshots T} (h : C.Reads st a)
    (hlt : ∀ lcore, C.IsLcore lcore → C.socketOf lcore < nbSockets) (hinv : C.Inv st')
    {tid s : ℕ} {fn : T → T} (hc : st.ctl = .visit tid fn s) (hstep : C.ctlStep st = some st') :
    ∃ a', ((snapshots C.fresh).step a (doneEvent st') a' ∨ doneEvent st' = none ∧ a' = a) ∧
      C.Reads st' a' := by
  have hu : st.ctl.updating = some (tid, fn) := by rw [hc]; rfl
  have hset := h.inv.settled
  have hcur : current st = none := by rw [current, hc]
  have htid : tid < C.nbTables := by
    have hctl := h.inv.ctl
    rwa [CtlInv, hc] at hctl
  have hmut : s < nbSockets → ((st.socket s).tables 0 0).isSome → mutated st =
      some ⟨s, tid, ((st.socket s).activeReplica tid + 1) % nbReplica⟩ := by
    intro hs hsome
    simp only [mutated, hc]
    rw [if_pos ⟨hs, hsome⟩]
  unfold ctlStep at hstep
  simp only [hc] at hstep
  split_ifs at hstep with hs hsome
  -- The next replica is changed.
  · obtain rfl := Option.some.inj hstep
    refine ⟨a, .inr ⟨rfl, rfl⟩, h.of_views hinv hu.symm ?_⟩
    obtain ⟨log, hlog, hviews⟩ := h.log_eq hu
    rw [hlog]
    refine hviews.mutate (h.inv.initialised s hsome) htid (Nat.mod_lt _ (by decide)) ?_ ?_ ?_ ?_
    · rw [hc]
      exact Nat.lt_irrefl s
    · exact fun lcore hl => h.inv.unused (hmut hs hsome) hl
    · intro s' r' _
      rw [hc]
      exact Iff.rfl
    · intro lcore _
      rw [hc]
      show _ ∨ _ ∧ lcore < 0 ↔ _
      simp [Ctl.SwitchedOver]
  -- No lcore has its tables on the socket.
  · obtain rfl := Option.some.inj hstep
    refine ⟨a, .inr ⟨rfl, rfl⟩, h.of_views hinv hu.symm ?_⟩
    have hne : ∀ s', C.Initialised s' → (s' < s + 1 ↔ s' < s) := by
      intro s' hs'
      have hs'' : s' ≠ s := by
        rintro rfl
        obtain ⟨t, ht⟩ := (hset s' hs' 0 (by omega) (by rw [hcur]; exact (Option.some_ne_none _).symm)).alike
        exact hsome (by rw [ht 0 (by decide)]; rfl)
      omega
    refine h.views.withCtl ?_ ?_
    · intro s' hs' r _
      rw [hc]
      exact hne s' hs'
    · intro lcore hl
      rw [hc]
      exact hne _ ⟨lcore, hl, rfl⟩
  -- All sockets are visited.
  · obtain rfl := Option.some.inj hstep
    refine ⟨{ a with busy := false }, .inl (.done a ?_), hinv, rfl, (fun _ hu => absurd hu.symm (Option.some_ne_none _)), ?_⟩
    · rw [h.busy, hu]
      rfl
    refine h.views.withCtl ?_ ?_
    · rintro s' ⟨lcore, hl, rfl⟩ r _
      rw [hc]
      have hl' := hlt lcore hl
      exact iff_of_true trivial (show _ < s by omega)
    · intro lcore hl
      rw [hc]
      have hl' := hlt lcore hl
      exact iff_of_true trivial (show _ < s by omega)

theorem Reads.ctl_mutateRest {st st' : ReplicaState T} {a : Snapshots T} (h : C.Reads st a)
    (hinv : C.Inv st') {tid s next r : ℕ} {fn : T → T}
    (hc : st.ctl = .mutateRest tid fn s next r) (hstep : C.ctlStep st = some st') :
    doneEvent st' = none ∧ C.Reads st' a := by
  have hu : st.ctl.updating = some (tid, fn) := by rw [hc]; rfl
  have hctl := h.inv.ctl
  rw [CtlInv, hc] at hctl
  obtain ⟨htid, hs, hnext, -⟩ := hctl
  have hmut : r < nbReplica → r ≠ next → mutated st = some ⟨s, tid, r⟩ := by
    intro hr hne
    simp only [mutated, hc]
    rw [if_pos ⟨hr, hne⟩]
  unfold ctlStep at hstep
  simp only [hc] at hstep
  by_cases hr : r < nbReplica
  · rw [if_pos hr] at hstep
    obtain rfl := Option.some.inj hstep
    refine ⟨rfl, h.of_views hinv hu.symm ?_⟩
    have hover : ∀ lcore, C.IsLcore lcore →
        ((Ctl.mutateRest tid fn s next (r + 1)).SwitchedOver lcore (C.socketOf lcore) ↔
          st.ctl.SwitchedOver lcore (C.socketOf lcore)) := by
      intro lcore _
      rw [hc]
      exact Iff.rfl
    by_cases hne : r = next
    · rw [if_neg (not_not.mpr hne)]
      refine h.views.withCtl ?_ hover
      intro s' _ r' _
      rw [hc]
      show _ ∨ _ ∧ (_ ∨ r' < r + 1) ↔ _ ∨ _ ∧ (_ ∨ r' < r)
      have hiff : r' = next ∨ r' < r + 1 ↔ r' = next ∨ r' < r := by omega
      rw [hiff]
    · rw [if_pos hne]
      obtain ⟨log, hlog, hviews⟩ := h.log_eq hu
      rw [hlog]
      refine hviews.mutate hs htid hr ?_ ?_ ?_ hover
      · rw [hc]
        show ¬ (_ ∨ _ ∧ (_ ∨ _))
        omega
      · exact fun lcore hl => h.inv.unused (hmut hr hne) hl
      · intro s' r' _
        rw [hc]
        show _ ∨ _ ∧ (_ ∨ r' < r + 1) ↔ (_ ∨ _ ∧ (_ ∨ r' < r)) ∨ _
        omega
  -- Every replica of the socket has the update.
  · rw [if_neg hr] at hstep
    obtain rfl := Option.some.inj hstep
    refine ⟨rfl, h.of_views hinv hu.symm (h.views.withCtl ?_ ?_)⟩
    · intro s' _ r' hr'
      rw [hc]
      show s' < s + 1 ↔ _ ∨ _ ∧ (_ ∨ _)
      omega
    · intro lcore _
      rw [hc]
      exact Nat.lt_succ_iff

theorem Reads.ctl {st st' : ReplicaState T} {a : Snapshots T}
    (hsocket : ∀ lcore, C.IsLcore lcore → C.rteSocket lcore = C.socketOf lcore)
    (hlt : ∀ lcore, C.IsLcore lcore → C.socketOf lcore < nbSockets)
    (h : C.Reads st a) (hstep : C.ctlStep st = some st') :
    ∃ a', ((snapshots C.fresh).step a (doneEvent st') a' ∨ doneEvent st' = none ∧ a' = a) ∧
      C.Reads st' a' := by
  have hinv : C.Inv st' := h.inv.ctlStep hsocket hstep
  cases hc : st.ctl with
  | idle => simp [ctlStep, hc] at hstep
  | visit tid fn s => exact h.ctl_visit hlt hinv hc hstep
  | switching tid fn s next n =>
    have hu : st.ctl.updating = some (tid, fn) := by rw [hc]; rfl
    have hctl := h.inv.ctl
    rw [CtlInv, hc] at hctl
    obtain ⟨htid, hs, hnext, -⟩ := hctl
    unfold ctlStep at hstep
    simp only [hc] at hstep
    by_cases hn : n < C.maxLcore
    · rw [if_pos hn] at hstep
      obtain rfl := Option.some.inj hstep
      refine ⟨a, .inr ⟨rfl, rfl⟩, h.of_views hinv hu.symm ?_⟩
      obtain ⟨log, hlog, hviews⟩ := h.log_eq hu
      rw [hlog]
      exact hviews.switch hsocket hc hn htid hs hnext
    · rw [if_neg hn] at hstep
      obtain rfl := Option.some.inj hstep
      refine ⟨a, .inr ⟨rfl, rfl⟩, h.of_views hinv hu.symm (h.views.withCtl ?_ ?_)⟩
      · intro s' _ r _
        rw [hc]
        exact Iff.rfl
      · intro lcore hl
        rw [hc]
        have hl' := hl.1
        show _ ≤ s ↔ _ ∨ _ ∧ lcore < n
        omega
  | waiting tid fn s next begun =>
    have hu : st.ctl.updating = some (tid, fn) := by rw [hc]; rfl
    unfold ctlStep at hstep
    simp only [hc] at hstep
    split_ifs at hstep
    obtain rfl := Option.some.inj hstep
    refine ⟨a, .inr ⟨rfl, rfl⟩, h.of_views hinv hu.symm (h.views.withCtl ?_ ?_)⟩
    · intro s' _ r _
      rw [hc]
      show _ ∨ _ ∧ (_ ∨ r < 0) ↔ _
      simp [Ctl.Written]
    · intro lcore _
      rw [hc]
      exact Iff.rfl
  | mutateRest tid fn s next r =>
    obtain ⟨hnone, hreads⟩ := h.ctl_mutateRest hinv hc hstep
    exact ⟨a, .inr ⟨hnone, rfl⟩, hreads⟩

/-! ### The switch is the log -/

theorem startPacketOn_ctl (st : ReplicaState T) (lcore l s r : ℕ) :
    (startPacketOn st lcore).ctl.updating = st.ctl.updating ∧
      ((startPacketOn st lcore).ctl.Written s r ↔ st.ctl.Written s r) ∧
      ((startPacketOn st lcore).ctl.SwitchedOver l s ↔ st.ctl.SwitchedOver l s) := by
  unfold startPacketOn
  cases st.ctl <;> exact ⟨rfl, Iff.rfl, Iff.rfl⟩

theorem Reads.packet {st : ReplicaState T} {a : Snapshots T} (h : C.Reads st a) (lcore : ℕ)
    (hl : C.IsLcore lcore) :
    ∃ a', (snapshots C.fresh).step a (some (.packet lcore)) a' ∧
      C.Reads (startPacketOn st lcore) a' := by
  refine ⟨_, .packet a lcore (updatesIn a.log (st.ctl.SwitchedOver lcore (C.socketOf lcore)))
    (updatesIn_le ..) ?_ (h.views.started lcore hl), h.inv.packet lcore, ?_, ?_, ?_⟩
  -- Without an update in progress, all updates are there.
  · cases hc : st.ctl with
    | idle =>
      rw [updatesIn_of (Ctl.switchedOver_idle lcore _)]
      exact Nat.le_add_right ..
    | _ =>
      rw [h.busy, hc]
      have hle := le_updatesIn a.log (st.ctl.SwitchedOver lcore (C.socketOf lcore))
      rw [hc] at hle
      show _ ≤ _ + 1
      omega
  · rw [(startPacketOn_ctl st lcore 0 0 0).1]
    exact h.busy
  · rw [(startPacketOn_ctl st lcore 0 0 0).1]
    exact h.last
  · exact (h.views.packet lcore).withCtl
      (fun s _ r _ => (startPacketOn_ctl st lcore 0 s r).2.1)
      fun l _ => (startPacketOn_ctl st lcore l (C.socketOf l) 0).2.2

end ReplicaConfig

end T4P4S
