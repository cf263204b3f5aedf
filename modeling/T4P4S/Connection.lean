/-
A connection between controller and dataplane as a channel.

At one end cells are put into the queue of the connection, at the other end they are
taken and handled; in between the threads move them, in any order of their turns.  The
dataplane takes its cells from a pool, and does not get one if all are in use.

* **`freeCell_iff`** — when `touch_mem_cell` gives a cell;
* **`connection_simulates`** — if every message is understood where it arrives, the
  connection is a channel;
* **`exists_idle`** — it never gets stuck;
* **`requests_arrive`** — so the changes that a controller asks for are made in order and
  at most once, and all of them if its queue is never full.
-/
import T4P4S.Install
import T4P4S.Lib.Channel
import T4P4S.Link
import T4P4S.MemCells

open ByteString Transition

namespace T4P4S

/-! ### The cells of the dataplane -/

/-- The `queue_size` that `init_control_plane` calls `create_backend` with. -/
def backendQueueSize : ℕ := 1000

/-- There is a free cell while so many are held. -/
def FreeCell (held : ℤ) : Prop := held < backendQueueSize

/-- **`touch_mem_cell` gives a cell iff there is a free one.** -/
theorem freeCell_iff {st : PoolState} (hst : (poolSystem backendQueueSize).Reachable st) :
    FreeCell st.held.length ↔ (touchMemCell st.bgt).2.isSome := by
  obtain ⟨used, unused, hlists⟩ := ((inductive_poolInv _).reachable hst).lists
  have hcells := hlists.cells.length_eq
  have hheld := hlists.held.length_eq
  rw [List.length_append, List.length_range] at hcells
  cases unused with
  | nil =>
    rw [touchMemCell_empty hlists, FreeCell]
    rw [List.length_nil] at hcells
    refine iff_of_false ?_ Bool.false_ne_true
    omega
  | cons c unused =>
    rw [(touchMemCell_lists hlists).1, FreeCell]
    rw [List.length_cons] at hcells
    exact iff_of_true (by omega) rfl

theorem freeCell_zero : FreeCell 0 := (by decide : (0 : ℤ) < backendQueueSize)

/-- The queues have room for all cells. -/
theorem FreeCell.hasSpace {α : Type*} {q : Fifo α} (h : FreeCell q.size) : q.HasSpace :=
  h.trans (by decide)

/-! ### Connections -/

section Connection

variable {D β : Type*}

/-- The cells that are sent for something, and what a cell that arrives is handled as; and when
there is a free cell for something that is sent, and for the thread that reads. -/
structure Ends (D β : Type*) where
  sends : D → Buffer → Prop
  handles : Buffer → Option β → Prop
  sendCell : Link → Prop
  readCell : Link → Prop
  handles_total : ∀ cell, ∃ result, handles cell result
  readCell_empty : ∀ l, l.inp.size = 0 → readCell l

/-- A cell is sent, a thread takes a turn, or the first cell that has arrived is handled.
There is no step that sends something without a free cell, where the dataplane follows a
`NULL` pointer. -/
inductive ConnectionStep (ends : Ends D β) : Link → Option (ChannelEvent D β) → Link → Prop
  | send {l : Link} {d : D} {cell : Buffer} (hcell : ends.sendCell l)
      (hsends : ends.sends d cell) :
      ConnectionStep ends l (some (.sent d (decide l.out.HasSpace))) (l.send cell)
  | turn {l l' : Link} {lost : Bool} (hturn : Link.Step ends.readCell l lost l') :
      ConnectionStep ends l (if lost then some .lost else none) l'
  | handle {l : Link} {inp : Fifo Buffer} {cell : Buffer} {result : Option β}
      (hremove : fifoRemoveMsg p4BgQueueSize l.inp = (inp, some cell))
      (hhandles : ends.handles cell result) :
      ConnectionStep ends l (some (result.elim .lost .delivered)) { l with inp := inp }

def connection (ends : Ends D β) : LabelledSystem Link (ChannelEvent D β) where
  init l := ∃ out inp, l = Link.fresh out inp
  step := ConnectionStep ends

/-- A cell that begins with the message is handled as this, whatever is behind the message. -/
def Ends.ReadAs (ends : Ends D β) (m : P4Msg) (b : β) : Prop :=
  ∀ cell result, Begins cell m → ends.handles cell result → result = some b

/-- The cell begins with a message that is handled as this. -/
def Ends.Means (ends : Ends D β) (cell : Buffer) (b : β) : Prop :=
  ∃ m, Begins cell m ∧ m.InRange p4BgMemCellSize ∧ ends.ReadAs m b

/-- What is sent is a message that is understood. -/
def Ends.Understands (ends : Ends D β) (meaning : D → β) : Prop :=
  ∀ d cell, ends.sends d cell → ends.Means cell (meaning d)

/-- The meanings of the messages that are underway. -/
def Ends.Underway (ends : Ends D β) (l : Link) (q : List β) : Prop :=
  ∃ msgs, l.Carries msgs ∧ List.Forall₂ ends.ReadAs msgs q

theorem exists_sublist_forall₂ {α γ : Type*} {R : α → γ → Prop} {xs xs' : List α} {ys : List γ}
    (h : List.Forall₂ R xs ys) (hxs : xs'.Sublist xs) :
    ∃ ys', ys'.Sublist ys ∧ List.Forall₂ R xs' ys' := by
  induction hxs generalizing ys with
  | slnil => exact ⟨[], List.nil_sublist _, .nil⟩
  | cons _ _ ih =>
    cases h with
    | cons _ hrest =>
      obtain ⟨ys', hys, hall⟩ := ih hrest
      exact ⟨ys', hys.cons _, hall⟩
  | cons_cons _ _ ih =>
    cases h with
    | cons hfirst hrest =>
      obtain ⟨ys', hys, hall⟩ := ih hrest
      exact ⟨_ :: ys', hys.cons_cons _, .cons hfirst hall⟩

variable {ends : Ends D β} {meaning : D → β}

theorem Ends.Underway.idle_iff {l : Link} {q : List β} (h : ends.Underway l q) :
    l.Idle ↔ q = [] := by
  obtain ⟨msgs, hcarries, hread⟩ := h
  rw [hcarries.idle_iff, ← List.length_eq_zero_iff, hread.length_eq, List.length_eq_zero_iff]

section Underway

variable {l l' : Link} {q : List β}

theorem Ends.Underway.send (hq : ends.Underway l q) (hspace : l.out.HasSpace) {cell : Buffer} {b : β}
    (hmeans : ends.Means cell b) : ends.Underway (l.send cell) (q ++ [b]) := by
  obtain ⟨msgs, hcarries, hread⟩ := hq
  obtain ⟨m, hcell, hm, hmeaning⟩ := hmeans
  exact ⟨msgs ++ [m], hcarries.send hspace hcell hm, List.rel_append hread (.cons hmeaning .nil)⟩

theorem Ends.Underway.turn (hq : ends.Underway l q) {free : Link → Prop} {lost : Bool}
    (hturn : Link.Step free l lost l') :
    (lost = true → free l ∧ ¬ l.inp.HasSpace) ∧
      ∃ q', q'.Sublist q ∧ (lost = false → q' = q) ∧ ends.Underway l' q' := by
  obtain ⟨msgs, hcarries, hread⟩ := hq
  obtain ⟨hfull, msgs', hsub, hlossless, hcarries'⟩ := hcarries.step hturn
  refine ⟨hfull, ?_⟩
  cases lost with
  | false =>
    obtain rfl := hlossless rfl
    exact ⟨q, List.Sublist.refl q, fun _ => rfl, msgs', hcarries', hread⟩
  | true =>
    obtain ⟨q', hq', hread'⟩ := exists_sublist_forall₂ hread hsub
    exact ⟨q', hq', fun h => absurd h (by decide), msgs', hcarries', hread'⟩

/-- What is handled is the oldest of what is underway. -/
theorem Ends.Underway.handle (hq : ends.Underway l q) {inp : Fifo Buffer} {cell : Buffer}
    {result : Option β} (hremove : fifoRemoveMsg p4BgQueueSize l.inp = (inp, some cell))
    (hhandles : ends.handles cell result) :
    ∃ b q', q = b :: q' ∧ result = some b ∧ ends.Underway { l with inp := inp } q' := by
  obtain ⟨msgs, hcarries, hread⟩ := hq
  obtain ⟨m, rest, rfl, hcell, -, hcarries'⟩ := hcarries.remove hremove
  cases hread with
  | @cons _ b _ q' hfirst hread' =>
    exact ⟨b, q', rfl, hfirst cell result hcell hhandles, rest, hcarries', hread'⟩

/-- The oldest message can arrive. -/
theorem Ends.Underway.next {b : β} (hq : ends.Underway l (b :: q)) {free : Link → Prop}
    (hfree : ∀ l, l.inp.size = 0 → free l) :
    ∃ l' inp cell, l.Turns free l' ∧ fifoRemoveMsg p4BgQueueSize l'.inp = (inp, some cell) ∧
      ends.handles cell (some b) ∧ ends.Underway { l' with inp := inp } q := by
  obtain ⟨msgs, hcarries, hread⟩ := hq
  cases hread with
  | cons hfirst hread' =>
    obtain ⟨l', inp, cell, hturns, hcarries', hremove⟩ := hcarries.arrives hfree
    obtain ⟨result, hresult⟩ := ends.handles_total cell
    have hq' : ends.Underway l' (b :: q) := ⟨_, hcarries', .cons hfirst hread'⟩
    obtain ⟨b', q', heq, rfl, hrest⟩ := hq'.handle hremove hresult
    obtain ⟨rfl, rfl⟩ := List.cons.inj heq
    exact ⟨l', inp, cell, hturns, hremove, hresult, hrest⟩

end Underway

/-- One step of the connection is one of the channel, or is not seen. -/
theorem Ends.Understands.step (h : ends.Understands meaning) {l l' : Link} {q : List β}
    {e : Option (ChannelEvent D β)} (hq : ends.Underway l q) (hstep : ConnectionStep ends l e l') :
    ∃ q', (ChannelStep (fun d => [meaning d]) q e q' ∨ e = none ∧ q' = q) ∧
      ends.Underway l' q' := by
  cases hstep with
  | @send d cell hcell hsends =>
    by_cases hspace : l.out.HasSpace
    · rw [decide_eq_true hspace]
      exact ⟨_, .inl (.sent q d), hq.send hspace (h d cell hsends)⟩
    · rw [decide_eq_false hspace, Link.send_full hspace]
      exact ⟨q, .inl (.refused q d), hq⟩
  | @turn _ lost hturn =>
    obtain ⟨-, q', hsub, hlossless, hq'⟩ := hq.turn hturn
    cases lost with
    | false =>
      obtain rfl := hlossless rfl
      exact ⟨q', .inr ⟨rfl, rfl⟩, hq'⟩
    | true => exact ⟨q', .inl (.lost hsub), hq'⟩
  | handle hremove hhandles =>
    obtain ⟨b, q', rfl, rfl, hq'⟩ := hq.handle hremove hhandles
    exact ⟨q', .inl (.delivered b q'), hq'⟩

/-- Something is lost only at a full queue. -/
theorem Ends.Underway.full {l l' : Link} {q : List β} (hq : ends.Underway l q)
    {e : ChannelEvent D β} (hstep : ConnectionStep ends l (some e) l') (hlost : ¬ e.Lossless) :
    ends.sendCell l ∧ ¬ l.out.HasSpace ∨ ends.readCell l ∧ ¬ l.inp.HasSpace := by
  generalize hevent : some e = event at hstep
  cases hstep with
  | send hcell hsends =>
    obtain rfl := Option.some.inj hevent
    exact .inl ⟨hcell, fun hspace => hlost (decide_eq_true hspace)⟩
  | @turn _ lost hturn =>
    cases lost with
    | false => exact absurd hevent (Option.some_ne_none e)
    | true => exact .inr ((hq.turn hturn).1 rfl)
  | handle hremove hhandles =>
    obtain ⟨b, q', rfl, rfl, -⟩ := hq.handle hremove hhandles
    obtain rfl := Option.some.inj hevent
    exact absurd trivial hlost

/-- **A connection whose messages are understood is a channel.** -/
theorem connection_simulates (h : ends.Understands meaning) :
    (connection ends).Simulates (channel fun d => [meaning d]) ends.Underway where
  init := by
    rintro l ⟨out, inp, rfl⟩
    exact ⟨[], rfl, [], Link.carries_fresh out inp, .nil⟩
  step _ _ _ _ hq hstep := h.step hq hstep

theorem trace_turns {tr : List (ChannelEvent D β)} {l l' : Link}
    (htr : (connection ends).Trace tr l) (hturns : l.Turns ends.readCell l') :
    (connection ends).Trace tr l' := by
  induction hturns with
  | refl => exact htr
  | tail _ hturn ih =>
    have hstep := LabelledSystem.Trace.step ih (.turn hturn)
    rwa [if_neg Bool.false_ne_true, Option.toList_none, List.append_nil] at hstep

/-- What is underway can all come out, until nothing is left. -/
theorem exists_idle {tr : List (ChannelEvent D β)} {l : Link}
    (htr : (connection ends).Trace tr l) {q : List β} (hq : ends.Underway l q) :
    ∃ l', (connection ends).Trace (tr ++ q.map .delivered) l' ∧ l'.Idle := by
  induction q generalizing tr l with
  | nil =>
    rw [List.map_nil, List.append_nil]
    exact ⟨l, htr, hq.idle_iff.mpr rfl⟩
  | cons b q ih =>
    obtain ⟨l', inp, cell, hturns, hremove, hresult, hq'⟩ := hq.next ends.readCell_empty
    obtain ⟨l'', htr₂, hidle⟩ := ih (.step (trace_turns htr hturns) (.handle hremove hresult)) hq'
    rw [List.append_assoc] at htr₂
    exact ⟨l'', htr₂, hidle⟩

/-- What comes out of such a connection was sent, in this order and not more often.  Everything
that was sent comes out if nothing is lost, and nothing is lost but at a full queue: what is
underway can come out at any time. -/
theorem connection_delivered (h : ends.Understands meaning) {tr : List (ChannelEvent D β)}
    {l : Link} (htr : (connection ends).Trace tr l) :
    (∃ q, (delivered tr ++ q).Sublist (asked (fun d => [meaning d]) tr) ∧
      ((∀ e ∈ tr, e.Lossless) → delivered tr ++ q = asked (fun d => [meaning d]) tr) ∧
      (l.Idle → q = []) ∧
      ∃ l', (connection ends).Trace (tr ++ q.map .delivered) l' ∧ l'.Idle) ∧
    ∀ e l', ConnectionStep ends l (some e) l' → ¬ e.Lossless →
      ends.sendCell l ∧ ¬ l.out.HasSpace ∨ ends.readCell l ∧ ¬ l.inp.HasSpace := by
  obtain ⟨q, hchannel, hq⟩ := (connection_simulates h).trace htr
  exact ⟨⟨q, delivered_sublist hchannel, delivered_eq hchannel, hq.idle_iff.mp,
    exists_idle htr hq⟩, fun _ _ => hq.full⟩

/-- A first message is sent. -/
theorem trace_send {d : D} {cell : Buffer}
    (hcell : ends.sendCell (Link.fresh (fun _ => none) fun _ => none))
    (hsends : ends.sends d cell) :
    (connection ends).Trace [.sent d true]
      ((Link.fresh (fun _ => none) fun _ => none).send cell) := by
  have hinit : (connection ends).Trace [] (Link.fresh (fun _ => none) fun _ => none) :=
    .init ⟨_, _, rfl⟩
  exact .step hinit (ConnectionStep.send hcell hsends)

end Connection

/-! ### Requests -/

section Requests

variable (align : ℕ → ℕ) (prog : List CtrlTable)

/-- `send_p4_msg` copies a request into new memory; at the other end it is read into a cell of the
pool, and the callback makes a call, with anything in its variables. -/
def requestEnds : Ends (ℕ × TableCall) (ℕ × TableCall) where
  sends call cell :=
    ∃ bytes, RequestFor align prog bytes call ∧ slice cell 0 bytes.length = bytes
  handles cell result :=
    ∃ ctrl stack, (handleCell align prog ctrl cell p4BgMemCellSize stack).call = result
  sendCell _ := True
  readCell l := FreeCell l.inp.size
  handles_total _ := ⟨_, default, fun _ _ => 0, rfl⟩
  readCell_empty l hempty := by
    rw [hempty]
    exact freeCell_zero

variable {align : ℕ → ℕ} {prog : List CtrlTable}

theorem requestEnds_means {cell : Buffer} {n : ℕ} {m : P4Msg} {call : ℕ × TableCall}
    (hbytes : m.bytes = slice cell 0 n) (hrange : m.InRange p4BgMemCellSize)
    (hcall : ∀ cell', slice cell' 0 n = slice cell 0 n → ∀ ctrl stack,
      (handleCell align prog ctrl cell' p4BgMemCellSize stack).call = some call) :
    (requestEnds align prog).Means cell call := by
  refine ⟨m, ?_, hrange, ?_⟩
  · rw [Begins, hbytes, length_slice]
  · rintro cell' result hcell' ⟨ctrl, stack, rfl⟩
    rw [Begins, hbytes, length_slice] at hcell'
    exact hcall cell' hcell' ctrl stack

theorem requestEnds_understands (halign : IsAlign align)
    (hnames : Distinct (prog.map CtrlTable.name)) :
    (requestEnds align prog).Understands id := by
  rintro call cell ⟨bytes, hreq, hcell⟩
  obtain ⟨m, rfl, hrange, hcall⟩ := hreq.understood halign hnames
  refine ⟨m, hcell, hrange, ?_⟩
  rintro cell' result hcell' ⟨ctrl, stack, rfl⟩
  exact hcall cell' hcell' ctrl stack

/-- **The tables are changed as the controller asks, in order and at most once**, whatever the
order in which the threads take turns; and as often as it asks, if nothing is lost.  A request is
lost only if the queue of the controller is full. -/
theorem requests_arrive (halign : IsAlign align) (hnames : Distinct (prog.map CtrlTable.name))
    {tr : List (ChannelEvent (ℕ × TableCall) (ℕ × TableCall))} {l : Link}
    (htr : (connection (requestEnds align prog)).Trace tr l) :
    (∃ calls, (delivered tr ++ calls).Sublist (asked (fun call => [call]) tr) ∧
      ((∀ e ∈ tr, e.Lossless) → delivered tr ++ calls = asked (fun call => [call]) tr) ∧
      (l.Idle → calls = []) ∧
      ∃ l', (connection (requestEnds align prog)).Trace (tr ++ calls.map .delivered) l' ∧
        l'.Idle) ∧
    ∀ e l', ConnectionStep (requestEnds align prog) l (some e) l' → ¬ e.Lossless →
      ¬ l.out.HasSpace := by
  obtain ⟨harrive, hfull⟩ := connection_delivered (requestEnds_understands halign hnames) htr
  refine ⟨harrive, fun e l' hstep hlost => ?_⟩
  rcases hfull e l' hstep hlost with ⟨-, hout⟩ | ⟨hcell, hinp⟩
  · exact hout
  · exact absurd hcell.hasSpace hinp

/-- The request to forward packets with the destination 10 to port 1 is sent, and arrives. -/
theorem forward_arrives : ∃ l,
    (connection (requestEnds align8or16or32 [forwardTable])).Trace
      [.sent (0, forwardChange.tableCall align8or16or32 forwardTable) true,
        .delivered (0, forwardChange.tableCall align8or16or32 forwardTable)] l ∧ l.Idle := by
  obtain ⟨buffer, hbuilt⟩ := buildMsg_forwardRequest
  have hnames : Distinct ([forwardTable].map CtrlTable.name) := distinct_singleton (by decide)
  have hactions : Distinct (forwardTable.actions.map ActionDecl.name) :=
    distinct_singleton (by decide)
  have hreq : RequestFor align8or16or32 [forwardTable] (slice buffer 0 forwardRequest.length)
      (0, forwardChange.tableCall align8or16or32 forwardTable) :=
    .intro forwardTable 0 forwardChange forwardRequest p4BgMemCellSize _ buffer rfl (by decide)
      hactions forwardChange_for forwardChange_askedBy le_rfl hbuilt
  have hsends : (requestEnds align8or16or32 [forwardTable]).sends
      (0, forwardChange.tableCall align8or16or32 forwardTable) buffer :=
    ⟨_, hreq, by rw [length_slice]⟩
  obtain ⟨⟨calls, -, hlossless, -, l, htr, hidle⟩, -⟩ :=
    requests_arrive isAlign_align8or16or32 hnames (trace_send trivial hsends)
  obtain rfl := hlossless (List.forall_mem_singleton.mpr rfl)
  exact ⟨l, htr, hidle⟩

end Requests

end T4P4S
