/-
The states of the generated parser and the transitions between them.

Each state is a function that executes the components of the state and then calls
the function of the next state; `accept` computes the length of the payload and
`reject` drops the packet.  The run is the chain of these calls.  The locals of the
parser have an arbitrary type `L`.

* **`parser_follows_p4`** — in a run whose selects are judged right and whose
  components move both cursors alike, where the packet is not rejected, each transition
  is the one of P4, and the parser returns with the packet accepted, the payload right
  behind the parsed bytes, or dropped;
* **`noMatch_not_rejected`** — a select without a matching case returns to the
  controls.
-/
import T4P4S.FastPath
import T4P4S.Lib.Transition
import T4P4S.Select

open CMem Transition

namespace T4P4S

variable (hlir : Hlir) {L : Type}

/-! ### The states -/

/-- What a parser state is made of.  Sizes, operands and indexes are expressions over
the descriptor and the locals. -/
inductive Component (L : Type)
  | op (o : PacketDescriptor → L → ParserOp)
  | stmt (s : PacketDescriptor → L → Statement)
  | assignLocal (f : PacketDescriptor → L → L)
  | assignEgressPort (f : PacketDescriptor → L → ℕ)

/-- What follows `transition`. -/
inductive StateTransition (L : Type)
  | direct (t : Target)
  | select (e : SelectExpression (PacketDescriptor × L))

structure ParserState (L : Type) where
  components : List (Component L)
  selectExpression : StateTransition L

/-- The states of a parser; the first one is `start`. -/
structure P4Parser (L : Type) where
  states : ℕ → ParserState L

/-- A component.  The first result is what its function returns. -/
def execComponent (c : Component L) (pd : PacketDescriptor) (l : L) :
    Option (Bool × PacketDescriptor × L) :=
  match c with
  | .op o => (parserStep hlir (o pd l) pd).map fun r => (r.1, r.2, l)
  | .stmt s => (execStatement hlir (s pd l) pd).map fun pd' => (true, pd', l)
  | .assignLocal f => some (true, pd, f pd l)
  | .assignEgressPort f => some (true, { pd with egressPort := f pd l }, l)

/-- The components in order, up to the first one that fails. -/
def execComponents : List (Component L) → PacketDescriptor → L →
    Option (Bool × PacketDescriptor × L)
  | [], pd, l => some (true, pd, l)
  | c :: cs, pd, l => (execComponent hlir c pd l).bind fun r =>
    if r.1 then execComponents cs r.2.1 r.2.2 else some r

/-- Where a run of the parser is: at the call of the function of a state, or back in
`process_packet`. -/
inductive ParserPoint (L : Type)
  | enter (t : Target) (pd : PacketDescriptor) (l : L)
  | returned (pd : PacketDescriptor) (l : L)

/-- The state that the generated code goes on with, if any; there may be no program. -/
def nextState (tr : StateTransition L) (x : PacketDescriptor × L) : Option (Option Target) :=
  match tr with
  | .direct t => some (some t)
  | .select e => (genSelect e).map fun code => code x

/-- The state that P4 goes on with. -/
def p4NextState (tr : StateTransition L) (x : PacketDescriptor × L) : Option (Option Target) :=
  match tr with
  | .direct t => some (some t)
  | .select e => some (some (p4Select e x))

/-- The function `parser_state_X` up to the call of the next one, which `next` picks. -/
def parserState (next : StateTransition L → PacketDescriptor × L → Option (Option Target))
    (p : P4Parser L) (t : Target) (pd : PacketDescriptor) (l : L) : Option (ParserPoint L) :=
  match t with
  | .accept => some (.returned (parserAccept pd) l)
  | .reject => some (.returned (dropPacket pd) l)
  | .state s => (execComponents hlir (p.states s).components pd l).bind fun r =>
    if r.1 then
      (next (p.states s).selectExpression r.2).map fun
        | some t => .enter t r.2.1 r.2.2
        | none => .returned r.2.1 r.2.2
    else
      some (.returned r.2.1 r.2.2)

/-- The runs of a parser, from states that meet the condition `C`. -/
def parserSystem (next : StateTransition L → PacketDescriptor × L → Option (Option Target))
    (C : ParserState L → PacketDescriptor → L → Prop) (p : P4Parser L) (pd₀ : PacketDescriptor)
    (l₀ : L) : System (ParserPoint L) where
  init c := c = .enter (.state 0) pd₀ l₀
  step c c' := ∃ t pd l, c = .enter t pd l ∧ (∀ s, t = .state s → C (p.states s) pd l) ∧
    parserState hlir next p t pd l = some c'

/-- The runs of the parser as P4 has them. -/
def p4System (p : P4Parser L) (pd₀ : PacketDescriptor) (l₀ : L) : System (ParserPoint L) :=
  parserSystem hlir p4NextState (fun _ _ _ => True) p pd₀ l₀

/-- What a run of the generated parser has to be: one of P4, which returns with the
packet accepted, the payload being all that is behind the parsed bytes, or dropped. -/
structure ParserCorrect (p : P4Parser L) (pd₀ : PacketDescriptor) (l₀ : L) (c : ParserPoint L) :
    Prop where
  follows : (p4System hlir p pd₀ l₀).Reachable c
  ended : ∀ pd l, c = .returned pd l → pd.isPacketDropped = true ∨
    ∃ pd₁, (p4System hlir p pd₀ l₀).Reachable (.enter .accept pd₁ l) ∧ pd = parserAccept pd₁ ∧
      pd.payloadSize = pd.wrapper.pktLen - pd.parsedSize ∧
        pd.extractPtr = pd.wrapper.mtod + pd.parsedSize

/-! ### The condition -/

/-- The operation moves both cursors by as many bytes. -/
def MovesAlike (o : ParserOp) (pd : PacketDescriptor) : Prop :=
  match o with
  | .advance size => size = 0
  | o => ∀ hdr len, extractCall hlir o pd = some (hdr, len) →
    (hlir.headerInstance hdr).isSkipped = true →
      skipBytes (hlir.headerInstance hdr) = ((hlir.headerInstance hdr).size + len) / 8

def ComponentsSafe : List (Component L) → PacketDescriptor → L → Prop
  | [], _, _ => True
  | c :: cs, pd, l => (∀ o, c = .op o → MovesAlike hlir (o pd l) pd) ∧
    ∀ pd' l', execComponent hlir c pd l = some (true, pd', l') → ComponentsSafe cs pd' l'

/-- The components of the state move both cursors alike, unless it goes to `reject`, and its
select is judged right up to the first case that matches. -/
structure StateSafe (s : ParserState L) (pd : PacketDescriptor) (l : L) : Prop where
  components : ∀ pd' l', execComponents hlir s.components pd l = some (true, pd', l') →
    p4NextState s.selectExpression (pd', l') ≠ some (some .reject) →
      ComponentsSafe hlir s.components pd l
  select : ∀ e, s.selectExpression = .select e → ∀ pd' l',
    execComponents hlir s.components pd l = some (true, pd', l') →
      CasesSafe e.select (pd', l') e.selectCases

variable {hlir}

/-! ### The cursors -/

/-- The payload starts where the cursor points to, right behind the parsed bytes. -/
structure Aligned (pd : PacketDescriptor) : Prop where
  data_eq : pd.data = some pd.wrapper.mtod
  extractPtr_eq : pd.extractPtr = pd.wrapper.mtod + pd.parsedSize

theorem Aligned.startPacket {init pd₀ : PacketDescriptor}
    (hdata : init.data = some init.wrapper.mtod) (h : startPacket hlir init = some pd₀) :
    Aligned pd₀ := by
  rw [T4P4S.startPacket, hdata, Option.map_some, Option.some_inj] at h
  subst h
  exact ⟨hdata, rfl⟩

theorem Aligned.accept {pd : PacketDescriptor} (h : Aligned pd) :
    (parserAccept pd).payloadSize = (parserAccept pd).wrapper.pktLen - (parserAccept pd).parsedSize ∧
      (parserAccept pd).extractPtr = (parserAccept pd).wrapper.mtod + (parserAccept pd).parsedSize := by
  refine ⟨?_, h.extractPtr_eq⟩
  simp only [parserAccept, h.data_eq, h.extractPtr_eq, Option.map_some, Option.getD_some,
    PacketDescriptor.packetSize, Ptr.off_add]
  omega

/-- How far a successful extraction moves the two cursors. -/
theorem parserExtract_cursors {hdr len : ℕ} {pd pd' : PacketDescriptor} {r : ParseResult}
    (hx : parserExtract hlir hdr len pd = some (r, pd')) (hr : r.isNegative = false) :
    pd'.wrapper = pd.wrapper ∧ pd'.data = pd.data ∧
      pd'.extractPtr = pd.extractPtr + ((hlir.headerInstance hdr).size + len) / 8 ∧
      pd'.parsedSize = pd.parsedSize +
        if (hlir.headerInstance hdr).isSkipped then skipBytes (hlir.headerInstance hdr)
        else ((hlir.headerInstance hdr).size + len) / 8 := by
  obtain ⟨f, hf⟩ := nextElement_eq hlir hdr pd
  obtain ⟨-, hx⟩ := Option.ite_none_right_eq_some.mp hx
  rw [Option.some_inj, hf, extractInto] at hx
  split at hx
  · cases hx; cases hr
  · split at hx
    · next hskip =>
      dsimp only at hx
      split at hx
      · cases hx; cases hr
      · cases hx
        rw [if_pos hskip]
        exact ⟨rfl, rfl, rfl, rfl⟩
    · next hskip =>
      cases hx
      rw [if_neg hskip]
      exact ⟨rfl, rfl, rfl, rfl⟩

theorem Aligned.parserStep {o : ParserOp} {pd pd' : PacketDescriptor} (h : Aligned pd)
    (hmoves : MovesAlike hlir o pd) (hstep : parserStep hlir o pd = some (true, pd')) :
    Aligned pd' := by
  rcases parserStep_true hstep with
    ⟨hdr, len, r, pd₁, hcall, hx, hr, hpd⟩ | ⟨size, rfl, rfl⟩ | ⟨-, rfl⟩
  · obtain ⟨hwrapper, hdata, hptr, hparsed⟩ := parserExtract_cursors hx hr
    have hskip : (hlir.headerInstance hdr).isSkipped = true →
        skipBytes (hlir.headerInstance hdr) = ((hlir.headerInstance hdr).size + len) / 8 := by
      cases o with
      | advance size => cases hcall
      | lookahead size => cases hcall
      | extract => exact hmoves hdr len hcall
      | extractNested => exact hmoves hdr len hcall
      | extractNestedStk => exact hmoves hdr len hcall
    have hmoved : Aligned pd₁ := by
      refine ⟨by rw [hdata, hwrapper, h.data_eq], ?_⟩
      rw [hptr, hparsed, hwrapper, h.extractPtr_eq, Ptr.add_add]
      split
      · next hinst => rw [hskip hinst]
      · rfl
    rcases hpd with ⟨rfl, -⟩ | rfl
    · exact hmoved
    · exact ⟨hmoved.data_eq, hmoved.extractPtr_eq⟩
  · rw [MovesAlike] at hmoves
    subst hmoves
    exact ⟨h.data_eq, h.extractPtr_eq⟩
  · exact h

/-- An operation that fails has dropped the packet. -/
theorem parserStep_failed {o : ParserOp} {pd pd' : PacketDescriptor}
    (h : parserStep hlir o pd = some (false, pd')) : pd'.isPacketDropped = true := by
  have hmapped : ∀ {x : Option (ParseResult × PacketDescriptor)},
      x.map checkExtracted = some (false, pd') → pd'.isPacketDropped = true := by
    intro x hx
    obtain ⟨r, -, hr⟩ := Option.map_eq_some_iff.mp hx
    exact checkExtracted_eq_false hr
  cases o with
  | extract hdr width =>
    rw [T4P4S.parserStep, extractComponent] at h
    split at h
    · cases h
      rfl
    · obtain ⟨r, -, hmark⟩ := Option.map_eq_some_iff.mp h
      -- Marking the extraction as one that skips does not undo the drop.
      generalize hc : checkExtracted r = rc at hmark
      obtain ⟨ok, pd₂⟩ := rc
      rw [markSkipped] at hmark
      split at hmark
      · next hok =>
        cases hmark
        cases hok
      · cases hmark
        exact checkExtracted_eq_false hc
  | extractNested hdr => exact hmapped h
  | extractNestedStk stk =>
    rw [T4P4S.parserStep, extractNestedStk] at h
    split at h
    · exact hmapped h
    · cases h
  -- It never fails.
  | advance size => cases h
  | lookahead size =>
    obtain ⟨-, -, hpd⟩ := Option.map_eq_some_iff.mp h
    cases hpd

/-- A statement leaves the mbuf and the cursors alone. -/
theorem Aligned.execStatement {s : Statement} {pd pd' : PacketDescriptor} (h : Aligned pd)
    (hstep : execStatement hlir s pd = some pd') : Aligned pd' := by
  have hsame : ∀ {pd₁ : PacketDescriptor}, some pd₁ = some pd' → Aligned pd₁ → Aligned pd' := by
    rintro pd₁ heq h₁
    rw [Option.some_inj] at heq
    rwa [← heq]
  cases s with
  | setValid hdr =>
    refine hsame hstep ?_
    rw [setHdrValid]
    split
    · exact h
    · exact ⟨h.data_eq, h.extractPtr_eq⟩
  | setInvalid hdr =>
    refine hsame hstep ?_
    rw [setHdrInvalid]
    split
    · exact ⟨h.data_eq, h.extractPtr_eq⟩
    · exact h
  | assign dst src =>
    rw [T4P4S.execStatement, doAssignment] at hstep
    split at hstep
    · obtain ⟨mem, rfl⟩ := copyHeader_eq_some hstep
      split
      · exact ⟨h.data_eq, h.extractPtr_eq⟩
      · exact ⟨h.data_eq, h.extractPtr_eq⟩
    · exact hsame hstep ⟨h.data_eq, h.extractPtr_eq⟩
  | assignVarbit dst src => exact hsame hstep ⟨h.data_eq, h.extractPtr_eq⟩
  | modify a b => exact hsame hstep ⟨h.data_eq, h.extractPtr_eq⟩
  | emit hdr =>
    rw [T4P4S.execStatement, emit] at hstep
    split at hstep
    · exact hsame hstep ⟨h.data_eq, h.extractPtr_eq⟩
    · cases hstep

theorem Aligned.execComponent {c : Component L} {pd pd' : PacketDescriptor} {l l' : L}
    (h : Aligned pd) (hmoves : ∀ o, c = .op o → MovesAlike hlir (o pd l) pd)
    (hstep : execComponent hlir c pd l = some (true, pd', l')) : Aligned pd' := by
  cases c with
  | op o =>
    obtain ⟨⟨ok, pd₁⟩, ho, heq⟩ := Option.map_eq_some_iff.mp hstep
    cases heq
    exact h.parserStep (hmoves o rfl) ho
  | stmt s =>
    obtain ⟨pd₁, hs, heq⟩ := Option.map_eq_some_iff.mp hstep
    cases heq
    exact h.execStatement hs
  | assignLocal f =>
    cases hstep
    exact h
  | assignEgressPort f =>
    cases hstep
    exact ⟨h.data_eq, h.extractPtr_eq⟩

theorem execComponent_failed {c : Component L} {pd pd' : PacketDescriptor} {l l' : L}
    (hstep : execComponent hlir c pd l = some (false, pd', l')) : pd'.isPacketDropped = true := by
  cases c with
  | op o =>
    obtain ⟨⟨ok, pd₁⟩, ho, heq⟩ := Option.map_eq_some_iff.mp hstep
    cases heq
    exact parserStep_failed ho
  | stmt s =>
    obtain ⟨pd₁, -, heq⟩ := Option.map_eq_some_iff.mp hstep
    cases heq
  | assignLocal f => cases hstep
  | assignEgressPort f => cases hstep

theorem Aligned.execComponents {cs : List (Component L)} {pd pd' : PacketDescriptor} {l l' : L}
    (h : Aligned pd) (hsafe : ComponentsSafe hlir cs pd l)
    (hstep : execComponents hlir cs pd l = some (true, pd', l')) : Aligned pd' := by
  induction cs generalizing pd l with
  | nil =>
    cases hstep
    exact h
  | cons c cs ih =>
    obtain ⟨⟨ok₁, pd₁, l₁⟩, hc, hrest⟩ := Option.bind_eq_some_iff.mp hstep
    cases ok₁ with
    | true => exact ih (h.execComponent hsafe.1 hc) (hsafe.2 pd₁ l₁ hc) hrest
    | false => cases hrest

/-- Where a component fails, the packet is dropped. -/
theorem execComponents_failed {cs : List (Component L)} {pd pd' : PacketDescriptor} {l l' : L}
    (hstep : execComponents hlir cs pd l = some (false, pd', l')) :
    pd'.isPacketDropped = true := by
  induction cs generalizing pd l with
  | nil => cases hstep
  | cons c cs ih =>
    obtain ⟨⟨ok₁, pd₁, l₁⟩, hc, hrest⟩ := Option.bind_eq_some_iff.mp hstep
    cases ok₁ with
    | true => exact ih hrest
    | false =>
      cases hrest
      exact execComponent_failed hc

/-! ### Runs -/

/-- What a run of safe states keeps: it is a run of P4, the cursors agree at each call but that
of `reject`, and the parser returns with an accepted or a dropped packet. -/
structure RunInv (hlir : Hlir) (p : P4Parser L) (pd₀ : PacketDescriptor) (l₀ : L)
    (c : ParserPoint L) : Prop where
  correct : ParserCorrect hlir p pd₀ l₀ c
  aligned : ∀ t pd l, c = .enter t pd l → t ≠ .reject → Aligned pd

/-- One call of a state's function. -/
theorem RunInv.step {p : P4Parser L} {pd₀ : PacketDescriptor} {l₀ : L} {t : Target}
    {pd : PacketDescriptor} {l : L} {c' : ParserPoint L}
    (h : RunInv hlir p pd₀ l₀ (.enter t pd l))
    (hsafe : ∀ s, t = .state s → StateSafe hlir (p.states s) pd l)
    (hstep : parserState hlir nextState p t pd l = some c') : RunInv hlir p pd₀ l₀ c' := by
  -- a step of P4 to the same point is all that is needed to follow it
  have hfollows : parserState hlir p4NextState p t pd l = some c' →
      (p4System hlir p pd₀ l₀).Reachable c' := fun hp4 =>
    .step h.correct.follows ⟨t, pd, l, rfl, fun _ _ => trivial, hp4⟩
  cases t with
  | accept =>
    cases hstep
    refine ⟨⟨hfollows rfl, fun pd' l' heq => .inr ⟨pd, ?_, ?_, ?_⟩⟩, nofun⟩ <;> cases heq
    · exact h.correct.follows
    · rfl
    · exact (h.aligned _ pd l rfl nofun).accept
  | reject =>
    cases hstep
    refine ⟨⟨hfollows rfl, fun pd' l' heq => .inl ?_⟩, nofun⟩
    cases heq
    rfl
  | state s =>
    obtain ⟨hcomponents, hselect⟩ := hsafe s rfl
    obtain ⟨⟨ok, pd₁, l₁⟩, hexec, hnext⟩ := Option.bind_eq_some_iff.mp hstep
    cases ok with
    | false =>
      cases hnext
      refine ⟨⟨hfollows ?_, fun pd' l' heq => .inl ?_⟩, nofun⟩
      · rw [parserState, hexec]
        rfl
      · cases heq
        exact execComponents_failed hexec
    | true =>
      obtain ⟨t', htarget, hpoint⟩ : ∃ t', p4NextState (p.states s).selectExpression (pd₁, l₁) =
          some (some t') ∧ c' = .enter t' pd₁ l₁ := by
        cases htr : (p.states s).selectExpression with
        | direct t' =>
          rw [htr] at hnext
          cases hnext
          exact ⟨t', rfl, rfl⟩
        | select e =>
          rw [htr] at hnext
          dsimp only [nextState] at hnext
          obtain ⟨o, hcode, heq⟩ := Option.map_eq_some_iff.mp hnext
          obtain ⟨code, hgen, rfl⟩ := Option.map_eq_some_iff.mp hcode
          rw [genSelect_correct hgen (hselect e htr pd₁ l₁ hexec)] at heq
          exact ⟨_, rfl, heq.symm⟩
      subst hpoint
      refine ⟨⟨hfollows ?_, nofun⟩, ?_⟩
      · rw [parserState, hexec]
        simp only [Option.bind_some, if_true, htarget, Option.map_some]
      · intro t'' pd' l' heq hreject
        cases heq
        refine (h.aligned _ pd l rfl nofun).execComponents ?_ hexec
        refine hcomponents pd₁ l₁ hexec ?_
        rw [htarget]
        exact fun heq => hreject (Option.some.inj (Option.some.inj heq))

/-- **In a run whose selects are judged right and whose components move both cursors
alike, the generated parser is the one of P4: it returns with the packet accepted, the
payload right behind the parsed bytes, or dropped.** -/
theorem parser_follows_p4 {p : P4Parser L} {init pd₀ : PacketDescriptor} {l₀ : L}
    {c : ParserPoint L} (hdata : init.data = some init.wrapper.mtod)
    (hstart : startPacket hlir init = some pd₀)
    (hrun : (parserSystem hlir nextState (StateSafe hlir) p pd₀ l₀).Reachable c) :
    ParserCorrect hlir p pd₀ l₀ c := by
  have hinv : (parserSystem hlir nextState (StateSafe hlir) p pd₀ l₀).Inductive
      (RunInv hlir p pd₀ l₀) := by
    constructor
    · rintro _ rfl
      refine ⟨⟨.init rfl, nofun⟩, ?_⟩
      intro t pd l heq _
      cases heq
      exact Aligned.startPacket hdata hstart
    · rintro _ c' h ⟨t, pd, l, rfl, hsafe, hstep⟩
      exact h.step hsafe hstep
  exact (hinv.reachable hrun).correct

/-! ### A select with one case -/

/-- The first byte of the packet. -/
def firstByte : SelectKey (PacketDescriptor × Unit) where
  size := 8
  isSigned := false
  value x := (x.1.mem x.1.wrapper.mtod).toNat
  inRange x := ⟨Int.natCast_nonneg _, by exact_mod_cast (x.1.mem x.1.wrapper.mtod).isLt⟩

/-- A parser that extracts the header `0` and accepts the packet if its first byte
matches the keyset. -/
def oneCaseParser (ks : Keyset) : P4Parser Unit where
  states _ :=
    { components := [.op fun _ _ => .extract 0 none]
      selectExpression := .select
        { select := [firstByte]
          selectCases := [{ keyset := [ks], state := .accept }]
          keyset_eq := fun c hc => .inr (by rw [List.mem_singleton.mp hc]; rfl)
          select_ne := nofun } }

/-- A packet of five bytes, all of them `0`, of which the header has four. -/
def zerosInit : PacketDescriptor :=
  { advanceInit with wrapper := { dataOff := 0, dataLen := 5, pktLen := 5, bufLen := 5 } }

/-- The first byte is `0`, and the only case is `1`: the controls get a packet that is
not dropped and has no payload length. -/
theorem noMatch_not_rejected : ¬ ∀ (hlir : Hlir) (L : Type) (p : P4Parser L)
    (init pd₀ : PacketDescriptor) (l₀ : L) (c : ParserPoint L),
    init.data = some init.wrapper.mtod → startPacket hlir init = some pd₀ →
      (parserSystem hlir nextState (fun _ _ _ => True) p pd₀ l₀).Reachable c →
        ParserCorrect hlir p pd₀ l₀ c := by
  intro h
  obtain ⟨pd₀, hstart, pd, hstep, hdrop, hpayload, hlen, hparsed⟩ : ∃ pd₀,
      startPacket advanceHlir zerosInit = some pd₀ ∧ ∃ pd,
        parserState advanceHlir nextState (oneCaseParser (.constant 1)) (.state 0) pd₀ () =
          some (.returned pd ()) ∧ pd.isPacketDropped = false ∧ pd.payloadSize = 0 ∧
            pd.wrapper.pktLen = 5 ∧ pd.parsedSize = 4 :=
    ⟨_, rfl, _, rfl, rfl, rfl, rfl, rfl⟩
  have hcorrect := h advanceHlir Unit (oneCaseParser (.constant 1)) zerosInit pd₀ () _ rfl hstart
    (.step (.init rfl) ⟨_, _, _, rfl, fun _ _ => trivial, hstep⟩)
  rcases hcorrect.ended pd () rfl with hdropped | ⟨-, -, -, hpay, -⟩
  · rw [hdrop] at hdropped
    cases hdropped
  · rw [hpayload, hlen, hparsed] at hpay
    revert hpay
    decide

/-- With the case `0 &&& 0xF0`, which `0` matches, the packet is accepted. -/
theorem zeroMask_accepted : ∃ pd₀ pd, startPacket advanceHlir zerosInit = some pd₀ ∧
    (parserSystem advanceHlir nextState (StateSafe advanceHlir) (oneCaseParser (.mask 0 240)) pd₀
      ()).Reachable (.returned pd ()) ∧ pd.payloadSize = 1 ∧
        ParserCorrect advanceHlir (oneCaseParser (.mask 0 240)) pd₀ () (.returned pd ()) := by
  have hsafe : ∀ pd₀, startPacket advanceHlir zerosInit = some pd₀ → ∀ s : ℕ,
      StateSafe advanceHlir ((oneCaseParser (.mask 0 240)).states s) pd₀ () := by
    rintro pd₀ hpd₀ s
    cases hpd₀
    refine ⟨fun _ _ _ _ => ⟨?_, fun _ _ _ => trivial⟩, ?_⟩
    · intro o ho
      cases ho
      intro hdr len hcall
      cases hcall
      decide
    · intro e he pd' l' hexec
      cases he
      cases hexec
      refine ⟨.inl ?_, .inl rfl⟩
      intro q hq
      rw [List.mem_singleton.mp hq]
      rfl
  obtain ⟨pd₀, hstart, pd₁, hfirst, pd, hlast, hpay⟩ : ∃ pd₀,
      startPacket advanceHlir zerosInit = some pd₀ ∧ ∃ pd₁,
        parserState advanceHlir nextState (oneCaseParser (.mask 0 240)) (.state 0) pd₀ () =
          some (.enter .accept pd₁ ()) ∧ ∃ pd,
            parserState advanceHlir nextState (oneCaseParser (.mask 0 240)) .accept pd₁ () =
              some (.returned pd ()) ∧ pd.payloadSize = 1 :=
    ⟨_, rfl, _, rfl, _, rfl, rfl⟩
  have hrun : (parserSystem advanceHlir nextState (StateSafe advanceHlir)
      (oneCaseParser (.mask 0 240)) pd₀ ()).Reachable (.returned pd ()) :=
    .step (.step (.init rfl) ⟨_, _, _, rfl, fun _ _ => hsafe pd₀ hstart _, hfirst⟩)
      ⟨_, _, _, rfl, nofun, hlast⟩
  exact ⟨pd₀, pd, hstart, hrun, hpay, parser_follows_p4 rfl hstart hrun⟩

end T4P4S
