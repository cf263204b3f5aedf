/-
Packets are isolated from each other.

One packet descriptor serves packet after packet.  `reset_headers` clears the
headers' pointers, the stacks, the metadata and the sizes of variable-width fields.
It leaves the sizes of the headers, the temporary storage and the length of the
payload as the packet before has left them.

The run of a packet is that of an arbitrary program, which decides on each step by
what it may read.  `Known` keeps account of what the packet itself has determined.

* **`stepConfig_rel`** — from descriptors that agree on what is known, a clean step
  leads to such descriptors;
* **`handlePacket_isolated`** — so the same packet gets the same output from any two
  descriptors on which its run is clean;
* **`size_leaks`** — a header set valid has the size that an earlier packet gave it.
-/
import T4P4S.DeparseTwice
import T4P4S.Lib.Machine
import T4P4S.ParserStates

open CMem

namespace T4P4S

variable (hlir : Hlir) (rte : RteMbuf) {σ : Type}

/-! ### The dataplane and its packets -/

/-- What is kept from one packet to the next: the descriptor and the metadata, an object
of its own.  The descriptor's `egressPort` and `ingressPort` are the two fields of the
metadata that the generated code itself works with. -/
structure Dataplane where
  pd : PacketDescriptor
  metadata : ℕ → Byte
  ingressPort : ℕ

/-- A packet as it is received: its mbuf and what the buffer of the mbuf holds, in front
of the packet and behind it too. -/
structure Packet where
  mbuf : Mbuf
  buf : ℕ → Byte

/-- The two are one packet, in buffers that may hold anything else. -/
def SamePacket (p₁ p₂ : Packet) : Prop :=
  p₁.mbuf = p₂.mbuf ∧ ∀ i < p₁.mbuf.dataLen, p₁.buf (p₁.mbuf.dataOff + i) =
    p₂.buf (p₁.mbuf.dataOff + i)

/-- `EGRESS_INIT_VALUE` -/
def egressInitValue : ℕ := 0

/-- `init_header` and, for the metadata, `init_metadata_header`; the pointer of the
metadata is into their own object. -/
def initHeader (hdr : ℕ) : HeaderDescriptor where
  type := hdr
  pointer := none
  size := if (hlir.headerInstance hdr).isMetadata then hlir.byteWidth hdr * 8 else hlir.byteWidth hdr
  vwSize := 0
  wasEnabledAtInitialParse := false

def initHeaders (pd : PacketDescriptor) : PacketDescriptor :=
  { pd with headers := initHeader hlir }

/-- `reset_headers` with the `memset` of the metadata. -/
def resetDataplane (dp : Dataplane) : Dataplane where
  pd := { resetHeaders hlir dp.pd with egressPort := 0 }
  metadata _ := 0
  ingressPort := 0

def initDataplane (dp : Dataplane) : Dataplane :=
  let dp := resetDataplane hlir { dp with pd := initHeaders hlir dp.pd }
  { dp with pd := { dp.pd with egressPort := egressInitValue } }

/-- The descriptor gets the packet's mbuf; the temporary storage stays. -/
def receivePacket (p : Packet) (pd : PacketDescriptor) : PacketDescriptor :=
  { pd with
    mem := fun a => match a.obj with
      | .buf => p.buf a.off
      | .tmp => pd.mem a
    wrapper := p.mbuf
    data := some p.mbuf.mtod }

/-- `handle_packet` up to `process_packet`. -/
def startHandling (portid : ℕ) (p : Packet) (dp : Dataplane) : Option Dataplane :=
  (startPacket hlir (receivePacket p dp.pd)).map fun pd =>
    { pd := { pd with egressPort := 0 }, metadata := fun _ => 0, ingressPort := portid }

/-! ### Programs -/

/-- What `process_packet` does in one step.  `accept`, `reject` and `op` are the
parser's, `deparse` is the call behind the control that deparses. -/
inductive ProcessStep
  | op (o : ParserOp)
  | stmt (s : Statement)
  | accept
  | reject
  | setEgressPort (port : ℕ)
  | setMetadata (i : ℕ) (b : Byte)
  | deparse
  | finish

/-- The headers that a statement names. -/
def Statement.headers : Statement → List ℕ
  | .setValid hdr => [hdr]
  | .setInvalid hdr => [hdr]
  | .assign dst src => [dst, src]
  | .assignVarbit dst src => [dst, src]
  -- an address names no header
  | .modify _ _ => []
  | .emit hdr => [hdr]

/-- One step.  The first result says whether `process_packet` goes on. -/
def execProcessStep (ps : ProcessStep) (dp : Dataplane) : Option (Bool × Dataplane) :=
  match ps with
  | .op o => (parserStep hlir o dp.pd).map fun r => (r.1, { dp with pd := r.2 })
  | .stmt s => (execStatement hlir s dp.pd).map fun pd => (true, { dp with pd })
  | .accept => some (true, { dp with pd := parserAccept dp.pd })
  | .reject => some (false, { dp with pd := dropPacket dp.pd })
  | .setEgressPort port => some (true, { dp with pd := { dp.pd with egressPort := port } })
  | .setMetadata i b => some (true, { dp with metadata := Function.update dp.metadata i b })
  | .deparse => (deparsePacket hlir rte dp.pd).map fun pd => (true, { dp with pd })
  | .finish => some (false, dp)

/-- What the packet's own run has determined so far: which bytes, the sizes of which
headers, and whether `accept` has computed the length of the payload. -/
structure Known where
  byte : Mem Obj Bool
  size : ℕ → Bool
  vwSize : ℕ → Bool
  payload : Bool

namespace Known

/-- The bytes of the packet, and the sizes that `reset_vw_fields` sets. -/
def start (p : Packet) : Known where
  byte a := decide (InBlock a p.mbuf.mtod p.mbuf.dataLen)
  size _ := false
  vwSize hdr := (hlir.headerInstance hdr).isVw
  payload := false

/-- Both sizes of the header are known. -/
def sized (hdr : ℕ) (k : Known) : Known :=
  { k with size := Function.update k.size hdr true, vwSize := Function.update k.vwSize hdr true }

/-- A byte that is copied is known where its source was. -/
def deparsed (pd : PacketDescriptor) (k : Known) : Known :=
  if pd.isDeparseReordering && !pd.isPacketDropped then
    match deparsePacket hlir rte pd with
    | some pd' => { k with byte := fun a => k.byte (saveAllSource hlir (emittedHeaders pd)
        (gatherSource pd'.wrapper.mtod (coalesce pd.emission) a)) }
    | none => k
  else
    k

/-- The assignment of a header gives its target a size, and the bytes of the source. -/
def assigned (dst src : ℕ) (pd : PacketDescriptor) (k : Known) : Known :=
  match (pd.headers src).pointer with
  | none => k
  | some s => { k.sized dst with
      byte := copy k.byte ((pd.headers dst).pointer.getD (hlir.tmpSlot dst)) s
        (hlir.byteWidth src + (pd.headers src).vwSize / 8) }

/-- What is known after a step. -/
def after (ps : ProcessStep) (pd : PacketDescriptor) (k : Known) : Known :=
  match ps with
  -- a failed extraction drops the packet, so that nothing depends on what is known then
  | .op o => match extractCall hlir o pd with
    | some (hdr, _) => k.sized (extractTarget hlir hdr pd)
    | none => k
  | .stmt (.setValid hdr) => k.sized hdr
  | .stmt (.assign dst src) => k.assigned hlir dst src pd
  | .stmt (.assignVarbit dst _) => k.sized dst
  | .stmt (.modify a _) => { k with byte := Function.update k.byte a true }
  | .accept => { k with payload := true }
  | .deparse => k.deparsed hlir rte pd
  | _ => k

end Known

/-- What a program may read: no byte and no size that is not known. -/
structure View where
  byte : Ptr Obj → Option Byte
  pointer : ℕ → CPtr
  vwSize : ℕ → Option ℕ
  stkCurrent : ℕ → ℤ
  extractPtr : Ptr Obj
  parsedSize : ℕ
  pktLen : ℕ
  egressPort : ℕ
  ingressPort : ℕ
  metadata : ℕ → Byte

def view (k : Known) (dp : Dataplane) : View where
  byte a := if k.byte a then some (dp.pd.mem a) else none
  pointer hdr := if (hlir.headerInstance hdr).isMetadata then none else (dp.pd.headers hdr).pointer
  vwSize hdr :=
    if (hlir.headerInstance hdr).isMetadata = false ∧ k.vwSize hdr = true then
      some (dp.pd.headers hdr).vwSize
    else
      none
  stkCurrent := dp.pd.stkCurrent
  extractPtr := dp.pd.extractPtr
  parsedSize := dp.pd.parsedSize
  pktLen := dp.pd.wrapper.pktLen
  egressPort := dp.pd.egressPort
  ingressPort := dp.ingressPort
  metadata := dp.metadata

/-- A program: the next step and the next state, which holds all else that the program
works with, its tables, stateful memories and locals and where it is.  It reads nothing
undefined and takes no metadata for a header. -/
structure Program (hlir : Hlir) (σ : Type) where
  next : σ → View → ProcessStep × σ
  nonmeta : ∀ s v stmt, (next s v).1 = .stmt stmt → ∀ hdr ∈ stmt.headers,
    (hlir.headerInstance hdr).isMetadata = false

/-! ### The run of a packet -/

structure Config (σ : Type) where
  dp : Dataplane
  known : Known
  state : σ
  ended : Bool

variable (prog : Program hlir σ)

/-- What the program does next. -/
def nextStep (c : Config σ) : ProcessStep := (prog.next c.state (view hlir c.known c.dp)).1

def stepConfig (c : Config σ) : Option (Config σ) :=
  (execProcessStep hlir rte (nextStep hlir prog c) c.dp).map fun r =>
    { dp := r.2
      known := c.known.after hlir rte (nextStep hlir prog c) c.dp.pd
      state := (prog.next c.state (view hlir c.known c.dp)).2
      ended := !r.1 }

/-- `process_packet` -/
def processPacket : Machine (Config σ) where
  stopped := Config.ended
  step := stepConfig hlir rte prog

/-- What becomes of a packet. -/
inductive Outcome
  | dropped
  | sent (bytes : List Byte) (pktLen egressPort : ℕ)
  deriving DecidableEq

def outcome (pd : PacketDescriptor) : Outcome :=
  if pd.isPacketDropped then .dropped else .sent pd.wire pd.wrapper.pktLen pd.egressPort

def startConfig (s : σ) (portid : ℕ) (p : Packet) (dp : Dataplane) : Option (Config σ) :=
  (startHandling hlir portid p dp).map fun dp =>
    { dp, known := .start hlir p, state := s, ended := false }

/-- `handle_packet`, `none` when the program takes more than `fuel` steps or does what C
leaves undefined.  The results are the packet's outcome and what is left for the next. -/
def handlePacket (fuel : ℕ) (s : σ) (portid : ℕ) (p : Packet) (dp : Dataplane) :
    Option (Outcome × σ × Dataplane) :=
  (startConfig hlir s portid p dp).bind fun c₀ =>
    ((processPacket hlir rte prog).run fuel c₀).bind fun c =>
      (deparsePacket hlir rte c.dp.pd).map fun pd =>
        (outcome pd, c.state, { c.dp with pd })

/-- The dataplanes after `init_dataplane` and any packets. -/
inductive Served : Dataplane → Prop
  | init (dp : Dataplane) : Served (initDataplane hlir dp)
  | handled {dp dp' : Dataplane} {fuel portid : ℕ} {s s' : σ} {p : Packet} {o : Outcome}
    (hdp : Served dp) (h : handlePacket hlir rte prog fuel s portid p dp = some (o, s', dp')) :
    Served dp'

/-! ### The clean runs -/

/-- The header may be set valid: it is valid, or each of its sizes is known or is still
the one that `init_header` gave it. -/
def Activatable (k : Known) (pd : PacketDescriptor) (hdr : ℕ) : Prop :=
  pd.isHeaderValid hdr = true ∨
    (k.size hdr = true ∨ (pd.headers hdr).size = hlir.byteWidth hdr) ∧
      (k.vwSize hdr = true ∨ (pd.headers hdr).vwSize = 0)

/-- The extraction sets both sizes of the header that it fills, or the one that it leaves
out is known or is still the one that `init_header` gave it. -/
def ExtractClean (k : Known) (pd : PacketDescriptor) (hdr : ℕ) : Prop :=
  (hlir.headerInstance hdr).isVw = true ∨ k.vwSize (extractTarget hlir hdr pd) = true ∨
    (pd.headers (extractTarget hlir hdr pd)).vwSize = 0

/-- The deparser does not work with a length of the payload that is not known. -/
def PayloadKnown (k : Known) (pd : PacketDescriptor) : Prop :=
  pd.isDeparseReordering = true → pd.isPacketDropped = false → k.payload = true

/-- The step uses nothing that an earlier packet has left. -/
def CleanStep (k : Known) (pd : PacketDescriptor) : ProcessStep → Prop
  | .op o => ∀ x ∈ extractCall hlir o pd, ExtractClean hlir k pd x.1
  | .stmt (.setValid hdr) => Activatable hlir k pd hdr
  | .stmt (.assign dst src) => pd.isHeaderValid src = true → Activatable hlir k pd dst
  | .stmt (.assignVarbit _ src) => k.vwSize src = true
  | .deparse => PayloadKnown k pd
  | _ => True

/-- At the end, every byte that is sent is known. -/
def CleanEnd (k : Known) (pd : PacketDescriptor) : Prop :=
  PayloadKnown k pd ∧ ∀ pd' ∈ deparsePacket hlir rte pd, pd'.isPacketDropped = false →
    ∀ i < pd'.wrapper.dataLen, (k.deparsed hlir rte pd).byte (pd'.wrapper.mtod + i) = true

/-- What holds in each state of a clean run. -/
def Clean (c : Config σ) : Prop :=
  if c.ended then CleanEnd hlir rte c.known c.dp.pd
  else CleanStep hlir c.known c.dp.pd (nextStep hlir prog c)

/-- The packet's run uses nothing that an earlier packet has left. -/
def CleanRun (fuel : ℕ) (s : σ) (portid : ℕ) (p : Packet) (dp : Dataplane) : Prop :=
  ∀ c ∈ startConfig hlir s portid p dp,
    (processPacket hlir rte prog).Along (Clean hlir rte prog) fuel c

instance (k : Known) (pd : PacketDescriptor) (hdr : ℕ) : Decidable (Activatable hlir k pd hdr) :=
  inferInstanceAs (Decidable (_ ∨ _))

instance (k : Known) (pd : PacketDescriptor) (hdr : ℕ) : Decidable (ExtractClean hlir k pd hdr) :=
  inferInstanceAs (Decidable (_ ∨ _))

instance (k : Known) (pd : PacketDescriptor) : Decidable (PayloadKnown k pd) :=
  inferInstanceAs (Decidable (_ → _))

instance CleanStep.decidable (k : Known) (pd : PacketDescriptor) :
    (ps : ProcessStep) → Decidable (CleanStep hlir k pd ps)
  | .op o => inferInstanceAs (Decidable (∀ x ∈ extractCall hlir o pd, _))
  | .stmt (.setValid hdr) => inferInstanceAs (Decidable (Activatable hlir k pd hdr))
  | .stmt (.setInvalid _) => isTrue trivial
  | .stmt (.assign _ _) => inferInstanceAs (Decidable (_ → Activatable _ _ _ _))
  | .stmt (.assignVarbit _ _) => inferInstanceAs (Decidable (_ = true))
  | .stmt (.modify _ _) => isTrue trivial
  | .stmt (.emit _) => isTrue trivial
  | .accept => isTrue trivial
  | .reject => isTrue trivial
  | .setEgressPort _ => isTrue trivial
  | .setMetadata _ _ => isTrue trivial
  | .deparse => inferInstanceAs (Decidable (PayloadKnown k pd))
  | .finish => isTrue trivial

instance (k : Known) (pd : PacketDescriptor) : Decidable (CleanEnd hlir rte k pd) :=
  inferInstanceAs (Decidable (_ ∧ ∀ pd' ∈ deparsePacket hlir rte pd, _ → ∀ i < _, _))

instance (c : Config σ) : Decidable (Clean hlir rte prog c) :=
  inferInstanceAs (Decidable (if c.ended then _ else _))

instance (fuel : ℕ) (s : σ) (portid : ℕ) (p : Packet) (dp : Dataplane) :
    Decidable (CleanRun hlir rte prog fuel s portid p dp) :=
  inferInstanceAs (Decidable (∀ c ∈ startConfig hlir s portid p dp, _))

variable {hlir rte prog}

/-! ### Descriptors that agree on what is known -/

/-- A header of two descriptors: valid in both or in none, in the same place, and with
the same sizes where they are known.  A header in its slot of the temporary storage is
saved onto itself, so there it does not matter whether it counts as parsed. -/
structure HeaderAgree (hlir : Hlir) (k : Known) (hdr : ℕ) (d₁ d₂ : HeaderDescriptor) : Prop where
  type_eq : d₁.type = hdr
  type_eq' : d₂.type = hdr
  pointer_eq : d₁.pointer = d₂.pointer
  size_eq : k.size hdr = true → d₁.size = d₂.size
  vwSize_eq : k.vwSize hdr = true → d₁.vwSize = d₂.vwSize
  valid : d₁.pointer.isSome = true → k.size hdr = true ∧ k.vwSize hdr = true
  located : ∀ p ∈ d₁.pointer, p.obj = .buf ∨ p = hlir.tmpSlot hdr
  enabled_eq : ∀ p ∈ d₁.pointer, p = hlir.tmpSlot hdr ∨
    d₁.wasEnabledAtInitialParse = d₂.wasEnabledAtInitialParse

/-- Two descriptors that agree on all that is known. -/
structure Agree (hlir : Hlir) (k : Known) (pd₁ pd₂ : PacketDescriptor) : Prop where
  wrapper_eq : pd₁.wrapper = pd₂.wrapper
  data_eq : pd₁.data = pd₂.data
  extractPtr_eq : pd₁.extractPtr = pd₂.extractPtr
  extractPtr_obj : pd₁.extractPtr.obj = .buf
  stkCurrent_eq : pd₁.stkCurrent = pd₂.stkCurrent
  headerReorder_eq : pd₁.headerReorder = pd₂.headerReorder
  reorder_nonmeta : ∀ i ∈ pd₁.headerReorder, (hlir.headerInstance i).isMetadata = false
  parsedSize_eq : pd₁.parsedSize = pd₂.parsedSize
  payloadSize_eq : k.payload = true → pd₁.payloadSize = pd₂.payloadSize
  flag_eq : pd₁.isDeparseReordering = pd₂.isDeparseReordering
  egressPort_eq : pd₁.egressPort = pd₂.egressPort
  mem_eq : ∀ a, k.byte a = true → pd₁.mem a = pd₂.mem a
  header : ∀ i, (hlir.headerInstance i).isMetadata = false →
    HeaderAgree hlir k i (pd₁.headers i) (pd₂.headers i)

/-- What an operation gives for the two: the parser goes on with both, which agree, or
with none. -/
def GoesOnAlike (hlir : Hlir) (k : Known) (r₁ r₂ : Bool × PacketDescriptor) : Prop :=
  r₁.1 = r₂.1 ∧ (r₁.1 = true → Agree hlir k r₁.2 r₂.2)

section Agree

variable {k : Known} {pd₁ pd₂ : PacketDescriptor}

@[simp] theorem Known.sized_size_self (hdr : ℕ) : (k.sized hdr).size hdr = true :=
  Function.update_self ..

@[simp] theorem Known.sized_vwSize_self (hdr : ℕ) : (k.sized hdr).vwSize hdr = true :=
  Function.update_self ..

theorem HeaderAgree.symm {hdr : ℕ} {d₁ d₂ : HeaderDescriptor} (h : HeaderAgree hlir k hdr d₁ d₂) :
    HeaderAgree hlir k hdr d₂ d₁ where
  type_eq := h.type_eq'
  type_eq' := h.type_eq
  pointer_eq := h.pointer_eq.symm
  size_eq hk := (h.size_eq hk).symm
  vwSize_eq hk := (h.vwSize_eq hk).symm
  valid := by rw [← h.pointer_eq]; exact h.valid
  located := by rw [← h.pointer_eq]; exact h.located
  enabled_eq p hp := (h.enabled_eq p (h.pointer_eq ▸ hp)).imp_right Eq.symm

/-- Only what is known of the header's sizes matters. -/
theorem HeaderAgree.congr {k' : Known} {hdr : ℕ} {d₁ d₂ : HeaderDescriptor}
    (h : HeaderAgree hlir k hdr d₁ d₂) (hsize : k'.size hdr = k.size hdr)
    (hvw : k'.vwSize hdr = k.vwSize hdr) : HeaderAgree hlir k' hdr d₁ d₂ := by
  refine { h with size_eq := ?_, vwSize_eq := ?_, valid := ?_ }
  · rw [hsize]; exact h.size_eq
  · rw [hvw]; exact h.vwSize_eq
  · rw [hsize, hvw]; exact h.valid

theorem Agree.symm (h : Agree hlir k pd₁ pd₂) : Agree hlir k pd₂ pd₁ where
  wrapper_eq := h.wrapper_eq.symm
  data_eq := h.data_eq.symm
  extractPtr_eq := h.extractPtr_eq.symm
  extractPtr_obj := by rw [← h.extractPtr_eq]; exact h.extractPtr_obj
  stkCurrent_eq := h.stkCurrent_eq.symm
  headerReorder_eq := h.headerReorder_eq.symm
  reorder_nonmeta := by rw [← h.headerReorder_eq]; exact h.reorder_nonmeta
  parsedSize_eq := h.parsedSize_eq.symm
  payloadSize_eq hk := (h.payloadSize_eq hk).symm
  flag_eq := h.flag_eq.symm
  egressPort_eq := h.egressPort_eq.symm
  mem_eq a ha := (h.mem_eq a ha).symm
  header i hi := (h.header i hi).symm

theorem Agree.isHeaderValid_eq (h : Agree hlir k pd₁ pd₂) {hdr : ℕ}
    (hmeta : (hlir.headerInstance hdr).isMetadata = false) :
    pd₁.isHeaderValid hdr = pd₂.isHeaderValid hdr := by
  rw [PacketDescriptor.isHeaderValid, PacketDescriptor.isHeaderValid,
    (h.header hdr hmeta).pointer_eq]

theorem Agree.isPacketDropped_eq (h : Agree hlir k pd₁ pd₂) :
    pd₁.isPacketDropped = pd₂.isPacketDropped := by
  rw [PacketDescriptor.isPacketDropped, PacketDescriptor.isPacketDropped, h.egressPort_eq]

theorem Agree.objSize_eq (h : Agree hlir k pd₁ pd₂) : pd₁.objSize hlir = pd₂.objSize hlir := by
  funext o
  cases o
  · exact congrArg Mbuf.bufLen h.wrapper_eq
  · rfl

/-- Replacing one header of each by headers that agree; only this header's sizes may
become known. -/
theorem Agree.setHeader (h : Agree hlir k pd₁ pd₂) {k' : Known} {hdr : ℕ}
    {d₁ d₂ : HeaderDescriptor} (hbyte : k'.byte = k.byte) (hpay : k'.payload = k.payload)
    (hother : ∀ i, i ≠ hdr → k'.size i = k.size i ∧ k'.vwSize i = k.vwSize i)
    (hd : (hlir.headerInstance hdr).isMetadata = false → HeaderAgree hlir k' hdr d₁ d₂) :
    Agree hlir k' (pd₁.setHeader hdr d₁) (pd₂.setHeader hdr d₂) := by
  refine { h with payloadSize_eq := ?_, mem_eq := ?_, header := ?_ }
  · rw [hpay]; exact h.payloadSize_eq
  · rw [hbyte]; exact h.mem_eq
  · intro i hmeta
    rcases eq_or_ne i hdr with rfl | hi
    · rw [pd₁.setHeader_headers_self, pd₂.setHeader_headers_self]
      exact hd hmeta
    · rw [pd₁.setHeader_headers_of_ne d₁ hi, pd₂.setHeader_headers_of_ne d₂ hi]
      exact (h.header i hmeta).congr (hother i hi).1 (hother i hi).2

/-- Replacing the memories by such as agree on the bytes known now. -/
theorem Agree.withMem (h : Agree hlir k pd₁ pd₂) {byte : Mem Obj Bool} {m₁ m₂ : Mem Obj Byte}
    (hmem : ∀ a, byte a = true → m₁ a = m₂ a) :
    Agree hlir { k with byte } { pd₁ with mem := m₁ } { pd₂ with mem := m₂ } :=
  { h with mem_eq := hmem, header := fun i hmeta => (h.header i hmeta).congr rfl rfl }

/-- Replacing one header of each by headers with the same sizes. -/
theorem Agree.setSized (h : Agree hlir k pd₁ pd₂) {hdr : ℕ} {d₁ d₂ : HeaderDescriptor}
    (hd : (hlir.headerInstance hdr).isMetadata = false → HeaderAgree hlir (k.sized hdr) hdr d₁ d₂) :
    Agree hlir (k.sized hdr) (pd₁.setHeader hdr d₁) (pd₂.setHeader hdr d₂) := by
  refine h.setHeader rfl rfl (fun i hi => ⟨?_, ?_⟩) hd
  · exact Function.update_of_ne hi ..
  · exact Function.update_of_ne hi ..

/-! ### The parser's operations -/

/-- The header that an extraction leaves behind. -/
theorem Agree.parsedHeader (h : Agree hlir k pd₁ pd₂) {inst : HeaderInstance} {vwlen i : ℕ}
    {ptr : CPtr} (hptr : ∀ p ∈ ptr, p.obj = .buf)
    (h₁ : inst.isVw = true ∨ k.vwSize i = true ∨ (pd₁.headers i).vwSize = 0)
    (h₂ : inst.isVw = true ∨ k.vwSize i = true ∨ (pd₂.headers i).vwSize = 0)
    (hmeta : (hlir.headerInstance i).isMetadata = false) :
    HeaderAgree hlir (k.sized i) i { parsedHeader inst vwlen (pd₁.headers i) with pointer := ptr }
      { parsedHeader inst vwlen (pd₂.headers i) with pointer := ptr } where
  type_eq := (h.header i hmeta).type_eq
  type_eq' := (h.header i hmeta).type_eq'
  pointer_eq := rfl
  size_eq _ := rfl
  vwSize_eq _ := by
    simp only [T4P4S.parsedHeader]
    split
    · rfl
    · -- the extraction leaves this size as it was
      next hvw =>
      rcases h₁.resolve_left hvw with hk | h₁
      · exact (h.header i hmeta).vwSize_eq hk
      · rcases h₂.resolve_left hvw with hk | h₂
        · exact (h.header i hmeta).vwSize_eq hk
        · rw [h₁, h₂]
  valid _ := ⟨Known.sized_size_self i, Known.sized_vwSize_self i⟩
  located p hp := .inl (hptr p hp)
  enabled_eq _ _ := .inr rfl

theorem Agree.extractInto (h : Agree hlir k pd₁ pd₂) {inst : HeaderInstance} {vwlen i : ℕ}
    (h₁ : inst.isVw = true ∨ k.vwSize i = true ∨ (pd₁.headers i).vwSize = 0)
    (h₂ : inst.isVw = true ∨ k.vwSize i = true ∨ (pd₂.headers i).vwSize = 0) :
    (extractInto inst vwlen i pd₁).1 = (extractInto inst vwlen i pd₂).1 ∧
      ((extractInto inst vwlen i pd₁).1.isNegative = false →
        Agree hlir (k.sized i) (extractInto inst vwlen i pd₁).2
          (extractInto inst vwlen i pd₂).2) := by
  have hset : ∀ {ptr : CPtr}, (∀ p ∈ ptr, p.obj = .buf) → Agree hlir (k.sized i)
      (pd₁.setHeader i { T4P4S.parsedHeader inst vwlen (pd₁.headers i) with pointer := ptr })
      (pd₂.setHeader i { T4P4S.parsedHeader inst vwlen (pd₂.headers i) with pointer := ptr }) :=
    fun hptr => h.setSized (h.parsedHeader hptr h₁ h₂)
  have hsize : (T4P4S.parsedHeader inst vwlen (pd₂.headers i)).size =
      (T4P4S.parsedHeader inst vwlen (pd₁.headers i)).size := rfl
  simp only [T4P4S.extractInto, hsize, ← h.wrapper_eq, ← h.parsedSize_eq,
    PacketDescriptor.setHeader_wrapper, PacketDescriptor.setHeader_parsedSize,
    PacketDescriptor.setHeader_extractPtr]
  by_cases hend : pd₁.wrapper.pktLen < pd₁.parsedSize +
      (T4P4S.parsedHeader inst vwlen (pd₁.headers i)).size
  · -- the packet ends too early, on both sides
    simp only [hend, if_true]
    exact ⟨trivial, fun h => Bool.noConfusion h⟩
  · simp only [hend, if_false]
    by_cases hinst : inst.isSkipped = true
    · by_cases hskip : pd₁.wrapper.pktLen < pd₁.parsedSize + skipBytes inst
      · simp only [hinst, hskip, if_true]
        exact ⟨trivial, fun h => Bool.noConfusion h⟩
      · simp only [hinst, hskip, if_true, if_false]
        refine ⟨trivial, ?_⟩
        intro _
        exact { @hset none fun p hp => absurd hp (Option.not_mem_none p) with
          wrapper_eq := rfl
          parsedSize_eq := rfl
          extractPtr_eq := by rw [h.extractPtr_eq]
          extractPtr_obj := h.extractPtr_obj }
    · simp only [hinst]
      refine ⟨rfl, ?_⟩
      intro _
      have hsome := @hset (some pd₁.extractPtr) fun p hp => by
        cases hp
        exact h.extractPtr_obj
      rw [← h.extractPtr_eq]
      exact { hsome with
        wrapper_eq := rfl
        parsedSize_eq := rfl
        extractPtr_eq := rfl
        extractPtr_obj := h.extractPtr_obj }

theorem Agree.nextElement (h : Agree hlir k pd₁ pd₂) (hdr : ℕ) :
    Agree hlir k (nextElement hlir hdr pd₁) (nextElement hlir hdr pd₂) := by
  rw [T4P4S.nextElement, T4P4S.nextElement]
  split
  · exact h
  · exact { h with stkCurrent_eq := by rw [stkNext, stkNext, h.stkCurrent_eq] }

theorem Agree.hdrinst_eq (h : Agree hlir k pd₁ pd₂) (hdr : ℕ) :
    hdrinst hlir hdr pd₁ = hdrinst hlir hdr pd₂ := by
  simp only [hdrinst, stkHdr, h.stkCurrent_eq]

theorem Agree.extractTarget_eq (h : Agree hlir k pd₁ pd₂) (hdr : ℕ) :
    extractTarget hlir hdr pd₁ = extractTarget hlir hdr pd₂ := by
  rw [extractTarget, extractTarget, (h.nextElement hdr).hdrinst_eq]

theorem Agree.extractCall_eq (h : Agree hlir k pd₁ pd₂) (o : ParserOp) :
    extractCall hlir o pd₁ = extractCall hlir o pd₂ := by
  cases o <;> simp only [extractCall, stkHdr, h.stkCurrent_eq]

/-- Both extractions succeed, and the descriptors agree after them, or both fail. -/
theorem Agree.parserExtract (h : Agree hlir k pd₁ pd₂) {hdr len : ℕ}
    (h₁ : ExtractClean hlir k pd₁ hdr) (h₂ : ExtractClean hlir k pd₂ hdr) :
    Option.Rel (fun r₁ r₂ => r₁.1 = r₂.1 ∧ (r₁.1.isNegative = false →
        Agree hlir (k.sized (extractTarget hlir hdr pd₁)) r₁.2 r₂.2))
      (parserExtract hlir hdr len pd₁) (parserExtract hlir hdr len pd₂) := by
  have hnext := h.nextElement hdr
  have hheaders : ∀ pd, (T4P4S.nextElement hlir hdr pd).headers = pd.headers := by
    intro pd
    obtain ⟨f, hf⟩ := nextElement_eq hlir hdr pd
    rw [hf]
  rw [ExtractClean, ← hheaders pd₁] at h₁
  rw [ExtractClean, ← hheaders pd₂, ← h.extractTarget_eq] at h₂
  rw [T4P4S.parserExtract, T4P4S.parserExtract]
  simp only [← hnext.hdrinst_eq]
  split
  · exact .some (hnext.extractInto h₁ h₂)
  · exact .none

/-- The statement around an extraction. -/
theorem Agree.checkExtracted {k' : Known} {x y : Option (ParseResult × PacketDescriptor)}
    (h : Option.Rel (fun r₁ r₂ => r₁.1 = r₂.1 ∧
      (r₁.1.isNegative = false → Agree hlir k' r₁.2 r₂.2)) x y) :
    Option.Rel (GoesOnAlike hlir k') (x.map T4P4S.checkExtracted)
      (y.map T4P4S.checkExtracted) := by
  refine Machine.rel_map h fun r₁ r₂ ⟨hres, hagree⟩ => ⟨?_, ?_⟩
  · rw [checkExtracted_fst, checkExtracted_fst, hres]
  · intro htrue
    rw [checkExtracted_fst, Bool.not_eq_true'] at htrue
    rw [checkExtracted_snd htrue, checkExtracted_snd (hres ▸ htrue)]
    exact hagree htrue

/-- An operation of the parser: the descriptors agree after it, or it has failed on both. -/
theorem Agree.parserStep (h : Agree hlir k pd₁ pd₂) {o : ParserOp}
    (h₁ : CleanStep hlir k pd₁ (.op o)) (h₂ : CleanStep hlir k pd₂ (.op o)) :
    Option.Rel (GoesOnAlike hlir (k.after hlir rte (.op o) pd₁)) (parserStep hlir o pd₁)
      (parserStep hlir o pd₂) := by
  -- one call of an extraction, whichever statement it stands in
  have hextract : ∀ {hdr len : ℕ}, extractCall hlir o pd₁ = some (hdr, len) →
      Option.Rel (GoesOnAlike hlir (k.after hlir rte (.op o) pd₁))
        ((T4P4S.parserExtract hlir hdr len pd₁).map T4P4S.checkExtracted)
        ((T4P4S.parserExtract hlir hdr len pd₂).map T4P4S.checkExtracted) := by
    intro hdr len hcall
    have hafter : k.after hlir rte (.op o) pd₁ = k.sized (extractTarget hlir hdr pd₁) := by
      rw [Known.after, hcall]
    rw [hafter]
    exact Agree.checkExtracted (h.parserExtract (h₁ (hdr, len) hcall)
      (h₂ (hdr, len) (h.extractCall_eq o ▸ hcall)))
  cases o with
  | extract hdr width =>
    rw [T4P4S.parserStep, T4P4S.parserStep, extractComponent, extractComponent]
    cases hlen : vwlen hlir hdr width with
    | none => exact .some ⟨rfl, fun h => absurd h Bool.false_ne_true⟩
    | some len =>
      have hcall : extractCall hlir (.extract hdr width) pd₁ = some (hdr, len) := by
        rw [extractCall, hlen, Option.map_some]
      have hmark : ∀ r₁ r₂ : Bool × PacketDescriptor,
          GoesOnAlike hlir (k.after hlir rte (.op (.extract hdr width)) pd₁) r₁ r₂ →
            GoesOnAlike hlir (k.after hlir rte (.op (.extract hdr width)) pd₁)
              (markSkipped hlir r₁) (markSkipped hlir r₂) := by
        rintro r₁ r₂ ⟨hres, hagree⟩
        rw [markSkipped, markSkipped, hres]
        split
        · exact ⟨rfl, fun htrue => { hagree (hres.trans htrue) with flag_eq := rfl }⟩
        · exact ⟨hres, hagree⟩
      have hmarked := Machine.rel_map (hextract hcall) hmark
      rwa [Option.map_map, Option.map_map] at hmarked
  | extractNested hdr => exact hextract rfl
  | extractNestedStk stk =>
    have hstk : stkHdr hlir stk pd₁ = stkHdr hlir stk pd₂ := by
      rw [stkHdr, stkHdr, h.stkCurrent_eq]
    rw [T4P4S.parserStep, T4P4S.parserStep, extractNestedStk, extractNestedStk, ← hstk]
    split
    · rw [parserExtractStk, parserExtractStk, ← h.stkCurrent_eq]
      split
      · exact hextract rfl
      · exact .some ⟨rfl, fun h => absurd h Bool.false_ne_true⟩
    · exact .none
  | advance size =>
    refine .some ⟨rfl, ?_⟩
    intro _
    exact { h with
      extractPtr_eq := by rw [advance, advance, h.extractPtr_eq]
      extractPtr_obj := h.extractPtr_obj
      flag_eq := rfl }
  | lookahead size =>
    rw [T4P4S.parserStep, T4P4S.parserStep, lookahead, lookahead, ← h.extractPtr_eq, ← h.objSize_eq]
    split
    · exact .some ⟨rfl, fun _ => h⟩
    · exact .none

/-! ### The statements -/

/-- The sizes of a header on which the two agree may count as known. -/
theorem Agree.sized (h : Agree hlir k pd₁ pd₂) {hdr : ℕ}
    (hsize : (hlir.headerInstance hdr).isMetadata = false → k.size hdr = true ∧ k.vwSize hdr = true) :
    Agree hlir (k.sized hdr) pd₁ pd₂ := by
  have hself : ∀ pd : PacketDescriptor, pd.setHeader hdr (pd.headers hdr) = pd := by
    intro pd
    have hheaders : (pd.setHeader hdr (pd.headers hdr)).headers = pd.headers := by
      funext i
      rcases eq_or_ne i hdr with rfl | hi
      · exact pd.setHeader_headers_self i _
      · exact pd.setHeader_headers_of_ne _ hi
    exact congrArg (fun headers => ({ pd with headers } : PacketDescriptor)) hheaders
  rw [← hself pd₁, ← hself pd₂]
  refine h.setSized ?_
  intro hmeta
  obtain ⟨hs, hv⟩ := hsize hmeta
  exact { h.header hdr hmeta with
    size_eq := fun _ => (h.header hdr hmeta).size_eq hs
    vwSize_eq := fun _ => (h.header hdr hmeta).vwSize_eq hv
    valid := fun _ => ⟨Known.sized_size_self hdr, Known.sized_vwSize_self hdr⟩ }

theorem Agree.setHdrValid (h : Agree hlir k pd₁ pd₂) {hdr : ℕ}
    (hmeta : (hlir.headerInstance hdr).isMetadata = false) (h₁ : Activatable hlir k pd₁ hdr)
    (h₂ : Activatable hlir k pd₂ hdr) :
    Agree hlir (k.sized hdr) (setHdrValid hlir hdr pd₁) (setHdrValid hlir hdr pd₂) := by
  have hh := h.header hdr hmeta
  rw [T4P4S.setHdrValid, T4P4S.setHdrValid]
  rw [Activatable, ← h.isHeaderValid_eq hmeta] at h₂
  rw [Activatable] at h₁
  rw [← h.isHeaderValid_eq hmeta]
  by_cases hvalid : pd₁.isHeaderValid hdr = true
  · rw [if_pos hvalid, if_pos hvalid]
    exact h.sized fun _ => hh.valid hvalid
  · -- only the pointer is set; the sizes are those that are known, or the initial ones
    rw [if_neg hvalid, if_neg hvalid]
    obtain ⟨hs₁, hv₁⟩ := h₁.resolve_left hvalid
    obtain ⟨hs₂, hv₂⟩ := h₂.resolve_left hvalid
    have hset : Agree hlir (k.sized hdr)
        (pd₁.setHeader hdr { pd₁.headers hdr with pointer := some (hlir.tmpSlot hdr) })
        (pd₂.setHeader hdr { pd₂.headers hdr with pointer := some (hlir.tmpSlot hdr) }) := by
      refine h.setSized fun _ => ⟨hh.type_eq, hh.type_eq', rfl, ?_, ?_,
        fun _ => ⟨Known.sized_size_self hdr, Known.sized_vwSize_self hdr⟩, fun p hp => ?_,
        fun p hp => ?_⟩
      · intro _
        rcases hs₁ with hk | hs₁
        · exact hh.size_eq hk
        · exact hs₂.elim hh.size_eq fun hs₂ => hs₁.trans hs₂.symm
      · intro _
        rcases hv₁ with hk | hv₁
        · exact hh.vwSize_eq hk
        · exact hv₂.elim hh.vwSize_eq fun hv₂ => hv₁.trans hv₂.symm
      · exact .inr (Option.some_inj.mp hp).symm
      · exact .inl (Option.some_inj.mp hp).symm
    exact { hset with flag_eq := rfl }

/-- Making a header invalid. -/
theorem Agree.invalidate (h : Agree hlir k pd₁ pd₂) (hdr : ℕ) :
    Agree hlir k (deactivateHdr hdr pd₁) (deactivateHdr hdr pd₂) := by
  have hset : Agree hlir k (pd₁.setHeader hdr { pd₁.headers hdr with pointer := none })
      (pd₂.setHeader hdr { pd₂.headers hdr with pointer := none }) := by
    refine h.setHeader rfl rfl (fun _ _ => ⟨rfl, rfl⟩) ?_
    intro hmeta
    exact { h.header hdr hmeta with
      pointer_eq := rfl
      valid := nofun
      located := nofun
      enabled_eq := nofun }
  exact { hset with flag_eq := rfl }

/-- The assignment of a valid header sets the target valid and copies the bytes. -/
theorem doAssignment_eq {dst src : ℕ} {pd : PacketDescriptor} {s : Ptr Obj}
    (hs : (pd.headers src).pointer = some s) :
    doAssignment hlir dst src pd =
      (memcpy (pd.objSize hlir) pd.mem ((pd.headers dst).pointer.getD (hlir.tmpSlot dst)) s
        (hlir.byteWidth src + (pd.headers src).vwSize / 8)).map
          fun mem => { setHdrValid hlir dst pd with mem } := by
  have hsrc : pd.isHeaderValid src = true := by
    rw [PacketDescriptor.isHeaderValid, hs]
    rfl
  rw [doAssignment, if_pos hsrc, setHdrValid]
  cases hd : (pd.headers dst).pointer with
  | some d =>
    have hdst : pd.isHeaderValid dst = true := by
      rw [PacketDescriptor.isHeaderValid, hd]
      rfl
    simp only [hdst, if_true, copyHeader, hd, hs, Option.getD_some]
  | none =>
    have hdst : ¬ pd.isHeaderValid dst = true := by
      rw [PacketDescriptor.isHeaderValid, hd]
      exact Bool.false_ne_true
    -- Setting the target valid gives it its place in the temporary storage, not the source.
    have hne : src ≠ dst := by
      rintro rfl
      exact hdst hsrc
    have hsame : (activateHdr hlir dst pd).headers src = pd.headers src :=
      pd.setHeader_headers_of_ne _ hne
    have hnew : ((activateHdr hlir dst pd).headers dst).pointer = some (hlir.tmpSlot dst) :=
      congrArg HeaderDescriptor.pointer (pd.setHeader_headers_self dst _)
    simp only [hdst, Bool.false_eq_true, if_false, copyHeader, hsame, hnew, hs, Option.getD_none]
    rfl

theorem Agree.doAssignment (h : Agree hlir k pd₁ pd₂) {dst src : ℕ}
    (hdst : (hlir.headerInstance dst).isMetadata = false)
    (hsrc : (hlir.headerInstance src).isMetadata = false)
    (h₁ : pd₁.isHeaderValid src = true → Activatable hlir k pd₁ dst)
    (h₂ : pd₂.isHeaderValid src = true → Activatable hlir k pd₂ dst) :
    Option.Rel (Agree hlir (k.assigned hlir dst src pd₁)) (doAssignment hlir dst src pd₁)
      (doAssignment hlir dst src pd₂) := by
  have hh := h.header src hsrc
  rw [Known.assigned]
  cases hs : (pd₁.headers src).pointer with
  | none =>
    -- The assignment of an invalid header makes the target invalid, and copies nothing.
    have hinvalid : ∀ pd : PacketDescriptor, (pd.headers src).pointer = none →
        T4P4S.doAssignment hlir dst src pd = some (deactivateHdr dst pd) := by
      intro pd hpd
      rw [T4P4S.doAssignment, PacketDescriptor.isHeaderValid, hpd]
      rfl
    rw [hinvalid pd₁ hs, hinvalid pd₂ (hh.pointer_eq ▸ hs)]
    exact .some (h.invalidate dst)
  | some s =>
    have hvalid : pd₁.isHeaderValid src = true := by
      rw [PacketDescriptor.isHeaderValid, hs]
      rfl
    have hset := h.setHdrValid hdst (h₁ hvalid) (h₂ (h.isHeaderValid_eq hsrc ▸ hvalid))
    have hlen := hh.vwSize_eq (hh.valid hvalid).2
    rw [doAssignment_eq hs, doAssignment_eq (hh.pointer_eq ▸ hs), ← hlen, ← h.objSize_eq,
      ← (h.header dst hdst).pointer_eq]
    exact Machine.rel_map (memcpy_rel h.mem_eq _ _ _) fun _ _ hmem =>
      hset.withMem hmem

theorem Agree.execStatement (h : Agree hlir k pd₁ pd₂) {s : Statement}
    (hmeta : ∀ hdr ∈ s.headers, (hlir.headerInstance hdr).isMetadata = false)
    (h₁ : CleanStep hlir k pd₁ (.stmt s)) (h₂ : CleanStep hlir k pd₂ (.stmt s)) :
    Option.Rel (Agree hlir (k.after hlir rte (.stmt s) pd₁)) (execStatement hlir s pd₁)
      (execStatement hlir s pd₂) := by
  cases s with
  | setValid hdr => exact .some (h.setHdrValid (hmeta hdr List.mem_cons_self) h₁ h₂)
  | setInvalid hdr =>
    refine .some ?_
    rw [setHdrInvalid, setHdrInvalid, ← h.isHeaderValid_eq (hmeta hdr List.mem_cons_self)]
    split
    · exact h.invalidate hdr
    · exact h
  | assign dst src =>
    exact h.doAssignment (hmeta dst List.mem_cons_self)
      (hmeta src (List.mem_cons_of_mem _ List.mem_cons_self)) h₁ h₂
  | assignVarbit dst src =>
    -- The new size comes from the source, whose size is known.
    have hvw := (h.header src (hmeta src (List.mem_cons_of_mem _ List.mem_cons_self))).vwSize_eq h₁
    refine .some ?_
    rw [assignVarbit, assignVarbit, ← hvw]
    refine h.setSized ?_
    intro hdst
    exact { h.header dst hdst with
      size_eq := fun _ => rfl
      vwSize_eq := fun _ => rfl
      valid := fun _ => ⟨Known.sized_size_self dst, Known.sized_vwSize_self dst⟩ }
  | modify a b =>
    refine .some (h.withMem fun c hc => ?_)
    rcases eq_or_ne c a with rfl | hne
    · rw [if_pos rfl, if_pos rfl]
    · rw [if_neg hne, if_neg hne]
      rw [Function.update_of_ne hne] at hc
      exact h.mem_eq c hc
  | emit hdr =>
    rw [T4P4S.execStatement, T4P4S.execStatement, emit, emit, ← h.headerReorder_eq]
    split
    · refine .some { h with headerReorder_eq := rfl, reorder_nonmeta := ?_ }
      intro i hi
      rcases List.mem_append.mp hi with hi | hi
      · exact h.reorder_nonmeta i hi
      · rw [List.mem_singleton.mp hi]
        exact hmeta hdr List.mem_cons_self
    · exact .none

/-! ### The deparser -/

theorem Agree.block_eq (h : Agree hlir k pd₁ pd₂) {i : ℕ}
    (hmeta : (hlir.headerInstance i).isMetadata = false) :
    (pd₁.headers i).block = (pd₂.headers i).block := by
  have hi := h.header i hmeta
  rw [HeaderDescriptor.block, HeaderDescriptor.block, ← hi.pointer_eq]
  cases hp : (pd₁.headers i).pointer with
  | none => rfl
  | some p => rw [hi.size_eq (hi.valid (Option.isSome_of_eq_some hp)).1]

theorem Agree.emission_eq (h : Agree hlir k pd₁ pd₂) : pd₁.emission = pd₂.emission := by
  rw [PacketDescriptor.emission, PacketDescriptor.emission, ← h.headerReorder_eq]
  exact List.map_congr_left fun i hi => h.block_eq (h.reorder_nonmeta i hi)

theorem Agree.emitted_eq (h : Agree hlir k pd₁ pd₂) : pd₁.emitted = pd₂.emitted := by
  rw [← pd₁.filterMap_id_emission, ← pd₂.filterMap_id_emission, h.emission_eq]

theorem Agree.saveSource_eq (h : Agree hlir k pd₁ pd₂) {i : ℕ}
    (hmeta : (hlir.headerInstance i).isMetadata = false) (a : Ptr Obj) :
    saveSource hlir (pd₁.headers i) a = saveSource hlir (pd₂.headers i) a := by
  have hi := h.header i hmeta
  rw [saveSource, saveSource, ← hi.pointer_eq, hi.type_eq, hi.type_eq']
  cases hp : (pd₁.headers i).pointer with
  | none => rfl
  | some p =>
    dsimp only
    rw [← hi.size_eq (hi.valid (Option.isSome_of_eq_some hp)).1]
    rcases hi.enabled_eq p hp with rfl | henabled
    · -- saved onto itself, or not saved
      rw [copySource_self, ite_self, ite_self]
    · rw [henabled]

theorem Agree.saveAllSource_eq (h : Agree hlir k pd₁ pd₂) (a : Ptr Obj) :
    saveAllSource hlir (emittedHeaders pd₁) a = saveAllSource hlir (emittedHeaders pd₂) a := by
  rw [saveAllSource, saveAllSource, emittedHeaders, emittedHeaders, ← h.headerReorder_eq,
    List.foldr_map, List.foldr_map]
  exact List.foldr_ext _ _ _ fun i hi => h.saveSource_eq (h.reorder_nonmeta i hi)

/-- A header that can be saved in the one can be in the other.  In its slot of the
temporary storage that is due to the copy that follows. -/
theorem Agree.saveSafe (h : Agree hlir k pd₁ pd₂)
    (hread : ∀ b ∈ pd₁.emitted, ∀ a, InBlock a b.start b.len → a.obj = .tmp →
      a.off < hlir.nonmetaHdrTotalLength) {i : ℕ} (hi : i ∈ pd₁.headerReorder)
    (hsafe : SaveSafe hlir (pd₁.objSize hlir) (pd₁.headers i)) :
    SaveSafe hlir (pd₂.objSize hlir) (pd₂.headers i) := by
  have hh := h.header i (h.reorder_nonmeta i hi)
  intro p hp henabled
  rw [← hh.pointer_eq] at hp
  have hsize := hh.size_eq (hh.valid (Option.isSome_of_eq_some hp)).1
  rw [← h.objSize_eq, ← hsize, hh.type_eq']
  rcases hh.enabled_eq p hp with rfl | heq
  · -- the copy reads the header from the slot, so it fits there
    have hfits : hlir.byteOffset i + (pd₁.headers i).size ≤ hlir.nonmetaHdrTotalLength := by
      by_cases hzero : (pd₁.headers i).size = 0
      · rw [hzero]
        exact hlir.byteOffset_le i
      · have hblock : (⟨hlir.tmpSlot i, (pd₁.headers i).size⟩ : Block Obj) ∈ pd₁.emitted := by
          refine List.mem_filterMap.mpr ⟨i, hi, ?_⟩
          rw [HeaderDescriptor.block, hp, Option.map_some]
        have hlast := hread _ hblock (hlir.tmpSlot i + ((pd₁.headers i).size - 1))
          (inBlock_add (Nat.sub_lt (Nat.pos_of_ne_zero hzero) Nat.one_pos)) rfl
        simp only [Hlir.tmpSlot, Ptr.off_add] at hlast
        omega
    exact ⟨hfits, hfits⟩
  · have hboth := hsafe p hp (heq.trans henabled)
    rwa [hh.type_eq] at hboth

theorem Agree.located (h : Agree hlir k pd₁ pd₂) :
    ∀ i ∈ pd₁.headerReorder, Located hlir (pd₁.headers i) := by
  intro i hi
  have hh := h.header i (h.reorder_nonmeta i hi)
  rw [Located, hh.type_eq]
  exact hh.located

/-- Moving the front looks at the mbuf and at the lengths only. -/
theorem resizePacketOnDeparse_rel (hwrapper : pd₁.wrapper = pd₂.wrapper)
    (hdata : pd₁.data = pd₂.data) (hsize : pd₁.deparseSize = pd₂.deparseSize)
    (hpay : pd₁.payloadSize = pd₂.payloadSize) :
    Option.Rel (fun q₁ q₂ => ∃ w d, q₁ = { pd₁ with wrapper := w, data := d } ∧
        q₂ = { pd₂ with wrapper := w, data := d })
      (resizePacketOnDeparse rte pd₁) (resizePacketOnDeparse rte pd₂) := by
  rw [resizePacketOnDeparse, resizePacketOnDeparse, PacketDescriptor.packetSize,
    PacketDescriptor.packetSize, ← hwrapper, ← hsize, ← hpay]
  dsimp only
  split
  · refine .some ⟨pd₁.wrapper, pd₁.data, rfl, ?_⟩
    rw [hwrapper, hdata, hsize, hpay]
  · split
    · generalize rte.prepend pd₁.wrapper _ = o
      cases o with
      | none => exact .none
      | some w => exact .some ⟨_, _, rfl, rfl⟩
    · split <;> exact .some ⟨_, _, rfl, rfl⟩

theorem Known.deparsed_idle {pd : PacketDescriptor}
    (h : pd.isDeparseReordering = true → pd.isPacketDropped = true) :
    k.deparsed hlir rte pd = k := by
  rw [Known.deparsed]
  cases hflag : pd.isDeparseReordering
  · rfl
  · rw [h hflag]
    rfl

theorem Known.deparsed_active {pd q : PacketDescriptor} (hflag : pd.isDeparseReordering = true)
    (hdrop : pd.isPacketDropped = false) (hq : T4P4S.deparsePacket hlir rte pd = some q) :
    k.deparsed hlir rte pd = { k with byte := fun a => k.byte (saveAllSource hlir
      (emittedHeaders pd) (gatherSource q.wrapper.mtod (coalesce pd.emission) a)) } := by
  rw [Known.deparsed, hflag, hdrop, hq]
  rfl

/-- What the deparser makes of the one packet, it makes of the other. -/
theorem Agree.deparsePacket_some (h : Agree hlir k pd₁ pd₂)
    (hflag : pd₁.isDeparseReordering = true) (hdrop : pd₁.isPacketDropped = false)
    (hpay : k.payload = true) {q₁ : PacketDescriptor} (hq₁ : deparsePacket hlir rte pd₁ = some q₁) :
    ∃ q₂, deparsePacket hlir rte pd₂ = some q₂ ∧ q₂.wrapper = q₁.wrapper ∧
      Agree hlir (k.deparsed hlir rte pd₁) q₁ q₂ := by
  rw [Known.deparsed_active hflag hdrop hq₁]
  rw [deparsePacket_passes h.located hflag hdrop] at hq₁
  obtain ⟨hsave, hq₁⟩ := Option.ite_none_right_eq_some.mp hq₁
  obtain ⟨r₁, hr₁, hcopy⟩ := Option.bind_eq_some_iff.mp hq₁
  have hresize := @resizePacketOnDeparse_rel rte (saved hlir pd₁) (saved hlir pd₂) h.wrapper_eq
    h.data_eq (congrArg total h.emitted_eq) (h.payloadSize_eq hpay)
  rw [hr₁] at hresize
  -- the fronts move alike
  generalize hr₂ : resizePacketOnDeparse rte (saved hlir pd₂) = o at hresize
  obtain ⟨w, d, rfl, rfl⟩ | - := hresize
  rw [copyDeparseContents_eq] at hcopy
  obtain ⟨m₁, hgather, rfl⟩ := Option.map_eq_some_iff.mp hcopy
  -- both copies read their memories at the same addresses
  have hm₁ := gather_eq_source hgather (saved hlir pd₁).mem
  have hm₂ := gather_eq_source hgather (saved hlir pd₂).mem
  rw [hgather, Option.some_inj] at hm₁
  subst hm₁
  refine ⟨{ saved hlir pd₂ with
    mem := fun a => (saved hlir pd₂).mem (gatherSource w.mtod (coalesce pd₁.emission) a)
    wrapper := w, data := d }, ?_, rfl, ?_⟩
  · have hread : ∀ b ∈ pd₁.emitted, ∀ a, InBlock a b.start b.len → a.obj = .tmp →
        a.off < hlir.nonmetaHdrTotalLength := by
      intro b hb a ha htmp
      rw [← pd₁.filterMap_id_emission] at hb
      have hlt := gather_coalesce_reads hgather hb ha
      rwa [htmp] at hlt
    have hsave₂ : ∀ i ∈ pd₂.headerReorder, SaveSafe hlir (pd₂.objSize hlir) (pd₂.headers i) := by
      intro i hi
      rw [← h.headerReorder_eq] at hi
      exact h.saveSafe hread hi (hsave i hi)
    have hobj : ({ saved hlir pd₂ with wrapper := w, data := d } : PacketDescriptor).objSize hlir =
        ({ saved hlir pd₁ with wrapper := w, data := d } : PacketDescriptor).objSize hlir := by
      funext o
      cases o <;> rfl
    rw [deparsePacket_passes h.symm.located (h.flag_eq ▸ hflag) (h.isPacketDropped_eq ▸ hdrop),
      if_pos hsave₂, hr₂, Option.bind_some, copyDeparseContents_eq, hobj]
    refine Eq.trans ?_ (congrArg (Option.map fun mem =>
      ({ saved hlir pd₂ with mem, wrapper := w, data := d } : PacketDescriptor)) hm₂)
    rw [show ({ saved hlir pd₂ with wrapper := w, data := d } : PacketDescriptor).emission =
      pd₁.emission from h.emission_eq.symm]
    rfl
  · have hmem : ∀ a, k.byte (saveAllSource hlir (emittedHeaders pd₁)
        (gatherSource w.mtod (coalesce pd₁.emission) a)) = true →
          (saved hlir pd₁).mem (gatherSource w.mtod (coalesce pd₁.emission) a) =
            (saved hlir pd₂).mem (gatherSource w.mtod (coalesce pd₁.emission) a) := by
      intro a ha
      simp only [saved, saveAll_eq_source, ← h.saveAllSource_eq]
      exact h.mem_eq _ ha
    exact { h.withMem hmem with wrapper_eq := rfl, data_eq := rfl }

theorem Agree.deparsed_eq (h : Agree hlir k pd₁ pd₂) (hpay : PayloadKnown k pd₁) :
    k.deparsed hlir rte pd₁ = k.deparsed hlir rte pd₂ ∧
      Option.Rel (Agree hlir (k.deparsed hlir rte pd₁)) (deparsePacket hlir rte pd₁)
        (deparsePacket hlir rte pd₂) := by
  by_cases hidle : pd₁.isDeparseReordering = true → pd₁.isPacketDropped = true
  · have hidle₂ : pd₂.isDeparseReordering = true → pd₂.isPacketDropped = true := by
      rwa [← h.flag_eq, ← h.isPacketDropped_eq]
    rw [Known.deparsed_idle hidle, Known.deparsed_idle hidle₂, deparsePacket_idle hidle,
      deparsePacket_idle hidle₂]
    exact ⟨rfl, .some h⟩
  · obtain ⟨hflag, hdrop⟩ := Classical.not_imp.mp hidle
    rw [Bool.not_eq_true] at hdrop
    have hk := hpay hflag hdrop
    have hflag₂ := h.flag_eq ▸ hflag
    have hdrop₂ := h.isPacketDropped_eq ▸ hdrop
    cases hq₁ : deparsePacket hlir rte pd₁ with
    | some q₁ =>
      obtain ⟨q₂, hq₂, hwrapper, hagree⟩ := h.deparsePacket_some hflag hdrop hk hq₁
      refine ⟨?_, by rw [hq₂]; exact .some hagree⟩
      rw [Known.deparsed_active hflag hdrop hq₁, Known.deparsed_active hflag₂ hdrop₂ hq₂, hwrapper,
        h.emission_eq]
      simp only [h.saveAllSource_eq]
    | none =>
      -- if the other call succeeded, so would this one
      cases hq₂ : deparsePacket hlir rte pd₂ with
      | some q₂ =>
        obtain ⟨q₁, hsome, -⟩ := h.symm.deparsePacket_some hflag₂ hdrop₂ hk hq₂
        rw [hq₁] at hsome
        cases hsome
      | none =>
        refine ⟨?_, .none⟩
        simp only [Known.deparsed, hflag, hdrop, hflag₂, hdrop₂, hq₁, hq₂]

end Agree

/-! ### One step -/

/-- Two dataplanes that agree on all that is known. -/
structure DataplaneAgree (hlir : Hlir) (k : Known) (dp₁ dp₂ : Dataplane) : Prop where
  pd : Agree hlir k dp₁.pd dp₂.pd
  metadata_eq : dp₁.metadata = dp₂.metadata
  ingressPort_eq : dp₁.ingressPort = dp₂.ingressPort

/-- A program sees the same of both. -/
theorem DataplaneAgree.view_eq {k : Known} {dp₁ dp₂ : Dataplane}
    (h : DataplaneAgree hlir k dp₁ dp₂) : view hlir k dp₁ = view hlir k dp₂ := by
  obtain ⟨hpd, hmetadata, hingress⟩ := h
  rw [view, view, View.mk.injEq, hpd.stkCurrent_eq, hpd.extractPtr_eq, hpd.parsedSize_eq,
    hpd.wrapper_eq, hpd.egressPort_eq, hmetadata, hingress]
  refine ⟨funext ?_, funext ?_, funext fun hdr => ?_, rfl, rfl, rfl, rfl, rfl, rfl, rfl⟩
  · intro a
    split
    · next ha => rw [hpd.mem_eq a ha]
    · rfl
  · intro hdr
    split
    · rfl
    · next hmeta => exact (hpd.header hdr (Bool.eq_false_of_not_eq_true hmeta)).pointer_eq
  · split
    · next hk => rw [(hpd.header hdr hk.1).vwSize_eq hk.2]
    · rfl

theorem Agree.after_eq {k : Known} {pd₁ pd₂ : PacketDescriptor} (h : Agree hlir k pd₁ pd₂)
    {ps : ProcessStep} (hclean : CleanStep hlir k pd₁ ps) (hmeta : ∀ stmt, ps = .stmt stmt →
      ∀ hdr ∈ stmt.headers, (hlir.headerInstance hdr).isMetadata = false) :
    k.after hlir rte ps pd₁ = k.after hlir rte ps pd₂ := by
  cases ps with
  | op o => simp only [Known.after, h.extractCall_eq o, h.extractTarget_eq]
  | stmt s =>
    cases s with
    | assign dst src =>
      have hdst := h.header dst (hmeta _ rfl dst List.mem_cons_self)
      have hsrc := h.header src (hmeta _ rfl src (List.mem_cons_of_mem _ List.mem_cons_self))
      simp only [Known.after, Known.assigned, ← hsrc.pointer_eq, ← hdst.pointer_eq]
      cases hs : (pd₁.headers src).pointer with
      | none => rfl
      | some s => rw [hsrc.vwSize_eq (hsrc.valid (Option.isSome_of_eq_some hs)).2]
    | setValid hdr => rfl
    | setInvalid hdr => rfl
    | assignVarbit dst src => rfl
    | modify a b => rfl
    | emit hdr => rfl
  | deparse => exact (h.deparsed_eq hclean).1
  | accept => rfl
  | reject => rfl
  | setEgressPort port => rfl
  | setMetadata i b => rfl
  | finish => rfl

/-- Both packets are dropped, and that is the end of their runs. -/
def BothDropped (dp₁ dp₂ : Dataplane) : Prop :=
  dp₁.pd.isPacketDropped = true ∧ dp₂.pd.isPacketDropped = true

/-- A clean step takes dataplanes that agree to such dataplanes, or drops both packets. -/
theorem execProcessStep_rel {k : Known} {dp₁ dp₂ : Dataplane} (h : DataplaneAgree hlir k dp₁ dp₂)
    {ps : ProcessStep} (h₁ : CleanStep hlir k dp₁.pd ps) (h₂ : CleanStep hlir k dp₂.pd ps)
    (hmeta : ∀ stmt, ps = .stmt stmt → ∀ hdr ∈ stmt.headers,
      (hlir.headerInstance hdr).isMetadata = false) :
    Option.Rel (fun r₁ r₂ => r₁.1 = r₂.1 ∧ (r₁.1 = false ∧ BothDropped r₁.2 r₂.2 ∨
        DataplaneAgree hlir (k.after hlir rte ps dp₁.pd) r₁.2 r₂.2))
      (execProcessStep hlir rte ps dp₁) (execProcessStep hlir rte ps dp₂) := by
  obtain ⟨hpd, hmetadata, hingress⟩ := h
  cases ps with
  | op o =>
    have hstep := @Agree.parserStep hlir rte k dp₁.pd dp₂.pd hpd o h₁ h₂
    rw [execProcessStep, execProcessStep]
    generalize hs₁ : parserStep hlir o dp₁.pd = x at hstep ⊢
    generalize hs₂ : parserStep hlir o dp₂.pd = y at hstep ⊢
    cases hstep with
    | none => exact .none
    | @some r₁ r₂ h =>
      obtain ⟨hres, hagree⟩ := h
      refine .some ⟨hres, ?_⟩
      obtain ⟨ok, pd₁⟩ := r₁
      obtain ⟨ok₂, pd₂⟩ := r₂
      cases hres
      cases ok with
      | true => exact .inr ⟨hagree rfl, hmetadata, hingress⟩
      -- A failed operation has dropped both packets, whatever else differs.
      | false => exact .inl ⟨rfl, parserStep_failed hs₁, parserStep_failed hs₂⟩
  | stmt s =>
    exact Machine.rel_map (hpd.execStatement (hmeta s rfl) h₁ h₂) fun _ _ hagree =>
      ⟨rfl, .inr ⟨hagree, hmetadata, hingress⟩⟩
  | deparse =>
    exact Machine.rel_map (hpd.deparsed_eq h₁).2 fun _ _ hagree =>
      ⟨rfl, .inr ⟨hagree, hmetadata, hingress⟩⟩
  | accept =>
    refine .some ⟨rfl, .inr ⟨?_, hmetadata, hingress⟩⟩
    refine { hpd with
      payloadSize_eq := fun _ => ?_
      header := fun i hi => (hpd.header i hi).congr rfl rfl }
    -- The payload is what lies behind the cursor, and the cursors are the same.
    simp only [parserAccept, PacketDescriptor.packetSize, hpd.wrapper_eq, hpd.extractPtr_eq,
      hpd.data_eq]
  | reject => exact .some ⟨rfl, .inl ⟨rfl, rfl, rfl⟩⟩
  | setEgressPort port =>
    exact .some ⟨rfl, .inr ⟨{ hpd with egressPort_eq := rfl }, hmetadata, hingress⟩⟩
  | setMetadata i b =>
    exact .some ⟨rfl, .inr ⟨hpd, congrArg (Function.update · i b) hmetadata, hingress⟩⟩
  | finish => exact .some ⟨rfl, .inr ⟨hpd, hmetadata, hingress⟩⟩

/-- Two runs of one packet: they have ended with the packet dropped, or they agree. -/
structure ConfigRel (hlir : Hlir) (c₁ c₂ : Config σ) : Prop where
  ended_eq : c₁.ended = c₂.ended
  state_eq : c₁.state = c₂.state
  agree : c₁.ended = true ∧ BothDropped c₁.dp c₂.dp ∨
    c₁.known = c₂.known ∧ DataplaneAgree hlir c₁.known c₁.dp c₂.dp

theorem stepConfig_rel {c₁ c₂ : Config σ} (h : ConfigRel hlir c₁ c₂) (hrun : c₁.ended = false)
    (h₁ : Clean hlir rte prog c₁) (h₂ : Clean hlir rte prog c₂) :
    Option.Rel (ConfigRel hlir) (stepConfig hlir rte prog c₁) (stepConfig hlir rte prog c₂) := by
  obtain ⟨hended, hstate, hagree⟩ := h
  -- the runs go on, so neither packet is dropped, and the program does the same in both
  obtain ⟨hknown, hagree⟩ := hagree.resolve_left fun hdropped => by
    rw [hrun] at hdropped
    cases hdropped.1
  have hview := hagree.view_eq
  rw [Clean, if_neg (ne_true_of_eq_false hrun)] at h₁
  rw [Clean, if_neg (ne_true_of_eq_false (hended.symm.trans hrun)), nextStep, ← hknown, ← hview,
    ← hstate, ← nextStep] at h₂
  have hmeta : ∀ stmt, nextStep hlir prog c₁ = .stmt stmt → ∀ hdr ∈ stmt.headers,
      (hlir.headerInstance hdr).isMetadata = false := prog.nonmeta _ _
  rw [stepConfig, stepConfig, nextStep, nextStep, ← hknown, ← hview, ← hstate, ← nextStep]
  refine Machine.rel_map (execProcessStep_rel hagree h₁ h₂ hmeta) fun r₁ r₂ ⟨hres, hr⟩ =>
    ⟨congrArg (! ·) hres, rfl, ?_⟩
  rcases hr with ⟨hfalse, hdropped⟩ | hr
  · exact .inl ⟨by rw [hfalse]; rfl, hdropped⟩
  · exact .inr ⟨hagree.pd.after_eq h₁ hmeta, hr⟩

/-! ### Headers keep their type -/

/-- Each descriptor has the type that `init_headers` gave it. -/
def Typed (headers : ℕ → HeaderDescriptor) : Prop := ∀ i, (headers i).type = i

theorem Typed.setHeader {pd : PacketDescriptor} (h : Typed pd.headers) {hdr : ℕ}
    {d : HeaderDescriptor} (hd : d.type = hdr) : Typed (pd.setHeader hdr d).headers := by
  intro i
  rcases eq_or_ne i hdr with rfl | hi
  · rw [pd.setHeader_headers_self]
    exact hd
  · rw [pd.setHeader_headers_of_ne d hi]
    exact h i

theorem Typed.resetHeaders {pd : PacketDescriptor} (h : Typed pd.headers) :
    Typed (resetHeaders hlir pd).headers := by
  intro i
  dsimp only [T4P4S.resetHeaders, resetVwFields]
  split <;> split <;> exact h i

theorem Typed.parserExtract {pd : PacketDescriptor} (h : Typed pd.headers) {hdr len : ℕ}
    {r : ParseResult × PacketDescriptor} (hx : parserExtract hlir hdr len pd = some r) :
    Typed r.2.headers := by
  obtain ⟨f, hf⟩ := nextElement_eq hlir hdr pd
  obtain ⟨-, hx⟩ := Option.ite_none_right_eq_some.mp hx
  rw [Option.some_inj, hf, extractInto] at hx
  subst hx
  split
  · exact Typed.setHeader h (h _)
  · split
    · dsimp only
      split <;> exact Typed.setHeader h (h _)
    · exact Typed.setHeader h (h _)

theorem Typed.parserStep {pd : PacketDescriptor} (h : Typed pd.headers) {o : ParserOp}
    {r : Bool × PacketDescriptor} (hstep : parserStep hlir o pd = some r) : Typed r.2.headers := by
  have hextract : ∀ {hdr len : ℕ} {r : Bool × PacketDescriptor},
      (T4P4S.parserExtract hlir hdr len pd).map checkExtracted = some r → Typed r.2.headers := by
    intro hdr len r hr
    obtain ⟨x, hx, rfl⟩ := Option.map_eq_some_iff.mp hr
    rw [checkExtracted_headers]
    exact h.parserExtract hx
  -- An extraction keeps the type of the header that it fills; the others do not touch headers.
  cases o with
  | extract hdr width =>
    rw [T4P4S.parserStep, extractComponent] at hstep
    split at hstep
    · cases hstep
      exact h
    · obtain ⟨x, hx, rfl⟩ := Option.map_eq_some_iff.mp hstep
      rw [markSkipped_headers, checkExtracted_headers]
      exact h.parserExtract hx
  | extractNested hdr => exact hextract hstep
  | extractNestedStk stk =>
    rw [T4P4S.parserStep, extractNestedStk] at hstep
    split at hstep
    · rw [parserExtractStk] at hstep
      split at hstep
      · exact hextract hstep
      · cases hstep
        exact h
    · cases hstep
  | advance size =>
    cases hstep
    exact h
  | lookahead size =>
    obtain ⟨-, -, rfl⟩ := Option.map_eq_some_iff.mp hstep
    exact h

theorem Typed.setHdrValid {pd : PacketDescriptor} (h : Typed pd.headers) (hdr : ℕ) :
    Typed (setHdrValid hlir hdr pd).headers := by
  rw [T4P4S.setHdrValid]
  split
  · exact h
  · exact h.setHeader (h hdr)

theorem Typed.execStatement {pd pd' : PacketDescriptor} (h : Typed pd.headers) {s : Statement}
    (hstep : execStatement hlir s pd = some pd') : Typed pd'.headers := by
  cases s with
  | setValid hdr =>
    cases hstep
    exact h.setHdrValid hdr
  | setInvalid hdr =>
    cases hstep
    rw [setHdrInvalid]
    split
    · exact h.setHeader (h hdr)
    · exact h
  | assign dst src =>
    rw [T4P4S.execStatement] at hstep
    -- A valid source sets the target valid, an invalid one makes it invalid.
    cases hs : (pd.headers src).pointer with
    | some s =>
      rw [doAssignment_eq hs] at hstep
      obtain ⟨mem, -, rfl⟩ := Option.map_eq_some_iff.mp hstep
      exact h.setHdrValid dst
    | none =>
      rw [doAssignment, PacketDescriptor.isHeaderValid, hs] at hstep
      cases hstep
      exact h.setHeader (h dst)
  | assignVarbit dst src =>
    cases hstep
    exact h.setHeader (h dst)
  | modify a b =>
    cases hstep
    exact h
  | emit hdr =>
    obtain ⟨-, hstep⟩ := Option.ite_none_right_eq_some.mp hstep
    cases hstep
    exact h

theorem storeHeaders_headers (is : List ℕ) : ∀ {pd pd' : PacketDescriptor},
    storeHeaders hlir is pd = some pd' → pd'.headers = pd.headers := by
  induction is with
  | nil =>
    intro pd pd' h
    cases h
    rfl
  | cons i is ih =>
    intro pd pd' h
    obtain ⟨pd₁, h₁, hrest⟩ := Option.bind_eq_some_iff.mp h
    rw [ih hrest]
    rw [storeHeader] at h₁
    split at h₁
    · cases h₁
      rfl
    · obtain ⟨mem, -, rfl⟩ := Option.map_eq_some_iff.mp h₁
      rfl

theorem deparsePacket_headers {pd pd' : PacketDescriptor}
    (h : deparsePacket hlir rte pd = some pd') : pd'.headers = pd.headers := by
  rw [deparsePacket] at h
  split at h
  · split at h
    · cases h
      rfl
    · obtain ⟨pd₂, h₂, hcopy⟩ := Option.bind_eq_some_iff.mp h
      obtain ⟨pd₁, hstore, hresize⟩ := Option.bind_eq_some_iff.mp h₂
      obtain ⟨mem, -, rfl⟩ := Option.map_eq_some_iff.mp hcopy
      have hrel := @resizePacketOnDeparse_rel rte pd₁ pd₁ rfl rfl rfl rfl
      rw [hresize, Option.rel_some_some] at hrel
      obtain ⟨w, d, rfl, -⟩ := hrel
      have hstored := storeHeaders_headers _ hstore
      exact hstored
  · cases h
    rfl

theorem Typed.execProcessStep {dp : Dataplane} (h : Typed dp.pd.headers) {ps : ProcessStep}
    {r : Bool × Dataplane} (hstep : execProcessStep hlir rte ps dp = some r) :
    Typed r.2.pd.headers := by
  cases ps with
  | op o =>
    obtain ⟨x, hx, rfl⟩ := Option.map_eq_some_iff.mp hstep
    exact h.parserStep hx
  | stmt s =>
    obtain ⟨pd, hpd, rfl⟩ := Option.map_eq_some_iff.mp hstep
    exact h.execStatement hpd
  | deparse =>
    obtain ⟨pd, hpd, rfl⟩ := Option.map_eq_some_iff.mp hstep
    dsimp only
    rw [deparsePacket_headers hpd]
    exact h
  | accept => cases hstep; exact h
  | reject => cases hstep; exact h
  | setEgressPort port => cases hstep; exact h
  | setMetadata i b => cases hstep; exact h
  | finish => cases hstep; exact h

/-- However many packets were handled, the headers have their types. -/
theorem Served.typed {dp : Dataplane} (h : Served hlir rte prog dp) : Typed dp.pd.headers := by
  induction h with
  | init dp =>
    have hinit : Typed (initHeaders hlir dp.pd).headers := fun _ => rfl
    exact hinit.resetHeaders
  | handled hdp hhandle ih =>
    obtain ⟨c₀, hstart, hrest⟩ := Option.bind_eq_some_iff.mp hhandle
    obtain ⟨c, hrun, hlast⟩ := Option.bind_eq_some_iff.mp hrest
    obtain ⟨pd, hpd, heq⟩ := Option.map_eq_some_iff.mp hlast
    cases heq
    cases hstart
    have hc : Typed c.dp.pd.headers := by
      refine Machine.run_invariant (P := fun c : Config σ => Typed c.dp.pd.headers) ?_ ?_ hrun
      · intro c c' hc hstep
        obtain ⟨r, hr, rfl⟩ := Option.map_eq_some_iff.mp hstep
        exact hc.execProcessStep hr
      · exact Typed.resetHeaders ih
    dsimp only
    rw [deparsePacket_headers hpd]
    exact hc

/-! ### Whole runs -/

/-- What a packet finds when it comes, whatever was handled before. -/
theorem startConfig_rel {dp₁ dp₂ : Dataplane} (h₁ : Typed dp₁.pd.headers)
    (h₂ : Typed dp₂.pd.headers) {p₁ p₂ : Packet} (hp : SamePacket p₁ p₂) (s : σ) (portid : ℕ) :
    Option.Rel (ConfigRel hlir) (startConfig hlir s portid p₁ dp₁)
      (startConfig hlir s portid p₂ dp₂) := by
  obtain ⟨hmbuf, hbytes⟩ := hp
  refine .some ⟨rfl, rfl, .inr ⟨?_, ?_, rfl, rfl⟩⟩
  · rw [Known.start, Known.start, hmbuf]
  · refine ⟨hmbuf, congrArg (fun m : Mbuf => some m.mtod) hmbuf, congrArg Mbuf.mtod hmbuf,
      rfl, rfl, rfl, fun i hi => absurd hi List.not_mem_nil, rfl,
      fun h => absurd h Bool.false_ne_true, rfl, rfl, ?_, ?_⟩
    · intro a ha
      obtain ⟨j, hj, rfl⟩ := (of_decide_eq_true ha).eq_add
      exact hbytes j hj
    · intro i hmeta
      -- of a header, `reset_headers` leaves the type and the size
      have hpointer : ∀ pd : PacketDescriptor,
          ((resetHeaders hlir pd).headers i).pointer = none := by
        intro pd
        simp only [resetHeaders, resetVwFields, hmeta]
        split <;> rfl
      have hvw : ∀ pd : PacketDescriptor, (hlir.headerInstance i).isVw = true →
          ((resetHeaders hlir pd).headers i).vwSize = 0 := by
        intro pd hi
        simp only [resetHeaders, resetVwFields, hmeta, hi, and_self, if_true]
      refine ⟨Typed.resetHeaders h₁ i, Typed.resetHeaders h₂ i, ?_,
        fun h => absurd h Bool.false_ne_true, fun hi => ?_, ?_, ?_, ?_⟩
      · exact (hpointer _).trans (hpointer _).symm
      · exact (hvw _ hi).trans (hvw _ hi).symm
      · intro hvalid
        cases (congrArg Option.isSome (hpointer _)).symm.trans hvalid
      · intro q hq
        cases (hpointer _).symm.trans hq
      · intro q hq
        cases (hpointer _).symm.trans hq

theorem outcome_eq {k : Known} {pd₁ pd₂ : PacketDescriptor} (h : Agree hlir k pd₁ pd₂)
    (hsent : pd₁.isPacketDropped = false →
      ∀ i < pd₁.wrapper.dataLen, k.byte (pd₁.wrapper.mtod + i) = true) :
    outcome pd₁ = outcome pd₂ := by
  rw [outcome, outcome, ← h.isPacketDropped_eq]
  cases hdrop : pd₁.isPacketDropped with
  | true => rfl
  | false =>
    have hwire : pd₁.wire = pd₂.wire := by
      rw [PacketDescriptor.wire, PacketDescriptor.wire, ← h.wrapper_eq]
      exact load_eq_load_iff.mpr fun i hi => h.mem_eq _ (hsent hdrop i hi)
    rw [hwire, h.wrapper_eq, h.egressPort_eq]

/-- The last call of the deparser, and what is sent then. -/
theorem deparse_outcome_eq {c₁ c₂ : Config σ} (h : ConfigRel hlir c₁ c₂)
    (hclean : CleanEnd hlir rte c₁.known c₁.dp.pd) :
    (deparsePacket hlir rte c₁.dp.pd).map outcome =
      (deparsePacket hlir rte c₂.dp.pd).map outcome := by
  obtain ⟨-, -, ⟨-, hdrop₁, hdrop₂⟩ | ⟨-, hagree⟩⟩ := h
  · have hdropped : ∀ {pd : PacketDescriptor}, pd.isPacketDropped = true →
        (deparsePacket hlir rte pd).map outcome = some .dropped := by
      intro pd hpd
      rw [deparsePacket_idle fun _ => hpd, Option.map_some, outcome, if_pos hpd]
    rw [hdropped hdrop₁, hdropped hdrop₂]
  · obtain ⟨hpay, hsent⟩ := hclean
    have hrel := (@Agree.deparsed_eq hlir rte _ _ _ hagree.pd hpay).2
    generalize hq₁ : deparsePacket hlir rte c₁.dp.pd = x at hrel ⊢
    generalize hq₂ : deparsePacket hlir rte c₂.dp.pd = y at hrel ⊢
    cases hrel with
    | none => rfl
    | @some q₁ q₂ h => exact congrArg some (outcome_eq h (hsent q₁ hq₁))

/-- **The same packet has the same outcome, and leaves the program in the same state,
whatever packets came before, when neither run uses anything that they have left.** -/
theorem handlePacket_isolated {dp₁ dp₂ : Dataplane} (h₁ : Served hlir rte prog dp₁)
    (h₂ : Served hlir rte prog dp₂) {p₁ p₂ : Packet} (hp : SamePacket p₁ p₂) {s : σ}
    {portid fuel : ℕ} (hclean₁ : CleanRun hlir rte prog fuel s portid p₁ dp₁)
    (hclean₂ : CleanRun hlir rte prog fuel s portid p₂ dp₂) :
    (handlePacket hlir rte prog fuel s portid p₁ dp₁).map (fun r => (r.1, r.2.1)) =
      (handlePacket hlir rte prog fuel s portid p₂ dp₂).map fun r => (r.1, r.2.1) := by
  have hstart : Option.Rel (ConfigRel hlir) (startConfig hlir s portid p₁ dp₁)
      (startConfig hlir s portid p₂ dp₂) := startConfig_rel h₁.typed h₂.typed hp s portid
  rw [handlePacket, handlePacket]
  obtain ⟨c₁, hc₁⟩ : ∃ c, startConfig hlir s portid p₁ dp₁ = some c := ⟨_, rfl⟩
  obtain ⟨c₂, hc₂⟩ : ∃ c, startConfig hlir s portid p₂ dp₂ = some c := ⟨_, rfl⟩
  rw [hc₁, hc₂, Option.rel_some_some] at hstart
  -- The two runs go step by step alike, as long as both are clean.
  have hrun := @Machine.run_rel _ (processPacket hlir rte prog) (ConfigRel hlir)
    (Clean hlir rte prog) (fun _ _ h => h.ended_eq) (fun _ _ => stepConfig_rel) fuel c₁ c₂ hstart
    (hclean₁ c₁ hc₁) (hclean₂ c₂ hc₂)
  rw [hc₁, hc₂, Option.bind_some, Option.bind_some]
  generalize (processPacket hlir rte prog).run fuel c₁ = o₁ at hrun ⊢
  generalize (processPacket hlir rte prog).run fuel c₂ = o₂ at hrun ⊢
  cases hrun with
  | none => rfl
  | @some c₁ c₂ h =>
    obtain ⟨hrel, hstopped, hclean, -⟩ := h
    have hended : c₁.ended = true := hstopped
    rw [Clean, if_pos hended] at hclean
    -- They stop together, and the last deparsing is of packets that agree.
    have hlast := congrArg (Option.map fun o => (o, c₁.state)) (deparse_outcome_eq hrel hclean)
    rw [Option.map_map, Option.map_map] at hlast
    rw [Option.bind_some, Option.bind_some, Option.map_map, Option.map_map]
    refine hlast.trans ?_
    rw [hrel.state_eq]
    rfl

/-! ### A header that is set valid in one packet and parsed in another -/

/-- The dataplane when the switch starts. -/
def emptyDataplane : Dataplane where
  pd := advanceInit
  metadata _ := 0
  ingressPort := 0

/-- Two bytes, of which the first one is `b`. -/
def twoBytes (b : Byte) : Packet where
  mbuf := { dataOff := 4, dataLen := 2, pktLen := 2, bufLen := 6 }
  buf i := if i = 4 then b else 5

/-- Three headers of one byte.  The first one is parsed, and the second one is put in front
of it, with the same byte. -/
def pushProgram : Program swappedHlir ℕ where
  next s v := match s with
    | 0 => (.op (.extract 0 none), 1)
    | 1 => (.accept, 2)
    | 2 => (.stmt (.setValid 1), 3)
    | 3 => (.stmt (.modify ⟨.tmp, 1⟩ ((v.byte ⟨.buf, 4⟩).getD 0)), 4)
    | 4 => (.stmt (.emit 1), 5)
    | 5 => (.stmt (.emit 0), 6)
    | 6 => (.deparse, 7)
    | _ => (.finish, 8)
  nonmeta _ _ _ _ hdr _ := by
    rcases hdr with _ | _ | _ | hdr <;> rfl

/-- The second packet is sent alike, whether it comes first or after another one. -/
theorem pushed_alike : ∃ r,
    handlePacket swappedHlir rteMbuf pushProgram 10 0 0 (twoBytes 1)
        (initDataplane swappedHlir emptyDataplane) = some r ∧
      (handlePacket swappedHlir rteMbuf pushProgram 10 0 0 (twoBytes 2)
          (initDataplane swappedHlir emptyDataplane)).map (fun r => (r.1, r.2.1)) =
        (handlePacket swappedHlir rteMbuf pushProgram 10 0 0 (twoBytes 2) r.2.2).map
          fun r => (r.1, r.2.1) := by
  have hclean : ∀ r ∈ handlePacket swappedHlir rteMbuf pushProgram 10 0 0 (twoBytes 1)
      (initDataplane swappedHlir emptyDataplane),
        CleanRun swappedHlir rteMbuf pushProgram 10 0 0 (twoBytes 2) r.2.2 := by
    decide +kernel
  obtain ⟨r, hr⟩ := Option.isSome_iff_exists.mp (show (handlePacket swappedHlir rteMbuf pushProgram
    10 0 0 (twoBytes 1) (initDataplane swappedHlir emptyDataplane)).isSome = true by decide +kernel)
  exact ⟨r, hr, handlePacket_isolated (.init emptyDataplane) (.handled (.init emptyDataplane) hr)
    ⟨rfl, fun _ _ => rfl⟩ (by decide +kernel) (hclean r hr)⟩

/-- One header: a byte, and a variable-width field of up to a byte. -/
def optionHlir : Hlir where
  headerInstances := [{ size := 8, byteWidth := 2, isVw := true, vwFldSize := 8 }]

/-- In packets that start with `1` the header is parsed, with nothing in its
variable-width field; in front of all others it is added, with its first byte set. -/
def optionProgram : Program optionHlir ℕ where
  next s v := match s with
    | 0 => if v.byte v.extractPtr = some 1 then (.op (.extract 0 (some 0)), 1) else (.accept, 2)
    | 1 => (.accept, 4)
    | 2 => (.stmt (.setValid 0), 3)
    | 3 => (.stmt (.modify ⟨.tmp, 0⟩ 7), 4)
    | 4 => (.stmt (.emit 0), 5)
    | 5 => (.deparse, 6)
    | _ => (.finish, 7)
  nonmeta _ _ _ _ hdr _ := by
    cases hdr <;> rfl

/-- The added header has two bytes at first, and one byte behind a packet that has the
header. -/
theorem option_outcomes :
    (handlePacket optionHlir rteMbuf optionProgram 10 0 0 (twoBytes 2)
        (initDataplane optionHlir emptyDataplane)).map Prod.fst = some (.sent [7, 0, 2, 5] 4 0) ∧
      ((handlePacket optionHlir rteMbuf optionProgram 10 0 0 (twoBytes 1)
          (initDataplane optionHlir emptyDataplane)).bind fun r =>
        (handlePacket optionHlir rteMbuf optionProgram 10 0 0 (twoBytes 2) r.2.2).map Prod.fst) =
          some (.sent [7, 2, 5] 3 0) := by
  decide +kernel

theorem size_leaks : ¬ ∀ (hlir : Hlir) (rte : RteMbuf) (prog : Program hlir ℕ)
    (dp₁ dp₂ : Dataplane) (p₁ p₂ : Packet) (s portid fuel : ℕ), rte.Documented →
      Served hlir rte prog dp₁ → Served hlir rte prog dp₂ → SamePacket p₁ p₂ →
        (handlePacket hlir rte prog fuel s portid p₁ dp₁).map (fun r => (r.1, r.2.1)) =
          (handlePacket hlir rte prog fuel s portid p₂ dp₂).map fun r => (r.1, r.2.1) := by
  intro h
  obtain ⟨hfirst, hsecond⟩ := option_outcomes
  obtain ⟨r, hr, hlater⟩ := Option.bind_eq_some_iff.mp hsecond
  have heq := h optionHlir rteMbuf optionProgram _ _ (twoBytes 2) (twoBytes 2) 0 0 10
    rteMbuf_documented (.init emptyDataplane) (.handled (.init emptyDataplane) hr)
    ⟨rfl, fun _ _ => rfl⟩
  have hfst := congrArg (Option.map Prod.fst) heq
  rw [Option.map_map, Option.map_map] at hfst
  have hsame := (hfirst.symm.trans hfst).trans hlater
  revert hsame
  decide

end T4P4S
