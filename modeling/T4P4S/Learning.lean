/-
A controller that learns addresses.

The dataplane sends a digest with the address and the port of a packet that it does not
know, and for each digest the controller asks for two rules: packets to the address go to
the port, and packets from it are known.  All messages are made in one buffer, and only
one byte of the port is written into it.  In the dataplane, digests and requests share one
pool of cells.

* **`dmac_asks`** — the rest of the port is zero in each message, since the other messages
  leave these bytes of the buffer alone;
* **`rules_learned`** — so the tables get the rules for the addresses that were seen, and for
  the last bytes of the ports, in order and at most once, and all of them if the queues of the
  controller are never full; what is underway can be learned at any time.
-/
import Mathlib.Data.List.Flatten
import T4P4S.DigestReads
import T4P4S.MessageRoom

open ByteString Transition

namespace T4P4S

open DigestMsg

/-! ### The controller -/

/-- What the controller calls the things of the program. -/
inductive L2Word
  | dmac
  | smac
  | dstAddr
  | srcAddr
  | forward
  | nop
  | port

namespace L2Word

def text : L2Word → String
  | dmac => "dmac"
  | smac => "smac"
  | dstAddr => "ethernet.dstAddr"
  | srcAddr => "ethernet.srcAddr"
  | forward => "forward"
  | nop => "_nop"
  | port => "port"

theorem ok (w : L2Word) : 0 ∉ nameBytes w.text ∧ (nameBytes w.text).length < p4MaxNameLen := by
  cases w <;> decide

def name (w : L2Word) : P4Name := ⟨nameBytes w.text, w.ok⟩

end L2Word

/-- The last translation that was added for the key; the translations are names that fit. -/
def translate (translations : List (P4Name × P4Name)) (key : P4Name) : P4Name :=
  ((translations.reverse.find? fun t => decide (t.1 = key)).map Prod.snd).getD key

/-- What `send_exact_entry` is called with. -/
structure ExactEntry where
  port : Byte
  mac : List Byte
  tableName : L2Word
  headerName : L2Word
  actionName : L2Word
  par1 : Option L2Word
  par2 : Option L2Word

theorem macBitmap_ok (mac : List Byte) : (mac.take 6).length ≤ maxFieldLength :=
  (List.length_take_le ..).trans (by decide)

theorem portBitmap_ok (port : Byte) (pad : Fin 128) :
    (port :: List.replicate pad (0 : Byte)).length ≤ maxActionParameterBitmapLength := by
  rw [List.length_cons, List.length_replicate]
  exact pad.2

theorem macBits_lt : 48 < 2 ^ 16 := by decide

theorem portBits_lt : 8 < 2 ^ 32 := by decide

theorem oneMatch_ok (m : FieldMatch) : [m].length ≤ p4MaxNumberOfFieldMatches :=
  (by decide : 1 ≤ p4MaxNumberOfFieldMatches)

theorem exactParams_ok {α : Type} (par1 par2 : Option L2Word) (f : L2Word → α) :
    ((par1.toList ++ par2.toList).map f).length ≤ p4MaxNumberOfActionParameters := by
  have hone : ∀ par : Option L2Word, par.toList.length ≤ 1 := by
    intro par
    cases par
    · exact Nat.zero_le _
    · exact le_rfl
  have hten : 2 ≤ p4MaxNumberOfActionParameters := by decide
  have hpar1 := hone par1
  have hpar2 := hone par2
  rw [List.length_map, List.length_append]
  omega

section Controller

variable (translations : List (P4Name × P4Name))

/-- A parameter that begins with the port. -/
def portParam (port : Byte) (pad : Fin 128) (par : L2Word) : ActionParameter :=
  ⟨translate translations par.name, ⟨8, portBits_lt⟩,
    ⟨port :: List.replicate pad 0, portBitmap_ok port pad⟩⟩

/-- The message of `send_exact_entry`, if `pad` zeros were written behind the port. -/
def ExactEntry.request (e : ExactEntry) (pad : Fin 128) : CtrlRequest :=
  .addTableEntry (translate translations e.tableName.name)
    ⟨[.exact (translate translations e.headerName.name) ⟨48, macBits_lt⟩
      ⟨e.mac.take 6, macBitmap_ok e.mac⟩], oneMatch_ok _⟩
    (translate translations e.actionName.name)
    ⟨(e.par1.toList ++ e.par2.toList).map (portParam translations e.port pad),
      exactParams_ok e.par1 e.par2 _⟩

/-- `send_exact_entry` up to `send_p4_msg`, which copies the buffer. -/
def sendExactEntry (buffer : Buffer) (e : ExactEntry) : Option Buffer :=
  buildMsg 2048 buffer (e.request translations 0)

def dmacEntry (dig : DigestMacport) : ExactEntry where
  port := dig.port
  mac := dig.mac
  tableName := .dmac
  headerName := .dstAddr
  actionName := .forward
  par1 := some .port
  par2 := none

def smacEntry (dig : DigestMacport) : ExactEntry where
  port := dig.port
  mac := dig.mac
  tableName := .smac
  headerName := .srcAddr
  actionName := .nop
  par1 := none
  par2 := none

end Controller

/-! ### What is left in the buffer -/

/-- The place of the port in a message with one exact match. -/
def portPlace : ℕ :=
  sizeofP4AddTableEntry + FieldMatchType.exact.sizeof + sizeofP4Action + offParamBitmap

/-- Behind the first byte of the port, the buffer is zero. -/
def PortClear (buffer : Buffer) (pad : ℕ) : Prop := ∀ j < pad, buffer (portPlace + 1 + j) = 0

section Sent

variable {translations : List (P4Name × P4Name)} {buffer sent : Buffer} {dig : DigestMacport}
  {pad : Fin 128}

theorem exists_sendExactEntry (buffer : Buffer) (e : ExactEntry) :
    ∃ sent, sendExactEntry translations buffer e = some sent := by
  refine exists_addTableEntry (by decide) ?_ buffer
  have hwidths : widths (((e.par1.toList ++ e.par2.toList).map
      (portParam translations e.port 0)).map (ActionParameter.record hostBytes)) ≤
        2 * sizeofP4ActionParameter := by
    cases e.par1 <;> cases e.par2 <;>
      simp [widths, ActionParameter.record, sizeofP4ActionParameter]
  have hroom : sizeofP4AddTableEntry + (FieldMatchType.exact.sizeof + 0) + sizeofP4Action +
      2 * sizeofP4ActionParameter ≤ 2048 := by decide
  exact (Nat.add_le_add_left hwidths _).trans hroom

/-- The bytes behind the port are written by no message. -/
theorem PortClear.dmac (h : PortClear buffer pad)
    (hsent : sendExactEntry translations buffer (dmacEntry dig) = some sent) :
    PortClear sent pad := by
  intro j hj
  rw [← h j hj]
  refine buildMsg_spare (by decide) hsent ?_ ?_
  · exact (by decide : portPlace - offParamBitmap ≤ portPlace).trans (by omega)
  · refine List.forall_mem_singleton.mpr (.inr ?_)
    show portPlace + 1 ≤ _
    omega

theorem PortClear.smac (h : PortClear buffer pad)
    (hsent : sendExactEntry translations buffer (smacEntry dig) = some sent) :
    PortClear sent pad := by
  intro j hj
  rw [← h j hj]
  refine buildMsg_spare (by decide) hsent ?_ fun x hx => absurd hx List.not_mem_nil
  exact (by decide : portPlace - offParamBitmap ≤ portPlace).trans (by omega)

/-- So the message is the one with zeros behind the port. -/
theorem received_dmac (h : PortClear buffer pad)
    (hsent : sendExactEntry translations buffer (dmacEntry dig) = some sent) :
    Received ((dmacEntry dig).request translations pad) sent := by
  have hclear := h.dmac hsent
  obtain ⟨hlt, hheader, hmatch, haction, hparam, -⟩ := received_of_built (by decide) hsent
  refine ⟨hlt, hheader, hmatch, haction, ?_, trivial⟩
  obtain ⟨hname, hparam⟩ := holds_cons.mp hparam
  obtain ⟨hbitmap, hlength⟩ := holds_cons.mp hparam
  refine holds_cons.mpr ⟨hname, holds_cons.mpr ⟨?_, hlength⟩⟩
  have hzeros : slice sent (portPlace + 1) pad = List.replicate pad 0 := by
    refine List.eq_replicate_iff.mpr ⟨length_slice .., fun b hb => ?_⟩
    obtain ⟨j, hj, rfl⟩ := List.mem_map.mp hb
    exact hclear j (List.mem_range.mp hj)
  show slice sent portPlace (dig.port :: List.replicate pad 0).length = _
  rw [List.length_cons, List.length_replicate, Nat.add_comm, slice_add, hzeros]
  exact congrArg (· ++ List.replicate (pad : ℕ) 0) hbitmap

theorem received_smac
    (hsent : sendExactEntry translations buffer (smacEntry dig) = some sent) :
    Received ((smacEntry dig).request translations pad) sent :=
  received_of_built (by decide) hsent

end Sent

/-! ### The tables -/

/-- A table with an address as its key, and one of its actions. -/
structure MacTable (prog : List CtrlTable) (tableName actionName : P4Name) where
  table : CtrlTable
  id : ℕ
  addr : KeyElement
  action : ActionDecl
  at_id : prog[id]? = some table
  type : table.matchType ≠ .ternary
  distinct : Distinct (table.actions.map ActionDecl.name)
  name : tableName.1 = nameBytes table.name
  key : table.sortedKey = [⟨addr.matchOrder, .exact, .field addr⟩]
  addr_width : addr.keyByteWidth = 6
  addr_header : addr.isMetadata = false
  action_mem : action ∈ table.actions
  action_name : actionName.1 = nameBytes action.name

namespace MacTable

variable {prog : List CtrlTable} {tableName actionName : P4Name}
  (t : MacTable prog tableName actionName) {mac : List Byte} {args : List ActionArg}

/-- The rule for an address. -/
def change (mac : List Byte) (args : List ActionArg) : TableChange :=
  .addRule [⟨.exact, t.addr, hostNat mac.reverse, 0⟩] ⟨t.action.name, args⟩

theorem bitmap_eq (hmac : mac.length = 6) : t.addr.bitmap (hostNat mac.reverse) = mac := by
  have hlen : t.addr.keyByteWidth = mac.reverse.length := by
    rw [t.addr_width, List.length_reverse, hmac]
  rw [KeyElement.bitmap, t.addr_header, if_neg Bool.false_ne_true, netBytes, hlen,
    hostBytes_hostNat, List.reverse_reverse]

theorem change_for (hargs : args.map ActionArg.param = t.action.params)
    (hwhole : ∀ a ∈ args, a.param.byteWidth = a.param.memberSize) :
    (t.change mac args).For t.table := by
  refine ⟨t.key, List.cons_ne_nil _ _, ?_, hwhole⟩
  show ActionDecl.mk t.action.name (args.map ActionArg.param) ∈ _
  rw [hargs]
  exact t.action_mem

end MacTable

theorem ExactEntry.askedBy {translations : List (P4Name × P4Name)} {prog : List CtrlTable}
    {e : ExactEntry} (t : MacTable prog (translate translations e.tableName.name)
      (translate translations e.actionName.name)) (hmac : e.mac.length = 6) {args : List ActionArg}
    {pad : Fin 128} (hargs : List.Forall₂ (fun a ap => a.bytes.take a.param.byteWidth <+: ap.bitmap.1)
      args ((e.par1.toList ++ e.par2.toList).map (portParam translations e.port pad))) :
    (t.change e.mac args).AskedBy t.table (e.request translations pad) := by
  refine .addRule _ _ _ _ _ _ t.name (.cons (.exact _ _ _ rfl ?_) .nil) ⟨t.action_name, hargs⟩
  show t.addr.bitmap (hostNat e.mac.reverse) <+: e.mac.take 6
  have htake : e.mac.take 6 = e.mac := List.take_of_length_le hmac.le
  exact ⟨[], (List.append_nil _).trans ((t.bitmap_eq hmac).trans htake.symm)⟩

/-- The program has the tables, and ports of 8 to 32 bits that fill their C type. -/
structure L2Program (translations : List (P4Name × P4Name)) (prog : List CtrlTable) where
  names : Distinct (prog.map CtrlTable.name)
  dmac : MacTable prog (translate translations L2Word.dmac.name)
    (translate translations L2Word.forward.name)
  smac : MacTable prog (translate translations L2Word.smac.name)
    (translate translations L2Word.nop.name)
  port : ActionParam
  forward_params : dmac.action.params = [port]
  nop_params : smac.action.params = []
  unsigned : port.isSigned = false
  size : 8 ≤ port.size ∧ port.size ≤ 32
  whole : port.byteWidth = port.memberSize

namespace L2Program

variable {translations : List (P4Name × P4Name)} {prog : List CtrlTable}
  (p : L2Program translations prog)

theorem port_inRange (port : Byte) : CInt.InRange p.port.size p.port.isSigned port.toNat := by
  have hlt : port.toNat < 2 ^ p.port.size :=
    port.isLt.trans_le (Nat.pow_le_pow_right (by decide) p.size.1)
  rw [p.unsigned, CInt.InRange, if_neg Bool.false_ne_true]
  exact ⟨Int.natCast_nonneg _, by exact_mod_cast hlt⟩

def portArg (port : Byte) : ActionArg := ⟨p.port, port.toNat, p.port_inRange port⟩

/-- How many bytes of a port there are behind the first one. -/
def pad : Fin 128 := Fin.ofNat 128 (p.port.memberSize - 1)

theorem memberSize_eq : p.port.memberSize = p.pad + 1 := by
  obtain ⟨hlo, hhi⟩ := p.size
  have hwhole := p.whole
  rw [ActionParam.byteWidth] at hwhole
  have hpad : (p.pad : ℕ) = (p.port.memberSize - 1) % 128 := rfl
  omega

/-- The port and zeros. -/
theorem portArg_bytes (port : Byte) :
    (p.portArg port).bytes = port :: List.replicate p.pad 0 := by
  have hsize : (p.portArg port).param.size ≤ 32 := p.size.2
  have hmember : (p.portArg port).param.memberSize = p.pad + 1 := p.memberSize_eq
  have hlt : (port.toNat : ℤ) < 2 ^ (8 * (p.pad + 1 : ℕ)) := by
    have hbyte : port.toNat < 2 ^ (8 * ((p.pad : ℕ) + 1)) :=
      port.isLt.trans_le (Nat.pow_le_pow_right (by decide) (by omega))
    exact_mod_cast hbyte
  have hpattern : (p.portArg port).pattern = port.toNat := by
    rw [ActionArg.pattern, hmember]
    show ((port.toNat : ℤ) % _).toNat = _
    rw [Int.emod_eq_of_lt (Int.natCast_nonneg _) hlt, Int.toNat_natCast]
  have hdiv : port.toNat / 256 = 0 := Nat.div_eq_of_lt port.isLt
  rw [ActionArg.bytes, if_pos hsize, hmember, hpattern, hostBytes, hdiv, hostBytes_zero]
  exact congrArg (· :: List.replicate (p.pad : ℕ) (0 : Byte)) (BitVec.ofNat_toNat ..)

/-- Packets to the address go to the port. -/
def dmacCall (align : ℕ → ℕ) (dig : DigestMacport) : ℕ × TableCall :=
  (p.dmac.id, (p.dmac.change dig.mac [p.portArg dig.port]).tableCall align p.dmac.table)

/-- Packets from the address are known. -/
def smacCall (align : ℕ → ℕ) (dig : DigestMacport) : ℕ × TableCall :=
  (p.smac.id, (p.smac.change dig.mac []).tableCall align p.smac.table)

def calls (align : ℕ → ℕ) (dig : DigestMacport) : List (ℕ × TableCall) :=
  [p.dmacCall align dig, p.smacCall align dig]

section Asks

variable {align : ℕ → ℕ} (halign : IsAlign align) {buffer sent : Buffer} {dig : DigestMacport}
  (hmac : dig.mac.length = 6)

include halign hmac

/-- **The first message asks for the port as it was seen**, whatever was sent before. -/
theorem dmac_asks (hclear : PortClear buffer p.pad)
    (hsent : sendExactEntry translations buffer (dmacEntry dig) = some sent) :
    (requestEnds align prog).Means sent (p.dmacCall align dig) := by
  have hargs : List.Forall₂ (fun a ap => a.bytes.take a.param.byteWidth <+: ap.bitmap.1)
      [p.portArg dig.port] [portParam translations dig.port p.pad .port] := by
    refine .cons ?_ .nil
    rw [p.portArg_bytes]
    exact List.take_prefix ..
  have hasked := ExactEntry.askedBy (e := dmacEntry dig) p.dmac hmac hargs
  have hchange : (p.dmac.change dig.mac [p.portArg dig.port]).For p.dmac.table :=
    p.dmac.change_for p.forward_params.symm (List.forall_mem_singleton.mpr p.whole)
  obtain ⟨m, hbytes, hrange, hcall⟩ := (received_dmac hclear hsent).understood halign p.names
    p.dmac.at_id p.dmac.type p.dmac.distinct hchange hasked (by decide : 918 ≤ p4BgMemCellSize)
  exact requestEnds_means hbytes hrange hcall

theorem smac_asks (hsent : sendExactEntry translations buffer (smacEntry dig) = some sent) :
    (requestEnds align prog).Means sent (p.smacCall align dig) := by
  have hasked := @ExactEntry.askedBy translations prog (smacEntry dig) p.smac hmac [] p.pad .nil
  have hchange : (p.smac.change dig.mac []).For p.smac.table :=
    p.smac.change_for p.nop_params.symm fun a ha => absurd ha List.not_mem_nil
  obtain ⟨m, hbytes, hrange, hcall⟩ := (received_smac hsent).understood halign p.names
    p.smac.at_id p.smac.type p.smac.distinct hchange hasked (by decide : 658 ≤ p4BgMemCellSize)
  exact requestEnds_means hbytes hrange hcall

end Asks

end L2Program

/-! ### The learning switch -/

/-- A packet from the address came in at the port. -/
structure Seen where
  mac : List Byte
  port : ℕ

/-- What the controller keeps of it: the last byte of the port. -/
def Seen.kept (d : Seen) : DigestMacport := ⟨d.mac, BitVec.ofNat 8 d.port⟩

/-- The two ways of the connection, the controller's buffer, and the digest for which
`mac_learn_digest` has sent its first message only. -/
structure Learner where
  up : Link
  down : Link
  buffer : Buffer
  pending : Option DigestMacport

/-- Nothing is underway, and the controller waits for a digest. -/
def Learner.Idle (s : Learner) : Prop := s.up.Idle ∧ s.down.Idle ∧ s.pending = none

section Learner

variable (align : ℕ → ℕ) (translations : List (P4Name × P4Name)) (prog : List CtrlTable)

/-- How many cells the dataplane has in use: its queues of digests and of requests. -/
def heldCells (up down : Link) : ℤ := up.out.size + down.inp.size

/-- A digest is sent, a thread takes a turn on one of the two ways, the controller takes a
digest and sends its first message, or its second one, or the dataplane handles a request.
A digest for which there is no free cell ends the program. -/
inductive LearnerStep : Learner → Option (ChannelEvent Seen (ℕ × TableCall)) → Learner → Prop
  | learn {s : Learner} {mac : Buffer} {port : DigestVar} {cell : Buffer}
      (hcell : FreeCell (heldCells s.up s.down))
      (hsends : digestEnds.sends (.macLearnDigest mac port) cell) :
      LearnerStep s (some (.sent ⟨slice mac 0 6, port.toNat⟩ (decide s.up.out.HasSpace)))
        { s with up := s.up.send cell }
  | up {s : Learner} {up' : Link} {lost : Bool}
      (hturn : Link.Step (fun _ => True) s.up lost up') :
      LearnerStep s (if lost then some .lost else none) { s with up := up' }
  | first {s : Learner} {inp : Fifo Buffer} {cell sent : Buffer} {dig : DigestMacport}
      (hpending : s.pending = none)
      (hremove : fifoRemoveMsg p4BgQueueSize s.up.inp = (inp, some cell))
      (hdhf : dhf cell = some (.macLearnDigest dig))
      (hsent : sendExactEntry translations s.buffer (dmacEntry dig) = some sent) :
      LearnerStep s (if s.down.out.HasSpace then none else some .lost)
        ⟨{ s.up with inp := inp }, s.down.send sent, sent, some dig⟩
  | second {s : Learner} {sent : Buffer} {dig : DigestMacport} (hpending : s.pending = some dig)
      (hsent : sendExactEntry translations s.buffer (smacEntry dig) = some sent) :
      LearnerStep s (if s.down.out.HasSpace then none else some .lost)
        ⟨s.up, s.down.send sent, sent, none⟩
  | down {s : Learner} {down' : Link} {lost : Bool}
      (hturn : Link.Step (fun l => FreeCell (heldCells s.up l)) s.down lost down') :
      LearnerStep s (if lost then some .lost else none) { s with down := down' }
  | handle {s : Learner} {inp : Fifo Buffer} {cell : Buffer} {result : Option (ℕ × TableCall)}
      (hremove : fifoRemoveMsg p4BgQueueSize s.down.inp = (inp, some cell))
      (hhandles : (requestEnds align prog).handles cell result) :
      LearnerStep s (some (result.elim .lost .delivered))
        { s with down := { s.down with inp := inp } }

/-- Nothing was sent yet, and the buffer is zero as static variables are. -/
def learner : LabelledSystem Learner (ChannelEvent Seen (ℕ × TableCall)) where
  init s := (∃ out inp, s.up = Link.fresh out inp) ∧ (∃ out inp, s.down = Link.fresh out inp) ∧
    (s.buffer = fun _ => 0) ∧ s.pending = none
  step := LearnerStep align translations prog

variable {align translations prog}

/-- The calls that are underway, and those that are yet to be asked for. -/
def L2Program.wanted (p : L2Program translations prog) (align : ℕ → ℕ) (s : Learner)
    (digs : List DigestMacport) (calls : List (ℕ × TableCall)) : List (ℕ × TableCall) :=
  calls ++ (s.pending.toList.map (p.smacCall align) ++ digs.flatMap (p.calls align))

/-- What is underway in the two ways, and what holds of the controller. -/
structure L2Program.Asked (p : L2Program translations prog) (align : ℕ → ℕ) (s : Learner)
    (digs : List DigestMacport) (calls : List (ℕ × TableCall)) : Prop where
  up : digestEnds.Underway s.up (digs.map .macLearnDigest)
  down : (requestEnds align prog).Underway s.down calls
  clear : PortClear s.buffer p.pad
  macs : ∀ dig ∈ s.pending.toList ++ digs, dig.mac.length = 6

/-- A request is put into the queue, or lost there. -/
theorem request_sent {l : Link} {calls rest : List (ℕ × TableCall)}
    (hcalls : (requestEnds align prog).Underway l calls) {sent : Buffer} {call : ℕ × TableCall}
    (hmeans : (requestEnds align prog).Means sent call)
    (asks : Seen → List (ℕ × TableCall)) :
    ∃ calls', (requestEnds align prog).Underway (l.send sent) calls' ∧
      (ChannelStep asks (calls ++ call :: rest) (if l.out.HasSpace then none else some .lost)
          (calls' ++ rest) ∨
        (if l.out.HasSpace then none else some .lost :
            Option (ChannelEvent Seen (ℕ × TableCall))) = none ∧
          calls' ++ rest = calls ++ call :: rest) := by
  by_cases hspace : l.out.HasSpace
  · rw [if_pos hspace]
    exact ⟨_, hcalls.send hspace hmeans, .inr ⟨rfl, (List.append_cons ..).symm⟩⟩
  · rw [if_neg hspace, Link.send_full hspace]
    exact ⟨calls, hcalls, .inl (.lost
      ((List.Sublist.refl calls).append (List.sublist_cons_self call rest)))⟩

/-- The calls that the controller makes for it. -/
def L2Program.asks (p : L2Program translations prog) (align : ℕ → ℕ) (d : Seen) :
    List (ℕ × TableCall) := p.calls align d.kept

/-- One step of the learning switch is one of the channel. -/
theorem L2Program.Asked.step {p : L2Program translations prog} (halign : IsAlign align)
    {s s' : Learner} {digs : List DigestMacport} {calls : List (ℕ × TableCall)}
    (h : p.Asked align s digs calls) {e : Option (ChannelEvent Seen (ℕ × TableCall))}
    (hstep : LearnerStep align translations prog s e s') :
    ∃ digs' calls', p.Asked align s' digs' calls' ∧
      (ChannelStep (p.asks align) (p.wanted align s digs calls) e
          (p.wanted align s' digs' calls') ∨
        e = none ∧ p.wanted align s' digs' calls' = p.wanted align s digs calls) := by
  cases hstep with
  | @learn mac port cell hcell hsends =>
    by_cases hspace : s.up.out.HasSpace
    · rw [decide_eq_true hspace]
      have hup := h.up.send hspace (digestEnds_understands _ _ hsends)
      refine ⟨digs ++ [(⟨slice mac 0 6, port.toNat⟩ : Seen).kept], calls,
        ⟨?_, h.down, h.clear, ?_⟩, .inl ?_⟩
      · rw [List.map_append]
        exact hup
      · rw [← List.append_assoc]
        exact List.forall_mem_append.mpr
          ⟨h.macs, List.forall_mem_singleton.mpr (length_slice ..)⟩
      · rw [wanted, wanted, List.flatMap_append, List.flatMap_singleton, ← List.append_assoc,
          ← List.append_assoc, ← List.append_assoc]
        exact .sent _ _
    · rw [decide_eq_false hspace, Link.send_full hspace]
      exact ⟨digs, calls, h, .inl (.refused _ _)⟩
  | @up up' lost hturn =>
    obtain ⟨-, q, hsub, hlossless, hup⟩ := h.up.turn hturn
    obtain ⟨digs', hdigs, rfl⟩ := List.sublist_map_iff.mp hsub
    have hmacs : ∀ dig ∈ s.pending.toList ++ digs', dig.mac.length = 6 := fun dig hdig =>
      h.macs dig (((List.Sublist.refl _).append hdigs).subset hdig)
    refine ⟨digs', calls, ⟨hup, h.down, h.clear, hmacs⟩, ?_⟩
    cases lost with
    | false =>
      have hsame : digs' = digs := hdigs.eq_of_length (by
        have hlen := congrArg List.length (hlossless rfl)
        rwa [List.length_map, List.length_map] at hlen)
      rw [hsame]
      exact .inr ⟨rfl, rfl⟩
    | true => exact .inl (.lost ((List.Sublist.refl calls).append
        ((List.Sublist.refl _).append (hdigs.flatMap _))))
  | @first inp cell sent dig hpending hremove hdhf hsent =>
    obtain ⟨b, rest, heq, hresult, hup⟩ := h.up.handle hremove hdhf
    obtain rfl := Option.some.inj hresult
    cases digs with
    | nil => exact absurd heq.symm (List.cons_ne_nil _ _)
    | cons dig' digs' =>
      obtain ⟨hdig, rfl⟩ := List.cons.inj heq
      obtain rfl := L2Digest.macLearnDigest.inj hdig
      have hmacs := h.macs
      rw [hpending] at hmacs
      obtain ⟨calls', hdown, hstep⟩ := request_sent h.down
        (p.dmac_asks halign (hmacs dig' List.mem_cons_self) h.clear hsent) (p.asks align)
      refine ⟨digs', calls', ⟨hup, hdown, h.clear.dmac hsent, hmacs⟩, ?_⟩
      rw [wanted, wanted, hpending]
      exact hstep
  | @second sent dig hpending hsent =>
    have hmacs := h.macs
    rw [hpending] at hmacs
    obtain ⟨hmac, hmacs⟩ := List.forall_mem_cons.mp hmacs
    obtain ⟨calls', hdown, hstep⟩ := request_sent h.down (p.smac_asks halign hmac hsent)
      (p.asks align)
    refine ⟨digs, calls', ⟨h.up, hdown, h.clear.smac hsent, hmacs⟩, ?_⟩
    rw [wanted, wanted, hpending]
    exact hstep
  | @down down' lost hturn =>
    obtain ⟨-, calls', hsub, hlossless, hdown⟩ := h.down.turn hturn
    refine ⟨digs, calls', ⟨h.up, hdown, h.clear, h.macs⟩, ?_⟩
    cases lost with
    | false =>
      rw [hlossless rfl]
      exact .inr ⟨rfl, rfl⟩
    | true => exact .inl (.lost (hsub.append (List.Sublist.refl _)))
  | handle hremove hhandles =>
    obtain ⟨call, calls', rfl, rfl, hdown⟩ := h.down.handle hremove hhandles
    exact ⟨digs, calls', ⟨h.up, hdown, h.clear, h.macs⟩, .inl (.delivered call _)⟩

theorem learner_simulates (halign : IsAlign align) (p : L2Program translations prog) :
    (learner align translations prog).Simulates (channel (p.asks align)) fun s q =>
      ∃ digs calls, p.Asked align s digs calls ∧ q = p.wanted align s digs calls where
  init := by
    rintro ⟨up, down, buffer, pending⟩ ⟨⟨out, inp, rfl⟩, ⟨out', inp', rfl⟩, rfl, rfl⟩
    refine ⟨[], rfl, [], [], ⟨?_, ?_, fun _ _ => rfl, nofun⟩, rfl⟩
    · exact ⟨[], Link.carries_fresh out inp, .nil⟩
    · exact ⟨[], Link.carries_fresh out' inp', .nil⟩
  step := by
    rintro s e s' q ⟨digs, calls, h, rfl⟩ hstep
    obtain ⟨digs', calls', h', hq⟩ := h.step halign hstep
    exact ⟨_, hq, digs', calls', h', rfl⟩

/-- Something is lost only at a full queue of the controller. -/
theorem L2Program.Asked.full {p : L2Program translations prog} {s s' : Learner}
    {digs : List DigestMacport} {calls : List (ℕ × TableCall)} (h : p.Asked align s digs calls)
    {e : ChannelEvent Seen (ℕ × TableCall)}
    (hstep : LearnerStep align translations prog s (some e) s') (hlost : ¬ e.Lossless) :
    ¬ s.down.out.HasSpace ∨ ¬ s.up.inp.HasSpace := by
  generalize hevent : some e = event at hstep
  cases hstep with
  | learn hcell hsends =>
    obtain rfl := Option.some.inj hevent
    have hheld : s.up.out.size ≤ heldCells s.up s.down := by
      obtain ⟨msgs, ⟨ins, wires, outs, -, hholding⟩, -⟩ := h.down
      have hins := hholding.inp.size_eq
      unfold heldCells
      omega
    have hspace : s.up.out.HasSpace := FreeCell.hasSpace (hheld.trans_lt hcell)
    exact absurd (decide_eq_true hspace) hlost
  | @up up' lost hturn =>
    cases lost with
    | false => exact absurd hevent (Option.some_ne_none e)
    | true => exact .inr ((h.up.turn hturn).1 rfl).2
  | first hpending hremove hdhf hsent =>
    split_ifs at hevent with hspace
    exact .inl hspace
  | second hpending hsent =>
    split_ifs at hevent with hspace
    exact .inl hspace
  | @down down' lost hturn =>
    cases lost with
    | false => exact absurd hevent (Option.some_ne_none e)
    | true =>
      obtain ⟨hcell, hfull⟩ := (h.down.turn hturn).1 rfl
      have hheld : s.down.inp.size ≤ heldCells s.up s.down := by
        obtain ⟨msgs, ⟨ins, wires, outs, -, hholding⟩, -⟩ := h.up
        have houts := hholding.out.size_eq
        unfold heldCells
        omega
      exact absurd (FreeCell.hasSpace (hheld.trans_lt hcell)) hfull
  | handle hremove hhandles =>
    obtain ⟨b, q', rfl, rfl, -⟩ := h.down.handle hremove hhandles
    obtain rfl := Option.some.inj hevent
    exact absurd trivial hlost

section Progress

variable {tr : List (ChannelEvent Seen (ℕ × TableCall))} {s : Learner}
  {p : L2Program translations prog} {digs : List DigestMacport} {calls : List (ℕ × TableCall)}

theorem trace_up (htr : (learner align translations prog).Trace tr s) {up' : Link}
    (hturns : s.up.Turns (fun _ => True) up') :
    (learner align translations prog).Trace tr { s with up := up' } := by
  induction hturns with
  | refl => exact htr
  | tail _ hturn ih =>
    have hstep := LabelledSystem.Trace.step ih (.up hturn)
    rwa [if_neg Bool.false_ne_true, Option.toList_none, List.append_nil] at hstep

theorem trace_down (htr : (learner align translations prog).Trace tr s) {down' : Link}
    (hturns : s.down.Turns (fun l => FreeCell (heldCells s.up l)) down') :
    (learner align translations prog).Trace tr { s with down := down' } := by
  induction hturns with
  | refl => exact htr
  | tail _ hturn ih =>
    have hstep := LabelledSystem.Trace.step ih (.down hturn)
    rwa [if_neg Bool.false_ne_true, Option.toList_none, List.append_nil] at hstep

/-- The digests can be written to the socket, so that their cells are free. -/
theorem L2Program.Asked.exists_flushed (h : p.Asked align s digs calls)
    (htr : (learner align translations prog).Trace tr s) :
    ∃ up', (learner align translations prog).Trace tr { s with up := up' } ∧
      p.Asked align { s with up := up' } digs calls ∧ up'.out.size ≤ 0 := by
  obtain ⟨msgs, hcarries, hread⟩ := h.up
  obtain ⟨up', hturns, hcarries', hempty⟩ := hcarries.exists_flushed
  exact ⟨up', trace_up htr hturns, ⟨⟨msgs, hcarries', hread⟩, h.down, h.clear, h.macs⟩, hempty.le⟩

/-- The calls that are underway can all be made. -/
theorem L2Program.Asked.exists_drained (h : p.Asked align s digs calls)
    (hflushed : s.up.out.size ≤ 0) (htr : (learner align translations prog).Trace tr s) :
    ∃ down', (learner align translations prog).Trace (tr ++ calls.map .delivered)
        { s with down := down' } ∧ p.Asked align { s with down := down' } digs [] := by
  induction calls generalizing tr s with
  | nil =>
    rw [List.map_nil, List.append_nil]
    exact ⟨s.down, htr, h⟩
  | cons call calls ih =>
    have hfree : ∀ l : Link, l.inp.size = 0 → FreeCell (heldCells s.up l) := by
      intro l hempty
      refine lt_of_le_of_lt ?_ freeCell_zero
      rwa [heldCells, hempty, add_zero]
    obtain ⟨down', inp, cell, hturns, hremove, hresult, hdown⟩ := h.down.next hfree
    have hstep := LabelledSystem.Trace.step (trace_down htr hturns) (.handle hremove hresult)
    have hrest : p.Asked align { s with down := { down' with inp := inp } } digs calls :=
      ⟨h.up, hdown, h.clear, h.macs⟩
    obtain ⟨down'', htr', h'⟩ := ih hrest hflushed hstep
    rw [List.append_assoc] at htr'
    exact ⟨down'', htr', h'⟩

/-- The controller can send its second message. -/
theorem L2Program.Asked.exists_second (halign : IsAlign align) (h : p.Asked align s digs [])
    (hflushed : s.up.out.size ≤ 0) (htr : (learner align translations prog).Trace tr s) :
    ∃ s', (learner align translations prog).Trace
        (tr ++ (s.pending.toList.map (p.smacCall align)).map .delivered) s' ∧
      p.Asked align s' digs [] ∧ s'.up.out.size ≤ 0 ∧ s'.pending = none := by
  cases hpending : s.pending with
  | none =>
    refine ⟨s, ?_, h, hflushed, hpending⟩
    rw [Option.toList_none, List.map_nil, List.map_nil, List.append_nil]
    exact htr
  | some dig =>
    obtain ⟨sent, hsent⟩ := @exists_sendExactEntry translations s.buffer (smacEntry dig)
    have hspace : s.down.out.HasSpace := (h.down.idle_iff.mpr rfl).hasSpace
    have hmacs := h.macs
    rw [hpending] at hmacs
    obtain ⟨hmac, hmacs⟩ := List.forall_mem_cons.mp hmacs
    have hstep := LabelledSystem.Trace.step htr (.second hpending hsent)
    rw [if_pos hspace, Option.toList_none, List.append_nil] at hstep
    have hsecond : p.Asked align ⟨s.up, s.down.send sent, sent, none⟩ digs [p.smacCall align dig] :=
      ⟨h.up, h.down.send hspace (p.smac_asks halign hmac hsent), h.clear.smac hsent, hmacs⟩
    obtain ⟨down', htr', h'⟩ := hsecond.exists_drained hflushed hstep
    exact ⟨_, htr', h', hflushed, rfl⟩

/-- The digests that are underway can all be handled. -/
theorem L2Program.Asked.exists_learned (halign : IsAlign align) (h : p.Asked align s digs [])
    (hflushed : s.up.out.size ≤ 0) (hpending : s.pending = none)
    (htr : (learner align translations prog).Trace tr s) :
    ∃ s', (learner align translations prog).Trace
        (tr ++ (digs.flatMap (p.calls align)).map .delivered) s' ∧
      p.Asked align s' [] [] ∧ s'.pending = none := by
  induction digs generalizing tr s with
  | nil =>
    refine ⟨s, ?_, h, hpending⟩
    rw [List.flatMap_nil, List.map_nil, List.append_nil]
    exact htr
  | cons dig digs ih =>
    obtain ⟨up', inp, cell, hturns, hremove, hdhf, hup⟩ := h.up.next fun _ _ => trivial
    have hflushed' : up'.out.size ≤ 0 := hturns.out_size_le.trans hflushed
    obtain ⟨sent, hsent⟩ := @exists_sendExactEntry translations s.buffer (dmacEntry dig)
    have hspace : s.down.out.HasSpace := (h.down.idle_iff.mpr rfl).hasSpace
    have hmacs := h.macs
    rw [hpending] at hmacs
    have hstep := LabelledSystem.Trace.step (trace_up htr hturns)
      (.first hpending hremove hdhf hsent)
    rw [if_pos hspace, Option.toList_none, List.append_nil] at hstep
    have hfirst : p.Asked align ⟨{ up' with inp := inp }, s.down.send sent, sent, some dig⟩ digs
        [p.dmacCall align dig] :=
      ⟨hup, h.down.send hspace (p.dmac_asks halign (hmacs dig List.mem_cons_self) h.clear hsent),
        h.clear.dmac hsent, hmacs⟩
    -- Its first call is made, then its second one, and then those for the other digests.
    obtain ⟨down', htr', h'⟩ := hfirst.exists_drained hflushed' hstep
    obtain ⟨s', htr₂, h₂, hflushed₂, hpending'⟩ := h'.exists_second halign hflushed' htr'
    obtain ⟨s'', htr₃, hdone⟩ := ih h₂ hflushed₂ hpending' htr₂
    rw [List.append_assoc, List.append_assoc] at htr₃
    exact ⟨s'', htr₃, hdone⟩

/-- Everything that is wanted can be done, until nothing is left. -/
theorem L2Program.Asked.exists_idle (halign : IsAlign align) (h : p.Asked align s digs calls)
    (htr : (learner align translations prog).Trace tr s) :
    ∃ s', (learner align translations prog).Trace
        (tr ++ (p.wanted align s digs calls).map .delivered) s' ∧ s'.Idle := by
  obtain ⟨up', htr₀, h₀, hflushed⟩ := h.exists_flushed htr
  obtain ⟨down', htr₁, h₁⟩ := h₀.exists_drained hflushed htr₀
  obtain ⟨s₂, htr₂, h₂, hflushed₂, hpending⟩ := h₁.exists_second halign hflushed htr₁
  obtain ⟨s₃, htr₃, h₃, hpending'⟩ := h₂.exists_learned halign hflushed₂ hpending htr₂
  refine ⟨s₃, ?_, h₃.up.idle_iff.mpr rfl, h₃.down.idle_iff.mpr rfl, hpending'⟩
  rw [wanted, List.map_append, List.map_append, ← List.append_assoc, ← List.append_assoc]
  exact htr₃

theorem L2Program.Asked.wanted_eq_nil (h : p.Asked align s digs calls) (hidle : s.Idle) :
    p.wanted align s digs calls = [] := by
  obtain ⟨hup, hdown, hpending⟩ := hidle
  rw [wanted, h.down.idle_iff.mp hdown, hpending, List.map_eq_nil_iff.mp (h.up.idle_iff.mp hup)]
  rfl

end Progress

/-- **The tables get the rules for what was learned, in order and at most once**, and all of
them if nothing is lost: what is underway can be learned at any time.  Something is lost only if
one of the queues of the controller is full. -/
theorem rules_learned (halign : IsAlign align) (p : L2Program translations prog)
    {tr : List (ChannelEvent Seen (ℕ × TableCall))} {s : Learner}
    (htr : (learner align translations prog).Trace tr s) :
    (∃ calls, (delivered tr ++ calls).Sublist (asked (p.asks align) tr) ∧
      ((∀ e ∈ tr, e.Lossless) → delivered tr ++ calls = asked (p.asks align) tr) ∧
      (s.Idle → calls = []) ∧
      ∃ s', (learner align translations prog).Trace (tr ++ calls.map .delivered) s' ∧ s'.Idle) ∧
    ∀ e s', LearnerStep align translations prog s (some e) s' → ¬ e.Lossless →
      ¬ s.down.out.HasSpace ∨ ¬ s.up.inp.HasSpace := by
  obtain ⟨_, hchannel, digs, calls, h, rfl⟩ := (learner_simulates halign p).trace htr
  exact ⟨⟨_, delivered_sublist hchannel, delivered_eq hchannel, h.wanted_eq_nil,
    h.exists_idle halign htr⟩, fun _ _ => h.full⟩

end Learner

theorem macElement_size_pos : 0 < (threeFields.field 1).size := by decide

theorem macElement_notVw : (threeFields.field 1).isVw = false := rfl

/-- The 48 bits behind the first byte of a header. -/
def macElement : KeyElement := ⟨threeFields, 1, 0, macElement_size_pos, macElement_notVw⟩

theorem portOf9Bits_ok : false = true → 0 < 9 := nofun

/-- A port of 9 bits. -/
def portOf9Bits : ActionParam := ⟨9, false, portOf9Bits_ok⟩

def smacTable : CtrlTable where
  name := "smac"
  matchType := .exact
  keySize := 6
  keyElements := [⟨0, .exact, .field macElement⟩]
  actions := [⟨"mac_learn", []⟩, ⟨"_nop", []⟩]

def dmacTable : CtrlTable where
  name := "dmac"
  matchType := .exact
  keySize := 6
  keyElements := [⟨0, .exact, .field macElement⟩]
  actions := [⟨"forward", [portOf9Bits]⟩, ⟨"bcast", []⟩]

theorem distinct_pair {n n' : String} (h : 0 ∉ nameBytes n) (h' : 0 ∉ nameBytes n')
    (hne : nameBytes n ≠ nameBytes n') : Distinct [n, n'] :=
  ⟨List.nodup_cons.mpr ⟨fun hmem => hne (List.mem_singleton.mp hmem), List.nodup_singleton _⟩,
    List.forall_mem_cons.mpr ⟨h, List.forall_mem_singleton.mpr h'⟩⟩

theorem smacActions_distinct : Distinct (smacTable.actions.map ActionDecl.name) :=
  distinct_pair (by decide) (by decide) (by decide)

theorem dmacActions_distinct : Distinct (dmacTable.actions.map ActionDecl.name) :=
  distinct_pair (by decide) (by decide) (by decide)

theorem macTables_distinct : Distinct ([smacTable, dmacTable].map CtrlTable.name) :=
  distinct_pair (by decide) (by decide) (by decide)

/-- The two tables with ports of 9 bits, under the names that the controller uses. -/
def l2fwd : L2Program [] [smacTable, dmacTable] where
  names := macTables_distinct
  dmac :=
    { table := dmacTable, id := 1, addr := macElement, action := ⟨"forward", [portOf9Bits]⟩
      at_id := rfl
      type := by decide
      distinct := dmacActions_distinct
      name := rfl
      key := rfl
      addr_width := rfl
      addr_header := rfl
      action_mem := List.mem_cons_self
      action_name := rfl }
  smac :=
    { table := smacTable, id := 0, addr := macElement, action := ⟨"_nop", []⟩
      at_id := rfl
      type := by decide
      distinct := smacActions_distinct
      name := rfl
      key := rfl
      addr_width := rfl
      addr_header := rfl
      action_mem := List.mem_cons_of_mem _ List.mem_cons_self
      action_name := rfl }
  port := portOf9Bits
  forward_params := rfl
  nop_params := rfl
  unsigned := rfl
  size := by decide
  whole := rfl

/-- In `macElement`, the address is as the controller has written it. -/
theorem macElement_bitmap {mac : List Byte} (hmac : mac.length = 6) :
    setupKeyFrom align8or16or32 0 [(macElement, macElement.bitmap (hostNat mac.reverse))] =
      [⟨0, mac⟩] := by
  have hkey : macElement.bitmap (hostNat mac.reverse) = mac := l2fwd.dmac.bitmap_eq hmac
  have hplain : setupKeyFrom align8or16or32 0 [(macElement, mac)] = [⟨0, mac.take 6⟩] := rfl
  have htake : mac.take 6 = mac := List.take_of_length_le hmac.le
  rw [hkey, hplain, htake]

theorem l2fwd_dmacCall {dig : DigestMacport} (hmac : dig.mac.length = 6) :
    l2fwd.dmacCall align8or16or32 dig = (1, .addPromote .exact (some [⟨0, dig.mac⟩]) none
      ⟨some ⟨"forward"⟩, [[dig.port, 0]]⟩) := by
  have hpad : (l2fwd.pad : ℕ) = 1 := by decide
  have hbytes : (l2fwd.portArg dig.port).bytes = [dig.port, 0] := by
    rw [l2fwd.portArg_bytes, hpad]
    rfl
  have hcall : l2fwd.dmacCall align8or16or32 dig =
      (1, .addPromote .exact (some (setupKeyFrom align8or16or32 0
        [(macElement, macElement.bitmap (hostNat dig.mac.reverse))])) none
        ⟨some ⟨"forward"⟩, [(l2fwd.portArg dig.port).bytes]⟩) := rfl
  rw [hcall, macElement_bitmap hmac, hbytes]

theorem l2fwd_smacCall {dig : DigestMacport} (hmac : dig.mac.length = 6) :
    l2fwd.smacCall align8or16or32 dig = (0, .addPromote .exact (some [⟨0, dig.mac⟩]) none
      ⟨some ⟨"_nop"⟩, []⟩) := by
  have hcall : l2fwd.smacCall align8or16or32 dig =
      (0, .addPromote .exact (some (setupKeyFrom align8or16or32 0
        [(macElement, macElement.bitmap (hostNat dig.mac.reverse))])) none
        ⟨some ⟨"_nop"⟩, []⟩) := rfl
  rw [hcall, macElement_bitmap hmac]

/-- Port 1 is learned for the address 00:00:00:00:00:0a. -/
theorem port1_learned : ∃ s, (learner align8or16or32 [] [smacTable, dmacTable]).Trace
    [.sent ⟨[0, 0, 0, 0, 0, 10], 1⟩ true,
      .delivered (1, .addPromote .exact (some [⟨0, [0, 0, 0, 0, 0, 10]⟩]) none
        ⟨some ⟨"forward"⟩, [[1, 0]]⟩),
      .delivered (0, .addPromote .exact (some [⟨0, [0, 0, 0, 0, 0, 10]⟩]) none
        ⟨some ⟨"_nop"⟩, []⟩)] s ∧ s.Idle := by
  obtain ⟨cell, hmade, -⟩ := exists_makeDigest (fun _ => 0) seenOnPort1.name seenOnPort1.calls_fit
    seenOnPort1.length_calls_le
  have hsends : digestEnds.sends seenOnPort1 cell := ⟨_, hmade⟩
  have hinit : (learner align8or16or32 [] [smacTable, dmacTable]).Trace []
      ⟨Link.fresh (fun _ => none) fun _ => none, Link.fresh (fun _ => none) fun _ => none,
        fun _ => 0, none⟩ := .init ⟨⟨_, _, rfl⟩, ⟨_, _, rfl⟩, rfl, rfl⟩
  have hsent : (learner align8or16or32 [] [smacTable, dmacTable]).Trace
      [.sent ⟨[0, 0, 0, 0, 0, 10], 1⟩ true] _ :=
    .step hinit (LearnerStep.learn freeCell_zero hsends)
  obtain ⟨⟨calls, -, hall, -, s, htr, hidle⟩, -⟩ :=
    rules_learned isAlign_align8or16or32 l2fwd hsent
  have hcalls : calls = l2fwd.calls align8or16or32 ⟨[0, 0, 0, 0, 0, 10], 1⟩ :=
    hall (List.forall_mem_singleton.mpr rfl)
  rw [hcalls, L2Program.calls, l2fwd_dmacCall rfl, l2fwd_smacCall rfl] at htr
  exact ⟨s, htr, hidle⟩

end T4P4S
