/-
Deparsing a packet that was deparsed already.

`gen_use_package` calls `deparse_packet` after the deparser control and
`handle_packet` calls it once more.  The first call moves the headers, but the
descriptors still point to where they were.  Both calls only move bytes, so one
call is described by where each byte of the memory comes from:

* **`deparsePacket_eq_source`** — what a call makes of the memory is the same
  reading of it for every content, `deparseSource`, and so is the second call's;
* **`deparsePacket_idempotent_iff`** — the second call changes nothing iff the
  layout is `DeparseStable`: every byte that is sent was taken from an address
  that still holds it afterwards;
* **`appended_not_idempotent`** — a header set valid behind a parsed one.
-/
import T4P4S.DeparseCorrect

open CMem

namespace T4P4S

variable {hlir : Hlir} {rte : RteMbuf}

/-! ### Where the bytes come from -/

/-- The address whose byte the address `a` holds after the header was saved. -/
def saveSource (hlir : Hlir) (hdr : HeaderDescriptor) (a : Ptr Obj) : Ptr Obj :=
  match hdr.pointer with
  | some p =>
    if hdr.wasEnabledAtInitialParse then copySource (hlir.tmpSlot hdr.type) p hdr.size a else a
  | none => a

def saveAllSource (hlir : Hlir) (hdrs : List HeaderDescriptor) (a : Ptr Obj) : Ptr Obj :=
  hdrs.foldr (saveSource hlir) a

theorem save_eq_source (hdr : HeaderDescriptor) (m : Mem Obj Byte) :
    save hlir hdr m = fun a => m (saveSource hlir hdr a) := by
  unfold save saveSource
  cases hdr.pointer with
  | none => rfl
  | some p =>
    cases hdr.wasEnabledAtInitialParse
    · rfl
    · exact copy_eq_source m _ _ _

theorem saveAll_eq_source (hdrs : List HeaderDescriptor) : ∀ m : Mem Obj Byte,
    saveAll hlir hdrs m = fun a => m (saveAllSource hlir hdrs a) := by
  induction hdrs with
  | nil => intro m; rfl
  | cons hdr hdrs ih =>
    intro m
    change saveAll hlir hdrs (save hlir hdr m) = _
    rw [ih, save_eq_source]
    rfl

/-- The bytes that are sent: the emitted headers and the payload behind them.  When
the parser has advanced past the end of the packet by more than the emitted
headers have, the length to remove is more than the packet has, and DPDK removes
what is left of it in 16 bits, or nothing. -/
def sentBlock (pd : PacketDescriptor) : Block Obj :=
  let shift : ℤ := pd.extractPtr.off - total pd.emitted - pd.wrapper.dataOff
  if shift ≤ pd.wrapper.dataLen then
    ⟨front pd, (pd.wrapper.dataLen - shift).toNat⟩
  else
    let len := shift.toNat % 2 ^ 16
    if len ≤ pd.wrapper.dataLen then ⟨pd.wrapper.mtod + len, pd.wrapper.dataLen - len⟩
    else ⟨pd.wrapper.mtod, pd.wrapper.dataLen⟩

/-- The address from which `deparse_packet` takes the byte that it leaves at `a`. -/
def deparseSource (hlir : Hlir) (pd : PacketDescriptor) (a : Ptr Obj) : Ptr Obj :=
  saveAllSource hlir (emittedHeaders pd)
    (gatherSource (sentBlock pd).start (coalesce pd.emission) a)

/-- Every byte that is sent was taken from an address that still holds it. -/
def DeparseStable (hlir : Hlir) (pd : PacketDescriptor) : Prop :=
  ∀ i < (sentBlock pd).len,
    deparseSource hlir pd (deparseSource hlir pd ((sentBlock pd).start + i)) =
      deparseSource hlir pd ((sentBlock pd).start + i)

instance (hlir : Hlir) (pd : PacketDescriptor) : Decidable (DeparseStable hlir pd) :=
  inferInstanceAs (Decidable (∀ i < _, _))

/-! ### Moving the front, in every case -/

/-- Moving the front changes the mbuf only, and not the size of its buffer. -/
theorem resizePacketOnDeparse_frame (hrte : rte.Documented) {pd pd' : PacketDescriptor}
    (hmbuf : pd.wrapper.InOrder) (h : resizePacketOnDeparse rte pd = some pd') :
    ∃ w d, pd' = { pd with wrapper := w, data := d } ∧ w.bufLen = pd.wrapper.bufLen ∧
      w.pktLen = ((pd.deparseSize + pd.payloadSize : ℤ) % 2 ^ 32).toNat := by
  have hlt : ∀ n, n % 2 ^ 16 < 2 ^ 16 := fun n => Nat.mod_lt n (by decide)
  have hold := hmbuf.bmod_pktLen
  obtain ⟨hlen, hdata, hbuf⟩ := hmbuf
  rw [resizePacketOnDeparse, PacketDescriptor.packetSize, hold] at h
  split at h
  · next heq =>
    -- nothing to move: the packet has the new length already
    rw [Option.some_inj] at h
    subst h
    refine ⟨pd.wrapper, pd.data, rfl, rfl, ?_⟩
    rw [heq, Int.emod_eq_of_lt] <;> omega
  · dsimp only at h
    split at h
    · obtain ⟨w, hw, rfl⟩ := Option.map_eq_some_iff.mp h
      rw [hrte.prepend_eq _ _ (hlt _)] at hw
      obtain ⟨-, hw⟩ := Option.ite_none_right_eq_some.mp hw
      rw [Option.some_inj] at hw
      subst hw
      exact ⟨_, _, rfl, rfl, rfl⟩
    · rw [hrte.adj_eq _ _ (hlt _)] at h
      split at h
      · next w hw =>
        obtain ⟨-, hw⟩ := Option.ite_none_right_eq_some.mp hw
        rw [Option.some_inj] at hw h
        subst hw h
        exact ⟨_, _, rfl, rfl, rfl⟩
      · rw [Option.some_inj] at h
        subst h
        exact ⟨_, _, rfl, rfl, rfl⟩

/-- A packet that has the new length already keeps it. -/
theorem resizePacketOnDeparse_again (hrte : rte.Documented) {pd : PacketDescriptor}
    (hlen : pd.wrapper.pktLen = ((pd.deparseSize + pd.payloadSize : ℤ) % 2 ^ 32).toNat) :
    ∃ d, resizePacketOnDeparse rte pd = some { pd with data := d } := by
  -- the change of the length is a multiple of `2 ^ 32`, which DPDK gets as `0`
  have hold : ((2 ^ 32 : ℕ) : ℤ) ∣ (pd.deparseSize + pd.payloadSize : ℤ) -
      Int.bmod pd.packetSize (2 ^ 32) := by
    have hpkt : (pd.packetSize : ℤ) = (pd.deparseSize + pd.payloadSize : ℤ) % (2 ^ 32 : ℕ) := by
      rw [PacketDescriptor.packetSize, hlen]
      omega
    rw [hpkt, Int.emod_bmod]
    exact Int.dvd_self_sub_bmod
  rw [resizePacketOnDeparse, ← hlen]
  split
  · exact ⟨pd.data, rfl⟩
  · dsimp only
    split
    · rw [show (_ : ℤ).toNat % 2 ^ 16 = 0 by omega, hrte.prepend_eq _ _ (by decide),
        if_pos (Nat.zero_le _)]
      exact ⟨_, rfl⟩
    · rw [show (_ : ℤ).toNat % 2 ^ 16 = 0 by omega, hrte.adj_eq _ _ (by decide),
        if_pos (Nat.zero_le _)]
      exact ⟨_, rfl⟩

/-- Where the packet is after its front was moved, when the emitted headers fit
into the buffer from there on. -/
theorem resizePacketOnDeparse_sent (hrte : rte.Documented) {pd pd' : PacketDescriptor}
    (hacc : Accepted hlir pd) (hsize : pd.deparseSize = total pd.emitted)
    (h : resizePacketOnDeparse rte pd = some pd')
    (hfit : total pd.emitted ≠ 0 →
      pd'.wrapper.dataOff + total pd.emitted ≤ pd.wrapper.bufLen) :
    pd'.wrapper.mtod = (sentBlock pd).start ∧ pd'.wrapper.dataLen = (sentBlock pd).len := by
  have hlt : ∀ n, n % 2 ^ 16 < 2 ^ 16 := fun n => Nat.mod_lt n (by decide)
  have hold := hacc.mbuf.bmod_pktLen
  obtain ⟨⟨-, hcur, ⟨hlen, hdata, hbuf⟩⟩, -⟩ := hacc
  have hshift : (pd.extractPtr.off - total pd.emitted - pd.wrapper.dataOff : ℤ) =
      -(total pd.emitted + pd.payloadSize - pd.wrapper.pktLen) := by omega
  -- the front moves by as much as the length changes, unless 16 bits have cut the length
  rw [resizePacketOnDeparse, PacketDescriptor.packetSize, hold, hsize] at h
  rw [sentBlock, hshift]
  split at h
  · next heq =>
    rw [Option.some_inj] at h
    subst h
    rw [if_pos (by omega), Mbuf.mtod, front, Ptr.mk.injEq]
    dsimp only
    exact ⟨⟨rfl, by omega⟩, by omega⟩
  · dsimp only at h
    split at h
    · next hgrow =>
      obtain ⟨w, hw, rfl⟩ := Option.map_eq_some_iff.mp h
      rw [hrte.prepend_eq _ _ (hlt _)] at hw
      obtain ⟨hroom, hw⟩ := Option.ite_none_right_eq_some.mp hw
      rw [Option.some_inj] at hw
      subst hw
      dsimp only at hfit ⊢
      rw [if_pos (by omega), Mbuf.mtod, front, Ptr.mk.injEq]
      dsimp only
      exact ⟨⟨rfl, by omega⟩, by omega⟩
    · next hshrink =>
      rw [hrte.adj_eq _ _ (hlt _)] at h
      by_cases hfits : -(total pd.emitted + pd.payloadSize - pd.wrapper.pktLen : ℤ) ≤
          pd.wrapper.dataLen
      · rw [if_pos (by omega)] at h
        rw [Option.some_inj] at h
        subst h
        rw [if_pos hfits, Mbuf.mtod, front, Ptr.mk.injEq]
        dsimp only
        exact ⟨⟨rfl, by omega⟩, by omega⟩
      · rw [if_neg hfits]
        dsimp only
        split at h
        · next w hw =>
          obtain ⟨hle, hw⟩ := Option.ite_none_right_eq_some.mp hw
          rw [Option.some_inj] at hw h
          subst hw h
          rw [if_pos hle]
          exact ⟨rfl, rfl⟩
        · next hw =>
          rw [Option.some_inj] at h
          subst h
          rw [if_neg fun hle => by rw [if_pos hle] at hw; cases hw]
          exact ⟨rfl, rfl⟩

theorem resizePacketOnDeparse_withMem (pd : PacketDescriptor) (m : Mem Obj Byte) :
    resizePacketOnDeparse rte { pd with mem := m } =
      (resizePacketOnDeparse rte pd).map fun pd' => { pd' with mem := m } := by
  unfold resizePacketOnDeparse PacketDescriptor.packetSize
  dsimp only
  split
  · rfl
  · split
    · rw [Option.map_map]
      rfl
    · split <;> rfl

/-! ### One call, and the next -/

/-- The passes of `deparse_packet`, the first one written out. -/
theorem deparsePacket_passes {pd : PacketDescriptor}
    (hloc : ∀ i ∈ pd.headerReorder, Located hlir (pd.headers i))
    (hflag : pd.isDeparseReordering = true) (hdrop : pd.isPacketDropped = false) :
    deparsePacket hlir rte pd =
      if ∀ i ∈ pd.headerReorder, SaveSafe hlir (pd.objSize hlir) (pd.headers i) then
        (resizePacketOnDeparse rte (saved hlir pd)).bind (copyDeparseContents hlir)
      else
        none := by
  rw [deparsePacket, if_pos hflag, hdrop, if_neg Bool.false_ne_true,
    storeHeadersForDeparse_eq pd hloc]
  split <;> rfl

/-- The state after the first call and after the second, for every content `m` of
the memory. -/
theorem deparsePacket_eq_source (hrte : rte.Documented) {pd : PacketDescriptor}
    (hacc : Accepted hlir pd) (hflag : pd.isDeparseReordering = true)
    (hdrop : pd.isPacketDropped = false) (hret : deparsePacket hlir rte pd ≠ none) :
    ∃ w d, w.mtod = (sentBlock pd).start ∧ w.dataLen = (sentBlock pd).len ∧ ∀ m, ∃ d',
      deparsePacket hlir rte { pd with mem := m } =
        some { saved hlir pd with
          mem := fun a => m (deparseSource hlir pd a), wrapper := w, data := d } ∧
      deparsePacket hlir rte { saved hlir pd with
          mem := fun a => m (deparseSource hlir pd a), wrapper := w, data := d } =
        some { saved hlir pd with
          mem := fun a => m (deparseSource hlir pd (deparseSource hlir pd a))
          wrapper := w, data := d' } := by
  obtain ⟨pd₁, h⟩ := Option.ne_none_iff_exists'.mp hret
  rw [deparsePacket_passes hacc.located hflag hdrop] at h
  obtain ⟨hsave, h⟩ := Option.ite_none_right_eq_some.mp h
  obtain ⟨pd₂, hresize, hcopy⟩ := Option.bind_eq_some_iff.mp h
  obtain ⟨w, d, hpd₂, hbuf, hpkt⟩ := resizePacketOnDeparse_frame hrte hacc.saved.mbuf hresize
  rw [copyDeparseContents_eq] at hcopy
  obtain ⟨mem, hgather, -⟩ := Option.map_eq_some_iff.mp hcopy
  have hobj : ∀ m d, ({ saved hlir pd with mem := m, wrapper := w, data := d } :
      PacketDescriptor).objSize hlir = pd.objSize hlir := by
    intro m d
    funext o
    cases o
    · exact hbuf
    · rfl
  subst hpd₂
  have hg : gather (pd.objSize hlir) (saved hlir pd).mem w.mtod (coalesce pd.emission) =
      some mem := by
    rw [← hobj (saved hlir pd).mem d]
    exact hgather
  obtain ⟨hstart, hlen⟩ : w.mtod = (sentBlock pd).start ∧ w.dataLen = (sentBlock pd).len := by
    refine resizePacketOnDeparse_sent hrte hacc.saved rfl hresize ?_
    intro hne
    have hbound := gather_bound hg fun hnil => hne (by
      change total pd.emitted = 0
      rw [← total_coalesce_emission, hnil, total_nil])
    rwa [total_coalesce_emission] at hbound
  -- the copy reads every content at the same addresses
  have hcopied : ∀ m d', copyDeparseContents hlir { saved hlir pd with
      mem := saveAll hlir (emittedHeaders pd) m, wrapper := w, data := d' } =
        some { saved hlir pd with
          mem := fun a => m (deparseSource hlir pd a), wrapper := w, data := d' } := by
    intro m d'
    rw [copyDeparseContents_eq, hobj, saveAll_eq_source]
    refine Eq.trans (congrArg (Option.map _) (gather_eq_source hg _)) ?_
    simp only [deparseSource, ← hstart]
    rfl
  refine ⟨w, d, hstart, hlen, ?_⟩
  intro m
  set pd₁ : PacketDescriptor := { saved hlir pd with
    mem := fun a => m (deparseSource hlir pd a), wrapper := w, data := d } with hpd₁
  obtain ⟨d', hagain⟩ := @resizePacketOnDeparse_again rte hrte (saved hlir pd₁) hpkt
  refine ⟨d', ?_, ?_⟩
  · have hmoved := @resizePacketOnDeparse_withMem rte (saved hlir pd)
      (saveAll hlir (emittedHeaders pd) m)
    rw [hresize, Option.map_some] at hmoved
    refine (deparsePacket_passes (hacc.withMem m).located hflag hdrop).trans ?_
    refine (if_pos hsave).trans ?_
    exact (congrArg (Option.bind · _) hmoved).trans (hcopied m d)
  · -- the second call finds the same layout, and the length that it wants
    have hsave₁ : ∀ i ∈ pd₁.headerReorder, SaveSafe hlir (pd₁.objSize hlir) (pd₁.headers i) := by
      rw [hpd₁, hobj]
      exact hsave
    refine (@deparsePacket_passes hlir rte pd₁ hacc.located hflag hdrop).trans ?_
    refine (if_pos hsave₁).trans ?_
    exact (congrArg (Option.bind · _) hagain).trans (hcopied _ d')

/-! ### When the second call changes nothing -/

/-- The second call, on the state that the first one has left, succeeds and leaves
the same bytes and the same length. -/
def DeparseIdempotent (hlir : Hlir) (rte : RteMbuf) (pd : PacketDescriptor) : Prop :=
  ∀ pd', deparsePacket hlir rte pd = some pd' →
    ∃ pd'', deparsePacket hlir rte pd' = some pd'' ∧ pd''.wire = pd'.wire ∧
      pd''.wrapper.pktLen = pd'.wrapper.pktLen

/-- Without the flag, and for a dropped packet, the deparser does nothing. -/
theorem deparsePacket_idle {pd : PacketDescriptor}
    (h : pd.isDeparseReordering = true → pd.isPacketDropped = true) :
    deparsePacket hlir rte pd = some pd := by
  rw [deparsePacket]
  by_cases hflag : pd.isDeparseReordering = true
  · rw [if_pos hflag, if_pos (h hflag)]
  · rw [if_neg hflag]

theorem DeparseIdempotent.of_idle {pd : PacketDescriptor}
    (h : pd.isDeparseReordering = true → pd.isPacketDropped = true) :
    DeparseIdempotent hlir rte pd := by
  intro pd' hpd'
  rw [deparsePacket_idle h, Option.some_inj] at hpd'
  subst hpd'
  exact ⟨pd, deparsePacket_idle h, rfl, rfl⟩

/-- **When the first call returns, the second one changes nothing, whatever the
memory holds, iff nothing is to be reordered, the packet is dropped, or the
layout is stable.** -/
theorem deparsePacket_idempotent_iff (hrte : rte.Documented) {pd : PacketDescriptor}
    (hacc : Accepted hlir pd) (hret : deparsePacket hlir rte pd ≠ none) :
    (∀ m, DeparseIdempotent hlir rte { pd with mem := m }) ↔
      (pd.isDeparseReordering = true → pd.isPacketDropped = false → DeparseStable hlir pd) := by
  constructor
  · intro h hflag hdrop i hi
    obtain ⟨w, d, hstart, hlen, hrun⟩ := deparsePacket_eq_source hrte hacc hflag hdrop hret
    -- The second call keeps the packet for every memory, so it takes each byte from its place.
    refine eq_of_forall_mem fun m : Mem Obj Byte => ?_
    obtain ⟨d', hfirst, hsecond⟩ := hrun m
    obtain ⟨pd'', hpd'', hwire, -⟩ := h m _ hfirst
    rw [hsecond, Option.some_inj] at hpd''
    subst hpd''
    simp only [PacketDescriptor.wire, hstart, hlen] at hwire
    exact load_eq_load_iff.mp hwire i hi
  · intro h m
    by_cases hidle : pd.isDeparseReordering = true → pd.isPacketDropped = true
    · exact DeparseIdempotent.of_idle hidle
    · obtain ⟨hflag, hdrop⟩ := Classical.not_imp.mp hidle
      rw [Bool.not_eq_true] at hdrop
      obtain ⟨w, d, hstart, hlen, hrun⟩ := deparsePacket_eq_source hrte hacc hflag hdrop hret
      obtain ⟨d', hfirst, hsecond⟩ := hrun m
      intro pd' hpd'
      rw [hfirst, Option.some_inj] at hpd'
      subst hpd'
      refine ⟨_, hsecond, ?_, rfl⟩
      simp only [PacketDescriptor.wire, hstart, hlen]
      refine load_eq_load_iff.mpr ?_
      intro i hi
      rw [h hflag hdrop i hi]

/-! ### A header set valid behind a parsed one -/

/-- The packet is `1, 2, 3`, with the parsed header `0` in its second byte, and
header `1` was set valid.  The emission list is `0, 1`. -/
def appended : PacketDescriptor where
  mem p := if p.obj = .buf then BitVec.ofNat 8 (p.off + 1) else 9
  wrapper := { dataOff := 1, dataLen := 2, pktLen := 2, bufLen := 3 }
  data := some ⟨.buf, 1⟩
  extractPtr := ⟨.buf, 2⟩
  headers i :=
    { type := i, pointer := some (if i < 1 then ⟨.buf, 1⟩ else ⟨.tmp, i⟩), size := 1, vwSize := 0,
      wasEnabledAtInitialParse := i < 1 }
  stkCurrent _ := -1
  headerReorder := [0, 1]
  deparseSize := 0
  parsedSize := 1
  payloadSize := 1
  isDeparseReordering := true
  egressPort := 0

theorem appended_accepted : Accepted swappedHlir appended where
  cursor_obj := rfl
  cursor_add_payload := rfl
  mbuf := ⟨rfl, by decide, by decide⟩
  located := by decide

/-- The first call sends header `0`, header `1` and the payload; the second one takes
header `0` from where the first one has put header `1`. -/
theorem appended_wire :
    (deparsePacket swappedHlir rteMbuf appended).map PacketDescriptor.wire = some [2, 9, 3] ∧
      ((deparsePacket swappedHlir rteMbuf appended).bind (deparsePacket swappedHlir rteMbuf)).map
        PacketDescriptor.wire = some [9, 9, 3] := by
  decide

theorem appended_not_idempotent : ¬ ∀ (hlir : Hlir) (rte : RteMbuf) (pd : PacketDescriptor),
    rte.Documented → Accepted hlir pd → DeparseIdempotent hlir rte pd := by
  intro h
  obtain ⟨hfirst, hsecond⟩ := appended_wire
  obtain ⟨pd', hpd', hwire'⟩ := Option.map_eq_some_iff.mp hfirst
  obtain ⟨pd'', hpd'', hwire, -⟩ :=
    h swappedHlir rteMbuf appended rteMbuf_documented appended_accepted pd' hpd'
  rw [hpd', Option.bind_some, hpd'', Option.map_some, hwire, hwire'] at hsecond
  revert hsecond
  decide

/-- Put in front of the parsed header, the new one is written where nothing is read. -/
theorem prepended_idempotent :
    DeparseStable swappedHlir { appended with headerReorder := [1, 0] } ∧
      ∀ m, DeparseIdempotent swappedHlir rteMbuf
        { appended with headerReorder := [1, 0], mem := m } := by
  have hacc : Accepted swappedHlir { appended with headerReorder := [1, 0] } :=
    ⟨⟨rfl, rfl, ⟨rfl, by decide, by decide⟩⟩, by decide⟩
  have hstable : DeparseStable swappedHlir { appended with headerReorder := [1, 0] } := by decide
  exact ⟨hstable, (deparsePacket_idempotent_iff rteMbuf_documented hacc
    (Option.isSome_iff_ne_none.mp (by decide))).mpr fun _ _ => hstable⟩

end T4P4S
