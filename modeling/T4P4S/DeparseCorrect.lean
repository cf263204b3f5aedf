/-
When deparsing with reordering is correct.

The deparser has to send the emitted headers, in the order of their emission,
and then the payload.  The parsed headers are saved to the temporary storage
first, but the copy that follows reads them from the packet again, where it
writes at the same time.

* **`deparsePacket_correct_iff`** — the right bytes are sent, whatever the
  packet and the temporary storage hold, iff the layout is `DeparseSafe`: above
  all, no header that moves is written over one that has still to be copied;
* **`swapped_not_deparsed`** — two parsed headers emitted in swapped order.
-/
import T4P4S.Deparse

open CMem

namespace T4P4S

variable {hlir : Hlir} {rte : RteMbuf}

/-- What `deparse_packet` has to make of a descriptor. -/
structure Deparsed (pd pd' : PacketDescriptor) : Prop where
  wire_eq : pd'.wire = pd.emittedBytes ++ pd.payload
  length_eq : (pd'.wire.length : ℤ) = total pd.emitted + pd.payloadSize
  pktLen_eq : (pd'.wrapper.pktLen : ℤ) = total pd.emitted + pd.payloadSize

/-- The layouts that are deparsed correctly: the packet has a payload and
headroom enough for the emitted headers, saving the parsed headers stays in
bounds and hits no emitted header in the temporary storage, and the emitted
headers can be gathered in front of the payload. -/
structure DeparseSafe (hlir : Hlir) (pd : PacketDescriptor) : Prop where
  payload_nonneg : 0 ≤ pd.payloadSize
  headroom : total pd.emitted ≤ pd.extractPtr.off
  save : ∀ i ∈ pd.headerReorder, SaveSafe hlir (pd.objSize hlir) (pd.headers i)
  save_apart : ∀ i ∈ pd.headerReorder, ∀ p ∈ (pd.headers i).pointer,
    (pd.headers i).wasEnabledAtInitialParse = true → p.obj = .buf → ∀ b ∈ pd.emitted,
      Apart (hlir.tmpSlot (pd.headers i).type) (pd.headers i).size b.start b.len
  gather : GatherSafe (pd.objSize hlir) (front pd) (coalesce pd.emission)

theorem total_coalesce_emission (pd : PacketDescriptor) :
    total (coalesce pd.emission) = total pd.emitted := by
  rw [total_coalesce, pd.filterMap_id_emission]

theorem flatMap_load_coalesce_emission (pd : PacketDescriptor) :
    (coalesce pd.emission).flatMap (Block.load pd.mem) = pd.emittedBytes := by
  rw [flatMap_load_coalesce, pd.filterMap_id_emission, PacketDescriptor.emittedBytes]

/-- The three passes in one: with payload and headroom, deparsing is gathering
the emitted headers from the memory with the parsed headers saved. -/
theorem deparsePacket_run (hrte : rte.Documented) {pd : PacketDescriptor}
    (hacc : Accepted hlir pd) (hflag : pd.isDeparseReordering = true)
    (hdrop : pd.isPacketDropped = false) (hpay : 0 ≤ pd.payloadSize)
    (hroom : total pd.emitted ≤ pd.extractPtr.off)
    (hsave : ∀ i ∈ pd.headerReorder, SaveSafe hlir (pd.objSize hlir) (pd.headers i)) :
    ∃ w d, w.mtod = front pd ∧ (w.dataLen : ℤ) = total pd.emitted + pd.payloadSize ∧
      w.pktLen = w.dataLen ∧
      deparsePacket hlir rte pd =
        (gather (pd.objSize hlir) (saved hlir pd).mem (front pd) (coalesce pd.emission)).map
          fun mem => { saved hlir pd with mem, wrapper := w, data := d } := by
  obtain ⟨w, d, hw, hfront, hlen, hpkt, hbuf⟩ :=
    resizePacketOnDeparse_fits hrte hacc.saved hpay hroom rfl
  refine ⟨w, d, hfront, hlen, hpkt, ?_⟩
  have hobj : ∀ o, ({ saved hlir pd with wrapper := w, data := d } : PacketDescriptor).objSize
      hlir o = pd.objSize hlir o := by
    rintro (_ | _)
    · exact hbuf
    · rfl
  rw [deparsePacket, if_pos hflag, hdrop, if_neg Bool.false_ne_true,
    storeHeadersForDeparse_eq pd hacc.located, if_pos hsave, Option.bind_some, hw,
    Option.bind_some, copyDeparseContents_eq, funext hobj]
  dsimp only
  rw [hfront]
  rfl

/-- A gathered packet is deparsed iff the original bytes have arrived. -/
theorem deparsed_iff_gathered {pd : PacketDescriptor} (hacc : Accepted hlir pd)
    (hpay : 0 ≤ pd.payloadSize) (hroom : total pd.emitted ≤ pd.extractPtr.off) {w : Mbuf}
    {d : CPtr} (hfront : w.mtod = front pd)
    (hlen : (w.dataLen : ℤ) = total pd.emitted + pd.payloadSize) (hpkt : w.pktLen = w.dataLen)
    {mem : Mem Obj Byte} (hmem : gather (pd.objSize hlir) (saved hlir pd).mem (front pd)
      (coalesce pd.emission) = some mem) :
    Deparsed pd { saved hlir pd with mem, wrapper := w, data := d } ↔
      Gathered pd.mem mem (front pd) (coalesce pd.emission) := by
  have hend : front pd + total pd.emitted = pd.extractPtr := by
    ext
    · exact hacc.cursor_obj.symm
    · simp only [front, Ptr.off_add]; omega
  -- The headers fit in front of the payload, so copying them leaves it as it is.
  have hpayload : load mem pd.extractPtr pd.payloadSize.toNat = pd.payload := by
    refine load_eq_load_iff.mpr ?_
    intro i _
    rw [gather_frame hmem]
    · exact saveAll_buf hacc.emittedHeaders_located _ hacc.cursor_obj
    · rw [total_coalesce_emission, ← hend]
      rintro ⟨-, -, h⟩
      simp only [Ptr.off_add] at h
      omega
  have hwire : ({ saved hlir pd with mem, wrapper := w, data := d } : PacketDescriptor).wire =
      load mem (front pd) (total pd.emitted) ++ pd.payload := by
    rw [PacketDescriptor.wire, hfront,
      show w.dataLen = total pd.emitted + pd.payloadSize.toNat by omega, load_append, hend,
      hpayload]
  -- What is left is the headers: the two packets have the same payload.
  rw [gathered_iff_load, total_coalesce_emission, flatMap_load_coalesce_emission]
  constructor
  · rintro ⟨h, -, -⟩
    rw [hwire] at h
    exact List.append_cancel_right h
  · intro h
    refine ⟨by rw [hwire, h], ?_, ?_⟩
    · simp only [PacketDescriptor.wire, length_load, hlen]
    · simp only [hpkt, hlen]

/-- Saving the parsed headers leaves the emitted ones as they were, when it hits
none of them. -/
theorem flatMap_load_saveAll {pd : PacketDescriptor} (hacc : Accepted hlir pd)
    (hapart : ∀ i ∈ pd.headerReorder, ∀ p ∈ (pd.headers i).pointer,
      (pd.headers i).wasEnabledAtInitialParse = true → p.obj = .buf → ∀ b ∈ pd.emitted,
        Apart (hlir.tmpSlot (pd.headers i).type) (pd.headers i).size b.start b.len)
    (m : Mem Obj Byte) :
    pd.emitted.flatMap (Block.load (saveAll hlir (emittedHeaders pd) m)) =
      pd.emitted.flatMap (Block.load m) := by
  refine List.flatMap_congr fun b hb => load_eq_load_iff.mpr ?_
  intro j hj
  refine ((saveAll_source _ hacc.emittedHeaders_located).resolve_left ?_).2 m
  rintro ⟨⟨hdr, hhdr, p, hp, hinit, hbuf, hslot⟩, -⟩
  obtain ⟨i, hi, rfl⟩ := List.mem_map.mp hhdr
  exact (hapart i hi p hp hinit hbuf b hb).not_inBlock (inBlock_add hj) hslot

/-- A correctly deparsed packet has a payload and headroom, and its parsed
headers could be saved. -/
theorem DeparseSafe.of_deparsed (hrte : rte.Documented) {pd pd' : PacketDescriptor}
    (hacc : Accepted hlir pd) (hflag : pd.isDeparseReordering = true)
    (hdrop : pd.isPacketDropped = false) (h : deparsePacket hlir rte pd = some pd')
    (hcorrect : Deparsed pd pd') :
    0 ≤ pd.payloadSize ∧ total pd.emitted ≤ pd.extractPtr.off ∧
      ∀ i ∈ pd.headerReorder, SaveSafe hlir (pd.objSize hlir) (pd.headers i) := by
  rw [deparsePacket, if_pos hflag, hdrop, if_neg Bool.false_ne_true,
    storeHeadersForDeparse_eq pd hacc.located] at h
  -- the three passes, backwards
  obtain ⟨pd₂, h₂, hcopy⟩ := Option.bind_eq_some_iff.mp h
  obtain ⟨pd₁, h₁, hresize⟩ := Option.bind_eq_some_iff.mp h₂
  obtain ⟨hsave, hpd₁⟩ := Option.ite_none_right_eq_some.mp h₁
  rw [Option.some_inj] at hpd₁
  subst hpd₁
  have hlength : (pd'.wire.length : ℤ) = total pd.emitted + pd.payloadSize.toNat := by
    rw [hcorrect.wire_eq, ← flatMap_load_coalesce_emission, List.length_append,
      PacketDescriptor.payload, length_load, length_flatMap_load, total_coalesce_emission]
    push_cast
    rfl
  have hpay : 0 ≤ pd.payloadSize := by
    have := hcorrect.length_eq
    omega
  refine ⟨hpay, ?_, hsave⟩
  by_contra hroom
  refine resizePacketOnDeparse_short hrte hacc.saved (Nat.lt_of_not_le hroom) rfl hresize ?_
  rw [copyDeparseContents_eq] at hcopy
  obtain ⟨mem, -, rfl⟩ := Option.map_eq_some_iff.mp hcopy
  have := hcorrect.length_eq
  rw [PacketDescriptor.wire, length_load] at this
  exact this

/-- **Deparsing with reordering is correct, whatever the memory holds, iff the
layout is safe.** -/
theorem deparsePacket_correct_iff (hrte : rte.Documented) {pd : PacketDescriptor}
    (hacc : Accepted hlir pd) (hflag : pd.isDeparseReordering = true)
    (hdrop : pd.isPacketDropped = false) :
    (∀ m, ∃ pd', deparsePacket hlir rte { pd with mem := m } = some pd' ∧
        Deparsed { pd with mem := m } pd') ↔
      DeparseSafe hlir pd := by
  constructor
  · intro h
    obtain ⟨pd', hpd', hcorrect⟩ := h pd.mem
    obtain ⟨hpay, hroom, hsave⟩ := DeparseSafe.of_deparsed hrte hacc hflag hdrop hpd' hcorrect
    have hgather : ∀ m, ∃ m', gather (pd.objSize hlir) (saveAll hlir (emittedHeaders pd) m)
        (front pd) (coalesce pd.emission) = some m' ∧
          Gathered m m' (front pd) (coalesce pd.emission) := by
      intro m
      obtain ⟨pd', hpd', hcorrect⟩ := h m
      obtain ⟨w, d, hfront, hlen, hpkt, hrun⟩ :=
        deparsePacket_run hrte (hacc.withMem m) hflag hdrop hpay hroom hsave
      rw [hrun] at hpd'
      obtain ⟨mem, hmem, rfl⟩ := Option.map_eq_some_iff.mp hpd'
      exact ⟨mem, hmem,
        (deparsed_iff_gathered (hacc.withMem m) hpay hroom hfront hlen hpkt hmem).mp hcorrect⟩
    refine ⟨hpay, hroom, hsave, ?_, gatherSafe_of_gathered hgather⟩
    -- what is left is that saving hits no emitted header
    intro i hi p hp hinit hbuf b hb
    by_contra hna
    obtain ⟨a, hslot, hab⟩ := exists_inBlock_of_not_apart hna
    rw [← pd.filterMap_id_emission] at hb
    obtain ⟨c, hc, hac⟩ := exists_mem_coalesce hb hab
    -- the byte at `a` is overwritten by a byte of the packet before it is read
    rcases saveAll_source a hacc.emittedHeaders_located with ⟨-, b', hb', heq⟩ | ⟨hno, -⟩
    · have hsame : a = b' := eq_of_forall_mem fun m : Mem Obj Byte => by
        obtain ⟨m', hm', hg⟩ := hgather m
        rw [← heq m, hg.source_eq hm' c hc a hac]
        intro hobj
        cases hslot.1.symm.trans hobj
      cases hslot.1.symm.trans ((congrArg Ptr.obj hsame).trans hb')
    · exact hno _ (List.mem_map_of_mem hi) ⟨p, hp, hinit, hbuf, hslot⟩
  · rintro ⟨hpay, hroom, hsave, hapart, hsafe⟩ m
    obtain ⟨w, d, hfront, hlen, hpkt, hrun⟩ :=
      deparsePacket_run hrte (hacc.withMem m) hflag hdrop hpay hroom hsave
    obtain ⟨mem, hmem, hg⟩ := hsafe.gathered (saveAll hlir (emittedHeaders pd) m)
    refine ⟨_, by rw [hrun]; exact congrArg _ hmem, ?_⟩
    refine (deparsed_iff_gathered (hacc.withMem m) hpay hroom hfront hlen hpkt hmem).mpr ?_
    refine gathered_iff_load.mpr ((gathered_iff_load.mp hg).trans ?_)
    change (coalesce pd.emission).flatMap _ = (coalesce pd.emission).flatMap (Block.load m)
    rw [flatMap_load_coalesce, flatMap_load_coalesce, pd.filterMap_id_emission]
    exact flatMap_load_saveAll hacc hapart m

/-! ### Two parsed headers, emitted in swapped order -/

/-- Three headers of one byte each. -/
def swappedHlir : Hlir where
  headerInstances := List.replicate 3 { size := 8, byteWidth := 1 }

/-- The packet is `1, 2, 3`; the first two bytes are the parsed headers `0` and
`1`, header `2` was set valid.  The emission list is `1, 0`. -/
def swapped : PacketDescriptor where
  mem p := if p.obj = .buf then BitVec.ofNat 8 (p.off + 1) else 0
  wrapper := { dataOff := 0, dataLen := 3, pktLen := 3, bufLen := 3 }
  data := some ⟨.buf, 0⟩
  extractPtr := ⟨.buf, 2⟩
  headers i :=
    { type := i, pointer := some (if i < 2 then ⟨.buf, i⟩ else ⟨.tmp, i⟩), size := 1, vwSize := 0,
      wasEnabledAtInitialParse := i < 2 }
  stkCurrent _ := -1
  headerReorder := [1, 0]
  deparseSize := 0
  parsedSize := 2
  payloadSize := 1
  isDeparseReordering := true
  egressPort := 0

theorem swapped_accepted : Accepted swappedHlir swapped where
  cursor_obj := rfl
  cursor_add_payload := rfl
  mbuf := ⟨rfl, by decide, by decide⟩
  located := by decide

/-- Header `0` is overwritten by header `1` before it is copied. -/
theorem swapped_wire : swapped.emittedBytes ++ swapped.payload = [2, 1, 3] ∧
    (deparsePacket swappedHlir rteMbuf swapped).map PacketDescriptor.wire = some [2, 2, 3] := by
  decide

theorem swapped_not_deparsed : ¬ ∀ (hlir : Hlir) (rte : RteMbuf) (pd : PacketDescriptor),
    rte.Documented → Accepted hlir pd → pd.isDeparseReordering = true →
      pd.isPacketDropped = false → ∃ pd', deparsePacket hlir rte pd = some pd' ∧ Deparsed pd pd' := by
  intro h
  obtain ⟨pd', hpd', hcorrect⟩ :=
    h swappedHlir rteMbuf swapped rteMbuf_documented swapped_accepted rfl rfl
  obtain ⟨hspec, hwire⟩ := swapped_wire
  rw [hpd', Option.map_some, Option.some_inj, hcorrect.wire_eq, hspec] at hwire
  revert hwire
  decide

/-- Emitted in the order in which they were parsed, the two headers stay in place. -/
theorem inOrder_deparsed : DeparseSafe swappedHlir { swapped with headerReorder := [0, 1] } ∧
    ∀ m, ∃ pd', deparsePacket swappedHlir rteMbuf { swapped with headerReorder := [0, 1], mem := m } =
        some pd' ∧ Deparsed { swapped with headerReorder := [0, 1], mem := m } pd' := by
  have hacc : Accepted swappedHlir { swapped with headerReorder := [0, 1] } :=
    ⟨⟨rfl, rfl, ⟨rfl, by decide, by decide⟩⟩, by decide⟩
  have hsafe : DeparseSafe swappedHlir { swapped with headerReorder := [0, 1] } :=
    ⟨by decide, by decide, by decide, by decide, by decide⟩
  exact ⟨hsafe, (deparsePacket_correct_iff rteMbuf_documented hacc rfl rfl).mpr hsafe⟩

end T4P4S
