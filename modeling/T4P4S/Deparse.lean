/-
The deparser: `deparse_packet` and its three passes over the emission list.

`storeHeadersForDeparse` saves the headers that were parsed from the packet,
`resizePacketOnDeparse` moves the packet's front, `copyDeparseContents` writes
the emitted headers there.  What the passes do, in terms of the emission list:

* **`storeHeaders_eq`** — the first is `saveAll`, when its copies stay inside
  their objects;
* **`resizePacketOnDeparse_fits`** — the second leaves room for exactly the
  emitted headers in front of the payload, when the headroom allows it;
* **`copyLoop_eq_gather`** — the third gathers the emitted headers' blocks, with
  neighbours joined.
-/
import T4P4S.Packet

open CMem

namespace T4P4S

variable (hlir : Hlir) (rte : RteMbuf)

/-! ### The passes -/

/-- One round of the loop of `store_headers_for_deparse`. -/
def storeHeader (hdr : HeaderDescriptor) (pd : PacketDescriptor) : Option PacketDescriptor :=
  match hdr.pointer with
  | none => some pd
  | some p =>
    (if hdr.wasEnabledAtInitialParse then
      memcpy (pd.objSize hlir) pd.mem (hlir.tmpSlot hdr.type) p hdr.size
    else
      some pd.mem).map fun mem => { pd with mem, deparseSize := pd.deparseSize + hdr.size }

def storeHeaders : List ℕ → PacketDescriptor → Option PacketDescriptor
  | [], pd => some pd
  | i :: is, pd => (storeHeader hlir (pd.headers i) pd).bind (storeHeaders is)

def storeHeadersForDeparse (pd : PacketDescriptor) : Option PacketDescriptor :=
  storeHeaders hlir pd.headerReorder { pd with deparseSize := 0 }

/-- `none` is the exit of the program for want of headroom.  The length goes to
DPDK as a `uint16_t`, and `pkt_len`, a `uint32_t`, is read as an `int`. -/
def resizePacketOnDeparse (pd : PacketDescriptor) : Option PacketDescriptor :=
  let oldSize : ℤ := Int.bmod pd.packetSize (2 ^ 32)
  let newSize : ℤ := pd.deparseSize + pd.payloadSize
  let pktLen := (newSize % 2 ^ 32).toNat
  if newSize = oldSize then
    some pd
  else
    let lenChange := newSize - oldSize
    -- `pkt_len` gets the new size whatever DPDK has made of the length
    if 0 < lenChange then
      (rte.prepend pd.wrapper (lenChange.toNat % 2 ^ 16)).map fun w =>
        { pd with wrapper := { w with pktLen }, data := some w.mtod }
    else
      match rte.adj pd.wrapper ((-lenChange).toNat % 2 ^ 16) with
      -- here the result is not checked
      | some w => some { pd with wrapper := { w with pktLen }, data := some w.mtod }
      | none => some { pd with wrapper := { pd.wrapper with pktLen }, data := none }

/-- The inner loop of `copy_deparse_contents`: extend the copy while the next
header lies right behind the previous one.  Returns the size to copy and the
rest of the emission list. -/
def copyRun (headers : ℕ → HeaderDescriptor) :
    HeaderDescriptor → ℕ → List ℕ → ℕ × List ℕ
  | _, copySize, [] => (copySize, [])
  | prevhdr, copySize, i :: is =>
    let hdr := headers i
    if hdr.pointer ≠ prevhdr.pointer.map fun p : Ptr Obj => p + prevhdr.size then
      (copySize, i :: is)
    else if hdr.pointer = none then
      copyRun headers hdr copySize is
    else
      copyRun headers hdr (copySize + hdr.size) is

/-- The outer loop; each round takes at least one header, so the length of the
list is fuel enough (`copyLoop_eq_gather`). -/
def copyLoop (size : Obj → ℕ) (headers : ℕ → HeaderDescriptor) :
    ℕ → List ℕ → Ptr Obj → Mem Obj Byte → Option (Mem Obj Byte)
  | _, [], _, m => some m
  | 0, _ :: _, _, _ => none
  | fuel + 1, i :: is, dst, m =>
    match (headers i).pointer with
    | none => copyLoop size headers fuel is dst m
    | some copyStart =>
      let run := copyRun headers (headers i) (headers i).size is
      (memcpy size m dst copyStart run.1).bind
        (copyLoop size headers fuel run.2 (dst + run.1))

def copyDeparseContents (pd : PacketDescriptor) : Option PacketDescriptor :=
  (copyLoop (pd.objSize hlir) pd.headers pd.headerReorder.length pd.headerReorder
    pd.wrapper.mtod pd.mem).map fun mem => { pd with mem }

/-- `deparse_packet`; `none` when the program exits or does what C leaves
undefined. -/
def deparsePacket (pd : PacketDescriptor) : Option PacketDescriptor :=
  if pd.isDeparseReordering then
    if pd.isPacketDropped then
      some pd
    else
      ((storeHeadersForDeparse hlir pd).bind (resizePacketOnDeparse rte)).bind
        (copyDeparseContents hlir)
  else
    some pd

/-! ### Saving the parsed headers -/

/-- What saving one header does to the memory. -/
def save (hdr : HeaderDescriptor) (m : Mem Obj Byte) : Mem Obj Byte :=
  match hdr.pointer with
  | some p => if hdr.wasEnabledAtInitialParse then copy m (hlir.tmpSlot hdr.type) p hdr.size else m
  | none => m

def saveAll (hdrs : List HeaderDescriptor) (m : Mem Obj Byte) : Mem Obj Byte :=
  hdrs.foldl (fun m hdr => save hlir hdr m) m

/-- The header can be saved: source and destination lie inside their objects. -/
def SaveSafe (size : Obj → ℕ) (hdr : HeaderDescriptor) : Prop :=
  ∀ p ∈ hdr.pointer, hdr.wasEnabledAtInitialParse = true →
    p.off + hdr.size ≤ size p.obj ∧ hlir.byteOffset hdr.type + hdr.size ≤ size .tmp

/-- The header's bytes are in the packet or in its slot of the temporary storage. -/
def Located (hdr : HeaderDescriptor) : Prop :=
  ∀ p ∈ hdr.pointer, p.obj = .buf ∨ p = hlir.tmpSlot hdr.type

instance (size : Obj → ℕ) (hdr : HeaderDescriptor) : Decidable (SaveSafe hlir size hdr) :=
  inferInstanceAs (Decidable (∀ p ∈ hdr.pointer, _ → _))

instance (hdr : HeaderDescriptor) : Decidable (Located hlir hdr) :=
  inferInstanceAs (Decidable (∀ p ∈ hdr.pointer, _))

variable {hlir}

/-- A header that is located can be saved as soon as the copy stays in bounds. -/
theorem memcpy_tmpSlot {size : Obj → ℕ} {hdr : HeaderDescriptor} {p : Ptr Obj}
    (hloc : Located hlir hdr) (hp : hdr.pointer = some p) (m : Mem Obj Byte) :
    memcpy size m (hlir.tmpSlot hdr.type) p hdr.size =
      if p.off + hdr.size ≤ size p.obj ∧ hlir.byteOffset hdr.type + hdr.size ≤ size .tmp then
        some (copy m (hlir.tmpSlot hdr.type) p hdr.size)
      else
        none := by
  have hapart : p = hlir.tmpSlot hdr.type ∨ Apart (hlir.tmpSlot hdr.type) hdr.size p hdr.size := by
    refine (hloc p hp).symm.imp_right ?_
    intro hbuf heq
    rw [hbuf] at heq
    cases heq
  simp only [memcpy, hapart, and_true]
  rfl

theorem storeHeader_eq {hdr : HeaderDescriptor} (hloc : Located hlir hdr) (pd : PacketDescriptor) :
    storeHeader hlir hdr pd =
      if SaveSafe hlir (pd.objSize hlir) hdr then
        some { pd with mem := save hlir hdr pd.mem,
                       deparseSize := pd.deparseSize + total hdr.block.toList }
      else
        none := by
  cases hp : hdr.pointer with
  | none => simp [storeHeader, SaveSafe, save, HeaderDescriptor.block, hp]
  | some p =>
    by_cases hinit : hdr.wasEnabledAtInitialParse
    · simp only [storeHeader, hp, hinit, if_true, memcpy_tmpSlot hloc hp, SaveSafe, save,
        HeaderDescriptor.block, Option.mem_some_iff, forall_eq', true_implies]
      split <;> simp
    · simp [storeHeader, SaveSafe, save, HeaderDescriptor.block, hp, hinit]

/-- The headers can be stored iff each one can be saved. -/
theorem storeHeaders_eq (is : List ℕ) : ∀ pd : PacketDescriptor,
    (∀ i ∈ is, Located hlir (pd.headers i)) →
      storeHeaders hlir is pd =
        if ∀ i ∈ is, SaveSafe hlir (pd.objSize hlir) (pd.headers i) then
          some { pd with mem := saveAll hlir (is.map pd.headers) pd.mem,
                         deparseSize := pd.deparseSize +
                           total (is.filterMap fun i => (pd.headers i).block) }
        else
          none := by
  induction is with
  | nil => intro pd _; simp [storeHeaders, saveAll]
  | cons i is ih =>
    intro pd hloc
    have htotal : total ((i :: is).filterMap fun i => (pd.headers i).block) =
        total (pd.headers i).block.toList +
          total (is.filterMap fun i => (pd.headers i).block) := by
      cases h : (pd.headers i).block <;> simp [h]
    rw [storeHeaders, storeHeader_eq (hloc i List.mem_cons_self), htotal]
    by_cases hi : SaveSafe hlir (pd.objSize hlir) (pd.headers i)
    · rw [if_pos hi, Option.bind_some, ih]
      · simp only [List.forall_mem_cons, hi, true_and, List.map_cons, saveAll, List.foldl_cons,
          Nat.add_assoc]
        rfl
      · exact fun j hj => hloc j (List.mem_cons_of_mem _ hj)
    · simp [hi]

/-- The headers as the deparser sees them. -/
def emittedHeaders (pd : PacketDescriptor) : List HeaderDescriptor :=
  pd.headerReorder.map pd.headers

/-- The descriptor after the first pass. -/
def saved (hlir : Hlir) (pd : PacketDescriptor) : PacketDescriptor :=
  { pd with mem := saveAll hlir (emittedHeaders pd) pd.mem, deparseSize := total pd.emitted }

theorem storeHeadersForDeparse_eq (pd : PacketDescriptor)
    (hloc : ∀ i ∈ pd.headerReorder, Located hlir (pd.headers i)) :
    storeHeadersForDeparse hlir pd =
      if ∀ i ∈ pd.headerReorder, SaveSafe hlir (pd.objSize hlir) (pd.headers i) then
        some (saved hlir pd)
      else
        none := by
  rw [storeHeadersForDeparse, storeHeaders_eq]
  · simp only [Nat.zero_add]
    rfl
  · exact hloc

/-- Saving the header overwrites this address with a byte of the packet. -/
def Overwrites (hlir : Hlir) (hdr : HeaderDescriptor) (a : Ptr Obj) : Prop :=
  ∃ p ∈ hdr.pointer, hdr.wasEnabledAtInitialParse = true ∧ p.obj = .buf ∧
    InBlock a (hlir.tmpSlot hdr.type) hdr.size

/-- Where the byte comes from that an address holds after a header was saved. -/
theorem save_source {hdr : HeaderDescriptor} (hloc : Located hlir hdr) (a : Ptr Obj) :
    (Overwrites hlir hdr a ∧ ∃ b : Ptr Obj, b.obj = .buf ∧ ∀ m, save hlir hdr m a = m b) ∨
      (¬ Overwrites hlir hdr a ∧ ∀ m, save hlir hdr m a = m a) := by
  cases hp : hdr.pointer with
  | none => exact .inr ⟨by simp [Overwrites, hp], by simp [save, hp]⟩
  | some p =>
    by_cases hinit : hdr.wasEnabledAtInitialParse
    · by_cases hbuf : p.obj = .buf
      · by_cases ha : InBlock a (hlir.tmpSlot hdr.type) hdr.size
        · obtain ⟨i, hi, rfl⟩ := ha.eq_add
          refine .inl ⟨⟨p, hp, hinit, hbuf, ha⟩, p + i, hbuf, ?_⟩
          intro m
          simp only [save, hp, hinit, if_true, copy_add hi]
        · refine .inr ⟨?_, fun m => ?_⟩
          · rintro ⟨-, -, -, -, h⟩
            exact ha h
          · simp only [save, hp, hinit, if_true, copy_of_not_inBlock ha]
      · refine .inr ⟨by simp [Overwrites, hp, hbuf], ?_⟩
        intro m
        have hslot := (hloc p hp).resolve_left hbuf
        simp only [save, hp, hinit, if_true, hslot, copy_self]
    · exact .inr ⟨by simp [Overwrites, hinit], by simp [save, hp, hinit]⟩

/-- Saving all headers only fills addresses with bytes of the packet. -/
theorem saveAll_source {hdrs : List HeaderDescriptor} (a : Ptr Obj) :
    (∀ hdr ∈ hdrs, Located hlir hdr) →
      ((∃ hdr ∈ hdrs, Overwrites hlir hdr a) ∧
          ∃ b : Ptr Obj, b.obj = .buf ∧ ∀ m, saveAll hlir hdrs m a = m b) ∨
        ((∀ hdr ∈ hdrs, ¬ Overwrites hlir hdr a) ∧ ∀ m, saveAll hlir hdrs m a = m a) := by
  induction hdrs with
  | nil => intro _; exact .inr ⟨by simp, fun _ => rfl⟩
  | cons hdr hdrs ih =>
    intro hloc
    have hsave : ∀ (b : Ptr Obj), b.obj = .buf → ∀ m, save hlir hdr m b = m b := by
      intro b hb
      refine ((save_source (hloc hdr List.mem_cons_self) b).resolve_left ?_).2
      rintro ⟨⟨p, -, -, -, hobj, -⟩, -⟩
      rw [hb] at hobj
      cases hobj
    rcases ih fun h hh => hloc h (List.mem_cons_of_mem _ hh) with ⟨hov, b, hb, heq⟩ | ⟨hov, heq⟩
    · refine .inl ⟨?_, b, hb, fun m => ?_⟩
      · obtain ⟨h, hh, ho⟩ := hov
        exact ⟨h, List.mem_cons_of_mem _ hh, ho⟩
      · exact (heq _).trans (hsave b hb m)
    · -- the later headers leave `a` alone, so the first one decides
      rcases save_source (hloc hdr List.mem_cons_self) a with ⟨ho, b, hb, hb'⟩ | ⟨ho, ha⟩
      · exact .inl ⟨⟨hdr, List.mem_cons_self, ho⟩, b, hb, fun m => (heq _).trans (hb' m)⟩
      · refine .inr ⟨?_, fun m => (heq _).trans (ha m)⟩
        rw [List.forall_mem_cons]
        exact ⟨ho, hov⟩

theorem saveAll_buf {hdrs : List HeaderDescriptor} (hloc : ∀ hdr ∈ hdrs, Located hlir hdr)
    (m : Mem Obj Byte) {a : Ptr Obj} (ha : a.obj = .buf) : saveAll hlir hdrs m a = m a := by
  refine ((saveAll_source a hloc).resolve_left ?_).2 m
  rintro ⟨⟨hdr, -, p, -, -, -, hobj, -⟩, -⟩
  rw [ha] at hobj
  cases hobj

/-! ### Moving the front of the packet -/

/-- The descriptor of a packet in the state `accept` and after: the payload is what
lies behind the cursor. -/
structure AtPayload (pd : PacketDescriptor) : Prop where
  cursor_obj : pd.extractPtr.obj = .buf
  cursor_add_payload : (pd.extractPtr.off : ℤ) + pd.payloadSize =
    pd.wrapper.dataOff + pd.wrapper.pktLen
  mbuf : pd.wrapper.InOrder

/-- The descriptor of an accepted packet when the deparser starts to work on it. -/
structure Accepted (hlir : Hlir) (pd : PacketDescriptor) : Prop extends AtPayload pd where
  located : ∀ i ∈ pd.headerReorder, Located hlir (pd.headers i)

theorem Accepted.saved {pd : PacketDescriptor} (h : Accepted hlir pd) :
    Accepted hlir (saved hlir pd) :=
  ⟨⟨h.cursor_obj, h.cursor_add_payload, h.mbuf⟩, h.located⟩

theorem Accepted.withMem {pd : PacketDescriptor} (h : Accepted hlir pd) (m : Mem Obj Byte) :
    Accepted hlir { pd with mem := m } :=
  ⟨⟨h.cursor_obj, h.cursor_add_payload, h.mbuf⟩, h.located⟩

theorem Accepted.emittedHeaders_located {pd : PacketDescriptor} (h : Accepted hlir pd) :
    ∀ hdr ∈ emittedHeaders pd, Located hlir hdr := by
  simpa [emittedHeaders] using h.located

/-- The front of the deparsed packet. -/
def front (pd : PacketDescriptor) : Ptr Obj := ⟨.buf, pd.extractPtr.off - total pd.emitted⟩

/-- The length of a packet inside its buffer survives the conversion to `int`. -/
theorem Mbuf.InOrder.bmod_pktLen {m : Mbuf} (h : m.InOrder) :
    Int.bmod m.pktLen (2 ^ 32) = m.pktLen := by
  obtain ⟨hlen, hdata, hbuf⟩ := h
  refine Int.bmod_eq_of_le_mul_two ?_ ?_ <;> omega

/-- With headroom enough, the payload stays where it is and the emitted headers
fit between the new front and the payload. -/
theorem resizePacketOnDeparse_fits {rte : RteMbuf} (hrte : rte.Documented)
    {pd : PacketDescriptor} (hacc : Accepted hlir pd) (hpay : 0 ≤ pd.payloadSize)
    (hroom : total pd.emitted ≤ pd.extractPtr.off) (hsize : pd.deparseSize = total pd.emitted) :
    ∃ w d, resizePacketOnDeparse rte pd = some { pd with wrapper := w, data := d } ∧
      w.mtod = front pd ∧ (w.dataLen : ℤ) = total pd.emitted + pd.payloadSize ∧
      w.pktLen = w.dataLen ∧ w.bufLen = pd.wrapper.bufLen := by
  have hold := hacc.mbuf.bmod_pktLen
  obtain ⟨⟨-, hcur, ⟨hlen, hdata, hbuf⟩⟩, -⟩ := hacc
  have hmod : ((total pd.emitted + pd.payloadSize : ℤ) % 2 ^ 32).toNat =
      (total pd.emitted + pd.payloadSize).toNat := by
    rw [Int.emod_eq_of_lt] <;> omega
  rw [resizePacketOnDeparse, PacketDescriptor.packetSize, hold, hsize, hmod]
  by_cases heq : (total pd.emitted + pd.payloadSize : ℤ) = pd.wrapper.pktLen
  · -- the packet keeps its length, and its front
    refine ⟨pd.wrapper, pd.data, ?_, ?_, by omega, hlen, rfl⟩
    · simp only [heq, if_true]
      rw [← hsize]
    · rw [Mbuf.mtod, front, Ptr.mk.injEq]
      exact ⟨rfl, by omega⟩
  · simp only [heq, if_false]
    by_cases hgrow : (0 : ℤ) < total pd.emitted + pd.payloadSize - pd.wrapper.pktLen
    · have hlt : (total pd.emitted + pd.payloadSize - pd.wrapper.pktLen : ℤ).toNat < 2 ^ 16 := by
        omega
      rw [if_pos hgrow, Nat.mod_eq_of_lt hlt, hrte.prepend_eq _ _ hlt, if_pos (by omega),
        Option.map_some]
      refine ⟨_, _, rfl, ?_, ?_, ?_, rfl⟩
      · rw [Mbuf.mtod, front, Ptr.mk.injEq]
        exact ⟨rfl, by dsimp only; omega⟩
      · dsimp only; omega
      · dsimp only; omega
    · have hlt : (-(total pd.emitted + pd.payloadSize - pd.wrapper.pktLen : ℤ)).toNat < 2 ^ 16 := by
        omega
      rw [if_neg hgrow, Nat.mod_eq_of_lt hlt, hrte.adj_eq _ _ hlt, if_pos (by omega)]
      refine ⟨_, _, rfl, ?_, ?_, ?_, rfl⟩
      · rw [Mbuf.mtod, front, Ptr.mk.injEq]
        exact ⟨rfl, by dsimp only; omega⟩
      · dsimp only; omega
      · dsimp only; omega

/-- Without headroom enough, the program exits or the packet gets a wrong length. -/
theorem resizePacketOnDeparse_short {rte : RteMbuf} (hrte : rte.Documented)
    {pd pd' : PacketDescriptor} (hacc : Accepted hlir pd)
    (hroom : pd.extractPtr.off < total pd.emitted) (hsize : pd.deparseSize = total pd.emitted)
    (h : resizePacketOnDeparse rte pd = some pd') :
    (pd'.wrapper.dataLen : ℤ) ≠ total pd.emitted + pd.payloadSize := by
  have hold := hacc.mbuf.bmod_pktLen
  obtain ⟨⟨-, hcur, ⟨hlen, hdata, hbuf⟩⟩, -⟩ := hacc
  have hlt : (total pd.emitted + pd.payloadSize - pd.wrapper.pktLen : ℤ).toNat % 2 ^ 16 < 2 ^ 16 :=
    Nat.mod_lt _ (by decide)
  rw [resizePacketOnDeparse, PacketDescriptor.packetSize, hold, hsize] at h
  simp only at h
  -- the packet grows; it can only if the length is one that 16 bits have cut
  rw [if_neg (by omega), if_pos (by omega), hrte.prepend_eq _ _ hlt] at h
  obtain ⟨w, hw, rfl⟩ := Option.map_eq_some_iff.mp h
  split at hw
  · rw [Option.some_inj] at hw
    subst hw
    dsimp only
    omega
  · cases hw

/-! ### Copying the emitted headers -/

/-- The inner loop finds the block that the emission list begins with. -/
theorem copyRun_spec (headers : ℕ → HeaderDescriptor) (is : List ℕ) :
    ∀ {prevhdr : HeaderDescriptor} {q start : Ptr Obj} {copySize : ℕ},
      prevhdr.pointer = some q → q + prevhdr.size = start + copySize →
        coalesceFrom (some ⟨start, copySize⟩) (is.map fun i => (headers i).block) =
          ⟨start, (copyRun headers prevhdr copySize is).1⟩ ::
            coalesce ((copyRun headers prevhdr copySize is).2.map fun i => (headers i).block) := by
  induction is with
  | nil => intros; simp [copyRun, coalesce, coalesceFrom]
  | cons i is ih =>
    intro prevhdr q start copySize hq hend
    rw [copyRun, List.map_cons]
    simp only [hq, Option.map_some, hend]
    -- an invalid header ends the block too: its pointer is not where the next one would be
    cases hp : (headers i).pointer with
    | none => simp [HeaderDescriptor.block, hp, coalesce, coalesceFrom]
    | some p =>
      rw [HeaderDescriptor.block, hp, Option.map_some, coalesceFrom]
      by_cases hnext : p = start + copySize
      · rw [if_pos hnext]
        simp only [hnext, ne_eq, not_true, if_false, reduceCtorEq]
        exact ih (hp.trans (congrArg some hnext)) (Ptr.add_add _ _ _)
      · rw [if_neg hnext, if_pos (by simpa using hnext)]
        simp [HeaderDescriptor.block, hp, coalesce, coalesceFrom]

theorem length_copyRun_le {headers : ℕ → HeaderDescriptor} (is : List ℕ) :
    ∀ {prevhdr : HeaderDescriptor} {copySize : ℕ},
      (copyRun headers prevhdr copySize is).2.length ≤ is.length := by
  induction is with
  | nil => intros; simp [copyRun]
  | cons i is ih =>
    intro prevhdr copySize
    rw [copyRun]
    split
    · simp
    · split <;> exact Nat.le_succ_of_le ih

/-- The outer loop copies the emitted headers, neighbours joined. -/
theorem copyLoop_eq_gather {size : Obj → ℕ} {headers : ℕ → HeaderDescriptor} (fuel : ℕ) :
    ∀ {is : List ℕ} {dst : Ptr Obj} {m : Mem Obj Byte}, is.length ≤ fuel →
      copyLoop size headers fuel is dst m =
        gather size m dst (coalesce (is.map fun i => (headers i).block)) := by
  induction fuel with
  | zero =>
    intro is dst m h
    rw [List.eq_nil_of_length_eq_zero (Nat.le_zero.mp h)]
    rfl
  | succ fuel ih =>
    intro is dst m h
    cases is with
    | nil => rfl
    | cons i is =>
      rw [List.length_cons, Nat.succ_le_succ_iff] at h
      rw [copyLoop]
      cases hp : (headers i).pointer with
      | none =>
        simp only [ih h, List.map_cons, HeaderDescriptor.block, hp, Option.map_none, coalesce,
          coalesceFrom, Option.toList_none, List.nil_append]
      | some p =>
        have hrun := copyRun_spec headers is hp (rfl : p + (headers i).size = _)
        simp only [List.map_cons, coalesce]
        rw [show (headers i).block = some ⟨p, (headers i).size⟩ by
          simp [HeaderDescriptor.block, hp], coalesceFrom, hrun, gather]
        -- The inner loop has taken at least one header, so the fuel is enough for the rest.
        congr 1
        funext m'
        exact ih ((length_copyRun_le is).trans h)

theorem copyDeparseContents_eq (pd : PacketDescriptor) :
    copyDeparseContents hlir pd =
      (gather (pd.objSize hlir) pd.mem pd.wrapper.mtod (coalesce pd.emission)).map
        fun mem => { pd with mem } := by
  rw [copyDeparseContents, copyLoop_eq_gather _ le_rfl, PacketDescriptor.emission]

end T4P4S
