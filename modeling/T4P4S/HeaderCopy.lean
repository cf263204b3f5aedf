/-
Copying a header: `do_assignment`.

The bytes of the source go to where the destination is or, if it is not valid, to its
slot in `header_tmp_storage`.  Their number is computed from the source, and the sizes
that the destination's descriptor has stay as they are.

* **`headerCopyLaw_iff`** — the exact descriptors in which the destination becomes a copy
  of the source and nothing else changes;
* **`headerCopyLaw_of_fixed`** — these are all in which the headers are at their places
  and have no variable-width part.
-/
import T4P4S.Packet

open CMem

namespace T4P4S

/-! ### What the copy has to do -/

/-- The address holds a byte of the header, which is valid. -/
def InHeader (pd : PacketDescriptor) (hdr : ℕ) (a : Ptr Obj) : Prop :=
  ∃ p, (pd.headers hdr).pointer = some p ∧ InBlock a p (pd.headers hdr).size

/-- The bytes that may not change: those of another header, of the slot of a third one,
and of the packet outside of the destination. -/
def Kept (hlir : Hlir) (dst src : ℕ) (pd : PacketDescriptor) (a : Ptr Obj) : Prop :=
  (∃ t < hlir.headerCount, t ≠ dst ∧ InHeader pd t a) ∨
    (∃ t < hlir.headerCount, t ≠ dst ∧ t ≠ src ∧ InBlock a (hlir.tmpSlot t) (hlir.byteWidth t)) ∨
      (InBlock a pd.wrapper.mtod pd.wrapper.dataLen ∧ ¬ InHeader pd dst a)

/-- The destination is a copy of the source, and nothing else changed. -/
structure Copied (hlir : Hlir) (dst src : ℕ) (pd pd' : PacketDescriptor) : Prop where
  valid : pd'.isHeaderValid dst = pd.isHeaderValid src
  bytes : ∀ p q, (pd.headers src).pointer = some p → (pd'.headers dst).pointer = some q →
    load pd'.mem q (pd.headers src).size = load pd.mem p (pd.headers src).size
  sizes : pd.isHeaderValid src = true → (pd'.headers dst).size = (pd.headers src).size ∧
    (pd'.headers dst).vwSize = (pd.headers src).vwSize
  others : ∀ t ≠ dst, pd'.headers t = pd.headers t
  kept : ∀ a, Kept hlir dst src pd a → pd'.mem a = pd.mem a

/-- The copy is right for all contents of the memory. -/
def HeaderCopyLaw (hlir : Hlir) (dst src : ℕ) (pd : PacketDescriptor) : Prop :=
  ∀ mem : Mem Obj Byte, ∃ pd', doAssignment hlir dst src { pd with mem } = some pd' ∧
    Copied hlir dst src { pd with mem } pd'

/-! ### When it does -/

/-- The number of bytes that are copied. -/
def copyLen (hlir : Hlir) (src : ℕ) (pd : PacketDescriptor) : ℕ :=
  hlir.byteWidth src + (pd.headers src).vwSize / 8

/-- Where they go to. -/
def copyDst (hlir : Hlir) (dst : ℕ) (pd : PacketDescriptor) : Ptr Obj :=
  (pd.headers dst).pointer.getD (hlir.tmpSlot dst)

/-- From `q` on there are `n` bytes that belong to no other header, to no slot of a third
one and, behind those of the destination, not to the packet. -/
structure RoomFor (hlir : Hlir) (dst src : ℕ) (pd : PacketDescriptor) (q : Ptr Obj) (n : ℕ) :
    Prop where
  headers : ∀ t < hlir.headerCount, t ≠ dst → ∀ p, (pd.headers t).pointer = some p →
    Apart q n p (pd.headers t).size
  slots : ∀ t < hlir.headerCount, t ≠ dst → t ≠ src →
    Apart q n (hlir.tmpSlot t) (hlir.byteWidth t)
  packet : Apart (q + (pd.headers dst).size) (n - (pd.headers dst).size) pd.wrapper.mtod
    pd.wrapper.dataLen

/-- The copy of a source at `p` fits. -/
structure CopyFits (hlir : Hlir) (dst src : ℕ) (pd : PacketDescriptor) (p : Ptr Obj) : Prop where
  size : (pd.headers dst).size = (pd.headers src).size
  vwSize : (pd.headers dst).vwSize = (pd.headers src).vwSize
  src_inside : p.off + copyLen hlir src pd ≤ pd.objSize hlir p.obj
  dst_inside :
    (copyDst hlir dst pd).off + copyLen hlir src pd ≤ pd.objSize hlir (copyDst hlir dst pd).obj
  places : p = copyDst hlir dst pd ∨
    ((pd.headers src).size ≤ copyLen hlir src pd ∧
      Apart (copyDst hlir dst pd) (copyLen hlir src pd) p (copyLen hlir src pd) ∧
      RoomFor hlir dst src pd (copyDst hlir dst pd) (copyLen hlir src pd))

/-! ### What do_assignment does -/

variable {hlir : Hlir} {dst src : ℕ} {pd : PacketDescriptor}

/-- The descriptor in which the bytes are copied: the destination is valid. -/
def withDst (hlir : Hlir) (dst : ℕ) (pd : PacketDescriptor) : PacketDescriptor :=
  if pd.isHeaderValid dst then pd else activateHdr hlir dst pd

theorem withDst_mem : (withDst hlir dst pd).mem = pd.mem := by
  rw [withDst]
  split <;> rfl

theorem withDst_objSize : (withDst hlir dst pd).objSize hlir = pd.objSize hlir := by
  rw [withDst]
  split <;> rfl

theorem withDst_headers_self : (withDst hlir dst pd).headers dst =
    { pd.headers dst with pointer := some (copyDst hlir dst pd) } := by
  rw [withDst, copyDst]
  cases hp : (pd.headers dst).pointer with
  | none =>
    rw [PacketDescriptor.isHeaderValid, hp, if_neg (by decide), activateHdr]
    exact PacketDescriptor.setHeader_headers_self _ _ _
  | some q =>
    have hvalid : pd.isHeaderValid dst = true := by rw [PacketDescriptor.isHeaderValid, hp]; rfl
    rw [if_pos hvalid, Option.getD_some, ← hp]

theorem withDst_headers_of_ne {t : ℕ} (hne : t ≠ dst) :
    (withDst hlir dst pd).headers t = pd.headers t := by
  rw [withDst]
  split
  · rfl
  · exact PacketDescriptor.setHeader_headers_of_ne _ _ hne

/-- The source is where it was. -/
theorem withDst_headers_src {p : Ptr Obj} (hsrc : (pd.headers src).pointer = some p) :
    (withDst hlir dst pd).headers src = pd.headers src := by
  by_cases hne : src = dst
  · subst hne
    rw [withDst, PacketDescriptor.isHeaderValid, hsrc]
    rfl
  · exact withDst_headers_of_ne hne

theorem doAssignment_of_valid {p : Ptr Obj} (hsrc : (pd.headers src).pointer = some p) :
    doAssignment hlir dst src pd =
      (memcpy (pd.objSize hlir) pd.mem (copyDst hlir dst pd) p (copyLen hlir src pd)).map
        fun mem => { withDst hlir dst pd with mem } := by
  have hvalid : pd.isHeaderValid src = true := by
    rw [PacketDescriptor.isHeaderValid, hsrc]
    rfl
  rw [doAssignment, if_pos hvalid]
  show copyHeader hlir dst src (withDst hlir dst pd) = _
  rw [copyHeader, withDst_headers_self, withDst_headers_src hsrc, hsrc, withDst_objSize,
    withDst_mem]
  rfl

theorem doAssignment_of_invalid (hsrc : (pd.headers src).pointer = none) :
    doAssignment hlir dst src pd = some (deactivateHdr dst pd) := by
  rw [doAssignment, PacketDescriptor.isHeaderValid, hsrc, if_neg (by decide)]

/-! ### The law -/

/-- A header that is not valid is copied by making the destination invalid. -/
theorem headerCopyLaw_of_invalid (hsrc : (pd.headers src).pointer = none) :
    HeaderCopyLaw hlir dst src pd := by
  intro mem
  refine ⟨_, doAssignment_of_invalid hsrc, ?_⟩
  have hself : (deactivateHdr dst { pd with mem }).headers dst =
      { pd.headers dst with pointer := none } := PacketDescriptor.setHeader_headers_self _ _ _
  refine ⟨?_, ?_, ?_, ?_, fun _ _ => rfl⟩
  · rw [PacketDescriptor.isHeaderValid, hself, PacketDescriptor.isHeaderValid, hsrc]
  · intro p q hp
    rw [hsrc] at hp
    cases hp
  · intro hvalid
    rw [PacketDescriptor.isHeaderValid, hsrc] at hvalid
    cases hvalid
  · exact fun t ht => PacketDescriptor.setHeader_headers_of_ne _ _ ht

/-- Behind its own bytes the copy does not meet the packet. -/
theorem apart_packet_iff {n : ℕ} :
    Apart (copyDst hlir dst pd + (pd.headers dst).size) (n - (pd.headers dst).size)
        pd.wrapper.mtod pd.wrapper.dataLen ↔
      ∀ a, InBlock a (copyDst hlir dst pd) n → InBlock a pd.wrapper.mtod pd.wrapper.dataLen →
        InHeader pd dst a := by
  rw [apart_iff_forall]
  cases hdst : (pd.headers dst).pointer with
  | none =>
    -- the slot is not in the packet
    have hq : copyDst hlir dst pd = hlir.tmpSlot dst := by rw [copyDst, hdst, Option.getD_none]
    have hout : ∀ a : Ptr Obj, a.obj = .tmp → ¬ InBlock a pd.wrapper.mtod pd.wrapper.dataLen := by
      rintro a htmp ⟨hbuf, -⟩
      rw [htmp] at hbuf
      cases hbuf
    rw [hq]
    exact iff_of_true (fun a ha => hout a ha.1) fun a ha hin => absurd hin (hout a ha.1)
  | some q =>
    have hq : copyDst hlir dst pd = q := by rw [copyDst, hdst, Option.getD_some]
    have hin : ∀ a, InHeader pd dst a ↔ InBlock a q (pd.headers dst).size := by
      intro a
      rw [InHeader, hdst]
      exact ⟨fun ⟨_, heq, ha⟩ => Option.some.inj heq ▸ ha, fun ha => ⟨q, rfl, ha⟩⟩
    rw [hq]
    constructor
    · intro h a ha hpacket
      rw [hin]
      by_contra hnot
      refine h a ⟨ha.1, ?_, ?_⟩ hpacket
      · by_contra hlt
        exact hnot ⟨ha.1, ha.2.1, Nat.not_le.mp hlt⟩
      · have := ha.2.2
        simp only [Ptr.off_add]
        omega
    · rintro h a ⟨hobj, hlo, hhi⟩ hpacket
      rw [Ptr.off_add] at hlo hhi
      obtain ⟨-, -, hlt⟩ := (hin a).mp (h a ⟨hobj, by omega, by omega⟩ hpacket)
      omega

/-- There is room for the copy iff it meets nothing that is kept. -/
theorem roomFor_iff {n : ℕ} : RoomFor hlir dst src pd (copyDst hlir dst pd) n ↔
    ∀ a, InBlock a (copyDst hlir dst pd) n → ¬ Kept hlir dst src pd a := by
  constructor
  · rintro ⟨hheaders, hslots, hpacket⟩ a ha
      (⟨t, ht, hne, p, hp, hin⟩ | ⟨t, ht, hne, hsrc, hin⟩ | hin)
    · exact apart_iff_forall.mp (hheaders t ht hne p hp) a ha hin
    · exact apart_iff_forall.mp (hslots t ht hne hsrc) a ha hin
    · exact hin.2 (apart_packet_iff.mp hpacket a ha hin.1)
  · intro h
    refine ⟨?_, ?_, ?_⟩
    · intro t ht hne p hp
      exact apart_iff_forall.mpr fun a ha hin => h a ha (.inl ⟨t, ht, hne, p, hp, hin⟩)
    · intro t ht hne hsrc
      exact apart_iff_forall.mpr fun a ha hin => h a ha (.inr (.inl ⟨t, ht, hne, hsrc, hin⟩))
    · refine apart_packet_iff.mpr fun a ha hin => ?_
      by_contra hnot
      exact h a ha (.inr (.inr ⟨hin, hnot⟩))

section Valid

variable {p : Ptr Obj}

/-- The descriptor is as it has to be apart from the sizes and the bytes. -/
theorem copied_iff (hsrc : (pd.headers src).pointer = some p) (mem mem' : Mem Obj Byte) :
    Copied hlir dst src { pd with mem } { withDst hlir dst { pd with mem } with mem := mem' } ↔
      ((pd.headers dst).size = (pd.headers src).size ∧
        (pd.headers dst).vwSize = (pd.headers src).vwSize) ∧
      load mem' (copyDst hlir dst pd) (pd.headers src).size = load mem p (pd.headers src).size ∧
      ∀ a, Kept hlir dst src pd a → mem' a = mem a := by
  have hvalid : pd.isHeaderValid src = true := by rw [PacketDescriptor.isHeaderValid, hsrc]; rfl
  have hself : ({ withDst hlir dst { pd with mem } with mem := mem' } : PacketDescriptor).headers
      dst = { pd.headers dst with pointer := some (copyDst hlir dst pd) } := withDst_headers_self
  constructor
  · rintro ⟨-, hbytes, hsizes, -, hkept⟩
    have hsizes := hsizes hvalid
    rw [hself] at hsizes
    exact ⟨hsizes, hbytes p _ hsrc (by rw [hself]), hkept⟩
  · rintro ⟨hsizes, hbytes, hkept⟩
    refine ⟨?_, ?_, fun _ => ?_, fun t ht => withDst_headers_of_ne ht, hkept⟩
    · rw [PacketDescriptor.isHeaderValid, hself]
      exact hvalid.symm
    · intro p' q' hp' hq'
      rw [hself, Option.some_inj] at hq'
      obtain rfl : p = p' := Option.some.inj (hsrc.symm.trans hp')
      subst hq'
      exact hbytes
    · rw [hself]
      exact hsizes

/-- For all contents of the memory, the copy leaves what is kept and takes all bytes. -/
theorem copyFits_iff (hsrc : (pd.headers src).pointer = some p) :
    HeaderCopyLaw hlir dst src pd ↔ CopyFits hlir dst src pd p := by
  have hrun : ∀ mem : Mem Obj Byte, doAssignment hlir dst src { pd with mem } =
      (memcpy (pd.objSize hlir) mem (copyDst hlir dst pd) p (copyLen hlir src pd)).map fun mem' =>
        { withDst hlir dst { pd with mem } with mem := mem' } :=
    fun mem => doAssignment_of_valid hsrc
  constructor
  · intro h
    have hcopied : ∀ mem : Mem Obj Byte,
        (p.off + copyLen hlir src pd ≤ pd.objSize hlir p.obj ∧
          (copyDst hlir dst pd).off + copyLen hlir src pd ≤
            pd.objSize hlir (copyDst hlir dst pd).obj ∧
          (p = copyDst hlir dst pd ∨
            Apart (copyDst hlir dst pd) (copyLen hlir src pd) p (copyLen hlir src pd))) ∧
        Copied hlir dst src { pd with mem } { withDst hlir dst { pd with mem } with
          mem := copy mem (copyDst hlir dst pd) p (copyLen hlir src pd) } := by
      intro mem
      obtain ⟨pd', hpd', hcopied⟩ := h mem
      rw [hrun] at hpd'
      obtain ⟨mem', hmem', rfl⟩ := Option.map_eq_some_iff.mp hpd'
      obtain ⟨hdefined, rfl⟩ := memcpy_eq_some_iff.mp hmem'
      exact ⟨hdefined, hcopied⟩
    obtain ⟨⟨hsrcIn, hdstIn, hplaces⟩, hzero⟩ := hcopied fun _ => 0
    obtain ⟨⟨hsize, hvwSize⟩, -⟩ := (copied_iff hsrc _ _).mp hzero
    refine ⟨hsize, hvwSize, hsrcIn, hdstIn, ?_⟩
    by_cases hsame : p = copyDst hlir dst pd
    · exact .inl hsame
    refine .inr ⟨?_, hplaces.resolve_left hsame, roomFor_iff.mpr ?_⟩
    · -- a byte behind those that are copied is in every memory the source's
      by_contra hlt
      have hbyte : ∀ mem : Mem Obj Byte,
          copy mem (copyDst hlir dst pd) p (copyLen hlir src pd)
            (copyDst hlir dst pd + copyLen hlir src pd) = mem (p + copyLen hlir src pd) :=
        fun mem => load_eq_load_iff.mp ((copied_iff hsrc _ _).mp (hcopied mem).2).2.1 _
          (Nat.not_le.mp hlt)
      rw [forall_copy_apply_iff, copySource, if_neg] at hbyte
      · exact hsame (Ptr.add_right_cancel hbyte).symm
      · rintro ⟨-, -, hlt⟩
        exact absurd hlt (Nat.lt_irrefl _)
    · intro a ha hkept
      have hbyte : ∀ mem : Mem Obj Byte,
          copy mem (copyDst hlir dst pd) p (copyLen hlir src pd) a = mem a :=
        fun mem => ((copied_iff hsrc _ _).mp (hcopied mem).2).2.2 a hkept
      obtain ⟨i, hi, rfl⟩ := ha.eq_add
      rw [forall_copy_apply_iff, copySource_add hi] at hbyte
      exact hsame (Ptr.add_right_cancel hbyte)
  · rintro ⟨hsize, hvwSize, hsrcIn, hdstIn, hplaces⟩ mem
    have hdefined : p.off + copyLen hlir src pd ≤ pd.objSize hlir p.obj ∧
        (copyDst hlir dst pd).off + copyLen hlir src pd ≤
          pd.objSize hlir (copyDst hlir dst pd).obj ∧
        (p = copyDst hlir dst pd ∨
          Apart (copyDst hlir dst pd) (copyLen hlir src pd) p (copyLen hlir src pd)) :=
      ⟨hsrcIn, hdstIn, hplaces.imp_right fun h => h.2.1⟩
    refine ⟨_, by rw [hrun, memcpy, if_pos hdefined]; rfl, ?_⟩
    refine (copied_iff hsrc _ _).mpr ⟨⟨hsize, hvwSize⟩, ?_, ?_⟩
    · rcases hplaces with rfl | ⟨hle, -, -⟩
      · rw [copy_self]
      · exact load_eq_load_iff.mpr fun i hi => copy_add (Nat.lt_of_lt_of_le hi hle)
    · intro a hkept
      rcases hplaces with rfl | ⟨-, -, hroom⟩
      · rw [copy_self]
      · exact copy_of_not_inBlock fun ha => roomFor_iff.mp hroom a ha hkept

end Valid

/-- **A header is copied right iff it is not valid, or the destination has its sizes and
room for the bytes that are copied, which are all bytes of the source, or the source is at
the same place.** -/
theorem headerCopyLaw_iff : HeaderCopyLaw hlir dst src pd ↔
    ∀ p, (pd.headers src).pointer = some p → CopyFits hlir dst src pd p := by
  cases hsrc : (pd.headers src).pointer with
  | none => exact iff_of_true (headerCopyLaw_of_invalid hsrc) fun p hp => absurd hp (by simp)
  | some p =>
    rw [copyFits_iff hsrc]
    exact ⟨fun h q hq => Option.some.inj hq ▸ h, fun h => h p rfl⟩

/-! ### Headers without a variable-width part -/

/-- The headers are in the packet, each in bytes of its own, or in their slots, and have
no variable-width part. -/
structure FixedAtPlaces (hlir : Hlir) (pd : PacketDescriptor) : Prop where
  vwSize : ∀ t < hlir.headerCount, (pd.headers t).vwSize = 0
  size : ∀ t < hlir.headerCount, (pd.headers t).size = hlir.byteWidth t
  slot : ∀ t < hlir.headerCount, ∀ p, (pd.headers t).pointer = some p → p.obj = .tmp →
    p = hlir.tmpSlot t
  inside : ∀ t < hlir.headerCount, ∀ p, (pd.headers t).pointer = some p → p.obj = .buf →
    p.off + hlir.byteWidth t ≤ pd.wrapper.bufLen
  apart : ∀ t < hlir.headerCount, ∀ u < hlir.headerCount, t ≠ u → ∀ p q,
    (pd.headers t).pointer = some p → (pd.headers u).pointer = some q → p.obj = .buf →
      Apart p (hlir.byteWidth t) q (hlir.byteWidth u)

theorem apart_tmpSlot {t u : ℕ} (hne : t ≠ u) :
    Apart (hlir.tmpSlot t) (hlir.byteWidth t) (hlir.tmpSlot u) (hlir.byteWidth u) := by
  intro _
  rcases Nat.lt_or_gt_of_ne hne with hlt | hlt
  · exact .inl (hlir.byteOffset_add_le hlt)
  · exact .inr (.inl (hlir.byteOffset_add_le hlt))

namespace FixedAtPlaces

variable {t u : ℕ}

/-- A header is in the packet or in its slot, where it is put when it becomes valid. -/
theorem copyDst_cases (h : FixedAtPlaces hlir pd) (ht : t < hlir.headerCount) :
    ((copyDst hlir t pd).obj = .buf ∧ (pd.headers t).pointer = some (copyDst hlir t pd)) ∨
      copyDst hlir t pd = hlir.tmpSlot t := by
  rw [copyDst]
  cases hp : (pd.headers t).pointer with
  | none => exact .inr rfl
  | some p =>
    rw [Option.getD_some]
    cases hobj : p.obj with
    | buf => exact .inl ⟨rfl, rfl⟩
    | tmp => exact .inr (h.slot t ht p hp hobj)

theorem apart_copyDst (h : FixedAtPlaces hlir pd) (ht : t < hlir.headerCount)
    (hu : u < hlir.headerCount) (hne : t ≠ u) :
    Apart (copyDst hlir t pd) (hlir.byteWidth t) (copyDst hlir u pd) (hlir.byteWidth u) := by
  rcases h.copyDst_cases ht with ⟨hbuf, hp⟩ | hslot
  · rcases h.copyDst_cases hu with ⟨-, hq⟩ | hslot'
    · exact h.apart t ht u hu hne _ _ hp hq hbuf
    · intro hobj
      rw [hbuf, hslot'] at hobj
      cases hobj
  · rcases h.copyDst_cases hu with ⟨hbuf, -⟩ | hslot'
    · intro hobj
      rw [hbuf, hslot] at hobj
      cases hobj
    · rw [hslot, hslot']
      exact apart_tmpSlot hne

theorem inside_copyDst (h : FixedAtPlaces hlir pd) (ht : t < hlir.headerCount) :
    (copyDst hlir t pd).off + hlir.byteWidth t ≤ pd.objSize hlir (copyDst hlir t pd).obj := by
  rcases h.copyDst_cases ht with ⟨hbuf, hp⟩ | hslot
  · rw [hbuf]
    exact h.inside t ht _ hp hbuf
  · rw [hslot]
    exact (hlir.byteOffset_succ t).symm.trans_le (hlir.byteOffset_le _)

/-- The bytes of a fixed-width header fit into each header of its type. -/
theorem copyFits (h : FixedAtPlaces hlir pd) (hdst : dst < hlir.headerCount)
    (hsrc : src < hlir.headerCount) (hne : dst ≠ src)
    (hwidth : hlir.byteWidth dst = hlir.byteWidth src) {p : Ptr Obj}
    (hp : (pd.headers src).pointer = some p) : CopyFits hlir dst src pd p := by
  have hlen : copyLen hlir src pd = hlir.byteWidth src := by
    rw [copyLen, h.vwSize src hsrc]
    rfl
  have hsrcPtr : copyDst hlir src pd = p := by rw [copyDst, hp, Option.getD_some]
  have hsrcIn := h.inside_copyDst hsrc
  have hdstIn := h.inside_copyDst hdst
  rw [hsrcPtr] at hsrcIn
  rw [hwidth] at hdstIn
  have hapart := h.apart_copyDst hdst hsrc hne
  rw [hsrcPtr, hwidth] at hapart
  refine ⟨?_, ?_, by rwa [hlen], by rwa [hlen], .inr ⟨?_, by rwa [hlen], ?_⟩⟩
  · rw [h.size dst hdst, h.size src hsrc, hwidth]
  · rw [h.vwSize dst hdst, h.vwSize src hsrc]
  · rw [h.size src hsrc, hlen]
  · rw [hlen, ← hwidth]
    refine ⟨?_, ?_, ?_⟩
    · intro t ht hne' q hq
      have hqPtr : copyDst hlir t pd = q := by rw [copyDst, hq, Option.getD_some]
      rw [h.size t ht, ← hqPtr]
      exact h.apart_copyDst hdst ht hne'.symm
    · intro t ht hne' _
      rcases h.copyDst_cases hdst with ⟨hbuf, -⟩ | hslot
      · intro hobj
        rw [hbuf] at hobj
        cases hobj
      · rw [hslot]
        exact apart_tmpSlot hne'.symm
    · intro _
      rw [h.size dst hdst, Nat.sub_self]
      exact .inr (.inr (.inl rfl))

end FixedAtPlaces

/-- **Headers of one type without a variable-width part are copied right.** -/
theorem headerCopyLaw_of_fixed (h : FixedAtPlaces hlir pd) (hdst : dst < hlir.headerCount)
    (hsrc : src < hlir.headerCount) (hne : dst ≠ src)
    (hwidth : hlir.byteWidth dst = hlir.byteWidth src) : HeaderCopyLaw hlir dst src pd := by
  cases hp : (pd.headers src).pointer with
  | none => exact headerCopyLaw_of_invalid hp
  | some p => exact (copyFits_iff hp).mpr (h.copyFits hdst hsrc hne hwidth hp)

/-! ### A header with a variable-width part -/

/-- Two headers of one type, with a field of up to 16 bits behind one of 8. -/
def optionsHlir : Hlir where
  headerInstances := [{ size := 8, byteWidth := 1, isVw := true, vwFldSize := 16 },
    { size := 8, byteWidth := 1, isVw := true, vwFldSize := 16 }]

/-- The second header was extracted with 8 bits in this field. -/
def optionsPd : PacketDescriptor where
  mem _ := 0
  wrapper := { dataOff := 0, dataLen := 2, pktLen := 2, bufLen := 2 }
  data := some ⟨.buf, 0⟩
  extractPtr := ⟨.buf, 2⟩
  headers i :=
    { type := i, pointer := if i = 1 then some ⟨.buf, 0⟩ else none, size := if i = 1 then 2 else 1
      vwSize := if i = 1 then 8 else 0, wasEnabledAtInitialParse := i = 1 }
  stkCurrent _ := -1
  headerReorder := []
  deparseSize := 0
  parsedSize := 2
  payloadSize := 0
  isDeparseReordering := false
  egressPort := 0

/-- The first header becomes valid with the size that it had. -/
theorem options_not_copied : ¬ ∀ (hlir : Hlir) (dst src : ℕ) (pd : PacketDescriptor),
    dst < hlir.headerCount → src < hlir.headerCount → dst ≠ src →
      hlir.headerInstance dst = hlir.headerInstance src → HeaderCopyLaw hlir dst src pd := by
  intro h
  have hlaw := h optionsHlir 0 1 optionsPd (by decide) (by decide) Nat.zero_ne_one rfl
  have hsize : (optionsPd.headers 0).size = (optionsPd.headers 1).size :=
    ((copyFits_iff rfl).mp hlaw).size
  exact absurd hsize (by decide)

end T4P4S
