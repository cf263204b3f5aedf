/-
Assignments to fields of a packet: all forms that go through a buffer.

`gen_do_assignment` calls `MODIFY` with `src_buf`, the width of which is in bits; it
passes the number of bytes of the value, or `sizeof` of a C type.  Above 32 bits the
variable is a pointer, and the buffer is the pointer itself.

* **`modifyNet_iff`**, **`modifyAsNeeded_iff`** — both forms are right for a field of one
  byte, to which the handle points, and for no other;
* **`assignLaw_iff`** — the exact assignments that copy the whole value, of all forms.
-/
import T4P4S.FieldAssign

open ByteString CMem NetBits

namespace T4P4S

/-! ### The forms of gen_do_assignment -/

/-- `sizeof` of the C type for `size` bits; above 32 bits this is `uint8_t*`. -/
def sizeofType (size : ℕ) : ℕ := if size ≤ 32 then sizeup size false / 8 else 8

/-- The bytes of `$tmpvar` for `ENDIAN_NET`, after `net2t4p4s`.  The value of the source
is `left`; a field is formatted as the address of a variable that has it. -/
def tmpvarNet (size : ℕ) (isField : Bool) (env : AssignEnv) : List Byte :=
  if size ≤ 32 then
    netBytes (sizeofType size) (if isField then env.addr else env.left)
  else
    hostBytes (sizeofType size) env.addr

/-- The bytes of `$tmpvar` for `ENDIAN_CONVERT_AS_NEEDED`. -/
def tmpvarAsNeeded (size : ℕ) (env : AssignEnv) : List Byte :=
  hostBytes (sizeofType size) (if size ≤ 32 then env.left else env.addr)

/-- `gen_do_assignment` to a member of type `Type_Bits`: the width that is passed is the
number of bytes. -/
def doAssignmentNet (dst : PktField) (isField : Bool) (env : AssignEnv)
    (pd : PacketDescriptor) : Option PacketDescriptor :=
  modify dst (.buf (tmpvarNet dst.field.size isField env) (toBytes dst.field.size)) .net pd

/-- `gen_do_assignment` to a member of another type: the width that is passed is
`sizeof`. -/
def doAssignmentAsNeeded (dst : PktField) (env : AssignEnv) (pd : PacketDescriptor) :
    Option PacketDescriptor :=
  modify dst (.buf (tmpvarAsNeeded dst.field.size env) (sizeofType dst.field.size))
    .convertAsNeeded pd

/-- A destination of whole bytes and fixed width. -/
structure ModifySetting (dst : PktField) (pd : PacketDescriptor) : Prop where
  located : dst.Located pd
  aligned : dst.field.offset % 8 = 0
  whole : dst.field.size % 8 = 0
  pos : 0 < dst.field.size
  fixed : dst.field.isVw = false

/-- The statement is right for all contents of the memory and all values. -/
def ModifyLaw (dst : PktField) (stmt : AssignEnv → PacketDescriptor → Option PacketDescriptor)
    (pd : PacketDescriptor) : Prop :=
  ∀ (mem : Mem Obj Byte) (env : AssignEnv), env.left < 2 ^ dst.field.size →
    ∃ pd', stmt env { pd with mem } = some pd' ∧
      Assigned dst (netBytes (toBytes dst.field.size) env.left) { pd with mem } pd'

/-! ### All forms -/

/-- The forms in which an assignment to a field is generated with a buffer. -/
inductive AssignForm
  | wide (src : WideSource)
  | modifyNet (isField : Bool)
  | modifyAsNeeded

def AssignSetting (dst : PktField) (pd : PacketDescriptor) : AssignForm → Prop
  | .wide src => WideSetting dst src pd
  | .modifyNet _ => ModifySetting dst pd
  | .modifyAsNeeded => ModifySetting dst pd

def AssignLaw (hlir : Hlir) (dst : PktField) (pd : PacketDescriptor) : AssignForm → Prop
  | .wide src => WideLaw hlir dst src pd
  | .modifyNet isField => ModifyLaw dst (doAssignmentNet dst isField) pd
  | .modifyAsNeeded => ModifyLaw dst (doAssignmentAsNeeded dst) pd

def AssignFits (hlir : Hlir) (dst : PktField) (pd : PacketDescriptor) : AssignForm → Prop
  | .wide src => WideFits hlir dst pd src
  | .modifyNet isField => dst.field.size = 8 ∧ isField = false ∧ dst.Placed pd
  | .modifyAsNeeded => dst.field.size = 8 ∧ dst.Placed pd

/-! ### What the forms write -/

variable {dst : PktField} {pd : PacketDescriptor}

theorem ModifySetting.bytewidth (hset : ModifySetting dst pd) :
    (getHandleFld dst.layout (dst.hdrDesc pd) dst.fld).bytewidth = toBytes dst.field.size := by
  have hwidth : currentWidth dst.layout (dst.hdrDesc pd) dst.fld = dst.field.size :=
    width_of_fixed hset.fixed
  rw [bytewidth_getHandleFld hset.located.one, hset.aligned, hwidth]
  rfl

/-- The number of one byte that is written at the handle is right iff it is the value
and the handle points to the field. -/
theorem modifyLaw_byte_iff (hsize : dst.field.size = 8)
    {stmt : AssignEnv → PacketDescriptor → Option PacketDescriptor} {byte : AssignEnv → ℕ}
    (hstmt : ∀ (mem : Mem Obj Byte) (env : AssignEnv), stmt env { pd with mem } =
      some { pd with mem := put mem (dst.handlePlace pd) (netBytes 1 (byte env)) }) :
    ModifyLaw dst stmt pd ↔ ∀ (mem : Mem Obj Byte) (env : AssignEnv), env.left < 2 ^ 8 →
      put mem (dst.handlePlace pd) (netBytes 1 (byte env)) =
        put mem (dst.place pd) (netBytes 1 env.left) := by
  rw [ModifyLaw, hsize]
  refine forall_congr' fun mem => forall_congr' fun env => imp_congr_right fun _ => ?_
  rw [hstmt]
  constructor
  · rintro ⟨pd', hpd', hassigned⟩
    rw [Option.some_inj] at hpd'
    subst hpd'
    exact assigned_iff.mp hassigned
  · exact fun hput => ⟨_, rfl, assigned_iff.mpr hput⟩

/-- The value itself is right iff the handle points to the field. -/
theorem modifyLaw_byte_iff_placed (hsize : dst.field.size = 8)
    {stmt : AssignEnv → PacketDescriptor → Option PacketDescriptor}
    (hstmt : ∀ (mem : Mem Obj Byte) (env : AssignEnv), stmt env { pd with mem } =
      some { pd with mem := put mem (dst.handlePlace pd) (netBytes 1 env.left) }) :
    ModifyLaw dst stmt pd ↔ dst.Placed pd := by
  rw [modifyLaw_byte_iff hsize hstmt]
  have hnumber := @put_number_iff (dst.handlePlace pd) (dst.place pd) 1 8 (netBytes 1) Nat.one_pos
    (length_netBytes 1) (netBytes_zero 1)
  constructor
  · intro h
    exact (hnumber.mp fun mem env hleft _ => h mem env hleft).1
  · intro hplaced mem env hleft
    rw [hplaced]

/-- A statement that leaves zeros for a value other than zero is wrong. -/
theorem not_modifyLaw (hset : ModifySetting dst pd)
    {stmt : AssignEnv → PacketDescriptor → Option PacketDescriptor} {v : ℕ} (hpos : 0 < v)
    (hlt : v < 2 ^ dst.field.size)
    (hzero : ∀ pd', stmt ⟨v, 0, .bAnd, 0⟩ { pd with mem := fun _ => 0 } = some pd' →
      pd'.mem = fun _ => 0) : ¬ ModifyLaw dst stmt pd := by
  intro hlaw
  obtain ⟨pd', hpd', hassigned⟩ := hlaw (fun _ => 0) ⟨v, 0, .bAnd, 0⟩ hlt
  have hbytes := hassigned.bytes
  have hload : ∀ (q : Ptr Obj) (n : ℕ), load pd'.mem q n = netBytes n 0 := by
    intro q n
    rw [hzero pd' hpd', netBytes_zero, load, List.map_const', List.length_range]
  rw [length_netBytes, hload, netBytes, netBytes, List.reverse_inj, hostBytes_eq_iff, Nat.ModEq,
    Nat.zero_mod] at hbytes
  have hwhole := hset.whole
  have hpow : 2 ^ dst.field.size = 256 ^ toBytes dst.field.size := by
    rw [toBytes_of_mod hwhole, show 256 = 2 ^ 8 from rfl, ← Nat.pow_mul]
    congr 1
    omega
  rw [hpow] at hlt
  rw [Nat.mod_eq_of_lt hlt] at hbytes
  exact absurd hbytes hpos.ne

/-- Zeros that are written into zeros. -/
theorem put_zeros (q : Ptr Obj) {bs : List Byte} (hzero : ∀ b ∈ bs, b = 0) :
    put (fun _ => 0) q bs = fun _ => 0 := by
  refine (eq_put_iff.mpr ⟨?_, fun _ _ => rfl⟩).symm
  rw [load, List.map_const', List.length_range]
  exact (List.eq_replicate_of_mem hzero).symm

/-! ### ENDIAN_NET -/

/-- Of a number 1 the first bytes are copied, which are zero. -/
theorem take_tmpvarNet_zero {size : ℕ} {isField : Bool} (hpos : 0 < size) (hwhole : size % 8 = 0)
    (hne : ¬ (size = 8 ∧ isField = false)) :
    ∀ b ∈ (tmpvarNet size isField ⟨1, 0, .bAnd, 0⟩).take ((toBytes size + 7) / 8), b = 0 := by
  have hzeros : ∀ n k : ℕ, ∀ b ∈ (netBytes n 0).take k, b = 0 := by
    intro n k b hb
    rw [netBytes_zero] at hb
    exact List.eq_of_mem_replicate (List.mem_of_mem_take hb)
  by_cases hle : size ≤ 32
  · rw [tmpvarNet, if_pos hle]
    cases isField with
    | true => exact hzeros _ _
    | false =>
      have hcases : size = 16 ∨ size = 24 ∨ size = 32 := by
        have : size ≠ 8 := fun h => hne ⟨h, rfl⟩
        omega
      rcases hcases with rfl | rfl | rfl <;> decide
  · rw [tmpvarNet, if_neg hle, hostBytes_zero, ← netBytes_zero]
    exact hzeros _ _

theorem modifyNet_iff {isField : Bool} (hset : ModifySetting dst pd) :
    ModifyLaw dst (doAssignmentNet dst isField) pd ↔
      dst.field.size = 8 ∧ isField = false ∧ dst.Placed pd := by
  by_cases hone : dst.field.size = 8 ∧ isField = false
  · obtain ⟨hsize, rfl⟩ := hone
    have hstmt : ∀ (mem : Mem Obj Byte) (env : AssignEnv),
        doAssignmentNet dst false env { pd with mem } =
          some { pd with mem := put mem (dst.handlePlace pd) (netBytes 1 env.left) } := by
      intro mem env
      have hbytes := hset.bytewidth
      rw [hsize] at hbytes
      rw [doAssignmentNet, modify_of_fixed hset.located.valid hset.fixed, hsize]
      show (modifyBufImpl _ _ 1 mem).map _ = _
      rw [modifyBufImpl_eq rfl (by exact hbytes.ge)
        (by rw [tmpvarNet, if_pos (by decide), length_netBytes]; decide)]
      dsimp only
      rw [hbytes]
      rfl
    have hplaced := modifyLaw_byte_iff_placed hsize hstmt
    exact ⟨fun hlaw => ⟨hsize, rfl, hplaced.mp hlaw⟩, fun h => hplaced.mpr h.2.2⟩
  · refine iff_of_false ?_ fun h => hone ⟨h.1, h.2.1⟩
    refine not_modifyLaw hset Nat.one_pos (Nat.one_lt_two_pow hset.pos.ne') ?_
    intro pd' hpd'
    rw [doAssignmentNet, modify_of_fixed hset.located.valid hset.fixed] at hpd'
    obtain ⟨m, hm, rfl⟩ := Option.map_eq_some_iff.mp hpd'
    have hm' : modifyBufImpl _ _ ((toBytes dst.field.size + 7) / 8) _ = some m := hm
    have hle : (toBytes dst.field.size + 7) / 8 ≤
        (tmpvarNet dst.field.size isField ⟨1, 0, .bAnd, 0⟩).length := by
      by_contra hgt
      rw [modifyBufImpl, if_neg fun h => hgt h.2] at hm'
      cases hm'
    have hwidth : (toBytes dst.field.size + 7) / 8 ≤
        (getHandleFld dst.layout (dst.hdrDesc pd) dst.fld).bytewidth := by
      have hpos := hset.pos
      rw [hset.bytewidth, toBytes]
      omega
    rw [modifyBufImpl_eq rfl hwidth hle, Option.some_inj] at hm'
    subst hm'
    refine put_zeros _ fun b hb => ?_
    rcases List.mem_append.mp hb with hb | hb
    · exact List.eq_of_mem_replicate hb
    · exact take_tmpvarNet_zero hset.pos hset.whole hone b hb

/-! ### ENDIAN_CONVERT_AS_NEEDED -/

/-- A memory is its bits. -/
theorem eq_of_forall_bitAt {m m' : ℕ → Byte} (h : ∀ i, bitAt m i = bitAt m' i) : m = m' := by
  funext a
  rw [← byteOf_bitAt m a, ← byteOf_bitAt m' a]
  congr 1
  funext j
  exact h _

/-- A 32-bit write to a field of one byte stores one byte. -/
theorem modify32_byte {layout : HeaderLayout} {fld : ℕ} (hlen : fld < layout.fields.length)
    (hnot : (layout.field fld).isVw = false) (hsize : (layout.field fld).size = 8)
    (haligned : (layout.field fld).offset % 8 = 0) (hd : HdrDesc) (v : BitVec 32)
    (m : ℕ → Byte) : modify32 layout hd fld v m =
      store8 m (getHandleFld layout hd fld).pointer (v.setWidth 8) := by
  have hshort : ShortField layout fld := ⟨hlen, hnot, by omega, by omega, by omega⟩
  cases hmeta : layout.isMetadata with
  | true =>
    have horder : (getHandleFld layout hd fld).isT4p4sByteOrder = true := hmeta
    have hcount : (getHandleFld layout hd fld).bytecount = 1 := by
      rw [bytecount_getHandleFld hnot, hsize, haligned]
      rfl
    rw [modify32, modify32Impl, horder, if_pos rfl, modify32T4p4sOrder, hcount, if_pos rfl]
  | false =>
    refine eq_of_forall_bitAt fun i => ?_
    rw [bitAt_modify32 hshort hmeta, handleStart, hsize, haligned, Nat.add_zero]
    set p := (getHandleFld layout hd fld).pointer
    simp only [bitAt, store8]
    by_cases hin : i / 8 = p
    · rw [if_pos (by omega), if_pos hin, BitVec.getMsbD_eq_getLsbD, BitVec.getLsbD_setWidth,
        decide_eq_true (by omega), decide_eq_true (by omega), Bool.true_and, Bool.true_and]
      congr 1
      omega
    · rw [if_neg (by omega), if_neg hin]

/-- Storing one byte of an object. -/
theorem setObjBytes_store8 (m : Mem Obj Byte) (o : Obj) (p : ℕ) (b : Byte) :
    setObjBytes m o (store8 (objBytes m o) p b) = put m ⟨o, p⟩ [b] := by
  funext a
  rw [setObjBytes]
  by_cases ha : a = ⟨o, p⟩
  · subst ha
    have hput := @put_add _ _ _ m (⟨o, p⟩ : Ptr Obj) [b] 0 Nat.one_pos
    rw [if_pos rfl, store8, if_pos rfl]
    exact hput.symm
  · rw [put_of_not_inBlock]
    · split
      · next hobj =>
        rw [store8, if_neg fun hoff => ha (Ptr.ext hobj hoff), objBytes, ← hobj]
      · rfl
    · rintro ⟨hobj, hlo, hhi⟩
      refine ha (Ptr.ext hobj ?_)
      simp only [List.length_singleton] at hhi
      exact Nat.le_antisymm (Nat.lt_succ_iff.mp hhi) hlo

/-- Zero that is written into zeros. -/
theorem modify32Impl_zero (fd : BitfieldHandle) :
    modify32Impl (fun _ => 0) fd 0#32 = fun _ => 0 := by
  have h8 : ∀ p, store8 (fun _ => 0) p ((0#32).setWidth 8) = fun _ => 0 := by
    intro p
    funext a
    rw [store8]
    split <;> rfl
  have h32 : ∀ p, store32 (fun _ => 0) p 0#32 = fun _ => 0 := by
    intro p
    funext a
    rw [store32]
    split
    · simp
    · rfl
  have hload : ∀ p, load32 (fun _ => 0) p = 0#32 := by
    intro p
    show word32 0 0 0 0 = 0#32
    decide
  have hswap : bswap32 0#32 = 0#32 := by decide
  rw [modify32Impl, modify32T4p4sOrder, modify32ImplNetOrder, hload, hswap]
  split_ifs
  · exact h8 _
  · exact h32 _
  · rw [BitVec.zero_and, BitVec.zero_shiftLeft, BitVec.zero_and, BitVec.or_zero, hswap]
    exact h32 _

theorem modifyAsNeeded_run (hset : ModifySetting dst pd) (mem : Mem Obj Byte) (env : AssignEnv) :
    doAssignmentAsNeeded dst env { pd with mem } = some { pd with
      mem := setObjBytes mem (dst.headerPtr pd).obj (modify32 dst.layout (dst.hdrDesc pd) dst.fld
        (BitVec.ofNat 32 ((if dst.field.size ≤ 32 then env.left else env.addr) % 256))
        (objBytes mem (dst.headerPtr pd).obj)) } := by
  have hk : (sizeofType dst.field.size + 7) / 8 = 1 := by
    rw [sizeofType, sizeup]
    split_ifs <;> rfl
  have hpos : 1 ≤ sizeofType dst.field.size := by
    omega
  rw [doAssignmentAsNeeded, modify_of_fixed hset.located.valid hset.fixed]
  show (modify32BufImpl _ (tmpvarAsNeeded _ _) ((sizeofType _ + 7) / 8) mem).map _ = _
  rw [hk, modify32BufImpl, tmpvarAsNeeded, length_hostBytes, if_pos ⟨by decide, hpos⟩,
    take_hostBytes hpos, hostNat_hostBytes, Nat.pow_one]
  rfl

theorem modifyAsNeeded_iff (hset : ModifySetting dst pd) :
    ModifyLaw dst (doAssignmentAsNeeded dst) pd ↔ dst.field.size = 8 ∧ dst.Placed pd := by
  by_cases hsize : dst.field.size = 8
  · have hstmt : ∀ (mem : Mem Obj Byte) (env : AssignEnv),
        doAssignmentAsNeeded dst env { pd with mem } =
          some { pd with mem := put mem (dst.handlePlace pd) (netBytes 1 env.left) } := by
      intro mem env
      have hbyte : (BitVec.ofNat 32 (env.left % 256)).setWidth 8 = BitVec.ofNat 8 env.left := by
        rw [← BitVec.toNat_inj, BitVec.toNat_setWidth, BitVec.toNat_ofNat, BitVec.toNat_ofNat]
        omega
      rw [modifyAsNeeded_run hset, if_pos (by omega),
        modify32_byte hset.located.lt_length hset.fixed hsize hset.aligned, hbyte,
        setObjBytes_store8]
      rfl
    have hplaced := modifyLaw_byte_iff_placed hsize hstmt
    exact ⟨fun hlaw => ⟨hsize, hplaced.mp hlaw⟩, fun h => hplaced.mpr h.2⟩
  · refine iff_of_false ?_ fun h => hsize h.1
    have hwhole := hset.whole
    have hpos := hset.pos
    -- 256 has zero as its first byte; above 32 bits the address is taken, which is zero here
    refine not_modifyLaw hset (v := 256) (by decide) ?_ ?_
    · exact Nat.pow_lt_pow_right (by decide : 1 < 2) (by omega : 8 < dst.field.size)
    · intro pd' hpd'
      have hvalue : (if dst.field.size ≤ 32 then 256 else 0) % 256 = 0 := by
        split <;> rfl
      rw [modifyAsNeeded_run hset, Option.some_inj] at hpd'
      subst hpd'
      dsimp only
      rw [hvalue]
      show setObjBytes _ _ (modify32Impl (fun _ => 0) _ 0#32) = _
      rw [modify32Impl_zero]
      funext a
      rw [setObjBytes, ite_self]

/-! ### All assignments -/

/-- **An assignment copies the whole value iff it is one through a buffer that fits, or
one of `gen_do_assignment` to a field of one byte, in network order not from a field, and
the handle points to the field.** -/
theorem assignLaw_iff {hlir : Hlir} {form : AssignForm} (hset : AssignSetting dst pd form) :
    AssignLaw hlir dst pd form ↔ AssignFits hlir dst pd form := by
  cases form with
  | wide src => exact wideLaw_iff hset
  | modifyNet isField => exact modifyNet_iff hset
  | modifyAsNeeded => exact modifyAsNeeded_iff hset

/-- A header of one field of 48 bits. -/
def macField : PktField where
  layout := { fields := [{ offset := 0, size := 48 }] }
  hdr := 0
  fld := 0

/-- The header is at the beginning of the packet. -/
def macPd : PacketDescriptor :=
  { noHeaderPd with
    headers := fun i =>
      { type := i, pointer := some ⟨.buf, 0⟩, size := 6, vwSize := 0,
        wasEnabledAtInitialParse := true } }

theorem macField_not_isVw : ∀ i, (macField.layout.field i).isVw = false
  | 0 => rfl
  | _ + 1 => rfl

theorem macField_located : macField.Located macPd where
  one i _ hi _ := absurd hi (ne_true_of_eq_false (macField_not_isVw i))
  lt_length := by decide
  valid := rfl

/-- A variable of 48 bits is assigned to the field. -/
theorem macField_assignLaw :
    AssignLaw { headerInstances := [] } macField macPd (.wide .localVar) := by
  have hset : AssignSetting macField macPd (.wide .localVar) :=
    { wide := by decide
      dst_located := macField_located
      aligned := rfl
      whole := fun _ => rfl
      src_located := fun s hs => absurd hs List.not_mem_nil
      same_type := fun s hs => absurd hs List.not_mem_nil
      vw_source := fun h => absurd h (ne_true_of_eq_false (macField_not_isVw 0))
      vw_whole := fun _ s hs => absurd hs List.not_mem_nil }
  refine (assignLaw_iff hset).mpr ?_
  show macField.Placed macPd
  rfl

/-- Of the six bytes of a value, `MODIFY` is told that they are six bits. -/
theorem not_assignLaw : ¬ ∀ (hlir : Hlir) (dst : PktField) (pd : PacketDescriptor)
    (form : AssignForm), AssignSetting dst pd form → AssignLaw hlir dst pd form := by
  intro h
  have hset : ModifySetting macField macPd :=
    ⟨macField_located, rfl, rfl, by decide, macField_not_isVw 0⟩
  have hlaw := h { headerInstances := [] } macField macPd (.modifyNet false) hset
  exact absurd ((modifyNet_iff hset).mp hlaw).1 (by decide)

end T4P4S
