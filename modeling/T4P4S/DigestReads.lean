/-
Digests on their way to the controller.

The generated code makes a digest, adds its fields one by one and sends it; the
controller looks for the handler with the name of the digest, which reads the fields at
their places.

* **`exists_makeDigest`** — a digest of at most eleven fields of at most 256 bits is made,
  and its message says what it was made of;
* **`digests_arrive`** — so the handler gets what the dataplane has seen, in order and at
  most once, and all of it if the queue of the controller is never full; of a port it keeps one
  byte.
-/
import Mathlib.Data.List.Find
import T4P4S.Connection
import T4P4S.Digests

open ByteString Transition

namespace T4P4S

namespace DigestMsg

/-! ### Making a digest -/

/-- The calls of `add_digest_field` in a row; nobody looks at what they return. -/
def addDigestFields : List FieldCall → Buffer → Option Buffer
  | [], data => some data
  | call :: calls, data => do
    let r ← addDigestField data p4BgMemCellSize call.value call.bitlength
    addDigestFields calls r.1

/-- `send_digest`, on the content of the cell. -/
def sendDigest (digest : Buffer) : Buffer := (netconvP4Header 0 ⟨digest, []⟩).mem

/-- What the generated code does for a digest. -/
def makeDigest (data : Buffer) (name : List Byte) (calls : List FieldCall) : Option Buffer := do
  let digest ← createDigest data p4BgMemCellSize name
  let digest ← addDigestFields calls digest
  return sendDigest digest

/-- How many bytes of the value are in the message. -/
def FieldCall.bytes (call : FieldCall) : ℕ := (call.bitlength.toNat + 7) / 8

/-- The message of a digest with the name and the fields. -/
structure Says (cell : Buffer) (name : P4Name) (calls : List FieldCall) : Prop where
  type : slice cell offType 1 = hostBytes 1 p4tDigest
  name : slice cell offFieldListName (name.1 ++ [0]).length = name.1 ++ [0]
  value : ∀ i call, calls[i]? = some call →
    slice cell (digestLength i + offFieldValue) call.bytes = slice call.value 0 call.bytes

section Says

variable {cell cell' data : Buffer} {name : P4Name} {calls : List FieldCall}

theorem FieldCall.bytes_le {call : FieldCall} (h : FieldFits call.bitlength) :
    0 < call.bytes ∧ call.bytes ≤ 32 := by
  obtain ⟨hpos, hle⟩ := h
  rw [FieldCall.bytes]
  omega

/-- The place of a field in the message. -/
theorem digestLength_field {i n k : ℕ} (hi : i < n) (hk : k ≤ 32) :
    offListSize < digestLength i + offFieldValue ∧
      digestLength i + offFieldValue + k ≤ digestLength n := by
  simp only [digestLength, sizeofP4Digest, sizeofP4DigestField, offListSize, offFieldValue]
  omega

/-- The length and the number of fields do not count. -/
theorem Says.congr (h : Says cell name calls) (hcalls : ∀ call ∈ calls, FieldFits call.bitlength)
    (htype : cell' offType = cell offType)
    (hcell : ∀ i < digestLength calls.length, offFieldListName ≤ i → i ≠ offListSize →
      cell' i = cell i) : Says cell' name calls := by
  have hlen := P4Name.length_lt name
  refine ⟨?_, ?_, fun i call hi => ?_⟩
  · rw [← h.type]
    refine slice_congr fun i hi => ?_
    obtain rfl : i = 0 := by omega
    exact htype
  · refine (slice_congr fun i hi => ?_).trans h.name
    have hsize := offListSize_lt_digestLength calls.length
    simp only [offFieldListName, offListSize] at hcell hsize ⊢
    exact hcell _ (by omega) (by omega) (by omega)
  · obtain ⟨hlt, hget⟩ := List.getElem?_eq_some_iff.mp hi
    obtain ⟨-, hbytes⟩ := FieldCall.bytes_le (hcalls call (hget ▸ List.getElem_mem hlt))
    obtain ⟨hplace, hroom⟩ := digestLength_field hlt hbytes
    refine (slice_congr fun j hj => ?_).trans (h.value i call hi)
    have hname : offFieldListName < offListSize := by decide
    exact hcell _ (by omega) (by omega) (by omega)

/-- Swapping the header does not change what the message says. -/
theorem Says.sendDigest (h : Says cell name calls)
    (hcalls : ∀ call ∈ calls, FieldFits call.bitlength) : Says (sendDigest cell) name calls := by
  refine h.congr hcalls ?_ fun i _ hi _ => netconvP4Header_frame hi
  rw [DigestMsg.sendDigest, netconvP4Header, netconvNumber_of_disjoint (.inl (by decide)),
    netconvNumber_of_disjoint (.inl (by decide))]

/-! ### What is made -/

theorem strncpy_eq {n : ℕ} {src : List Byte} (h : src.length < n) :
    strncpy n src = src ++ 0 :: List.replicate (n - src.length - 1) 0 := by
  obtain ⟨k, rfl⟩ := Nat.exists_eq_add_of_lt h
  rw [strncpy, List.take_of_length_le, show src.length + k + 1 - src.length = k + 1 by omega,
    List.replicate_succ, show k + 1 - 1 = k by omega]
  rw [List.length_append, List.length_replicate]
  omega

theorem Write.run_same {m : Buffer} {off : ℕ} (h : m off = 0) : Write.run m ⟨off, [0]⟩ = m := by
  funext i
  by_cases hi : i = off
  · subst hi
    have hrun := @Write.run_of_lt _ ⟨i, [0]⟩ 0 m (by decide : 0 < [0].length)
    exact hrun.trans h.symm
  · refine Write.run_of_notMem m ?_
    simp only [List.length_singleton]
    omega

/-- A digest that was just made says nothing but its name. -/
theorem exists_createDigest (data : Buffer) (name : P4Name) :
    ∃ digest, createDigest data p4BgMemCellSize name.1 = some digest ∧ DigestAt digest 0 ∧
      Says digest name [] := by
  have hname : name.1.length < p4MaxFieldListNameLen := name.2.2
  obtain ⟨hlong, -⟩ | ⟨-, digest, hdigest, hat⟩ := createDigest_eq data name.1
  · exact absurd hlong (Nat.not_le.mpr hname)
  refine ⟨digest, hdigest, hat, ?_⟩
  have hroom : ¬ p4BgMemCellSize ≤ sizeofP4Digest := by decide
  have hshort : ¬ name.1.length > p4MaxFieldListNameLen - 1 := by
    unfold p4MaxFieldListNameLen at hname ⊢
    omega
  simp only [createDigest, createP4Digest, if_neg hroom, Option.bind_eq_bind, Option.bind_some,
    Nat.zero_add, if_neg hshort] at hdigest
  obtain rfl := Option.some.inj hdigest
  set base := (createP4Header data 0 p4BgMemCellSize).getD data
  set made := run [⟨offLength, hostBytes 2 sizeofP4Digest⟩, ⟨offType, hostBytes 1 p4tDigest⟩,
    ⟨offFieldListName, [0]⟩, ⟨offListSize, hostBytes 1 0⟩] base with hmade
  have hcopy := strncpy_eq hname
  have hnamed := slice_run made ⟨offFieldListName, strncpy p4MaxFieldListNameLen name.1⟩
  dsimp only at hnamed
  -- The last byte of the name is zero already.
  have hlast : Write.run made ⟨offFieldListName, strncpy p4MaxFieldListNameLen name.1⟩
      (offFieldListName + (p4MaxFieldListNameLen - 1)) = 0 := by
    have hget := congrArg (·[p4MaxFieldListNameLen - 1]?) hnamed
    rw [length_strncpy, getElem?_slice (by decide)] at hget
    rw [hcopy] at hget ⊢
    rw [List.getElem?_append_right (by unfold p4MaxFieldListNameLen at hname ⊢; omega)] at hget
    cases hk : p4MaxFieldListNameLen - 1 - name.1.length with
    | zero =>
      rw [hk] at hget
      exact Option.some.inj hget
    | succ k =>
      rw [hk, List.getElem?_cons_succ, List.getElem?_replicate, if_pos (by omega)] at hget
      exact Option.some.inj hget
  simp only [run_cons, run_nil]
  rw [Write.run_same hlast]
  refine ⟨?_, ?_, fun i call hi => ?_⟩
  · refine (slice_run_of_disjoint made (.inl (by decide : offType + 1 ≤ offFieldListName))).trans ?_
    refine slice_run_of_last base [⟨offLength, hostBytes 2 sizeofP4Digest⟩]
      ⟨offType, hostBytes 1 p4tDigest⟩ fun w hw => ?_
    simp only [List.mem_cons, List.not_mem_nil, or_false] at hw
    rcases hw with rfl | rfl
    · exact .inl (by decide)
    · exact .inl (by decide)
  · have hpart := @slice_part _ (Write.run made ⟨offFieldListName,
      strncpy p4MaxFieldListNameLen name.1⟩) offFieldListName 0 (name.1 ++ [0]).length
      (strncpy p4MaxFieldListNameLen name.1).length
      (by rw [length_strncpy, Nat.zero_add]; exact P4Name.length_lt name)
    rw [hnamed, List.drop_zero, Nat.add_zero] at hpart
    have hfirst : strncpy p4MaxFieldListNameLen name.1 = name.1 ++ [0] ++
        List.replicate (p4MaxFieldListNameLen - name.1.length - 1) 0 :=
      hcopy.trans (List.append_cons ..)
    rw [← hpart, hfirst]
    exact List.take_left' rfl
  · exact absurd hi (by simp)

/-- A field more. -/
theorem Says.addDigestField (h : Says data name calls) (hat : DigestAt data calls.length)
    (hcalls : ∀ call ∈ calls, FieldFits call.bitlength) (hroom : calls.length < maxDigestFields)
    {call : FieldCall} (hfits : FieldFits call.bitlength) :
    ∃ after, addDigestField data p4BgMemCellSize call.value call.bitlength = some (after, true) ∧
      DigestAt after (calls.length + 1) ∧ Says after name (calls ++ [call]) := by
  obtain ⟨added, after, -, hgrown, hcall⟩ := addDigestField_room hat hroom call.value call.bitlength
  rw [if_neg ((digestByteLength_le_iff _).mpr hfits)] at hcall
  obtain ⟨hafter, hcall⟩ := hcall
  refine ⟨after, hcall, .of_grown hgrown, ?_⟩
  have hsize := offListSize_lt_digestLength calls.length
  have htold : Says after name calls := by
    refine h.congr hcalls (hgrown.frame _ ?_ (.inl (by decide)) (by decide)) fun i hi hname hne =>
      hgrown.frame i hi (.inr ?_) hne
    · exact (by decide : offType < offListSize).trans hsize
    · exact (by decide : offLength + 2 ≤ offFieldListName).trans hname
  refine ⟨htold.type, htold.name, fun i call' hi => ?_⟩
  rcases Nat.lt_trichotomy i calls.length with hlt | rfl | hgt
  · rw [List.getElem?_append_left hlt] at hi
    exact htold.value i call' hi
  · rw [List.getElem?_concat_length] at hi
    obtain rfl := Option.some.inj hi
    rw [hafter]
    exact fillDigestField_value hfits added _ call.value
  · rw [List.getElem?_eq_none (by rw [List.length_append, List.length_singleton]; omega)] at hi
    exact absurd hi (Option.some_ne_none _).symm

theorem exists_addDigestFields {more : List FieldCall} (h : Says data name calls)
    (hat : DigestAt data calls.length)
    (hcalls : ∀ call ∈ calls ++ more, FieldFits call.bitlength)
    (hroom : (calls ++ more).length ≤ maxDigestFields) :
    ∃ after, addDigestFields more data = some after ∧ DigestAt after (calls ++ more).length ∧
      Says after name (calls ++ more) := by
  induction more generalizing calls data with
  | nil =>
    rw [List.append_nil]
    exact ⟨data, rfl, hat, h⟩
  | cons call more ih =>
    obtain ⟨hdone, hmore⟩ := List.forall_mem_append.mp hcalls
    rw [List.length_append, List.length_cons] at hroom
    obtain ⟨after, hadd, hat', h'⟩ := h.addDigestField hat hdone (by omega)
      (hmore call List.mem_cons_self)
    have hsplit : calls ++ call :: more = calls ++ [call] ++ more := List.append_cons ..
    rw [hsplit] at hcalls ⊢
    obtain ⟨last, hlast, htold⟩ := ih h'
      (by rw [List.length_append, List.length_singleton]; exact hat') hcalls
      (by simp only [List.length_append, List.length_singleton]; omega)
    refine ⟨last, ?_, htold⟩
    rw [addDigestFields, hadd]
    exact hlast

/-- **A digest is made, and its message says what it was made of.** -/
theorem exists_makeDigest (data : Buffer) (name : P4Name)
    (hcalls : ∀ call ∈ calls, FieldFits call.bitlength)
    (hroom : calls.length ≤ maxDigestFields) :
    ∃ cell, makeDigest data name.1 calls = some cell ∧
      slice cell offLength 2 = netBytes 2 (digestLength calls.length) ∧ Says cell name calls := by
  obtain ⟨digest, hcreate, hat, htold⟩ := exists_createDigest data name
  obtain ⟨after, hadd, hat', htold'⟩ :=
    exists_addDigestFields htold hat hcalls hroom
  rw [List.nil_append] at hat' htold'
  refine ⟨DigestMsg.sendDigest after, ?_, ?_, htold'.sendDigest hcalls⟩
  · rw [makeDigest, hcreate]
    simp only [Option.bind_eq_bind, Option.bind_some, hadd]
    rfl
  · rw [DigestMsg.sendDigest, netconvP4Header, slice_netconvNumber_of_disjoint (.inl (by decide)),
      Nat.zero_add, slice_netconvNumber, netBytes]
    exact congrArg List.reverse hat'.length

end Says

/-! ### Reading a digest -/

/-- `netconv_p4_digest_field(unpack_p4_digest_field(digest, offset))` -/
def netconvField (digest : Buffer) (offset : ℕ) : Buffer :=
  (netconvP4DigestField offset ⟨digest, []⟩).mem

structure DigestMacport where
  mac : List Byte
  port : Byte

def undigestMacport (digest : Buffer) : DigestMacport :=
  let offset := sizeofP4Digest
  let digest := netconvField digest offset
  let mac := slice digest (offset + offFieldValue) 6
  let offset := offset + sizeofP4DigestField
  let digest := netconvField digest offset
  let port := slice digest (offset + offFieldValue) 2
  ⟨mac, port.headD 0⟩

structure DigestIp where
  ip : List Byte
  prefixLength : ℕ
  i1 : ℤ
  i2 : ℤ
  i3 : ℤ

/-- The `int` with the four bytes. -/
def intAt (b : Buffer) (offset : ℕ) : ℤ := (BitVec.ofNat 32 (b.number offset 4)).toInt

def undigestIp (digest : Buffer) : DigestIp :=
  let offset := sizeofP4Digest
  let digest := netconvField digest offset
  let ip := slice digest (offset + offFieldValue) 4
  let offset := offset + sizeofP4DigestField
  let digest := netconvField digest offset
  let prefixLength := digest.number (offset + offFieldValue) 2
  let offset := offset + sizeofP4DigestField
  let digest := netconvField digest offset
  let i1 := intAt digest (offset + offFieldValue)
  let offset := offset + sizeofP4DigestField
  let digest := netconvField digest offset
  let i2 := intAt digest (offset + offFieldValue)
  let offset := offset + sizeofP4DigestField
  let digest := netconvField digest offset
  let i3 := intAt digest (offset + offFieldValue)
  ⟨ip, prefixLength, i1, i2, i3⟩

/-- What the two functions in `dispatchers` read. -/
inductive L2Digest
  | macLearnDigest (dig : DigestMacport)
  | testLearnIp (dig : DigestIp)

def dispatchers : List (String × (Buffer → L2Digest)) :=
  [("mac_learn_digest", fun digest => .macLearnDigest (undigestMacport digest)),
    ("test_learn_ip", fun digest => .testLearnIp (undigestIp digest))]

/-- What the digest handler reads; `none` for a message that it has no function for. -/
def dhf (b : Buffer) : Option L2Digest :=
  let h := (netconvP4Header 0 ⟨b, []⟩).mem
  if Buffer.number h offType 1 ≠ p4tDigest then none
  else (dispatchers.find? fun d => strcmpEq d.1 h offFieldListName).map fun d => d.2 h

section Reading

variable {cell : Buffer} {name : P4Name} {calls : List FieldCall}

/-- Swapping the width of a field does not change the values. -/
theorem slice_netconvField (digest : Buffer) (i k : ℕ) {n : ℕ} (hn : n ≤ 32) :
    slice (netconvField digest (digestLength k)) (digestLength i + offFieldValue) n =
      slice digest (digestLength i + offFieldValue) n := by
  refine slice_netconvNumber_of_disjoint ?_
  rcases Nat.lt_or_ge i k with hlt | hge
  · obtain ⟨-, hle⟩ := digestLength_field hlt hn
    exact .inl (hle.trans (Nat.le_add_right ..))
  · have hle : digestLength k ≤ digestLength i :=
      Nat.add_le_add_left (Nat.mul_le_mul_left _ hge) _
    simp only [offFieldLength, offFieldValue]
    omega

/-- The first bytes of the value of a field. -/
theorem Says.slice_value (h : Says cell name calls) {i n : ℕ} {call : FieldCall}
    (hi : calls[i]? = some call) (hn : n ≤ call.bytes) :
    slice cell (digestLength i + offFieldValue) n = slice call.value 0 n := by
  have hvalue := congrArg (List.take n) (h.value i call hi)
  obtain ⟨k, hk⟩ := Nat.exists_eq_add_of_le hn
  rwa [hk, slice_add, slice_add, List.take_left' (length_slice ..),
    List.take_left' (length_slice ..)] at hvalue

theorem Says.undigestMacport {mac port : FieldCall} (h : Says cell name [mac, port])
    (hmac : mac.bytes = 6) (hport : 0 < port.bytes) :
    undigestMacport cell = ⟨slice mac.value 0 6, port.value 0⟩ := by
  have hvalue : slice cell (digestLength 0 + offFieldValue) 6 = slice mac.value 0 6 :=
    h.slice_value rfl hmac.ge
  have hfirst : slice cell (digestLength 1 + offFieldValue) 1 = slice port.value 0 1 :=
    h.slice_value rfl hport
  have hread : slice (netconvField (netconvField cell (digestLength 0)) (digestLength 1))
      (digestLength 1 + offFieldValue) 1 = slice port.value 0 1 := by
    rw [slice_netconvField _ _ _ (by decide), slice_netconvField _ _ _ (by decide), hfirst]
  show DigestMacport.mk (slice (netconvField cell (digestLength 0))
    (digestLength 0 + offFieldValue) 6) _ = _
  rw [slice_netconvField _ _ _ (by decide), hvalue]
  exact congrArg (DigestMacport.mk _) (List.cons.inj hread).1

theorem Says.undigestIp {ip prefixLength i1 i2 i3 : FieldCall}
    (h : Says cell name [ip, prefixLength, i1, i2, i3]) (hip : ip.bytes = 4)
    (hplen : prefixLength.bytes = 2) (h1 : i1.bytes = 4) (h2 : i2.bytes = 4)
    (h3 : i3.bytes = 4) :
    undigestIp cell = ⟨slice ip.value 0 4, prefixLength.value.number 0 2, intAt i1.value 0,
      intAt i2.value 0, intAt i3.value 0⟩ := by
  have hip' : slice cell (digestLength 0 + offFieldValue) 4 = _ := h.slice_value rfl hip.ge
  have hplen' : slice cell (digestLength 1 + offFieldValue) 2 = _ :=
    h.slice_value rfl hplen.ge
  have h1' : slice cell (digestLength 2 + offFieldValue) 4 = _ := h.slice_value rfl h1.ge
  have h2' : slice cell (digestLength 3 + offFieldValue) 4 = _ := h.slice_value rfl h2.ge
  have h3' : slice cell (digestLength 4 + offFieldValue) 4 = _ := h.slice_value rfl h3.ge
  simp only [intAt, Buffer.number]
  rw [← hip', ← hplen', ← h1', ← h2', ← h3']
  have hswap := fun digest i k => @slice_netconvField digest i k 4 (by decide)
  have hswap' := fun digest i k => @slice_netconvField digest i k 2 (by decide)
  have hread : DigestMsg.undigestIp cell =
      ⟨slice (netconvField cell (digestLength 0)) (digestLength 0 + offFieldValue) 4,
        hostNat (slice (netconvField (netconvField cell (digestLength 0)) (digestLength 1))
          (digestLength 1 + offFieldValue) 2),
        (BitVec.ofNat 32 (hostNat (slice (netconvField (netconvField (netconvField cell
          (digestLength 0)) (digestLength 1)) (digestLength 2))
          (digestLength 2 + offFieldValue) 4))).toInt,
        (BitVec.ofNat 32 (hostNat (slice (netconvField (netconvField (netconvField (netconvField
          cell (digestLength 0)) (digestLength 1)) (digestLength 2)) (digestLength 3))
          (digestLength 3 + offFieldValue) 4))).toInt,
        (BitVec.ofNat 32 (hostNat (slice (netconvField (netconvField (netconvField (netconvField
          (netconvField cell (digestLength 0)) (digestLength 1)) (digestLength 2))
          (digestLength 3)) (digestLength 4)) (digestLength 4 + offFieldValue) 4))).toInt⟩ := rfl
  rw [hread]
  simp only [hswap, hswap']

/-- The handler is the first one with the name of the digest. -/
theorem Says.dhf (h : Says cell name calls) (hcalls : ∀ call ∈ calls, FieldFits call.bitlength) :
    dhf cell = (dispatchers.find? fun d => decide (nameBytes d.1 = name.1)).map
      fun d => d.2 (DigestMsg.sendDigest cell) := by
  have hswapped := h.sendDigest hcalls
  have htype : (DigestMsg.sendDigest cell).number offType 1 = p4tDigest :=
    number_of_slice hswapped.type (by decide)
  have hterm : ∀ d ∈ dispatchers, 0 ∉ nameBytes d.1 :=
    List.forall_mem_cons.mpr ⟨by decide, List.forall_mem_singleton.mpr (by decide)⟩
  have hcmp : ∀ d ∈ dispatchers, strcmpEq d.1 (DigestMsg.sendDigest cell) offFieldListName =
      decide (nameBytes d.1 = name.1) := fun d hd =>
    Bool.eq_iff_iff.mpr ((strcmpEq_iff (cString_of_slice name hswapped.name) (hterm d hd)).trans
      decide_eq_true_iff.symm)
  rw [DigestMsg.dhf]
  rw [if_neg (fun hne => hne htype)]
  exact congrArg (Option.map _) (List.find?_congr hcmp)

end Reading

/-! ### The way to the controller -/

/-- The variable that a field of at most 32 bits is read into, by `GET32`; there is no
`uint24_t`. -/
inductive DigestVar
  | uint8 (value : BitVec 8)
  | uint16 (value : BitVec 16)
  | uint32 (value : BitVec 32)

namespace DigestVar

def bytes : DigestVar → ℕ
  | uint8 _ => 1
  | uint16 _ => 2
  | uint32 _ => 4

def bits : DigestVar → UInt32
  | uint8 _ => 8
  | uint16 _ => 16
  | uint32 _ => 32

def toNat : DigestVar → ℕ
  | uint8 value => value.toNat
  | uint16 value => value.toNat
  | uint32 value => value.toNat

/-- The generated call for the field, with a pointer to the variable. -/
def call (v : DigestVar) : FieldCall :=
  ⟨Write.run (fun _ => 0) ⟨0, hostBytes v.bytes v.toNat⟩, v.bits⟩

theorem fits (v : DigestVar) : FieldFits v.call.bitlength := by
  cases v with
  | uint8 => exact (⟨by decide, by decide⟩ : FieldFits 8)
  | uint16 => exact (⟨by decide, by decide⟩ : FieldFits 16)
  | uint32 => exact (⟨by decide, by decide⟩ : FieldFits 32)

theorem bytes_call (v : DigestVar) : v.call.bytes = v.bytes := by
  cases v with
  | uint8 => exact (by decide : ((8 : UInt32).toNat + 7) / 8 = 1)
  | uint16 => exact (by decide : ((16 : UInt32).toNat + 7) / 8 = 2)
  | uint32 => exact (by decide : ((32 : UInt32).toNat + 7) / 8 = 4)

theorem slice_call (v : DigestVar) : slice v.call.value 0 v.bytes = hostBytes v.bytes v.toNat := by
  have hrun := slice_run (fun _ => 0) ⟨0, hostBytes v.bytes v.toNat⟩
  rwa [length_hostBytes] at hrun

theorem number_call (v : DigestVar) : v.call.value.number 0 v.bytes = v.toNat := by
  refine number_of_slice v.slice_call ?_
  cases v with
  | uint8 value => exact value.isLt
  | uint16 value => exact value.isLt
  | uint32 value => exact value.isLt

/-- The variable begins with the last byte of the value. -/
theorem value_zero (v : DigestVar) : v.call.value 0 = BitVec.ofNat 8 v.toNat := by
  cases v <;> rfl

end DigestVar

/-- What the dataplane makes a digest of. -/
inductive L2Learn
  | macLearnDigest (mac : Buffer) (port : DigestVar)
  | testLearnIp (ip : BitVec 32) (prefixLength : BitVec 16) (i1 i2 i3 : BitVec 32)

theorem macLearnName_ok : 0 ∉ nameBytes "mac_learn_digest" ∧
    (nameBytes "mac_learn_digest").length < p4MaxNameLen := by decide

theorem learnIpName_ok : 0 ∉ nameBytes "test_learn_ip" ∧
    (nameBytes "test_learn_ip").length < p4MaxNameLen := by decide

namespace L2Learn

def name : L2Learn → P4Name
  | macLearnDigest .. => ⟨nameBytes "mac_learn_digest", macLearnName_ok⟩
  | testLearnIp .. => ⟨nameBytes "test_learn_ip", learnIpName_ok⟩

def calls : L2Learn → List FieldCall
  | macLearnDigest mac port => [⟨mac, 48⟩, port.call]
  | testLearnIp ip prefixLength i1 i2 i3 =>
    [(DigestVar.uint32 ip).call, (DigestVar.uint16 prefixLength).call, (DigestVar.uint32 i1).call,
      (DigestVar.uint32 i2).call, (DigestVar.uint32 i3).call]

/-- What the controller should make of it: the numbers, and of the port its last byte, since the
controller has no more room for a port. -/
def meaning : L2Learn → L2Digest
  | macLearnDigest mac port => .macLearnDigest ⟨slice mac 0 6, BitVec.ofNat 8 port.toNat⟩
  | testLearnIp ip prefixLength i1 i2 i3 =>
    .testLearnIp ⟨hostBytes 4 ip.toNat, prefixLength.toNat, i1.toInt, i2.toInt, i3.toInt⟩

theorem length_calls_le (d : L2Learn) : d.calls.length ≤ maxDigestFields := by
  cases d with
  | macLearnDigest => exact (by decide : 2 ≤ maxDigestFields)
  | testLearnIp => exact (by decide : 5 ≤ maxDigestFields)

theorem calls_fit (d : L2Learn) : ∀ call ∈ d.calls, FieldFits call.bitlength := by
  cases d with
  | macLearnDigest mac port =>
    have hmac : FieldFits 48 := ⟨by decide, by decide⟩
    exact List.forall_mem_cons.mpr ⟨hmac, List.forall_mem_singleton.mpr port.fits⟩
  | testLearnIp =>
    simp only [calls, List.forall_mem_cons]
    exact ⟨DigestVar.fits _, DigestVar.fits _, DigestVar.fits _, DigestVar.fits _,
      DigestVar.fits _, nofun⟩

end L2Learn

/-- An `int` with the bytes of a variable is its value, as a signed number. -/
theorem intAt_call (value : BitVec 32) :
    intAt (DigestVar.uint32 value).call.value 0 = value.toInt := by
  have hnumber : (DigestVar.uint32 value).call.value.number 0 4 = value.toNat :=
    (DigestVar.uint32 value).number_call
  rw [intAt, hnumber, BitVec.ofNat_toNat, BitVec.setWidth_eq]

/-- The controller reads what the dataplane has put into the digest. -/
theorem dhf_told {cell : Buffer} {d : L2Learn} (h : Says cell d.name d.calls) :
    dhf cell = some d.meaning := by
  rw [h.dhf d.calls_fit]
  have hswapped := h.sendDigest d.calls_fit
  cases d with
  | macLearnDigest mac port =>
    have hread := hswapped.undigestMacport (by decide : ((48 : UInt32).toNat + 7) / 8 = 6)
      (FieldCall.bytes_le port.fits).1
    rw [port.value_zero] at hread
    exact congrArg (fun dig => some (L2Digest.macLearnDigest dig)) hread
  | testLearnIp ip prefixLength i1 i2 i3 =>
    have hread := hswapped.undigestIp (DigestVar.bytes_call _) (DigestVar.bytes_call _)
      (DigestVar.bytes_call _) (DigestVar.bytes_call _) (DigestVar.bytes_call _)
    have hip : slice (DigestVar.uint32 ip).call.value 0 4 = hostBytes 4 ip.toNat :=
      (DigestVar.uint32 ip).slice_call
    have hplen : (DigestVar.uint16 prefixLength).call.value.number 0 2 = prefixLength.toNat :=
      (DigestVar.uint16 prefixLength).number_call
    rw [hip, hplen, intAt_call, intAt_call, intAt_call] at hread
    exact congrArg (fun dig => some (L2Digest.testLearnIp dig)) hread

/-- The dataplane makes digests in cells of the pool, which wait in its queue; the controller
reads into new memory, and its handler reads them. -/
def digestEnds : Ends L2Learn L2Digest where
  sends d cell := ∃ data, makeDigest data d.name.1 d.calls = some cell
  handles cell result := dhf cell = result
  sendCell l := FreeCell l.out.size
  readCell _ := True
  handles_total cell := ⟨dhf cell, rfl⟩
  readCell_empty _ _ := trivial

theorem digestEnds_understands : digestEnds.Understands L2Learn.meaning := by
  rintro d cell ⟨data, hmade⟩
  have hcalls := d.calls_fit
  obtain ⟨made, hmade', hlength, htold⟩ := exists_makeDigest data d.name hcalls d.length_calls_le
  obtain rfl : cell = made := Option.some.inj (hmade.symm.trans hmade')
  have hheader : sizeofP4Header ≤ digestLength d.calls.length :=
    (by decide : sizeofP4Header ≤ sizeofP4Digest).trans (Nat.le_add_right ..)
  have hroom : digestLength d.calls.length ≤ p4BgMemCellSize := by
    have hfull : digestLength d.calls.length ≤ digestLength maxDigestFields :=
      Nat.add_le_add_left (Nat.mul_le_mul_left _ d.length_calls_le) _
    exact hfull.trans (by decide)
  obtain ⟨m, hbytes, hrange⟩ := exists_p4Msg hlength hheader hroom
  refine ⟨m, ?_, hrange, ?_⟩
  · rw [Begins, hbytes, length_slice]
  · rintro cell' result hcell' rfl
    have hsame : slice cell' 0 (digestLength d.calls.length) =
        slice cell 0 (digestLength d.calls.length) := by
      rwa [Begins, hbytes, length_slice] at hcell'
    have hbyte : ∀ i < digestLength d.calls.length, cell' i = cell i := by
      intro i hi
      have hget := congrArg (·[i]?) hsame
      simpa [slice, hi] using hget
    have htype : offType < digestLength d.calls.length :=
      (by decide : offType < offListSize).trans (offListSize_lt_digestLength _)
    exact dhf_told (htold.congr hcalls (hbyte _ htype) fun i hi _ _ => hbyte i hi)

/-- **The controller's handler gets what the dataplane has put into its digests, in order and
at most once**, and all of it if nothing is lost.  A digest is lost only if the queue of the
controller is full. -/
theorem digests_arrive {tr : List (ChannelEvent L2Learn L2Digest)} {l : Link}
    (htr : (connection digestEnds).Trace tr l) :
    (∃ digests, (delivered tr ++ digests).Sublist (asked (fun d => [d.meaning]) tr) ∧
      ((∀ e ∈ tr, e.Lossless) → delivered tr ++ digests = asked (fun d => [d.meaning]) tr) ∧
      (l.Idle → digests = []) ∧
      ∃ l', (connection digestEnds).Trace (tr ++ digests.map .delivered) l' ∧ l'.Idle) ∧
    ∀ e l', ConnectionStep digestEnds l (some e) l' → ¬ e.Lossless → ¬ l.inp.HasSpace := by
  obtain ⟨harrive, hfull⟩ := connection_delivered digestEnds_understands htr
  refine ⟨harrive, fun e l' hstep hlost => ?_⟩
  rcases hfull e l' hstep hlost with ⟨hcell, hout⟩ | ⟨-, hinp⟩
  · exact absurd hcell.hasSpace hout
  · exact hinp

/-- The address 00:00:00:00:00:0a was seen on port 1, in a variable of 16 bits. -/
def seenOnPort1 : L2Learn :=
  .macLearnDigest (fun i => if i = 5 then 10 else 0) (.uint16 1)

/-- This digest is sent, and arrives. -/
theorem seenOnPort1_arrives : ∃ l, (connection digestEnds).Trace
    [.sent seenOnPort1 true, .delivered (.macLearnDigest ⟨[0, 0, 0, 0, 0, 10], 1⟩)] l ∧ l.Idle := by
  obtain ⟨cell, hmade, -⟩ := exists_makeDigest (fun _ => 0) seenOnPort1.name seenOnPort1.calls_fit
    seenOnPort1.length_calls_le
  have hsends : digestEnds.sends seenOnPort1 cell := ⟨_, hmade⟩
  obtain ⟨⟨digests, -, hlossless, -, l, htr, hidle⟩, -⟩ :=
    digests_arrive (trace_send freeCell_zero hsends)
  obtain rfl := hlossless (List.forall_mem_singleton.mpr rfl)
  exact ⟨l, htr, hidle⟩

end DigestMsg

end T4P4S
