/-
The message of a digest.

`create_digest` makes a message in a memory cell, and `add_digest_field` adds the
fields, one by one.  It has a field appended before it looks at the width of the
value, and does not look at whether there was room for a field.

* **`addDigestField_length`** — the lengths are those of the digests of
  `CellOwners`.
* **`digestLaw_iff`** — each of a row of additions adds one field or changes nothing,
  iff the values of the first eleven have from 1 to 256 bits, and those of no others.
-/
import T4P4S.CellOwners
import T4P4S.Controller

open ByteString

namespace T4P4S

/-- The `field_list_name` of a `p4_digest`. -/
def offFieldListName : ℕ := 8

def offListSize : ℕ := 136

/-- The `length` of a `p4_digest_field`. -/
def offFieldLength : ℕ := 128

def offFieldValue : ℕ := 132

def p4tDigest : ℕ := 110

/-- What `strncpy` writes into an array of `n` bytes. -/
def strncpy (n : ℕ) (src : List Byte) : List Byte :=
  (src ++ List.replicate (n - src.length) 0).take n

def createP4Digest (buffer : Buffer) (offset maxlength : ℕ) : Option Buffer :=
  if maxlength ≤ offset + sizeofP4Digest then
    none
  else
    some (run [⟨offset + offLength, hostBytes 2 sizeofP4Digest⟩,
      ⟨offset + offType, hostBytes 1 p4tDigest⟩, ⟨offset + offFieldListName, [0]⟩,
      ⟨offset + offListSize, hostBytes 1 0⟩] buffer)

def netconvP4DigestField (m : ℕ) : Traced Byte → Traced Byte :=
  netconvNumber (m + offFieldLength) 4

namespace DigestMsg

/-- The place of the field, and the message, which begins the buffer. -/
def addP4DigestField (digest : Buffer) (maxlength : ℕ) : Option (ℕ × Buffer) :=
  let length := digest.number offLength 2
  let listSize := digest.number offListSize 1
  if maxlength < length + sizeofP4DigestField then
    none
  else
    some (length, run [⟨offLength, hostBytes 2 (length + sizeofP4DigestField)⟩,
      ⟨offListSize, hostBytes 1 (listSize + 1)⟩, ⟨length, [0]⟩,
      ⟨length + offFieldLength, hostBytes 4 0⟩] digest)

/-- `create_digest` behind `touch_mem_cell`, on the content of the cell.  `none` if no digest is
returned. -/
def createDigest (data : Buffer) (length : ℕ) (name : List Byte) : Option Buffer := do
  let data := (createP4Header data 0 length).getD data
  let data ← createP4Digest data 0 length
  if name.length > p4MaxFieldListNameLen - 1 then none
  else some (run [⟨offFieldListName, strncpy p4MaxFieldListNameLen name⟩,
    ⟨offFieldListName + (p4MaxFieldListNameLen - 1), [0]⟩] data)

/-- `add_digest_field`, on the content of the cell; the flag says whether the pointer it returns
is not `NULL`.  `none` if it writes through a `NULL` pointer. -/
def addDigestField (data : Buffer) (length : ℕ) (value : Buffer) (bitlength : UInt32) :
    Option (Buffer × Bool) :=
  let bytelength := digestByteLength bitlength
  let dfield := addP4DigestField data length
  if bytelength > p4MaxFieldValueLength then
    some (dfield.elim data Prod.snd, false)
  else
    dfield.map fun (dfield, data) =>
      let data := run [⟨dfield + offFieldValue,
          slice value 0 (min bytelength.toNat p4MaxFieldValueLength.toNat)⟩,
        ⟨dfield + offFieldLength, hostBytes 4 bitlength.toNat⟩] data
      ((netconvP4DigestField dfield ⟨data, []⟩).mem, true)

/-! ### The law -/

/-- One field was added, which holds the value and its width in network order. -/
structure FieldAppended (before after value : Buffer) (bitlength : UInt32) : Prop where
  length : after.number offLength 2 = before.number offLength 2 + sizeofP4DigestField
  room : after.number offLength 2 ≤ p4BgMemCellSize
  listSize : after.number offListSize 1 = before.number offListSize 1 + 1
  value : slice after (before.number offLength 2 + offFieldValue) ((bitlength.toNat + 7) / 8) =
    slice value 0 ((bitlength.toNat + 7) / 8)
  bitlength : slice after (before.number offLength 2 + offFieldLength) 4 =
    netBytes 4 bitlength.toNat
  earlier : ∀ i < before.number offLength 2, i < offLength ∨ offLength + 2 ≤ i →
    i ≠ offListSize → after i = before i

/-- What `add_digest_field` is called with. -/
structure FieldCall where
  value : Buffer
  bitlength : UInt32

/-- A field is added, or 0 is returned and the message is as it was. -/
def FieldAtomic (data : Buffer) (call : FieldCall) : Prop :=
  (∃ after, addDigestField data p4BgMemCellSize call.value call.bitlength = some (after, true) ∧
      FieldAppended data after call.value call.bitlength) ∨
    ∃ after, addDigestField data p4BgMemCellSize call.value call.bitlength = some (after, false) ∧
      ∀ i < data.number offLength 2, after i = data i

/-- So it is for each of a row of calls, up to one that never returns. -/
def CallsAtomic : Buffer → List FieldCall → Prop
  | _, [] => True
  | data, call :: calls => FieldAtomic data call ∧ ∀ after ok,
    addDigestField data p4BgMemCellSize call.value call.bitlength = some (after, ok) →
      CallsAtomic after calls

/-- All calls on a digest that `create_digest` returned, in a cell of the pool. -/
def DigestLaw (data : Buffer) (name : List Byte) (calls : List FieldCall) : Prop :=
  ∀ digest, createDigest data p4BgMemCellSize name = some digest → CallsAtomic digest calls

/-- A value of that many bits fits into a field. -/
def FieldFits (bitlength : UInt32) : Prop := 0 < bitlength.toNat ∧ bitlength.toNat ≤ 8 * 32

/-- How many fields there are in a full message. -/
def maxDigestFields : ℕ := 11

/-! ### Widths -/

theorem toNat_digestByteLength (bitlength : UInt32) (h : 0 < bitlength.toNat) :
    (digestByteLength bitlength).toNat = (bitlength.toNat + 7) / 8 := by
  have hlt := bitlength.toNat_lt
  rw [digestByteLength, UInt32.toNat_add, UInt32.toNat_div, UInt32.toNat_sub]
  simp
  omega

theorem digestByteLength_le_iff (bitlength : UInt32) :
    ¬ digestByteLength bitlength > p4MaxFieldValueLength ↔ FieldFits bitlength := by
  rw [gt_iff_lt, UInt32.lt_iff_toNat_lt, FieldFits]
  rcases Nat.eq_zero_or_pos bitlength.toNat with hzero | hpos
  · have hbits : bitlength = 0 := UInt32.toNat_inj.mp hzero
    subst hbits
    decide
  · rw [toNat_digestByteLength bitlength hpos]
    simp [p4MaxFieldValueLength]
    omega

/-! ### Adding one field -/

/-- The length of a message with `n` fields. -/
def digestLength (n : ℕ) : ℕ := sizeofP4Digest + sizeofP4DigestField * n

/-- A message with `n` fields. -/
structure DigestAt (data : Buffer) (n : ℕ) : Prop where
  length : slice data offLength 2 = hostBytes 2 (digestLength n)
  listSize : slice data offListSize 1 = hostBytes 1 n

section DigestAt

variable {data : Buffer} {n : ℕ}

theorem DigestAt.number_length (h : DigestAt data n) (hn : n ≤ maxDigestFields) :
    data.number offLength 2 = digestLength n := by
  refine number_of_slice h.length ?_
  simp only [digestLength, sizeofP4Digest, sizeofP4DigestField, maxDigestFields] at hn ⊢
  omega

theorem DigestAt.number_listSize (h : DigestAt data n) (hn : n ≤ maxDigestFields) :
    data.number offListSize 1 = n := by
  refine number_of_slice h.listSize ?_
  simp only [maxDigestFields] at hn
  omega

/-- Whether there is room for one more field. -/
theorem digestLength_room : digestLength n + sizeofP4DigestField ≤ p4BgMemCellSize ↔
    n < maxDigestFields := by
  simp only [digestLength, sizeofP4Digest, sizeofP4DigestField, p4BgMemCellSize, maxDigestFields]
  omega

theorem digestLength_succ (n : ℕ) :
    digestLength (n + 1) = digestLength n + sizeofP4DigestField := by
  rw [digestLength, digestLength, Nat.mul_succ, Nat.add_assoc]

/-- The members of the message lie in front of its fields. -/
theorem offListSize_lt_digestLength (n : ℕ) : offListSize < digestLength n :=
  Nat.lt_of_lt_of_le (by decide : offListSize < sizeofP4Digest) (Nat.le_add_right ..)

/-- Writes behind the fields leave a message with that many fields. -/
theorem DigestAt.of_grown {after : Buffer} {n' : ℕ}
    (h : Grown data after offListSize (digestLength n) (digestLength n') n') : DigestAt after n' :=
  ⟨h.length, h.counter⟩

theorem addP4DigestField_full (h : DigestAt data n) (hn : n = maxDigestFields) :
    addP4DigestField data p4BgMemCellSize = none := by
  have hroom := (digestLength_room (n := n)).not
  rw [addP4DigestField, if_pos]
  rw [h.number_length hn.le]
  exact Nat.not_le.mp (hroom.mpr hn.not_lt)

theorem addP4DigestField_room (h : DigestAt data n) (hn : n < maxDigestFields) :
    ∃ after, addP4DigestField data p4BgMemCellSize = some (digestLength n, after) ∧
      Grown data after offListSize (digestLength n) (digestLength (n + 1)) (n + 1) := by
  have hroom := digestLength_room.mpr hn
  rw [addP4DigestField, h.number_length hn.le, h.number_listSize hn.le,
    if_neg (Nat.not_lt.mpr hroom), ← digestLength_succ]
  refine ⟨_, rfl, grown_run (by decide) (offListSize_lt_digestLength n) ?_⟩
  intro w hw
  simp only [List.mem_cons, List.not_mem_nil, or_false] at hw
  rcases hw with rfl | rfl
  · exact Nat.le_refl _
  · exact Nat.le_add_right ..

/-- What `add_digest_field` puts into the field at `dfield`. -/
def fillDigestField (data : Buffer) (dfield : ℕ) (value : Buffer) (bitlength : UInt32) : Buffer :=
  (netconvP4DigestField dfield ⟨run [⟨dfield + offFieldValue,
      slice value 0 (min (digestByteLength bitlength).toNat p4MaxFieldValueLength.toNat)⟩,
    ⟨dfield + offFieldLength, hostBytes 4 bitlength.toNat⟩] data, []⟩).mem

/-- In front of the field, nothing is changed. -/
theorem fillDigestField_frame {dfield i : ℕ} (value : Buffer) (bitlength : UInt32)
    (hi : i < dfield) : fillDigestField data dfield value bitlength i = data i := by
  rw [fillDigestField, netconvP4DigestField, netconvNumber_of_disjoint (.inl (by omega))]
  refine run_of_notMem data ?_
  intro w hw
  simp only [List.mem_cons, List.not_mem_nil, or_false] at hw
  rcases hw with rfl | rfl
  · exact .inl (by dsimp only; omega)
  · exact .inl (by dsimp only; omega)

theorem fillDigestField_bitlength (data : Buffer) (dfield : ℕ) (value : Buffer)
    (bitlength : UInt32) :
    slice (fillDigestField data dfield value bitlength) (dfield + offFieldLength) 4 =
      netBytes 4 bitlength.toNat := by
  have hlength := @slice_run_of_last _ data [⟨dfield + offFieldValue,
      slice value 0 (min (digestByteLength bitlength).toNat p4MaxFieldValueLength.toNat)⟩]
    ⟨dfield + offFieldLength, hostBytes 4 bitlength.toNat⟩ []
    (fun _ hw => absurd hw List.not_mem_nil)
  rw [length_hostBytes] at hlength
  rw [fillDigestField, netconvP4DigestField, slice_netconvNumber, netBytes]
  exact congrArg List.reverse hlength

theorem fillDigestField_value {bitlength : UInt32} (hfits : FieldFits bitlength) (data : Buffer)
    (dfield : ℕ) (value : Buffer) :
    slice (fillDigestField data dfield value bitlength) (dfield + offFieldValue)
        ((bitlength.toNat + 7) / 8) = slice value 0 ((bitlength.toNat + 7) / 8) := by
  have hbytes : (min (digestByteLength bitlength).toNat p4MaxFieldValueLength.toNat) =
      (bitlength.toNat + 7) / 8 := by
    rw [toNat_digestByteLength bitlength hfits.1]
    refine min_eq_left ?_
    have hle := hfits.2
    show _ ≤ 32
    omega
  rw [fillDigestField, netconvP4DigestField, hbytes]
  set n := (bitlength.toNat + 7) / 8 with hn
  have hvalue := @slice_run_of_last _ data [] ⟨dfield + offFieldValue, slice value 0 n⟩
    [⟨dfield + offFieldLength, hostBytes 4 bitlength.toNat⟩] ?_
  · rw [length_slice] at hvalue
    refine Eq.trans ?_ hvalue
    refine slice_netconvNumber_of_disjoint (.inr ?_)
    exact Nat.le_refl _
  · intro w hw
    rw [List.mem_singleton.mp hw]
    exact .inr (Nat.le_of_eq (by rw [length_hostBytes]; rfl))

/-! ### One call -/

/-- `add_digest_field` on a message with room. -/
theorem addDigestField_room (h : DigestAt data n) (hn : n < maxDigestFields) (value : Buffer)
    (bitlength : UInt32) : ∃ added after,
      addP4DigestField data p4BgMemCellSize = some (digestLength n, added) ∧
      Grown data after offListSize (digestLength n) (digestLength (n + 1)) (n + 1) ∧
      if digestByteLength bitlength > p4MaxFieldValueLength then
        addDigestField data p4BgMemCellSize value bitlength = some (after, false)
      else
        after = fillDigestField added (digestLength n) value bitlength ∧
          addDigestField data p4BgMemCellSize value bitlength = some (after, true) := by
  obtain ⟨added, hadded, hgrown⟩ := addP4DigestField_room h hn
  by_cases hlong : digestByteLength bitlength > p4MaxFieldValueLength
  · refine ⟨added, added, hadded, hgrown, ?_⟩
    rw [if_pos hlong, addDigestField, hadded]
    exact if_pos hlong
  · refine ⟨added, fillDigestField added (digestLength n) value bitlength, hadded, ?_, ?_⟩
    · -- What is filled in lies behind the members and the earlier fields.
      have hfront : ∀ i < digestLength n,
          fillDigestField added (digestLength n) value bitlength i = added i :=
        fun i hi => fillDigestField_frame value bitlength hi
      have hcounter := offListSize_lt_digestLength n
      refine ⟨?_, ?_, fun i hi hoff hc => (hfront i hi).trans (hgrown.frame i hi hoff hc)⟩
      · rw [← hgrown.length]
        refine slice_congr fun i hi => hfront _ ?_
        simp only [offLength, offListSize] at hcounter ⊢
        omega
      · rw [← hgrown.counter]
        exact slice_congr fun i hi => hfront _ (by omega)
    · rw [if_neg hlong]
      refine ⟨rfl, ?_⟩
      rw [addDigestField, hadded]
      exact if_neg hlong

/-- `add_digest_field` on a full message. -/
theorem addDigestField_full (h : DigestAt data n) (hn : n = maxDigestFields) (value : Buffer)
    (bitlength : UInt32) : addDigestField data p4BgMemCellSize value bitlength =
      if digestByteLength bitlength > p4MaxFieldValueLength then some (data, false) else none := by
  rw [addDigestField, addP4DigestField_full h hn]
  rfl

/-- A call adds one field or changes nothing iff there is room for the field just when its
value is of a width that a field has. -/
theorem fieldAtomic_iff (h : DigestAt data n) (hn : n ≤ maxDigestFields) (call : FieldCall) :
    FieldAtomic data call ↔ (n < maxDigestFields ↔ FieldFits call.bitlength) := by
  have hlong := (digestByteLength_le_iff call.bitlength).symm
  rcases Nat.eq_or_lt_of_le hn with hfull | hroom
  · have hcall := addDigestField_full h hfull call.value call.bitlength
    rw [hlong]
    constructor
    · rintro (⟨after, hsome, -⟩ | ⟨after, hsome, -⟩)
      · rw [hcall] at hsome
        split_ifs at hsome with hwide
        exact absurd (Option.some.inj hsome) (by simp)
      · rw [hcall] at hsome
        split_ifs at hsome with hwide
        exact iff_of_false (by omega) (not_not.mpr hwide)
    · intro hiff
      have hwide : digestByteLength call.bitlength > p4MaxFieldValueLength := by
        by_contra hfits
        exact absurd (hiff.mpr hfits) (by omega)
      rw [if_pos hwide] at hcall
      exact .inr ⟨data, hcall, fun _ _ => rfl⟩
  · obtain ⟨added, after, hadded, hgrown, hcall⟩ :=
      addDigestField_room h hroom call.value call.bitlength
    have hafter : DigestAt after (n + 1) := .of_grown hgrown
    rw [iff_true_left hroom]
    by_cases hwide : digestByteLength call.bitlength > p4MaxFieldValueLength
    · rw [if_pos hwide] at hcall
      refine iff_of_false ?_ (fun hfits => hlong.mp hfits hwide)
      rintro (⟨after', hsome, -⟩ | ⟨after', hsome, hsame⟩)
      · rw [hcall] at hsome
        exact absurd (Option.some.inj hsome) (by simp)
      · -- 0 was returned, but the length of the message has changed.
        rw [hcall] at hsome
        obtain rfl : after = after' := (Prod.mk.inj (Option.some.inj hsome)).1
        have hcounter := offListSize_lt_digestLength n
        rw [h.number_length hn] at hsame
        have hlength : after.number offLength 2 = data.number offLength 2 := by
          rw [Buffer.number, slice_congr fun i hi => hsame _ ?_]
          · rfl
          · simp only [offLength, offListSize] at hcounter ⊢
            omega
        rw [hafter.number_length hroom, h.number_length hn, digestLength_succ] at hlength
        exact absurd hlength (by simp [sizeofP4DigestField])
    · rw [if_neg hwide] at hcall
      have hfits : FieldFits call.bitlength := hlong.mpr hwide
      refine iff_of_true (.inl ⟨after, hcall.2, ?_⟩) hfits
      refine ⟨?_, ?_, ?_, ?_, ?_, ?_⟩
      · rw [hafter.number_length hroom, h.number_length hn, digestLength_succ]
      · rw [hafter.number_length hroom, digestLength_succ]
        exact digestLength_room.mpr hroom
      · rw [hafter.number_listSize hroom, h.number_listSize hn]
      · rw [h.number_length hn, hcall.1]
        exact fillDigestField_value hfits added (digestLength n) call.value
      · rw [h.number_length hn, hcall.1]
        exact fillDigestField_bitlength added (digestLength n) call.value call.bitlength
      · rw [h.number_length hn]
        exact hgrown.frame

/-- A call that returns leaves a message with one field more, if there was room for it. -/
theorem DigestAt.step {after : Buffer} {ok : Bool} (h : DigestAt data n)
    (hn : n ≤ maxDigestFields) {value : Buffer} {bitlength : UInt32}
    (hcall : addDigestField data p4BgMemCellSize value bitlength = some (after, ok)) :
    DigestAt after (min (n + 1) maxDigestFields) := by
  rcases Nat.eq_or_lt_of_le hn with hfull | hroom
  · rw [addDigestField_full h hfull] at hcall
    split_ifs at hcall with hwide
    obtain rfl : data = after := (Prod.mk.inj (Option.some.inj hcall)).1
    rwa [min_eq_right (by omega), ← hfull]
  · obtain ⟨added, after', -, hgrown, hroomCall⟩ := addDigestField_room h hroom value bitlength
    have hafter : after' = after := by
      split_ifs at hroomCall with hwide
      · exact (Prod.mk.inj (Option.some.inj (hroomCall.symm.trans hcall))).1
      · exact (Prod.mk.inj (Option.some.inj (hroomCall.2.symm.trans hcall))).1
    rw [min_eq_left hroom, ← hafter]
    exact .of_grown hgrown

/-- A call on the content of a cell does with the length what `CellOwners` says. -/
theorem addDigestField_length (h : DigestAt data n) (hn : n ≤ maxDigestFields) (memCell : ℕ)
    (value : Buffer) (bitlength : UInt32) :
    T4P4S.addDigestField ⟨memCell, data.number offLength 2⟩ p4BgMemCellSize bitlength =
      (addDigestField data p4BgMemCellSize value bitlength).map
        fun r => (⟨memCell, r.1.number offLength 2⟩, r.2) := by
  rw [h.number_length hn, T4P4S.addDigestField, T4P4S.addP4DigestField]
  dsimp only
  rcases Nat.eq_or_lt_of_le hn with hfull | hroom
  · have hnone : digestLength n + sizeofP4DigestField > p4BgMemCellSize := by
      rw [gt_iff_lt, ← Nat.not_le, digestLength_room]
      exact hfull.not_lt
    rw [if_pos hnone, addDigestField_full h hfull]
    by_cases hwide : digestByteLength bitlength > p4MaxFieldValueLength
    · simp only [if_pos hwide, Option.map_some, h.number_length hn]
    · simp only [if_neg hwide, Option.map_none, Bool.false_eq_true, if_false]
  · obtain ⟨added, after, -, hgrown, hcall⟩ := addDigestField_room h hroom value bitlength
    have hlength : after.number offLength 2 = digestLength n + sizeofP4DigestField := by
      rw [(DigestAt.of_grown hgrown).number_length hroom, digestLength_succ]
    rw [if_neg (Nat.not_lt.mpr (digestLength_room.mpr hroom))]
    by_cases hwide : digestByteLength bitlength > p4MaxFieldValueLength
    · rw [if_pos hwide] at hcall
      simp only [if_pos hwide, hcall, Option.map_some, hlength]
    · rw [if_neg hwide] at hcall
      simp only [if_neg hwide, hcall.2, Option.map_some, hlength, if_true]

end DigestAt

/-! ### Runs -/

theorem length_strncpy (n : ℕ) (src : List Byte) : (strncpy n src).length = n := by
  rw [strncpy, List.length_take, List.length_append, List.length_replicate]
  omega

/-- A digest that was just made has no fields. -/
theorem createDigest_eq (data : Buffer) (name : List Byte) :
    (p4MaxFieldListNameLen ≤ name.length ∧ createDigest data p4BgMemCellSize name = none) ∨
      (name.length < p4MaxFieldListNameLen ∧
        ∃ digest, createDigest data p4BgMemCellSize name = some digest ∧ DigestAt digest 0) := by
  have hroom : ¬ p4BgMemCellSize ≤ sizeofP4Digest := by decide
  have hlast : p4MaxFieldListNameLen - 1 + 1 = p4MaxFieldListNameLen := rfl
  simp only [createDigest, createP4Digest, if_neg hroom, Option.bind_eq_bind, Option.bind_some,
    Nat.zero_add]
  by_cases hname : name.length > p4MaxFieldListNameLen - 1
  · exact .inl ⟨by omega, if_pos hname⟩
  · refine .inr ⟨by omega, _, if_neg hname, ?_⟩
    set data₁ := (createP4Header data 0 p4BgMemCellSize).getD data with hdata₁
    -- The name lies between the members that count.
    have hbetween : ∀ off k, off + k ≤ offFieldListName ∨
        offFieldListName + p4MaxFieldListNameLen ≤ off → ∀ m : Buffer,
        slice (run [⟨offFieldListName, strncpy p4MaxFieldListNameLen name⟩,
          ⟨offFieldListName + (p4MaxFieldListNameLen - 1), [0]⟩] m) off k = slice m off k := by
      intro off k hoff m
      refine slice_run_of_disjoints fun w hw => ?_
      simp only [List.mem_cons, List.not_mem_nil, or_false] at hw
      rcases hw with rfl | rfl
      · rw [length_strncpy]
        exact hoff
      · simp only [List.length_singleton]
        omega
    refine ⟨?_, ?_⟩
    · rw [hbetween _ _ (.inl (by decide))]
      refine slice_run_of_last data₁ [] ⟨offLength, hostBytes 2 sizeofP4Digest⟩ ?_
      intro w hw
      simp only [List.mem_cons, List.not_mem_nil, or_false] at hw
      rcases hw with rfl | rfl | rfl
      · exact .inr (by decide)
      · exact .inl (by decide)
      · exact .inl (by decide)
    · rw [hbetween _ _ (.inr (by decide))]
      exact slice_run_of_last data₁ [⟨offLength, hostBytes 2 sizeofP4Digest⟩,
        ⟨offType, hostBytes 1 p4tDigest⟩, ⟨offFieldListName, [0]⟩] ⟨offListSize, hostBytes 1 0⟩
        fun w hw => absurd hw List.not_mem_nil

/-- `create_digest` makes the digests of `CellOwners`. -/
theorem createDigest_length {bgt bgt' : MemPool} {memCell : ℕ}
    (htouch : touchMemCell bgt = (bgt', some memCell)) (data : Buffer) (name : List Byte) :
    T4P4S.createDigest bgt true name = (bgt', (createDigest data p4BgMemCellSize name).map
      fun digest => ⟨memCell, digest.number offLength 2⟩) := by
  have hlast : p4MaxFieldListNameLen - 1 + 1 = p4MaxFieldListNameLen := rfl
  simp only [T4P4S.createDigest, if_true, htouch]
  rcases createDigest_eq data name with ⟨hlong, hnone⟩ | ⟨hshort, digest, hsome, hdigest⟩
  · rw [if_pos (by omega), hnone]
    rfl
  · rw [if_neg (by omega), hsome, Option.map_some, hdigest.number_length (Nat.zero_le _)]
    rfl

/-- A row of calls on a digest for which `k` calls were made before. -/
theorem callsAtomic_iff {data : Buffer} {k : ℕ} (h : DigestAt data (min k maxDigestFields))
    (calls : List FieldCall) :
    CallsAtomic data calls ↔ ∀ i call, calls[i]? = some call →
      (k + i < maxDigestFields ↔ FieldFits call.bitlength) := by
  induction calls generalizing data k with
  | nil => simp [CallsAtomic]
  | cons call calls ih =>
    have hfirst := fieldAtomic_iff h (min_le_right ..) call
    rw [min_lt_iff, or_iff_left (lt_irrefl _)] at hfirst
    -- Whatever the call returns, it has taken one of the places for the fields.
    have hrest : ∀ after ok, addDigestField data p4BgMemCellSize call.value call.bitlength =
        some (after, ok) → (CallsAtomic after calls ↔ ∀ i call, calls[i]? = some call →
          (k + 1 + i < maxDigestFields ↔ FieldFits call.bitlength)) := by
      intro after ok hcall
      refine ih ?_
      have hstep := h.step (min_le_right ..) hcall
      rwa [show min (min k maxDigestFields + 1) maxDigestFields = min (k + 1) maxDigestFields by
        omega] at hstep
    constructor
    · rintro ⟨hatomic, hafter⟩ i call' hget
      cases i with
      | zero =>
        obtain rfl := Option.some.inj hget
        exact hfirst.mp hatomic
      | succ i =>
        rw [show k + (i + 1) = k + 1 + i by omega]
        obtain ⟨after, hcall, -⟩ | ⟨after, hcall, -⟩ := hatomic
        · exact (hrest _ _ hcall).mp (hafter _ _ hcall) i call' hget
        · exact (hrest _ _ hcall).mp (hafter _ _ hcall) i call' hget
    · intro hall
      refine ⟨hfirst.mpr (hall 0 call rfl), ?_⟩
      intro after ok hcall
      refine (hrest _ _ hcall).mpr fun i call' hget => ?_
      rw [show k + 1 + i = k + (i + 1) by omega]
      exact hall (i + 1) call' hget

/-- **Each call in any row of them adds one field or changes nothing iff there is no digest, or
the first eleven values and no others are of a width that a field has.** -/
theorem digestLaw_iff (data : Buffer) (name : List Byte) (calls : List FieldCall) :
    DigestLaw data name calls ↔ p4MaxFieldListNameLen ≤ name.length ∨
      ∀ i call, calls[i]? = some call → (i < maxDigestFields ↔ FieldFits call.bitlength) := by
  rcases createDigest_eq data name with ⟨hlong, hnone⟩ | ⟨hshort, digest, hsome, hdigest⟩
  · refine iff_of_true ?_ (.inl hlong)
    intro digest hsome
    exact absurd (hnone.symm.trans hsome) (by simp)
  · have hcalls := @callsAtomic_iff digest 0 hdigest calls
    simp only [Nat.zero_add] at hcalls
    rw [or_iff_right (Nat.not_le.mpr hshort), ← hcalls]
    constructor
    · exact fun h => h digest hsome
    · intro h digest' hsome'
      obtain rfl := Option.some.inj (hsome.symm.trans hsome')
      exact h

/-- A value of 33 bytes is refused, but the digest has a field more. -/
theorem not_digestLaw : ¬ DigestLaw (fun _ => 0) [] [⟨fun _ => 0, 264⟩] := by
  intro h
  rcases createDigest_eq (fun _ => 0) [] with ⟨hlong, -⟩ | ⟨-, digest, hsome, hdigest⟩
  · exact absurd hlong (by decide)
  · have hatomic := (h digest hsome).1
    rw [fieldAtomic_iff hdigest (Nat.zero_le _)] at hatomic
    have hfits : FieldFits 264 := hatomic.mp (by decide)
    exact absurd hfits.2 (by decide)

end DigestMsg

end T4P4S
