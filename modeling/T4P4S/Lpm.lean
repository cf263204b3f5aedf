/-
Longest-prefix tables.

`lpm_add` and `lpm_lookup` put a key of at most four bytes into a host integer
for `rte_lpm`, and a longer one into a string of bytes for `rte_lpm6`.  Both
libraries compare the first bits of what they get.  The key function writes a
field of at most 32 bits in host order, the least significant byte first.

* **`agrees_iff_matches`** — for an aligned key, the first bits are those of the
  exact fields and of the prefix; for a prefix of full length they are all bits;
* **`lpmRun_longestMatch`** — with an aligned key, or with prefixes of full length
  only, a lookup finds the longest prefix that matches.
-/
import Mathlib.Algebra.Order.BigOperators.Group.List
import Mathlib.Algebra.Order.Group.Nat
import T4P4S.Lib.Bits
import T4P4S.Lib.LongestPrefix
import T4P4S.Tables

open NetBits LongestPrefix

namespace T4P4S

/-! ### Keys of several fields -/

/-- A field of a table's key.  `bitOffset` is the place of its first bit in the
first of its bytes. -/
structure KeyField where
  size : ℕ
  bitOffset : ℕ := 0

/-- What the packet has for a field: the bits of the field, the most significant
one first, and the other bits of the bytes that the field lies in. -/
structure FieldValue where
  bits : ℕ → Bool
  around : ℕ → Bool := fun _ => false

namespace KeyField

def byteWidth (f : KeyField) : ℕ := (f.size + 7) / 8

/-- Bit `i`, in network order, of the bytes that `table_X_key` writes for a field:
a host integer for at most 32 bits, else the bytes of the packet. -/
def keyBit (f : KeyField) (v : FieldValue) (i : ℕ) : Bool :=
  if f.size ≤ 32 then
    decide (8 * (i / 8) + (7 - i % 8) < f.size) &&
      v.bits (f.size - 1 - (8 * (i / 8) + (7 - i % 8)))
  else if f.bitOffset ≤ i ∧ i < f.bitOffset + f.size then
    v.bits (i - f.bitOffset)
  else
    v.around i

def keyBytes (f : KeyField) (v : FieldValue) : List Byte :=
  (List.range f.byteWidth).map fun q => byteOf fun j => f.keyBit v (8 * q + j)

@[simp] theorem length_keyBytes (f : KeyField) (v : FieldValue) :
    (f.keyBytes v).length = f.byteWidth := by
  simp [keyBytes]

end KeyField

theorem bytesBit_keyBytes (f : KeyField) (v : FieldValue) {i : ℕ} (hi : i < 8 * f.byteWidth) :
    bytesBit (f.keyBytes v) i = f.keyBit v i :=
  bytesBit_map_byteOf f.byteWidth (f.keyBit v) hi

/-- The bytes of consecutive fields, with `v j` the value of the `j`th. -/
def keyBytes : List KeyField → (ℕ → FieldValue) → List Byte
  | [], _ => []
  | f :: fs, v => f.keyBytes (v 0) ++ keyBytes fs fun j => v (j + 1)

def byteWidths (fs : List KeyField) : ℕ := (fs.map KeyField.byteWidth).sum

def bitWidths (fs : List KeyField) : ℕ := (fs.map KeyField.size).sum

theorem length_keyBytes (fs : List KeyField) (v : ℕ → FieldValue) :
    (keyBytes fs v).length = byteWidths fs := by
  induction fs generalizing v with
  | nil => rfl
  | cons f fs ih => simp [keyBytes, byteWidths, ih]

theorem keyBytes_append (fs gs : List KeyField) (v : ℕ → FieldValue) :
    keyBytes (fs ++ gs) v = keyBytes fs v ++ keyBytes gs fun j => v (fs.length + j) := by
  induction fs generalizing v with
  | nil => simp [keyBytes]
  | cons f fs ih =>
    rw [List.cons_append, keyBytes, ih, keyBytes, List.append_assoc]
    simp only [List.length_cons, Nat.add_right_comm, Nat.add_assoc]

/-! ### Fields of whole bytes -/

/-- The bytes of the field are its bits and no others. -/
def KeyField.Whole (f : KeyField) : Prop :=
  f.size % 8 = 0 ∧ (32 < f.size → f.bitOffset = 0)

theorem KeyField.Whole.eight_byteWidth {f : KeyField} (hf : f.Whole) :
    8 * f.byteWidth = f.size := by
  have h := hf.1
  unfold KeyField.byteWidth
  omega

/-- A host integer has the bits of the field from its last byte on. -/
theorem KeyField.keyBit_hostOrder {f : KeyField} (hmod : f.size % 8 = 0) (h32 : f.size ≤ 32)
    (v : FieldValue) {i : ℕ} (hi : i < f.size) :
    f.keyBit v (8 * (f.size / 8 - 1 - i / 8) + i % 8) = v.bits i := by
  have hj : 8 * ((8 * (f.size / 8 - 1 - i / 8) + i % 8) / 8) +
      (7 - (8 * (f.size / 8 - 1 - i / 8) + i % 8) % 8) = f.size - 1 - i := by omega
  rw [KeyField.keyBit, if_pos h32, hj, decide_eq_true (by omega), Bool.true_and,
    show f.size - 1 - (f.size - 1 - i) = i by omega]

/-- The bytes of a field of whole bytes are equal iff its bits are. -/
theorem KeyField.Whole.keyBit_eq_iff {f : KeyField} (hf : f.Whole) (u v : FieldValue) :
    (∀ i < 8 * f.byteWidth, f.keyBit u i = f.keyBit v i) ↔
      ∀ i < f.size, u.bits i = v.bits i := by
  rw [hf.eight_byteWidth]
  have hmod := hf.1
  by_cases h32 : f.size ≤ 32
  · constructor
    · intro h i hi
      have hbit := h (8 * (f.size / 8 - 1 - i / 8) + i % 8) (by omega)
      rwa [KeyField.keyBit_hostOrder hmod h32 u hi, KeyField.keyBit_hostOrder hmod h32 v hi] at hbit
    · intro h i hi
      simp only [KeyField.keyBit, if_pos h32]
      rw [h _ (by omega)]
  · have hoff := hf.2 (by omega)
    simp only [KeyField.keyBit, if_neg h32, hoff, Nat.zero_le, true_and, Nat.zero_add,
      Nat.sub_zero]
    constructor
    · intro h i hi
      simpa [hi] using h i hi
    · intro h i hi
      rw [if_pos hi, if_pos hi]
      exact h i hi

theorem eight_byteWidths {fs : List KeyField} (hfs : ∀ f ∈ fs, f.size % 8 = 0) :
    8 * byteWidths fs = bitWidths fs := by
  induction fs with
  | nil => rfl
  | cons f fs ih =>
    rw [List.forall_mem_cons] at hfs
    have h := ih hfs.2
    have hf := hfs.1
    simp only [byteWidths, bitWidths, List.map_cons, List.sum_cons, KeyField.byteWidth] at h ⊢
    omega

/-- The same for consecutive fields. -/
theorem keyBytes_eq_iff {fs : List KeyField} (hfs : ∀ f ∈ fs, f.Whole) (u v : ℕ → FieldValue) :
    (∀ i < 8 * byteWidths fs, bytesBit (keyBytes fs u) i = bytesBit (keyBytes fs v) i) ↔
      ∀ j (hj : j < fs.length), ∀ i < (fs[j]).size, (u j).bits i = (v j).bits i := by
  induction fs generalizing u v with
  | nil => simp [byteWidths]
  | cons f fs ih =>
    rw [List.forall_mem_cons] at hfs
    have hwidths : byteWidths (f :: fs) = f.byteWidth + byteWidths fs := List.sum_cons
    -- The bytes of the first field come first, and the bits of the rest are shifted behind them.
    have hsplit : (∀ i < 8 * byteWidths (f :: fs),
        bytesBit (keyBytes (f :: fs) u) i = bytesBit (keyBytes (f :: fs) v) i) ↔
        (∀ i < 8 * f.byteWidth, f.keyBit (u 0) i = f.keyBit (v 0) i) ∧
        ∀ i < 8 * byteWidths fs, bytesBit (keyBytes fs fun j => u (j + 1)) i =
          bytesBit (keyBytes fs fun j => v (j + 1)) i := by
      simp only [keyBytes, bytesBit_append, KeyField.length_keyBytes, hwidths]
      constructor
      · intro h
        constructor
        · intro i hi
          have hbit := h i (by omega)
          rw [if_pos hi, if_pos hi, bytesBit_keyBytes f _ hi, bytesBit_keyBytes f _ hi] at hbit
          exact hbit
        · intro i hi
          have hbit := h (8 * f.byteWidth + i) (by omega)
          rw [if_neg (by omega), if_neg (by omega), Nat.add_sub_cancel_left] at hbit
          exact hbit
      · rintro ⟨hf, hrest⟩ i hi
        split_ifs with hlt
        · rw [bytesBit_keyBytes f _ hlt, bytesBit_keyBytes f _ hlt]
          exact hf i hlt
        · exact hrest _ (by omega)
    rw [hsplit, hfs.1.keyBit_eq_iff, ih hfs.2]
    constructor
    · rintro ⟨hf, hrest⟩ j hj
      cases j with
      | zero => exact hf
      | succ j => exact hrest j (by simpa using hj)
    · intro h
      exact ⟨h 0 (by simp), fun j hj => h (j + 1) (by simpa using hj)⟩

/-! ### Keys of a longest-prefix table -/

/-- The key of an lpm table: exact fields and one lpm field, in match order. -/
structure LpmKey where
  pre : List KeyField
  lpm : KeyField
  post : List KeyField

namespace LpmKey

variable (K : LpmKey)

def fields : List KeyField := K.pre ++ K.lpm :: K.post

/-- `key_length_bytes` -/
def keySize : ℕ := byteWidths K.fields

/-- The width of the exact fields. -/
def exactBits : ℕ := bitWidths K.pre + bitWidths K.post

/-- The key that `table_X_key` computes. -/
def key (v : ℕ → FieldValue) : List.Vector Byte K.keySize :=
  ⟨keyBytes K.fields v, length_keyBytes K.fields v⟩

/-- The exact fields and the first `prefixLength` bits of the lpm field are equal. -/
def Matches (prefixLength : ℕ) (u v : ℕ → FieldValue) : Prop :=
  (∀ j (hj : j < K.pre.length), ∀ i < (K.pre[j]).size, (u j).bits i = (v j).bits i) ∧
  (∀ j (hj : j < K.post.length), ∀ i < (K.post[j]).size,
    (u (K.pre.length + 1 + j)).bits i = (v (K.pre.length + 1 + j)).bits i) ∧
  ∀ i < prefixLength, (u K.pre.length).bits i = (v K.pre.length).bits i

instance (prefixLength : ℕ) (u v : ℕ → FieldValue) : Decidable (K.Matches prefixLength u v) := by
  unfold Matches
  infer_instance

/-- The configuration of a table with this key. -/
abbrev config (maxSize actionSize : ℕ) : TableConfig :=
  { type := .lpm, maxSize := maxSize, keySize := K.keySize, actionSize := actionSize }

/-- The first bits of what the library gets are the exact fields and then the lpm
field from its most significant bit on.

A key of at most four bytes is read as a host integer, whose first byte is the
last one of the key: it has to fill the integer, with the lpm field in front.  A
longer key is read from its first byte on: the exact fields have to be in front
and of whole bytes, and the lpm field of one byte or in the packet's order. -/
def Aligned : Prop :=
  (K.pre = [] ∧ K.lpm.size % 8 = 0 ∧ (∀ f ∈ K.post, f.size % 8 = 0) ∧
    K.lpm.size + K.exactBits = 32) ∨
  (K.post = [] ∧ (∀ f ∈ K.pre, f.Whole) ∧
    (K.lpm.size = 8 ∨ 32 < K.lpm.size ∧ K.lpm.bitOffset = 0) ∧
    4 < K.keySize ∧ K.exactBits + K.lpm.size ≤ 128)

/-- All fields are of whole bytes, and the libraries read all bytes of the key and no others: they
compare it right with a prefix of full length, whatever the order of its bytes. -/
def AllWhole : Prop := (∀ f ∈ K.fields, f.Whole) ∧ 4 ≤ K.keySize ∧ K.keySize ≤ 16

/-- The libraries compare prefixes of that length as the table should. -/
def Compares (prefixLength : ℕ) : Prop :=
  K.Aligned ∨ K.AllWhole ∧ prefixLength = K.lpm.size

end LpmKey

/-! ### `rte_lpm` and `rte_lpm6` -/

/-- A rule of the library. -/
structure LpmRule (κ : Type) where
  ip : κ
  depth : ℕ
  nextHop : ℕ

/-- The first `n` bits agree. -/
def agree (n : ℕ) (p k : ℕ → Bool) : Bool := decide (∀ t < n, p t = k t)

/-- The values of `rte_errno` that `rte_exit_with_errno` knows, and the others. -/
inductive RteErrno
  | noConfig
  | secondary
  | noent
  | inval
  | nospc
  | exist
  | nomem
  | other
  deriving DecidableEq

/-- One of the two libraries, with keys of type `κ`.  `add` also gives the value
of `rte_errno`; `lookup` is `none` when its result is not zero. -/
structure RteLpm (κ : Type) where
  State : Type
  create : State
  add : State → κ → ℕ → ℕ → State × ℤ × RteErrno
  lookup : State → κ → Option ℕ
  deleteAll : State → State

/-- The library implements longest-prefix match on the bits of its keys, with
`rules` the rules that were added, the newest first. -/
structure RteLpm.Documented {κ : Type} (L : RteLpm κ) (bit : κ → ℕ → Bool)
    (rules : L.State → List (LpmRule κ)) : Prop where
  rules_create : rules L.create = []
  rules_add : ∀ s k depth value, 0 ≤ (L.add s k depth value).2.1 →
    rules (L.add s k depth value).1 = ⟨k, depth, value⟩ :: rules s
  rules_add_fail : ∀ s k depth value, (L.add s k depth value).2.1 < 0 →
    rules (L.add s k depth value).1 = rules s
  lookup_eq : ∀ s k, L.lookup s k =
    (best (fun r => agree r.depth (bit r.ip) (bit k)) LpmRule.depth (rules s)).map LpmRule.nextHop
  deleteAll_eq : ∀ s, L.deleteAll s = L.create

/-- A library for keys of `width` bits with room for `maxRules` rules, which
refuses other depths than those from 1 to `width`. -/
def rteLpm (κ : Type) (bit : κ → ℕ → Bool) (width maxRules : ℕ) : RteLpm κ where
  State := List (LpmRule κ)
  create := []
  add s k depth value :=
    if 1 ≤ depth ∧ depth ≤ width then
      if s.length < maxRules then (⟨k, depth, value⟩ :: s, 0, .other)
      else (s, -28, .other)
    else
      (s, -22, .other)
  lookup s k :=
    (best (fun r => agree r.depth (bit r.ip) (bit k)) LpmRule.depth s).map LpmRule.nextHop
  deleteAll _ := []

theorem rteLpm_documented (κ : Type) (bit : κ → ℕ → Bool) (width maxRules : ℕ) :
    (rteLpm κ bit width maxRules).Documented bit id := by
  constructor
  · rfl
  · intro s k depth value h
    unfold rteLpm at h ⊢
    dsimp only at h ⊢
    split_ifs at h ⊢ with hdepth hroom
    · rfl
    · simp at h
    · simp at h
  · intro s k depth value h
    unfold rteLpm at h ⊢
    dsimp only at h ⊢
    split_ifs at h ⊢ with hdepth hroom
    · simp at h
    · rfl
    · rfl
  · intro s k
    rfl
  · intro s
    rfl

/-- `LPM6_BYTE_SIZE_LIMIT` -/
def lpm6ByteSizeLimit : ℕ := 32

/-- The 16 bytes that `rte_lpm6` reads. -/
abbrev Lpm6Key := List.Vector Byte 16

/-- Bit `t` of the address, from the most significant one. -/
def lpm6Bit (k : Lpm6Key) (t : ℕ) : Bool := bytesBit k.toList t

/-! ### The operations -/

/-- The library's table behind `rte_table`. -/
inductive RteLpmTable (L4 : RteLpm (BitVec 32)) (L6 : RteLpm Lpm6Key)
  | lpm4 (l : L4.State)
  | lpm6 (l : L6.State)

variable {c : TableConfig} (L4 : RteLpm (BitVec 32)) (L6 : RteLpm Lpm6Key)

/-- A longest-prefix table. -/
abbrev LpmTable := LookupTable c (ExtendedTable (RteLpmTable L4 L6))

/-- `memcpy` of the key into a `uint32_t` that is zero. -/
def key32 (key : Key c) : BitVec 32 := load32 (fun a => key.toList.getD a 0) 0

/-- The first 16 of the bytes that the key is copied to, which are zero before. -/
def key128 (key : Key c) : Lpm6Key :=
  ⟨(List.range 16).map fun a => key.toList.getD a 0, by simp⟩

/-- `lpm_create` -/
def lpmCreate (c : TableConfig) : Except Halt (ExtendedTable (RteLpmTable L4 L6)) :=
  if c.keySize ≤ 4 then
    .ok (createExtTable (.lpm4 L4.create))
  else if c.keySize ≤ lpm6ByteSizeLimit then
    .ok (createExtTable (.lpm6 L6.create))
  else
    .error .exited

/-- `rte_exit_with_errno` -/
def rteExitWithErrno (rteErrno : RteErrno) : Except Halt Unit :=
  if rteErrno = .other then .ok () else .error .exited

variable {L4 L6}

/-- `lpm4_add` and `lpm6_add` -/
def lpmNAdd {κ : Type} {L : RteLpm κ} (l : L.State) (key : κ) (depth value : ℕ) :
    Except Halt L.State := do
  let (l, ret, rteErrno) := L.add l key depth value
  if ret < 0 then rteExitWithErrno rteErrno
  return l

/-- `lpm_add` -/
def lpmAdd (t : LpmTable (c := c) L4 L6) (key : Key c) (depth : ℕ) (action : TableAction c) :
    Except Halt (LpmTable (c := c) L4 L6) :=
  if c.keySize = 0 then
    .ok t
  else
    match t.table with
    | none => .error .undefined
    | some ext =>
      -- `content` has `max_size` cells
      if c.maxSize ≤ ext.size then
        .error .undefined
      else
        let (t, entry) := makeTableEntry t action
        let ext := { ext with content := Function.update ext.content ext.size (some entry) }
        if c.keySize ≤ 4 then
          match ext.rteTable with
          | .lpm4 l => do
            let l ← lpmNAdd l (key32 key) depth ext.size
            return { t with table := some { ext with rteTable := .lpm4 l, size := ext.size + 1 } }
          | .lpm6 _ => .error .undefined
        else if c.keySize ≤ lpm6ByteSizeLimit then
          match ext.rteTable with
          | .lpm4 _ => .error .undefined
          | .lpm6 l => do
            let l ← lpmNAdd l (key128 key) depth ext.size
            return { t with table := some { ext with rteTable := .lpm6 l, size := ext.size + 1 } }
        else
          .ok { t with table := some ext }

/-- `lpm_lookup`.  The result is `none` when it is no entry. -/
def lpmLookup (t : LpmTable (c := c) L4 L6) (key : Key c) : Option EntryPtr :=
  if c.keySize = 0 then
    t.defaultVal
  else
    t.table.bind fun ext =>
      if c.keySize ≤ 4 then
        match ext.rteTable with
        | .lpm4 l =>
          match L4.lookup l (key32 key) with
          | some result => ext.content result
          | none => t.defaultVal
        | .lpm6 _ => none
      else if c.keySize ≤ lpm6ByteSizeLimit then
        match ext.rteTable with
        | .lpm4 _ => none
        | .lpm6 l =>
          match L6.lookup l (key128 key) with
          | some result => ext.content result
          | none => t.defaultVal
      else
        none

/-! ### What the library sees of a key -/

/-- The bits of the integer or string that is made of the key. -/
def codeBit (key : Key c) (t : ℕ) : Bool :=
  if c.keySize ≤ 4 then (key32 key).getMsbD t else lpm6Bit (key128 key) t

theorem codeBit_short {key : Key c} (hc : c.keySize ≤ 4) {t : ℕ} (ht : t < 32) :
    codeBit key t = bytesBit key.toList (8 * (3 - t / 8) + t % 8) := by
  rw [codeBit, if_pos hc, key32, getMsbD_load32 _ _ ht, bytesBit, Nat.zero_add]

theorem codeBit_long {key : Key c} (hc : 4 < c.keySize) {t : ℕ} (ht : t < 128) :
    codeBit key t = bytesBit key.toList t := by
  rw [codeBit, if_neg (by omega), lpm6Bit, bytesBit, bytesBit]
  show bitAt (fun a => ((List.range 16).map fun a => key.toList.getD a 0).getD a 0) t = _
  simp only [bitAt]
  rw [List.getD_eq_getElem _ _ (by simp; omega), List.getElem_map, List.getElem_range]

namespace LpmKey

variable {K : LpmKey}

/-- The bits of the key: those of the fields in front, of the lpm field, and of
the fields behind it. -/
theorem bytesBit_key (K : LpmKey) (v : ℕ → FieldValue) (i : ℕ) :
    bytesBit (keyBytes K.fields v) i =
      if i < 8 * byteWidths K.pre then bytesBit (keyBytes K.pre v) i
      else if i - 8 * byteWidths K.pre < 8 * K.lpm.byteWidth then
        K.lpm.keyBit (v K.pre.length) (i - 8 * byteWidths K.pre)
      else bytesBit (keyBytes K.post fun j => v (K.pre.length + 1 + j))
        (i - 8 * byteWidths K.pre - 8 * K.lpm.byteWidth) := by
  rw [fields, keyBytes_append, bytesBit_append, length_keyBytes, keyBytes, bytesBit_append,
    KeyField.length_keyBytes]
  split_ifs with h h'
  · rfl
  · exact bytesBit_keyBytes _ _ h'
  · simp only [Nat.add_comm, Nat.add_left_comm]

theorem keySize_short (hpre : K.pre = []) (hmod : K.lpm.size % 8 = 0)
    (hpost : ∀ f ∈ K.post, f.size % 8 = 0) : 8 * K.keySize = K.lpm.size + K.exactBits := by
  have hfields : ∀ f ∈ K.fields, f.size % 8 = 0 := by
    rw [fields, hpre, List.nil_append, List.forall_mem_cons]
    exact ⟨hmod, hpost⟩
  rw [keySize, eight_byteWidths hfields, fields, exactBits, hpre]
  simp [bitWidths]

/-- The bits that both libraries compare, for a key in the order of the bytes:
all bits of the exact fields in front and the first ones of the lpm field. -/
theorem agrees_iff_matches_long (hpost : K.post = []) (hpre : ∀ f ∈ K.pre, f.Whole)
    (hlpm : K.lpm.size = 8 ∨ 32 < K.lpm.size ∧ K.lpm.bitOffset = 0) {p : ℕ}
    (hp : p ≤ K.lpm.size) (u v : ℕ → FieldValue) :
    (∀ t < K.exactBits + p,
      bytesBit (keyBytes K.fields u) t = bytesBit (keyBytes K.fields v) t) ↔
    K.Matches p u v := by
  have hexact : K.exactBits = 8 * byteWidths K.pre := by
    rw [eight_byteWidths fun f hf => (hpre f hf).1, exactBits, hpost]
    rfl
  have hbytes : K.lpm.size ≤ 8 * K.lpm.byteWidth := by
    unfold KeyField.byteWidth
    omega
  have hbit : ∀ w : FieldValue, ∀ i < K.lpm.size, K.lpm.keyBit w i = w.bits i := by
    intro w i hi
    rcases hlpm with h8 | ⟨hwide, hoff⟩
    · have hswap := KeyField.keyBit_hostOrder (by omega) (by omega) w hi
      rwa [show 8 * (K.lpm.size / 8 - 1 - i / 8) + i % 8 = i by omega] at hswap
    · rw [KeyField.keyBit, if_neg (by omega), hoff, if_pos (by omega), Nat.sub_zero]
  have hpreBits := keyBytes_eq_iff hpre u v
  -- the bit behind the exact fields is a bit of the lpm field
  have hkey : ∀ (w : ℕ → FieldValue), ∀ i < K.lpm.size,
      bytesBit (keyBytes K.fields w) (K.exactBits + i) = (w K.pre.length).bits i := by
    intro w i hi
    have hsub : K.exactBits + i - 8 * byteWidths K.pre = i := by omega
    rw [bytesBit_key, if_neg (show ¬K.exactBits + i < 8 * byteWidths K.pre by omega), hsub,
      if_pos (show i < 8 * K.lpm.byteWidth by omega)]
    exact hbit _ i hi
  constructor
  · intro h
    refine ⟨hpreBits.mp ?_, by simp [hpost], ?_⟩
    · intro i hi
      have ht := h i (by omega)
      rwa [bytesBit_key, bytesBit_key, if_pos hi, if_pos hi] at ht
    · intro i hi
      have ht := h (K.exactBits + i) (by omega)
      rwa [hkey u i (by omega), hkey v i (by omega)] at ht
  · rintro ⟨hexacts, -, hprefix⟩ t ht
    by_cases hlt : t < 8 * byteWidths K.pre
    · rw [bytesBit_key, bytesBit_key, if_pos hlt, if_pos hlt]
      exact hpreBits.mpr hexacts t hlt
    · obtain ⟨i, rfl⟩ : ∃ i, t = K.exactBits + i := ⟨t - K.exactBits, by omega⟩
      rw [hkey u i (by omega), hkey v i (by omega)]
      exact hprefix i (by omega)

/-- The same for a key of four bytes that is read as a host integer. -/
theorem agrees_iff_matches_short (hpre : K.pre = []) (hmod : K.lpm.size % 8 = 0)
    (hpost : ∀ f ∈ K.post, f.size % 8 = 0) (hbits : K.lpm.size + K.exactBits = 32) {p : ℕ}
    (hp : p ≤ K.lpm.size) (u v : ℕ → FieldValue) :
    (∀ t < K.exactBits + p, bytesBit (keyBytes K.fields u) (8 * (3 - t / 8) + t % 8) =
      bytesBit (keyBytes K.fields v) (8 * (3 - t / 8) + t % 8)) ↔
    K.Matches p u v := by
  have hexact : K.exactBits = bitWidths K.post := by
    rw [exactBits, hpre]
    exact Nat.zero_add _
  have hwhole : ∀ f ∈ K.post, f.Whole := by
    intro f hf
    have hle : f.size ≤ bitWidths K.post :=
      List.single_le_sum (fun _ _ => Nat.zero_le _) _ (List.mem_map_of_mem hf)
    exact ⟨hpost f hf, by omega⟩
  have hpostBytes := eight_byteWidths hpost
  have hlpmBytes : 8 * K.lpm.byteWidth = K.lpm.size := by
    unfold KeyField.byteWidth
    omega
  have hpreBytes : byteWidths K.pre = 0 := by
    rw [hpre]
    rfl
  have hkey : ∀ (w : ℕ → FieldValue) (i : ℕ), bytesBit (keyBytes K.fields w) i =
      if i < K.lpm.size then K.lpm.keyBit (w 0) i
      else bytesBit (keyBytes K.post fun j => w (K.pre.length + 1 + j)) (i - K.lpm.size) := by
    intro w i
    rw [bytesBit_key, hpreBytes, if_neg (Nat.not_lt_zero i), hlpmBytes, Nat.mul_zero,
      Nat.sub_zero, hpre]
    rfl
  have hpostBits := keyBytes_eq_iff hwhole (fun j => u (K.pre.length + 1 + j))
    (fun j => v (K.pre.length + 1 + j))
  -- bit `t` of the integer in the prefix is a bit of the lpm field
  have hlpm : ∀ (w : ℕ → FieldValue), ∀ i < K.lpm.size,
      bytesBit (keyBytes K.fields w)
        (8 * (3 - (K.exactBits + i) / 8) + (K.exactBits + i) % 8) = (w 0).bits i := by
    intro w i hi
    have hplace : 8 * (3 - (K.exactBits + i) / 8) + (K.exactBits + i) % 8 =
        8 * (K.lpm.size / 8 - 1 - i / 8) + i % 8 := by omega
    rw [hplace, hkey, if_pos (by omega)]
    exact KeyField.keyBit_hostOrder hmod (by omega) (w 0) hi
  constructor
  · intro h
    refine ⟨by simp [hpre], hpostBits.mp ?_, ?_⟩
    · intro i hi
      have ht := h (8 * (3 - (K.lpm.size + i) / 8) + (K.lpm.size + i) % 8) (by omega)
      have hplace : 8 * (3 - (8 * (3 - (K.lpm.size + i) / 8) + (K.lpm.size + i) % 8) / 8) +
          (8 * (3 - (K.lpm.size + i) / 8) + (K.lpm.size + i) % 8) % 8 = K.lpm.size + i := by
        omega
      rw [hplace, hkey, hkey, if_neg (by omega), if_neg (by omega), Nat.add_sub_cancel_left] at ht
      exact ht
    · intro i hi
      have ht := h (K.exactBits + i) (by omega)
      rw [hlpm u i (by omega), hlpm v i (by omega)] at ht
      rw [hpre]
      exact ht
  · rintro ⟨-, hexacts, hprefix⟩ t ht
    by_cases hlt : t < K.exactBits
    · rw [hkey, hkey, if_neg (by omega), if_neg (by omega)]
      exact hpostBits.mpr hexacts _ (by omega)
    · obtain ⟨i, rfl⟩ : ∃ i, t = K.exactBits + i := ⟨t - K.exactBits, by omega⟩
      have hbit := hprefix i (by omega)
      rw [hpre] at hbit
      rw [hlpm u i (by omega), hlpm v i (by omega)]
      exact hbit

/-- With a prefix of full length, all fields are equal. -/
theorem matches_full_iff (u v : ℕ → FieldValue) :
    K.Matches K.lpm.size u v ↔
      ∀ j (hj : j < K.fields.length), ∀ i < (K.fields[j]).size, (u j).bits i = (v j).bits i := by
  unfold Matches fields
  constructor
  · rintro ⟨hpre, hpost, hlpm⟩ j hj i hi
    rcases lt_trichotomy j K.pre.length with hlt | rfl | hgt
    · rw [List.getElem_append_left hlt] at hi
      exact hpre j hlt i hi
    · rw [List.getElem_append_right le_rfl] at hi
      simp only [Nat.sub_self, List.getElem_cons_zero] at hi
      exact hlpm i hi
    · obtain ⟨k, rfl⟩ := Nat.exists_eq_add_of_le (Nat.succ_le_of_lt hgt)
      have hk : k < K.post.length := by
        rw [List.length_append, List.length_cons] at hj
        omega
      rw [List.getElem_append_right (by omega)] at hi
      have hplace : K.pre.length.succ + k - K.pre.length = k + 1 := by omega
      simp only [hplace, List.getElem_cons_succ] at hi
      exact hpost k hk i hi
  · intro h
    refine ⟨fun j hj i hi => h j ?_ i ?_, fun j hj i hi => h (K.pre.length + 1 + j) ?_ i ?_,
      fun i hi => h K.pre.length ?_ i ?_⟩
    · rw [List.length_append]
      omega
    · rwa [List.getElem_append_left hj]
    · rw [List.length_append, List.length_cons]
      omega
    · rw [List.getElem_append_right (by omega)]
      have hplace : K.pre.length + 1 + j - K.pre.length = j + 1 := by omega
      simp only [hplace, List.getElem_cons_succ]
      exact hi
    · rw [List.length_append, List.length_cons]
      omega
    · rw [List.getElem_append_right le_rfl]
      simp only [Nat.sub_self, List.getElem_cons_zero]
      exact hi

theorem AllWhole.bits_eq (hK : K.AllWhole) : K.exactBits + K.lpm.size = 8 * K.keySize := by
  rw [keySize, eight_byteWidths fun f hf => (hK.1 f hf).1, fields, exactBits]
  simp only [bitWidths, List.map_append, List.map_cons, List.sum_append, List.sum_cons]
  omega

/-- All bits of a key of whole fields. -/
theorem agrees_iff_matches_full (hK : K.AllWhole) {maxSize actionSize : ℕ}
    (u v : ℕ → FieldValue) :
    (∀ t < K.exactBits + K.lpm.size, codeBit (c := K.config maxSize actionSize) (K.key u) t =
      codeBit (c := K.config maxSize actionSize) (K.key v) t) ↔ K.Matches K.lpm.size u v := by
  rw [hK.bits_eq, matches_full_iff, ← keyBytes_eq_iff hK.1 u v]
  obtain ⟨-, hlow, hhigh⟩ := hK
  have hkeySize : byteWidths K.fields = K.keySize := rfl
  rw [hkeySize]
  by_cases hsize : K.keySize ≤ 4
  · -- the first byte of the key is the last one of the integer
    have hfour : K.keySize = 4 := le_antisymm hsize hlow
    have hbit : ∀ (w : ℕ → FieldValue), ∀ t < 32,
        codeBit (c := K.config maxSize actionSize) (K.key w) t =
          bytesBit (keyBytes K.fields w) (8 * (3 - t / 8) + t % 8) := by
      intro w t ht
      rw [codeBit_short hsize ht]
      rfl
    rw [hfour]
    constructor
    · intro h i hi
      have ht := h (8 * (3 - i / 8) + i % 8) (by omega)
      have hplace : 8 * (3 - (8 * (3 - i / 8) + i % 8) / 8) + (8 * (3 - i / 8) + i % 8) % 8 = i := by
        omega
      rwa [hbit u _ (by omega), hbit v _ (by omega), hplace] at ht
    · intro h t ht
      rw [hbit u t ht, hbit v t ht]
      exact h _ (by omega)
  · rw [not_le] at hsize
    refine forall₂_congr ?_
    intro t ht
    rw [codeBit_long hsize (by omega), codeBit_long hsize (by omega)]
    rfl

/-- **What the libraries compare, for an aligned key or a prefix of full length.** -/
theorem agrees_iff_matches {maxSize actionSize p : ℕ} (hK : K.Compares p) (hp : p ≤ K.lpm.size)
    (u v : ℕ → FieldValue) :
    agree (K.exactBits + p) (codeBit (c := K.config maxSize actionSize) (K.key u))
      (codeBit (c := K.config maxSize actionSize) (K.key v)) = decide (K.Matches p u v) := by
  unfold agree
  rcases hK with (⟨hpre, hmod, hpost, hbits⟩ | ⟨hpost, hpre, hlpm, hsize, hbits⟩) | ⟨hwhole, rfl⟩
  · have hsize : K.keySize ≤ 4 := by
      have h := keySize_short hpre hmod hpost
      omega
    rw [decide_eq_decide, ← agrees_iff_matches_short hpre hmod hpost hbits hp u v]
    refine forall₂_congr ?_
    intro t ht
    rw [codeBit_short hsize (by omega), codeBit_short hsize (by omega)]
    rfl
  · rw [decide_eq_decide, ← agrees_iff_matches_long hpost hpre hlpm hp u v]
    refine forall₂_congr ?_
    intro t ht
    rw [codeBit_long hsize (by omega), codeBit_long hsize (by omega)]
    rfl
  · rw [decide_eq_decide]
    exact agrees_iff_matches_full hwhole u v

end LpmKey

/-! ### The rules of a table -/

section Rules

variable (rules4 : L4.State → List (LpmRule (BitVec 32))) (rules6 : L6.State → List (LpmRule Lpm6Key))

/-- The rules of the library's table, on bits. -/
def RteLpmTable.rules : RteLpmTable L4 L6 → List (LpmRule (ℕ → Bool))
  | .lpm4 l => (rules4 l).map fun r => ⟨r.ip.getMsbD, r.depth, r.nextHop⟩
  | .lpm6 l => (rules6 l).map fun r => ⟨lpm6Bit r.ip, r.depth, r.nextHop⟩

/-- The library is the one that belongs to the size of the key. -/
def RteLpmTable.Fits (c : TableConfig) : RteLpmTable L4 L6 → Prop
  | .lpm4 _ => c.keySize ≤ 4
  | .lpm6 _ => 4 < c.keySize ∧ c.keySize ≤ lpm6ByteSizeLimit

/-- The library accepts the rule of an `lpm_add` call. -/
def rteAccepts (t : LpmTable (c := c) L4 L6) (key : Key c) (depth : ℕ) : Bool :=
  t.table.any fun ext =>
    match ext.rteTable with
    | .lpm4 l => 0 ≤ (L4.add l (key32 key) depth ext.size).2.1
    | .lpm6 l => 0 ≤ (L6.add l (key128 key) depth ext.size).2.1

/-- The library's table after an add of the key with the value `size`. -/
def RteLpmTable.add (rte : RteLpmTable L4 L6) (key : Key c) (depth size : ℕ) :
    RteLpmTable L4 L6 :=
  match rte with
  | .lpm4 l => .lpm4 (L4.add l (key32 key) depth size).1
  | .lpm6 l => .lpm6 (L6.add l (key128 key) depth size).1

/-- The table after an `lpm_add` call that returns. -/
def lpmPut (t : LpmTable (c := c) L4 L6) (ext : ExtendedTable (RteLpmTable L4 L6))
    (rte : RteLpmTable L4 L6) (action : TableAction c) : LpmTable (c := c) L4 L6 :=
  { (makeTableEntry t action).1 with
    table := some
      { rteTable := rte
        size := ext.size + 1
        content := Function.update ext.content ext.size (some t.heap.blocks.length) } }

theorem lpmNAdd_eq_ok {κ : Type} {L : RteLpm κ} {l l' : L.State} {key : κ} {depth value : ℕ}
    (h : lpmNAdd l key depth value = .ok l') : l' = (L.add l key depth value).1 := by
  unfold lpmNAdd rteExitWithErrno at h
  simp only [bind, Except.bind, pure, Except.pure] at h
  split_ifs at h <;> exact (Except.ok.inj h).symm

theorem lpmNAdd_defined {κ : Type} {L : RteLpm κ} (l : L.State) (key : κ) (depth value : ℕ) :
    lpmNAdd l key depth value ≠ .error .undefined := by
  unfold lpmNAdd rteExitWithErrno
  simp only [bind, Except.bind, pure, Except.pure]
  split_ifs <;> simp

variable {rules4 rules6} (h4 : L4.Documented BitVec.getMsbD rules4)
  (h6 : L6.Documented lpm6Bit rules6)
include h4 h6

omit h4 h6 in
/-- What an `lpm_add` call does when it returns. -/
theorem lpmAdd_eq_put {t t' : LpmTable (c := c) L4 L6} {ext : ExtendedTable (RteLpmTable L4 L6)}
    {key : Key c} {depth : ℕ} {a : TableAction c} (hkey : c.keySize ≠ 0)
    (htable : t.table = some ext) (hfits : ext.rteTable.Fits c)
    (h : lpmAdd t key depth a = .ok t') :
    t' = lpmPut t ext (ext.rteTable.add key depth ext.size) a := by
  obtain ⟨rte, size, content⟩ := ext
  cases rte with
  | lpm4 l =>
    have hshort : c.keySize ≤ 4 := hfits
    simp only [lpmAdd, htable, if_neg hkey, if_pos hshort] at h
    split_ifs at h with hroom
    obtain ⟨l', hadd, hput⟩ := bind_eq_ok.mp h
    rw [lpmNAdd_eq_ok hadd] at hput
    exact (Except.ok.inj hput).symm
  | lpm6 l =>
    have hlong : 4 < c.keySize ∧ c.keySize ≤ lpm6ByteSizeLimit := hfits
    simp only [lpmAdd, htable, if_neg hkey, if_neg (not_le.mpr hlong.1), if_pos hlong.2] at h
    split_ifs at h with hroom
    obtain ⟨l', hadd, hput⟩ := bind_eq_ok.mp h
    rw [lpmNAdd_eq_ok hadd] at hput
    exact (Except.ok.inj hput).symm

omit h4 h6 in
theorem RteLpmTable.Fits.add {rte : RteLpmTable L4 L6} (hfits : rte.Fits c) (key : Key c)
    (depth size : ℕ) : (rte.add key depth size).Fits c := by
  cases rte <;> exact hfits

/-- The call adds a rule for the key when the library accepts it. -/
theorem rules_add {t : LpmTable (c := c) L4 L6} {ext : ExtendedTable (RteLpmTable L4 L6)}
    (key : Key c) (depth : ℕ) (htable : t.table = some ext) (hfits : ext.rteTable.Fits c) :
    (ext.rteTable.add key depth ext.size).rules rules4 rules6 =
      if rteAccepts t key depth then
        ⟨codeBit key, depth, ext.size⟩ :: ext.rteTable.rules rules4 rules6
      else ext.rteTable.rules rules4 rules6 := by
  obtain ⟨rte, size, content⟩ := ext
  cases rte with
  | lpm4 l =>
    have hbit : (codeBit key : ℕ → Bool) = (key32 key).getMsbD := by
      funext t
      rw [codeBit, if_pos (show c.keySize ≤ 4 from hfits)]
    simp only [rteAccepts, htable, Option.any_some, decide_eq_true_eq, RteLpmTable.rules,
      RteLpmTable.add, hbit]
    split_ifs with hret
    · rw [h4.rules_add l (key32 key) depth size hret, List.map_cons]
    · rw [h4.rules_add_fail l (key32 key) depth size (not_le.mp hret)]
  | lpm6 l =>
    have hbit : (codeBit key : ℕ → Bool) = lpm6Bit (key128 key) := by
      funext t
      rw [codeBit, if_neg (not_le.mpr (show 4 < c.keySize from hfits.1))]
    simp only [rteAccepts, htable, Option.any_some, decide_eq_true_eq, RteLpmTable.rules,
      RteLpmTable.add, hbit]
    split_ifs with hret
    · rw [h6.rules_add l (key128 key) depth size hret, List.map_cons]
    · rw [h6.rules_add_fail l (key128 key) depth size (not_le.mp hret)]

omit h4 h6 in
/-- An `lpm_add` call within `max_size` does nothing undefined. -/
theorem lpmAdd_defined {t : LpmTable (c := c) L4 L6} {ext : ExtendedTable (RteLpmTable L4 L6)}
    {key : Key c} {depth : ℕ} {a : TableAction c} (hkey : c.keySize ≠ 0)
    (htable : t.table = some ext) (hfits : ext.rteTable.Fits c) (hroom : ext.size < c.maxSize) :
    lpmAdd t key depth a ≠ .error .undefined := by
  obtain ⟨rte, size, content⟩ := ext
  have hroom' : ¬c.maxSize ≤ size := not_le.mpr hroom
  cases rte with
  | lpm4 l =>
    have hshort : c.keySize ≤ 4 := hfits
    have hdef := lpmNAdd_defined l (key32 key) depth size
    simp only [lpmAdd, htable, if_neg hkey, if_pos hshort, if_neg hroom']
    cases hadd : lpmNAdd l (key32 key) depth size with
    | error e => simpa [hadd, bind, Except.bind] using hdef
    | ok l' => simp [bind, Except.bind, pure, Except.pure]
  | lpm6 l =>
    have hlong : 4 < c.keySize ∧ c.keySize ≤ lpm6ByteSizeLimit := hfits
    have hdef := lpmNAdd_defined l (key128 key) depth size
    simp only [lpmAdd, htable, if_neg hkey, if_neg (not_le.mpr hlong.1), if_pos hlong.2,
      if_neg hroom']
    cases hadd : lpmNAdd l (key128 key) depth size with
    | error e => simpa [hadd, bind, Except.bind] using hdef
    | ok l' => simp [bind, Except.bind, pure, Except.pure]

/-- What a lookup returns: the entry of the longest rule that agrees with the key. -/
theorem lpmLookup_eq {t : LpmTable (c := c) L4 L6} {ext : ExtendedTable (RteLpmTable L4 L6)}
    (key : Key c) (hkey : c.keySize ≠ 0) (htable : t.table = some ext)
    (hfits : ext.rteTable.Fits c) :
    lpmLookup t key =
      match best (fun r => agree r.depth r.ip (codeBit key)) LpmRule.depth
        (ext.rteTable.rules rules4 rules6) with
      | some r => ext.content r.nextHop
      | none => t.defaultVal := by
  obtain ⟨rte, size, content⟩ := ext
  cases rte with
  | lpm4 l =>
    have hshort : c.keySize ≤ 4 := hfits
    have hbit : (codeBit key : ℕ → Bool) = (key32 key).getMsbD := by
      funext t
      rw [codeBit, if_pos hshort]
    simp only [lpmLookup, if_neg hkey, htable, Option.bind_some, if_pos hshort, h4.lookup_eq,
      RteLpmTable.rules, best_map, hbit]
    cases best (fun r : LpmRule (BitVec 32) => agree r.depth r.ip.getMsbD (key32 key).getMsbD)
      (fun r => r.depth) (rules4 l) <;> rfl
  | lpm6 l =>
    have hlong : 4 < c.keySize ∧ c.keySize ≤ lpm6ByteSizeLimit := hfits
    have hbit : (codeBit key : ℕ → Bool) = lpm6Bit (key128 key) := by
      funext t
      rw [codeBit, if_neg (not_le.mpr hlong.1)]
    simp only [lpmLookup, if_neg hkey, htable, Option.bind_some, if_neg (not_le.mpr hlong.1),
      if_pos hlong.2, h6.lookup_eq, RteLpmTable.rules, best_map, hbit]
    cases best (fun r : LpmRule Lpm6Key => agree r.depth (lpm6Bit r.ip) (lpm6Bit (key128 key)))
      (fun r => r.depth) (rules6 l) <;> rfl

end Rules

/-! ### Runs of adds -/

/-- An `lpm_add` call of the control plane: the values of the exact fields and of
the lpm field, of which the first `prefixLength` bits count. -/
structure LpmAdd (K : LpmKey) (actionSize : ℕ) where
  value : ℕ → FieldValue
  prefixLength : ℕ
  le_size : prefixLength ≤ K.lpm.size
  action : List.Vector Byte actionSize

variable {K : LpmKey} {maxSize actionSize : ℕ}

/-- The table of the key `K`. -/
abbrev LpmTableOf (L4 : RteLpm (BitVec 32)) (L6 : RteLpm Lpm6Key) (K : LpmKey)
    (maxSize actionSize : ℕ) :=
  LpmTable (c := K.config maxSize actionSize) L4 L6

/-- The `lpm_add` call of an add, with the depth counted over the exact fields too. -/
def lpmAddOf (t : LpmTableOf L4 L6 K maxSize actionSize) (a : LpmAdd K actionSize) :
    Except Halt (LpmTableOf L4 L6 K maxSize actionSize) :=
  lpmAdd t (K.key a.value) (K.exactBits + a.prefixLength) a.action

/-- Runs of `lpm_add` calls on a fresh table, with the adds that the library
accepted, the newest first. -/
inductive LpmRun (L4 : RteLpm (BitVec 32)) (L6 : RteLpm Lpm6Key) (K : LpmKey)
    (maxSize actionSize : ℕ) (d : List.Vector Byte actionSize) :
    LpmTableOf L4 L6 K maxSize actionSize → List (LpmAdd K actionSize) → Prop
  | create {ext : ExtendedTable (RteLpmTable L4 L6)}
      (h : lpmCreate L4 L6 (K.config maxSize actionSize) = .ok ext) :
      LpmRun L4 L6 K maxSize actionSize d (freshTable _ ext d) []
  | add {t t' : LpmTableOf L4 L6 K maxSize actionSize} {adds : List (LpmAdd K actionSize)}
      (hrun : LpmRun L4 L6 K maxSize actionSize d t adds) (a : LpmAdd K actionSize)
      (h : lpmAddOf t a = .ok t') :
      LpmRun L4 L6 K maxSize actionSize d t'
        (if rteAccepts t (K.key a.value) (K.exactBits + a.prefixLength) then a :: adds else adds)

/-- Lookups in `t` find the longest prefix: for each key the entry of the last one
of the longest adds that match, and the default entry when none does. -/
def LongestMatch (d : List.Vector Byte actionSize) (t : LpmTableOf L4 L6 K maxSize actionSize)
    (adds : List (LpmAdd K actionSize)) : Prop :=
  ∀ v : ℕ → FieldValue,
    (∀ newer a older, adds = newer ++ a :: older → K.Matches a.prefixLength a.value v →
      (∀ x ∈ newer, K.Matches x.prefixLength x.value v → x.prefixLength < a.prefixLength) →
      (∀ x ∈ older, K.Matches x.prefixLength x.value v → x.prefixLength ≤ a.prefixLength) →
      t.entry (lpmLookup t (K.key v)) =
        some (fillTableEntry (c := K.config maxSize actionSize) a.action)) ∧
    ((∀ a ∈ adds, ¬K.Matches a.prefixLength a.value v) →
      lpmLookup t (K.key v) = t.defaultVal ∧
        t.entry t.defaultVal = some (fillTableEntry (c := K.config maxSize actionSize) d))

/-- The rules of the library are the adds, each with the cell of its entry. -/
structure LpmInv (rules4 : L4.State → List (LpmRule (BitVec 32)))
    (rules6 : L6.State → List (LpmRule Lpm6Key)) (d : List.Vector Byte actionSize)
    (t : LpmTableOf L4 L6 K maxSize actionSize) (ext : ExtendedTable (RteLpmTable L4 L6))
    (cells : List (LpmAdd K actionSize × ℕ)) : Prop where
  entry_default : t.entry t.defaultVal =
    some (fillTableEntry (c := K.config maxSize actionSize) d)
  table : t.table = some ext
  fits : ext.rteTable.Fits (K.config maxSize actionSize)
  rules : ext.rteTable.rules rules4 rules6 = cells.map fun x =>
    ⟨codeBit (c := K.config maxSize actionSize) (K.key x.1.value),
      K.exactBits + x.1.prefixLength, x.2⟩
  cell_lt : ∀ x ∈ cells, x.2 < ext.size
  entry_cell : ∀ x ∈ cells, t.entry (ext.content x.2) =
    some (fillTableEntry (c := K.config maxSize actionSize) x.1.action)

theorem entry_lpmPut {t : LpmTable (c := c) L4 L6} {p : Option EntryPtr} {e : List Byte}
    (ext : ExtendedTable (RteLpmTable L4 L6)) (rte : RteLpmTable L4 L6) (a : TableAction c)
    (hp : t.entry p = some e) : (lpmPut t ext rte a).entry p = some e :=
  entry_makeTableEntry hp a

section Run

variable {rules4 : L4.State → List (LpmRule (BitVec 32))}
  {rules6 : L6.State → List (LpmRule Lpm6Key)} {d : List.Vector Byte actionSize}
  (h4 : L4.Documented BitVec.getMsbD rules4) (h6 : L6.Documented lpm6Bit rules6)
include h4 h6

theorem lpmInv_create (hkey : K.keySize ≠ 0) {ext : ExtendedTable (RteLpmTable L4 L6)}
    (h : lpmCreate L4 L6 (K.config maxSize actionSize) = .ok ext) :
    LpmInv rules4 rules6 d (freshTable (K.config maxSize actionSize) ext d) ext [] := by
  have htable : (freshTable (K.config maxSize actionSize) ext d).table = some ext :=
    if_neg hkey
  unfold lpmCreate at h
  split_ifs at h with hshort hlong
  · obtain rfl := Except.ok.inj h
    refine ⟨rfl, htable, hshort, ?_, by simp, by simp⟩
    show (rules4 L4.create).map _ = _
    rw [h4.rules_create]
    rfl
  · obtain rfl := Except.ok.inj h
    refine ⟨rfl, htable, ⟨not_le.mp hshort, hlong⟩, ?_, by simp, by simp⟩
    show (rules6 L6.create).map _ = _
    rw [h6.rules_create]
    rfl

/-- An add keeps the invariant: its rule gets the next cell. -/
theorem LpmInv.step (hkey : K.keySize ≠ 0) {t t' : LpmTableOf L4 L6 K maxSize actionSize}
    {ext : ExtendedTable (RteLpmTable L4 L6)} {cells : List (LpmAdd K actionSize × ℕ)}
    (hinv : LpmInv rules4 rules6 d t ext cells) {a : LpmAdd K actionSize}
    (hadd : lpmAddOf t a = .ok t') :
    ∃ ext', LpmInv rules4 rules6 d t' ext'
      (if rteAccepts t (K.key a.value) (K.exactBits + a.prefixLength) then
        (a, ext.size) :: cells else cells) := by
  obtain rfl := lpmAdd_eq_put hkey hinv.table hinv.fits hadd
  have hrules := rules_add h4 h6 (K.key a.value) (K.exactBits + a.prefixLength) hinv.table hinv.fits
  set rte := ext.rteTable.add (c := K.config maxSize actionSize) (K.key a.value)
    (K.exactBits + a.prefixLength) ext.size
  have hfits : rte.Fits (K.config maxSize actionSize) := hinv.fits.add ..
  -- The entries added before are in lower cells, and their cells are not written again.
  have hold : ∀ x ∈ cells, x.2 < ext.size + 1 ∧
      (lpmPut t ext rte a.action).entry (Function.update ext.content ext.size
        (some t.heap.blocks.length) x.2) =
        some (fillTableEntry (c := K.config maxSize actionSize) x.1.action) := by
    intro x hx
    have hlt := hinv.cell_lt x hx
    refine ⟨by omega, ?_⟩
    rw [Function.update_of_ne (by omega)]
    exact entry_lpmPut ext rte a.action (hinv.entry_cell x hx)
  refine ⟨_, entry_lpmPut ext rte a.action hinv.entry_default, rfl, hfits, ?_, ?_, ?_⟩
  · show rte.rules rules4 rules6 = _
    rw [hrules, hinv.rules]
    split_ifs <;> rfl
  -- A rule that the library refuses leaves the entry in its cell, where no rule leads to it.
  · split_ifs
    · rw [List.forall_mem_cons]
      exact ⟨Nat.lt_succ_self ext.size, fun x hx => (hold x hx).1⟩
    · exact fun x hx => (hold x hx).1
  · split_ifs
    · rw [List.forall_mem_cons]
      refine ⟨?_, fun x hx => (hold x hx).2⟩
      show (lpmPut t ext rte a.action).entry (Function.update ext.content ext.size
        (some t.heap.blocks.length) ext.size) = _
      rw [Function.update_self]
      simp [LookupTable.entry, lpmPut]
    · exact fun x hx => (hold x hx).2

/-- Every run keeps the invariant. -/
theorem lpmInv_run (hkey : K.keySize ≠ 0) {t : LpmTableOf L4 L6 K maxSize actionSize}
    {adds : List (LpmAdd K actionSize)} (hrun : LpmRun L4 L6 K maxSize actionSize d t adds) :
    ∃ ext cells, LpmInv rules4 rules6 d t ext cells ∧ adds = cells.map Prod.fst := by
  induction hrun with
  | create h => exact ⟨_, [], lpmInv_create h4 h6 hkey h, rfl⟩
  | add hrun a h ih =>
    obtain ⟨ext, cells, hinv, rfl⟩ := ih
    obtain ⟨ext', hinv'⟩ := hinv.step h4 h6 hkey h
    refine ⟨ext', _, hinv', ?_⟩
    split_ifs <;> rfl

/-- With the invariant, lookups find the longest prefix. -/
theorem LpmInv.longestMatch (hkey : K.keySize ≠ 0)
    {t : LpmTableOf L4 L6 K maxSize actionSize}
    {ext : ExtendedTable (RteLpmTable L4 L6)} {cells : List (LpmAdd K actionSize × ℕ)}
    (hinv : LpmInv rules4 rules6 d t ext cells)
    (hcompares : ∀ a ∈ cells.map Prod.fst, K.Compares a.prefixLength) :
    LongestMatch d t (cells.map Prod.fst) := by
  intro v
  -- the libraries' rule, as a choice among the adds
  have hbest : best (fun r => agree r.depth r.ip
      (codeBit (c := K.config maxSize actionSize) (K.key v))) LpmRule.depth
      (ext.rteTable.rules rules4 rules6) =
      (best (fun x : LpmAdd K actionSize × ℕ => decide (K.Matches x.1.prefixLength x.1.value v))
        (fun x => K.exactBits + x.1.prefixLength) cells).map fun x =>
        ⟨codeBit (c := K.config maxSize actionSize) (K.key x.1.value),
          K.exactBits + x.1.prefixLength, x.2⟩ := by
    rw [hinv.rules, best_map]
    congr 1
    exact best_congr fun x hx => LpmKey.agrees_iff_matches
      (hcompares x.1 (List.mem_map_of_mem hx)) x.1.le_size x.1.value v
  have hlook := lpmLookup_eq h4 h6 (c := K.config maxSize actionSize) (K.key v) hkey
    hinv.table hinv.fits
  rw [hbest] at hlook
  constructor
  · intro newer a older hadds hmatch hnewer holder
    obtain ⟨newer', rest, rfl, rfl, hrest⟩ := List.map_eq_append_iff.mp hadds
    obtain ⟨x, older', rfl, rfl, rfl⟩ := List.map_eq_cons_iff.mp hrest
    have hx : best (fun x : LpmAdd K actionSize × ℕ =>
        decide (K.Matches x.1.prefixLength x.1.value v))
        (fun x => K.exactBits + x.1.prefixLength) (newer' ++ x :: older') = some x := by
      refine best_eq_some_iff.mpr ⟨newer', older', rfl, decide_eq_true hmatch, ?_, ?_⟩
      · intro y hy hmy
        have h := hnewer y.1 (List.mem_map_of_mem hy) (of_decide_eq_true hmy)
        omega
      · intro y hy hmy
        have h := holder y.1 (List.mem_map_of_mem hy) (of_decide_eq_true hmy)
        omega
    rw [hlook, hx]
    exact hinv.entry_cell x (by simp)
  · intro hnone
    have hx : best (fun x : LpmAdd K actionSize × ℕ =>
        decide (K.Matches x.1.prefixLength x.1.value v))
        (fun x => K.exactBits + x.1.prefixLength) cells = none :=
      best_eq_none_iff.mpr fun x hx => decide_eq_false (hnone x.1 (List.mem_map_of_mem hx))
    rw [hlook, hx]
    exact ⟨rfl, hinv.entry_default⟩

omit h4 h6 in
/-- A table without a key stays as it is. -/
theorem lpmRun_keyless (hkey : K.keySize = 0) {t : LpmTableOf L4 L6 K maxSize actionSize}
    {adds : List (LpmAdd K actionSize)} (hrun : LpmRun L4 L6 K maxSize actionSize d t adds) :
    adds = [] ∧ t.table = none ∧
      t.entry t.defaultVal = some (fillTableEntry (c := K.config maxSize actionSize) d) := by
  induction hrun with
  | create h => exact ⟨rfl, if_pos hkey, rfl⟩
  | add hrun a h ih =>
    obtain ⟨rfl, htable, hentry⟩ := ih
    rw [lpmAddOf, lpmAdd, if_pos hkey] at h
    obtain rfl := Except.ok.inj h
    refine ⟨?_, htable, hentry⟩
    rw [rteAccepts, htable]
    rfl

/-- **Lookups find the longest prefix in every run of adds that are compared right, as all are
with an aligned key, and every further add within `max_size` is defined.** -/
theorem lpmRun_longestMatch {t : LpmTableOf L4 L6 K maxSize actionSize}
    {adds : List (LpmAdd K actionSize)} (hrun : LpmRun L4 L6 K maxSize actionSize d t adds)
    (hcompares : ∀ a ∈ adds, K.Compares a.prefixLength) :
    LongestMatch d t adds ∧ ∀ a : LpmAdd K actionSize, (∀ ext, t.table = some ext →
      ext.size < maxSize) → lpmAddOf t a ≠ .error .undefined := by
  by_cases hkey : K.keySize = 0
  · obtain ⟨rfl, -, hentry⟩ := lpmRun_keyless hkey hrun
    refine ⟨fun v => ⟨fun newer a older hadds => ?_, fun _ => ⟨if_pos hkey, hentry⟩⟩, ?_⟩
    · exact absurd hadds.symm (by simp)
    · intro a _
      rw [lpmAddOf, lpmAdd, if_pos hkey]
      exact nofun
  · obtain ⟨ext, cells, hinv, rfl⟩ := lpmInv_run h4 h6 hkey hrun
    refine ⟨hinv.longestMatch h4 h6 hkey hcompares, ?_⟩
    intro a hroom
    exact lpmAdd_defined hkey hinv.table hinv.fits (hroom ext hinv.table)

end Run

/-! ### Keys of one field -/

/-- The value `n` of a field of `size` bits. -/
def fieldValue (size n : ℕ) : FieldValue := { bits := fun i => n.testBit (size - 1 - i) }

/-- The key of one lpm field of `size` bits. -/
def lpmKeyOf (size : ℕ) : LpmKey := { pre := [], lpm := ⟨size, 0⟩, post := [] }

/-- The value `n` with a prefix, with an action of one byte. -/
def lpmAddOfNat (size n prefixLength : ℕ) (h : prefixLength ≤ size) (id : Byte) :
    LpmAdd (lpmKeyOf size) 1 :=
  { value := fun _ => fieldValue size n, prefixLength := prefixLength, le_size := h
    action := ⟨[id], List.length_singleton⟩ }

/-- The libraries, with room for four rules. -/
abbrev rteLpm4 : RteLpm (BitVec 32) := rteLpm _ BitVec.getMsbD 32 4

abbrev rteLpm6 : RteLpm Lpm6Key := rteLpm _ lpm6Bit 128 4

/-- Two prefixes of an IPv4 address, one inside of the other. -/
theorem ipv4_longestMatch :
    ∃ t, LpmRun rteLpm4 rteLpm6 (lpmKeyOf 32) 4 1 ⟨[0], rfl⟩ t
        [lpmAddOfNat 32 0x0a010000 16 (by decide) 2, lpmAddOfNat 32 0x0a000000 8 (by decide) 1] ∧
      LongestMatch ⟨[0], rfl⟩ t
        [lpmAddOfNat 32 0x0a010000 16 (by decide) 2, lpmAddOfNat 32 0x0a000000 8 (by decide) 1] := by
  have hrun : LpmRun rteLpm4 rteLpm6 (lpmKeyOf 32) 4 1 ⟨[0], rfl⟩ _ _ :=
    .add (.add (.create rfl) (lpmAddOfNat 32 0x0a000000 8 (by decide) 1) rfl)
      (lpmAddOfNat 32 0x0a010000 16 (by decide) 2) rfl
  refine ⟨_, hrun, (lpmRun_longestMatch (rteLpm_documented ..) (rteLpm_documented ..) hrun
    fun a _ => ?_).1⟩
  exact .inl (.inl ⟨rfl, rfl, by simp [lpmKeyOf], rfl⟩)

/-- A 16-bit field fills the low half of the host integer: the first bit of the
integer is zero whatever the value is. -/
theorem lpm16_not_longestMatch :
    ¬∀ t adds, LpmRun rteLpm4 rteLpm6 (lpmKeyOf 16) 4 1 ⟨[0], rfl⟩ t adds →
      LongestMatch ⟨[0], rfl⟩ t adds := by
  intro h
  have hrun : LpmRun rteLpm4 rteLpm6 (lpmKeyOf 16) 4 1 ⟨[0], rfl⟩ _ _ :=
    .add (.create rfl) (lpmAddOfNat 16 0x8000 1 (by decide) 1) rfl
  obtain ⟨-, hmiss⟩ := h _ _ hrun fun _ => fieldValue 16 0
  have hdefault := (hmiss (by decide)).1
  exact absurd hdefault (by decide)

end T4P4S
