/-
The messages between controller and dataplane.

A message lies in a buffer of bytes, which the structs of `messages.h` give a
layout: a member is known by its offset here.  Numbers are put in as the host has
them; the `netconv` functions swap their bytes.

A message to add a table entry is a `p4_add_table_entry`, then its matches, then
a `p4_action` and its parameters.  A message to set a default action has the
`p4_action` in the first struct.
-/
import T4P4S.Lib.Traced
import T4P4S.Packet

open ByteString

namespace T4P4S

/-- The content of a buffer. -/
abbrev Buffer := ℕ → Byte

/-- The number in the `n` bytes from an offset on. -/
def Buffer.number (buffer : Buffer) (off n : ℕ) : ℕ := hostNat (slice buffer off n)

/-- The same number in the opposite order of bytes: `ntohs`, `ntohl`. -/
def Buffer.netNumber (buffer : Buffer) (off n : ℕ) : ℕ := byteSwap n (buffer.number off n)

theorem Buffer.netNumber_eq (buffer : Buffer) (off n : ℕ) :
    buffer.netNumber off n = hostNat (slice buffer off n).reverse := by
  have hswap := byteSwap_hostNat (slice buffer off n)
  rw [length_slice] at hswap
  exact hswap

/-! ### The structs -/

def sizeofP4Header : ℕ := 8

def offType : ℕ := 1

def offLength : ℕ := 2

def offXid : ℕ := 4

/-- `P4_MAX_TABLE_NAME_LEN`, which is also the length of the other names. -/
def p4MaxNameLen : ℕ := 128

def offTableName : ℕ := 8

def sizeofP4AddTableEntry : ℕ := 140

def offReadSize : ℕ := 136

def sizeofP4SetDefaultAction : ℕ := 268

/-- The `action` of a `p4_set_default_action`. -/
def offAction : ℕ := 136

def sizeofP4Action : ℕ := 130

/-- The name in the `description` of a `p4_action`. -/
def offActionName : ℕ := 1

def offParamSize : ℕ := 129

def sizeofP4ActionParameter : ℕ := 260

def offParamLength : ℕ := 128

def offParamBitmap : ℕ := 132

/-- `MAX_ACTION_PARAMETER_BITMAP_LENGTH` -/
def maxActionParameterBitmapLength : ℕ := 128

/-- `MAX_FIELD_LENGTH` -/
def maxFieldLength : ℕ := 256

/-- The `type` in the header of a match. -/
def offMatchType : ℕ := 128

/-- The `prefix_length` of an LPM match, and the `length` of the others. -/
def offMatchLength : ℕ := 130

/-- What lies behind the `length`: the bitmap, or the member in front of it. -/
def offMatchRest : ℕ := 132

/-- `p4_type_t`, as far as the dataplane handles it. -/
def p4tCtrlInitialized : ℕ := 5

def p4tSetDefaultAction : ℕ := 103

def p4tAddTableEntry : ℕ := 104

/-- `p4_field_match_type_t` -/
inductive FieldMatchType
  | exact
  | ternary
  | lpm
  | range
  | valid
  deriving DecidableEq

namespace FieldMatchType

/-- The value of the enumeration constant. -/
def code : FieldMatchType → ℕ
  | exact => 0
  | ternary => 1
  | lpm => 2
  | range => 3
  | valid => 4

def ofCode : ℕ → Option FieldMatchType
  | 0 => some exact
  | 1 => some ternary
  | 2 => some lpm
  | 3 => some range
  | 4 => some valid
  | _ => none

theorem code_lt (type : FieldMatchType) : type.code < 256 ^ 1 := by
  cases type <;> decide

@[simp] theorem ofCode_code (type : FieldMatchType) : ofCode type.code = some type := by
  cases type <;> rfl

/-- `sizeof` the struct of the match. -/
def sizeof : FieldMatchType → ℕ
  | exact => 388
  | ternary => 646
  | lpm => 388
  | range => 646
  | valid => 390

/-- The length is a member of all the structs. -/
theorem le_sizeof (type : FieldMatchType) : offMatchLength + 2 ≤ type.sizeof := by
  cases type <;> decide

end FieldMatchType

/-! ### Byte order -/

/-- `m->x = htons(m->x)`, or with `htonl`. -/
def netconvNumber (off n : ℕ) (t : Traced Byte) : Traced Byte :=
  let rd := t.read off n
  rd.2.write ⟨off, hostBytes n (byteSwap n (hostNat rd.1))⟩

@[simp] theorem netconvNumber_mem (off n : ℕ) (t : Traced Byte) :
    (netconvNumber off n t).mem = Write.run t.mem ⟨off, (slice t.mem off n).reverse⟩ := by
  have h : hostBytes n (byteSwap n (hostNat (slice t.mem off n))) =
      (slice t.mem off n).reverse := by
    have hbytes := hostBytes_hostNat (slice t.mem off n)
    rw [length_slice] at hbytes
    rw [hostBytes_byteSwap, netBytes, hbytes]
  rw [← h]
  rfl

@[simp] theorem netconvNumber_within (off n : ℕ) (t : Traced Byte) (k : ℕ) :
    (netconvNumber off n t).Within k ↔ off + n ≤ k ∧ t.Within k := by
  simp [netconvNumber]

/-- A number elsewhere is not changed. -/
theorem netconvNumber_of_disjoint {off n : ℕ} {t : Traced Byte} {i : ℕ}
    (hi : i < off ∨ off + n ≤ i) : (netconvNumber off n t).mem i = t.mem i := by
  rw [netconvNumber_mem]
  refine Write.run_of_notMem t.mem ?_
  rw [List.length_reverse, length_slice]
  exact hi

/-- The bytes of a number that was swapped. -/
theorem slice_netconvNumber (off n : ℕ) (t : Traced Byte) :
    slice (netconvNumber off n t).mem off n = (slice t.mem off n).reverse := by
  have hrun := slice_run t.mem ⟨off, (slice t.mem off n).reverse⟩
  rw [List.length_reverse, length_slice] at hrun
  rw [netconvNumber_mem]
  exact hrun

theorem slice_netconvNumber_of_disjoint {off n off' n' : ℕ} {t : Traced Byte}
    (h : off' + n' ≤ off ∨ off + n ≤ off') :
    slice (netconvNumber off n t).mem off' n' = slice t.mem off' n' :=
  slice_congr fun i hi => netconvNumber_of_disjoint (by omega)

/-- A number whose bytes are swapped, in the middle of other things. -/
theorem netconvNumber_holds {p off n : ℕ} {t : Traced Byte} {ws ws' : List (Write Byte)}
    {bytes : List Byte} (hbytes : bytes.length = n)
    (hws : ∀ w ∈ ws ++ ws', w.off + w.data.length ≤ off ∨ off + n ≤ w.off)
    (h : Holds t.mem p (ws ++ ⟨off, bytes⟩ :: ws')) :
    Holds (netconvNumber (p + off) n t).mem p (ws ++ ⟨off, bytes.reverse⟩ :: ws') := by
  rw [List.forall_mem_append] at hws
  obtain ⟨hbefore, hnumber, hbehind⟩ := (holds_append.trans (and_congr_right' holds_cons)).mp h
  rw [hbytes] at hnumber
  rw [netconvNumber_mem, hnumber, holds_append, holds_cons]
  refine ⟨holds_run_of_disjoint hbefore ?_, slice_run t.mem ⟨p + off, bytes.reverse⟩,
    holds_run_of_disjoint hbehind ?_⟩
  · intro w hw
    have hw' := hws.1 w hw
    rw [List.length_reverse]
    dsimp only
    omega
  · intro w hw
    have hw' := hws.2 w hw
    rw [List.length_reverse]
    dsimp only
    omega

def netconvP4Header (m : ℕ) (t : Traced Byte) : Traced Byte :=
  netconvNumber (m + offXid) 4 (netconvNumber (m + offLength) 2 t)

def netconvP4FieldMatchLpm (m : ℕ) : Traced Byte → Traced Byte :=
  netconvNumber (m + offMatchLength) 2

def netconvP4FieldMatchExact (m : ℕ) : Traced Byte → Traced Byte :=
  netconvNumber (m + offMatchLength) 2

def netconvP4FieldMatchRange (m : ℕ) : Traced Byte → Traced Byte :=
  netconvNumber (m + offMatchLength) 2

def netconvP4FieldMatchTernary (m : ℕ) : Traced Byte → Traced Byte :=
  netconvNumber (m + offMatchLength) 2

def netconvP4FieldMatchValid (m : ℕ) : Traced Byte → Traced Byte :=
  netconvNumber (m + offMatchLength) 2

/-- The size of the struct, and the buffer.  An unknown type has the size 0. -/
def netconvP4FieldMatchComplex (m : ℕ) (t : Traced Byte) : ℕ × Traced Byte :=
  let type := t.read (m + offMatchType) 1
  match FieldMatchType.ofCode (hostNat type.1) with
  | some .exact => (FieldMatchType.exact.sizeof, netconvP4FieldMatchExact m type.2)
  | some .ternary => (FieldMatchType.ternary.sizeof, netconvP4FieldMatchTernary m type.2)
  | some .lpm => (FieldMatchType.lpm.sizeof, netconvP4FieldMatchLpm m type.2)
  | some .range => (FieldMatchType.range.sizeof, netconvP4FieldMatchRange m type.2)
  | some .valid => (FieldMatchType.valid.sizeof, netconvP4FieldMatchValid m type.2)
  | none => (0, type.2)

def netconvP4ActionParameter (m : ℕ) : Traced Byte → Traced Byte :=
  netconvNumber (m + offParamLength) 4

/-! ### Making a message -/

def createP4Header (buffer : Buffer) (offset maxlength : ℕ) : Option Buffer :=
  if maxlength < offset + sizeofP4Header then
    none
  else
    some (run [⟨offset, hostBytes 1 1⟩, ⟨offset + offType, hostBytes 1 0⟩,
      ⟨offset + offLength, hostBytes 2 sizeofP4Header⟩, ⟨offset + offXid, hostBytes 4 0⟩] buffer)

def createP4AddTableEntry (buffer : Buffer) (offset maxlength : ℕ) : Option Buffer :=
  if maxlength ≤ offset + sizeofP4AddTableEntry then
    none
  else
    some (run [⟨offset + offLength, hostBytes 2 sizeofP4AddTableEntry⟩,
      ⟨offset + offType, hostBytes 1 p4tAddTableEntry⟩, ⟨offset + offReadSize, hostBytes 1 0⟩,
      ⟨offset + offTableName, [0]⟩] buffer)

def createP4SetDefaultAction (buffer : Buffer) (offset maxlength : ℕ) : Option Buffer :=
  if maxlength ≤ offset + sizeofP4SetDefaultAction then
    none
  else
    let action := offset + offAction
    some (run [⟨offset + offLength, hostBytes 2 sizeofP4SetDefaultAction⟩,
      ⟨offset + offType, hostBytes 1 p4tSetDefaultAction⟩, ⟨offset + offTableName, [0]⟩,
      ⟨action, hostBytes 1 0⟩, ⟨action + offActionName, [0]⟩,
      ⟨action + offParamSize, hostBytes 1 0⟩] buffer)

/-- What the functions `add_p4_field_match_X` have in common.  `rest` is what they set behind
the `length` of the match; the result is the place of the match, and the buffer. -/
def addP4FieldMatch (type : FieldMatchType) (rest : List Byte) (buffer : Buffer)
    (addTableEntry maxlength : ℕ) : Option (ℕ × Buffer) :=
  let length := buffer.number (addTableEntry + offLength) 2
  let readSize := buffer.number (addTableEntry + offReadSize) 1
  if maxlength < length + type.sizeof then
    none
  else
    let fieldMatch := addTableEntry + length
    some (fieldMatch, run [⟨addTableEntry + offLength, hostBytes 2 (length + type.sizeof)⟩,
      ⟨addTableEntry + offReadSize, hostBytes 1 (readSize + 1)⟩,
      ⟨fieldMatch + offMatchType, hostBytes 1 type.code⟩,
      ⟨fieldMatch + offMatchLength, hostBytes 2 0⟩, ⟨fieldMatch + offMatchRest, rest⟩] buffer)

def addP4FieldMatchLpm : Buffer → ℕ → ℕ → Option (ℕ × Buffer) := addP4FieldMatch .lpm []

def addP4FieldMatchExact : Buffer → ℕ → ℕ → Option (ℕ × Buffer) := addP4FieldMatch .exact []

/-- With the `priority`. -/
def addP4FieldMatchTernary : Buffer → ℕ → ℕ → Option (ℕ × Buffer) :=
  addP4FieldMatch .ternary [0]

def addP4Action (buffer : Buffer) (header maxlength : ℕ) : Option (ℕ × Buffer) :=
  let length := buffer.number (header + offLength) 2
  if maxlength < length + sizeofP4Action then
    none
  else
    let action := header + length
    some (action, run [⟨header + offLength, hostBytes 2 (length + sizeofP4Action)⟩,
      ⟨action, hostBytes 1 0⟩, ⟨action + offActionName, [0]⟩,
      ⟨action + offParamSize, hostBytes 1 0⟩] buffer)

def addP4ActionParameter (buffer : Buffer) (header action maxlength : ℕ) :
    Option (ℕ × Buffer) :=
  let length := buffer.number (header + offLength) 2
  let paramSize := buffer.number (action + offParamSize) 1
  if maxlength < length + sizeofP4ActionParameter then
    none
  else
    let actionP := header + length
    some (actionP, run [⟨header + offLength, hostBytes 2 (length + sizeofP4ActionParameter)⟩,
      ⟨action + offParamSize, hostBytes 1 (paramSize + 1)⟩, ⟨actionP, [0]⟩,
      ⟨actionP + offParamLength, hostBytes 4 0⟩] buffer)

end T4P4S
