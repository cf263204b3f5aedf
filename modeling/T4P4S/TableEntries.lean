/-
The sizes in a table's configuration, and the entries that are made with them.

`table_config` puts the size of the table's action record and the length of its key into
fields of 8 bits.  The record is a struct: the action's id and a union of the structs of the
actions' parameters.

* **`entriesLaw_iff`** — every entry has the whole record and the table has the whole length
  of its key iff both have at most 255 bytes.
* `sizeofAction_le_iff` — for integer parameters the record has at most 255 bytes iff each
  action's parameters have at most 248.
* `fake_iff` — a key with a multiple of 256 bytes makes the table one without keys.
-/
import T4P4S.ActionParams

namespace T4P4S

/-! ### Layout -/

/-- The size and the alignment of a C type. -/
structure TypeLayout where
  size : ℕ
  align : ℕ
  align_pos : 0 < align

/-- The end of a struct's members, from offset `off` on. -/
def structEnd (off : ℕ) : List TypeLayout → ℕ
  | [] => off
  | m :: ms => structEnd (alignUp off m.align + m.size) ms

/-- The alignment of a struct or a union, which is that of its strictest member. -/
def maxAlign (ms : List TypeLayout) : ℕ := ms.foldr (fun m a => max m.align a) 1

def maxSize (ms : List TypeLayout) : ℕ := ms.foldr (fun m s => max m.size s) 0

theorem maxAlign_pos (ms : List TypeLayout) : 0 < maxAlign ms := by
  induction ms with
  | nil => exact Nat.one_pos
  | cons m ms _ => exact lt_max_of_lt_left m.align_pos

namespace TypeLayout

def struct (ms : List TypeLayout) : TypeLayout :=
  ⟨alignUp (structEnd 0 ms) (maxAlign ms), maxAlign ms, maxAlign_pos ms⟩

def union (ms : List TypeLayout) : TypeLayout :=
  ⟨alignUp (maxSize ms) (maxAlign ms), maxAlign ms, maxAlign_pos ms⟩

/-- An enum or an `int`. -/
def int : TypeLayout := ⟨4, 4, by decide⟩

end TypeLayout

/-- The type of an action's parameter. -/
inductive ParamType
  | bits (p : ActionParam)
  | boolean
  | enumeration
  | struct

theorem ActionParam.memberSize_pos {p : ActionParam} (hp : p.size ≤ 32) : 0 < p.memberSize := by
  simp only [memberSize, if_pos hp, sizeup, Bool.false_eq_true, if_false]
  split_ifs <;> decide

/-- `format_type` with the name of a variable.  Wide integers are arrays of bytes, and a
struct is referred to by a pointer. -/
def ParamType.member : ParamType → TypeLayout
  | .bits p =>
    if h : p.size ≤ 32 then ⟨p.memberSize, p.memberSize, ActionParam.memberSize_pos h⟩
    else ⟨p.memberSize, 1, Nat.one_pos⟩
  | .boolean => ⟨1, 1, Nat.one_pos⟩
  | .enumeration => TypeLayout.int
  | .struct => ⟨8, 8, by decide⟩

/-- `action_X_params_t` -/
def actionParamsT (params : List ParamType) : TypeLayout :=
  TypeLayout.struct (params.map ParamType.member)

/-! ### The configuration -/

/-- What `hlir` says about a table: its kind, the parameters of its actions, and
`key_length_bytes`.  `size` is `none` where the program has no `size` for it. -/
structure TableDecl where
  matchType : LookupType
  actions : List (List ParamType)
  keyLengthBytes : ℕ
  size : Option ℕ

namespace TableDecl

variable (t : TableDecl)

/-- `X_action_params_t` -/
def actionParamsUnion : TypeLayout := TypeLayout.union (t.actions.map actionParamsT)

/-- `sizeof(X_action_t)` -/
def sizeofAction : ℕ := (TypeLayout.struct [TypeLayout.int, t.actionParamsUnion]).size

/-- The value that a field of type `uint8_t` gets. -/
def uint8 (n : ℕ) : ℕ := n % 2 ^ 8

/-- `TABLE_CONFIG_ENTRY_DEF`, as `table_config` has it for the table. -/
def tableConfig (maxTableSize : ℕ) : TableConfig where
  type := t.matchType
  maxSize := t.size.getD maxTableSize
  keySize := uint8 t.keyLengthBytes
  actionSize := uint8 t.sizeofAction
  stateSize := 0

/-- The table's action record, `X_action_t`. -/
abbrev ActionRecord := List.Vector Byte t.sizeofAction

theorem uint8_le (n : ℕ) : uint8 n ≤ n := Nat.mod_le n (2 ^ 8)

theorem uint8_eq_iff (n : ℕ) : uint8 n = n ↔ n ≤ 255 := by
  unfold uint8
  omega

variable {t} {maxTableSize : ℕ}

/-- The part of a record that is read through a `base_table_action_t*`. -/
def ActionRecord.read (record : t.ActionRecord) : TableAction (t.tableConfig maxTableSize) :=
  ⟨record.toList.take (t.tableConfig maxTableSize).actionSize, by
    rw [List.length_take, record.toList_length]
    exact min_eq_left (uint8_le t.sizeofAction)⟩

variable (t) (maxTableSize)

/-- A new entry has the complete record and then the state, and the stored length of the key
is right. -/
def EntriesLaw : Prop :=
  (∀ (T : Type) (table : LookupTable (t.tableConfig maxTableSize) T) (record : t.ActionRecord),
    (makeTableEntry table record.read).1.entry (some (makeTableEntry table record.read).2) =
      some (record.toList ++ List.replicate (t.tableConfig maxTableSize).stateSize 0)) ∧
  (t.tableConfig maxTableSize).keySize = t.keyLengthBytes

/-! ### The size of the record -/

variable {t} {maxTableSize}

theorem alignUp_le_iff {off a n : ℕ} (ha : 0 < a) (han : a ∣ n) : alignUp off a ≤ n ↔ off ≤ n := by
  refine ⟨(le_alignUp ha off).trans, fun h => ?_⟩
  obtain ⟨k, rfl⟩ := han
  rw [alignUp, Nat.mul_comm a k]
  refine Nat.mul_le_mul_right a (Nat.lt_succ_iff.mp ?_)
  rw [Nat.div_lt_iff_lt_mul ha, Nat.succ_mul, Nat.mul_comm k a]
  omega

theorem maxAlign_dvd {ms : List TypeLayout} {n : ℕ} (h : ∀ m ∈ ms, m.align ∣ n) :
    maxAlign ms ∣ n := by
  induction ms with
  | nil => exact one_dvd n
  | cons m ms ih =>
    have hms := ih fun m' hm' => h m' (List.mem_cons_of_mem m hm')
    show max m.align (maxAlign ms) ∣ n
    rcases max_choice m.align (maxAlign ms) with hmax | hmax
    · rw [hmax]; exact h m List.mem_cons_self
    · rw [hmax]; exact hms

theorem maxSize_le_iff (ms : List TypeLayout) (n : ℕ) : maxSize ms ≤ n ↔ ∀ m ∈ ms, m.size ≤ n := by
  induction ms with
  | nil => exact iff_of_true n.zero_le (List.forall_mem_nil _)
  | cons m ms ih => rw [List.forall_mem_cons, ← ih]; exact max_le_iff

/-- Whatever the action, its parameters are within the record. -/
theorem actionParamsT_le {params : List ParamType} (hmem : params ∈ t.actions) :
    TypeLayout.int.size + (actionParamsT params).size ≤ t.sizeofAction := by
  have hmax : (actionParamsT params).size ≤ maxSize (t.actions.map actionParamsT) :=
    (maxSize_le_iff _ _).mp le_rfl _ (List.mem_map_of_mem hmem)
  have hunion : maxSize (t.actions.map actionParamsT) ≤ t.actionParamsUnion.size :=
    le_alignUp (maxAlign_pos _) _
  have hmember := le_alignUp t.actionParamsUnion.align_pos TypeLayout.int.size
  have hstruct : alignUp TypeLayout.int.size t.actionParamsUnion.align + t.actionParamsUnion.size ≤
      t.sizeofAction := le_alignUp (maxAlign_pos _) _
  omega

theorem member_align_dvd {p : ParamType} (hp : p ≠ .struct) : p.member.align ∣ 4 := by
  cases p with
  | bits p =>
    rw [ParamType.member]
    split_ifs with hsize
    · show p.memberSize ∣ 4
      simp only [ActionParam.memberSize, if_pos hsize, sizeup, Bool.false_eq_true, if_false]
      split_ifs <;> decide
    · exact one_dvd 4
  | boolean => exact one_dvd 4
  | enumeration => exact dvd_rfl
  | struct => exact absurd rfl hp

/-- The id and the padding at the end leave 248 bytes for the parameters. -/
theorem sizeofAction_le_iff (h : ∀ params ∈ t.actions, ParamType.struct ∉ params) :
    t.sizeofAction ≤ 255 ↔ ∀ params ∈ t.actions, (actionParamsT params).size ≤ 248 := by
  have hparams : ∀ m ∈ t.actions.map actionParamsT, m.align ∣ 4 := by
    refine List.forall_mem_map.mpr fun params hmem => maxAlign_dvd ?_
    refine List.forall_mem_map.mpr fun p hp => member_align_dvd ?_
    exact fun hstruct => h params hmem (hstruct ▸ hp)
  have hunion : t.actionParamsUnion.align ∣ 4 := maxAlign_dvd hparams
  have halign : maxAlign [TypeLayout.int, t.actionParamsUnion] = 4 :=
    (max_eq_left (max_le (Nat.le_of_dvd (by decide) hunion) (by decide)) : _)
  have hoff : alignUp 4 t.actionParamsUnion.align = 4 :=
    le_antisymm ((alignUp_le_iff t.actionParamsUnion.align_pos hunion).mpr le_rfl)
      (le_alignUp t.actionParamsUnion.align_pos 4)
  have hsize : t.sizeofAction = alignUp (4 + t.actionParamsUnion.size) 4 := by
    show alignUp (alignUp 4 t.actionParamsUnion.align + t.actionParamsUnion.size)
      (maxAlign [TypeLayout.int, t.actionParamsUnion]) = _
    rw [halign, hoff]
  calc t.sizeofAction ≤ 255 ↔ alignUp (4 + t.actionParamsUnion.size) 4 ≤ 252 := by
        -- the size is a multiple of 4
        rw [hsize, alignUp]
        omega
    _ ↔ t.actionParamsUnion.size ≤ 248 := by
        rw [alignUp_le_iff (by decide) (by decide)]
        omega
    _ ↔ maxSize (t.actions.map actionParamsT) ≤ 248 :=
        alignUp_le_iff (maxAlign_pos _) (hunion.trans (by decide))
    _ ↔ ∀ params ∈ t.actions, (actionParamsT params).size ≤ 248 := by
        rw [maxSize_le_iff, List.forall_mem_map]

/-! ### The law -/

theorem entry_makeTableEntry_self {c : TableConfig} {T : Type} (table : LookupTable c T)
    (a : TableAction c) :
    (makeTableEntry table a).1.entry (some (makeTableEntry table a).2) =
      some (fillTableEntry a) := by
  rw [LookupTable.entry, Option.bind_some, makeTableEntry_fst_blocks]
  exact List.getElem?_concat_length

/-- The entry holds the record iff none of it is cut off. -/
theorem fillTableEntry_read_iff (record : t.ActionRecord) :
    fillTableEntry (record.read : TableAction (t.tableConfig maxTableSize)) =
        record.toList ++ List.replicate (t.tableConfig maxTableSize).stateSize 0 ↔
      t.sizeofAction ≤ 255 := by
  rw [fillTableEntry, List.append_left_inj, ← uint8_eq_iff]
  show record.toList.take (uint8 t.sizeofAction) = record.toList ↔ _
  rw [List.take_eq_self_iff, record.toList_length]
  exact ⟨fun h => le_antisymm (uint8_le _) h, fun h => h.ge⟩

/-- A record of zeros is cut off as any other one. -/
theorem EntriesLaw.sizeof_le (h : t.EntriesLaw maxTableSize) : t.sizeofAction ≤ 255 := by
  have hentry := h.1 Unit ⟨none, none, {}⟩ (List.Vector.replicate t.sizeofAction 0)
  rw [entry_makeTableEntry_self] at hentry
  exact (fillTableEntry_read_iff _).mp (Option.some.inj hentry)

theorem entriesLaw_iff (t : TableDecl) (maxTableSize : ℕ) :
    t.EntriesLaw maxTableSize ↔ t.sizeofAction ≤ 255 ∧ t.keyLengthBytes ≤ 255 := by
  constructor
  · exact fun h => ⟨h.sizeof_le, (uint8_eq_iff _).mp h.2⟩
  · rintro ⟨haction, hkey⟩
    refine ⟨fun T table record => ?_, (uint8_eq_iff _).mpr hkey⟩
    rw [entry_makeTableEntry_self, (fillTableEntry_read_iff record).mpr haction]

/-- An action with two parameters of 1024 bits. -/
def twoWideParams : TableDecl where
  matchType := .exact
  actions := [[.bits ⟨1024, false, nofun⟩, .bits ⟨1024, false, nofun⟩]]
  keyLengthBytes := 4
  size := none

/-- Of the 260 bytes of its record the entry has 4, which are those of the id. -/
theorem not_entriesLaw :
    twoWideParams.sizeofAction = 260 ∧ ¬ twoWideParams.EntriesLaw 250000 := by
  refine ⟨by decide, fun h => ?_⟩
  exact absurd h.sizeof_le (by decide)

/-- Without keys the table is a fake one and is not created. -/
theorem fake_iff {T : Type} (create : T) :
    (createTable (t.tableConfig maxTableSize) create).table = none ↔ 256 ∣ t.keyLengthBytes := by
  show (if uint8 t.keyLengthBytes = 0 then none else some create) = none ↔ _
  rw [ite_eq_left_iff, Nat.dvd_iff_mod_eq_zero]
  simp [uint8]

end TableDecl

end T4P4S
