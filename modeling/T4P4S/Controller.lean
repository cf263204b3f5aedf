/-
The messages that a controller sends.

A controller makes a message with the functions of `messages.c`, puts in names,
widths and bitmaps, and at last swaps the bytes of the numbers.

* **`buildMsg_wire`** — what is sent then is the message record for record, with the
  numbers in network order.
-/
import T4P4S.Handlers

open ByteString

namespace T4P4S

/-! ### What is sent -/

/-- A C string that fits into the array for it. -/
abbrev P4Name := {name : List Byte // 0 ∉ name ∧ name.length < p4MaxNameLen}

abbrev Bitmap (maxlength : ℕ) := {bitmap : List Byte // bitmap.length ≤ maxlength}

inductive FieldMatch
  | exact (name : P4Name) (length : Fin (2 ^ 16)) (bitmap : Bitmap maxFieldLength)
  | lpm (name : P4Name) (prefixLength : Fin (2 ^ 16)) (bitmap : Bitmap maxFieldLength)
  | ternary (name : P4Name) (length : Fin (2 ^ 16)) (priority : Byte)
      (bitmap mask : Bitmap maxFieldLength)

namespace FieldMatch

def type : FieldMatch → FieldMatchType
  | exact .. => .exact
  | lpm .. => .lpm
  | ternary .. => .ternary

def name : FieldMatch → P4Name
  | exact name .. => name
  | lpm name .. => name
  | ternary name .. => name

/-- The width, or the length of the prefix. -/
def number : FieldMatch → Fin (2 ^ 16)
  | exact _ length _ => length
  | lpm _ prefixLength _ => prefixLength
  | ternary _ length .. => length

/-- What lies behind the width. -/
def rest : FieldMatch → List (Write Byte)
  | exact _ _ bitmap => [⟨offMatchRest, bitmap.1⟩]
  | lpm _ _ bitmap => [⟨offMatchRest, bitmap.1⟩]
  | ternary _ _ priority bitmap mask =>
    [⟨offMatchRest, [priority]⟩, ⟨offMatchRest + 1, bitmap.1⟩,
      ⟨offMatchRest + 1 + maxFieldLength, mask.1⟩]

/-- What the controller puts into the match. -/
def filled (m : FieldMatch) : List (Write Byte) :=
  ⟨0, m.name.1 ++ [0]⟩ :: ⟨offMatchLength, hostBytes 2 m.number⟩ :: m.rest

/-- The match as a record, its width in the given order of bytes. -/
def record (order : ℕ → ℕ → List Byte) (m : FieldMatch) : ℕ × List (Write Byte) :=
  (m.type.sizeof, ⟨offMatchType, hostBytes 1 m.type.code⟩ :: ⟨0, m.name.1 ++ [0]⟩ ::
    ⟨offMatchLength, order 2 m.number⟩ :: m.rest)

end FieldMatch

structure ActionParameter where
  name : P4Name
  length : Fin (2 ^ 32)
  bitmap : Bitmap maxActionParameterBitmapLength

namespace ActionParameter

def filled (ap : ActionParameter) : List (Write Byte) :=
  [⟨0, ap.name.1 ++ [0]⟩, ⟨offParamBitmap, ap.bitmap.1⟩, ⟨offParamLength, hostBytes 4 ap.length⟩]

def record (order : ℕ → ℕ → List Byte) (ap : ActionParameter) : ℕ × List (Write Byte) :=
  (sizeofP4ActionParameter, [⟨0, ap.name.1 ++ [0]⟩, ⟨offParamBitmap, ap.bitmap.1⟩,
    ⟨offParamLength, order 4 ap.length⟩])

end ActionParameter

abbrev UpTo (n : ℕ) (α : Type) := {l : List α // l.length ≤ n}

abbrev ActionParameters := UpTo p4MaxNumberOfActionParameters ActionParameter

/-- A message that adds a table entry or sets a default action. -/
inductive CtrlRequest
  | addTableEntry (tableName : P4Name) (fieldMatches : UpTo p4MaxNumberOfFieldMatches FieldMatch)
      (actionName : P4Name) (params : ActionParameters)
  | setDefaultAction (tableName actionName : P4Name) (params : ActionParameters)

/-- The members of the header, and the name of the table. -/
def headerFields (order : ℕ → ℕ → List Byte) (type length : ℕ) (tableName : P4Name) :
    List (Write Byte) :=
  [⟨offType, hostBytes 1 type⟩, ⟨offLength, order 2 length⟩, ⟨offTableName, tableName.1 ++ [0]⟩]

def actionFields (actionName : P4Name) (paramSize : ℕ) : List (Write Byte) :=
  [⟨offActionName, actionName.1 ++ [0]⟩, ⟨offParamSize, hostBytes 1 paramSize⟩]

namespace CtrlRequest

/-- The length of the message. -/
def length : CtrlRequest → ℕ
  | addTableEntry _ ms _ aps => sizeofP4AddTableEntry + widths (ms.1.map (FieldMatch.record hostBytes)) +
      sizeofP4Action + widths (aps.1.map (ActionParameter.record hostBytes))
  | setDefaultAction _ _ aps =>
    sizeofP4SetDefaultAction + widths (aps.1.map (ActionParameter.record hostBytes))

/-- The message as records, its numbers in the given order of bytes. -/
def records (order : ℕ → ℕ → List Byte) (req : CtrlRequest) : List (ℕ × List (Write Byte)) :=
  match req with
  | addTableEntry tableName ms actionName aps =>
    (sizeofP4AddTableEntry, headerFields order p4tAddTableEntry req.length tableName ++
        [⟨offReadSize, hostBytes 1 ms.1.length⟩]) ::
      (ms.1.map (FieldMatch.record order) ++
        (sizeofP4Action, actionFields actionName aps.1.length) ::
          aps.1.map (ActionParameter.record order))
  | setDefaultAction tableName actionName aps =>
    (sizeofP4SetDefaultAction, headerFields order p4tSetDefaultAction req.length tableName ++
        shift offAction (actionFields actionName aps.1.length)) ::
      aps.1.map (ActionParameter.record order)

end CtrlRequest

/-! ### The controller -/

def addFieldMatch : FieldMatch → Buffer → ℕ → ℕ → Option (ℕ × Buffer)
  | .exact .. => addP4FieldMatchExact
  | .lpm .. => addP4FieldMatchLpm
  | .ternary .. => addP4FieldMatchTernary

/-- Add a match and fill it. -/
def fillFieldMatch (m : FieldMatch) (buffer : Buffer) (maxlength : ℕ) : Option (ℕ × Buffer) :=
  (addFieldMatch m buffer 0 maxlength).map fun r => (r.1, run (shift r.1 m.filled) r.2)

def fillActionParameter (action : ℕ) (ap : ActionParameter) (buffer : Buffer) (maxlength : ℕ) :
    Option (ℕ × Buffer) :=
  (addP4ActionParameter buffer 0 action maxlength).map fun r =>
    (r.1, run (shift r.1 ap.filled) r.2)

/-- Add things one after the other, and give back their places and the buffer. -/
def fillAll {α : Type} (fill : α → Buffer → ℕ → Option (ℕ × Buffer)) (maxlength : ℕ) :
    List α → Buffer → Option (List ℕ × Buffer)
  | [], buffer => some ([], buffer)
  | x :: xs, buffer => do
    let r ← fill x buffer maxlength
    let rs ← fillAll fill maxlength xs r.2
    return (r.1 :: rs.1, rs.2)

def netconvFieldMatch : FieldMatch → ℕ → Traced Byte → Traced Byte
  | .exact .. => netconvP4FieldMatchExact
  | .lpm .. => netconvP4FieldMatchLpm
  | .ternary .. => netconvP4FieldMatchTernary

/-- Call a `netconv` function for things at the given places. -/
def netconvAll {α : Type} (netconv : α → ℕ → Traced Byte → Traced Byte) (xs : List (α × ℕ))
    (t : Traced Byte) : Traced Byte :=
  xs.foldl (fun t x => netconv x.1 x.2 t) t

/-- What a controller does for a message; `none` if a function that adds something has no
room for it. -/
def buildMsg (maxlength : ℕ) (buffer : Buffer) : CtrlRequest → Option Buffer
  | .addTableEntry tableName ms actionName aps => do
    let buffer ← createP4Header buffer 0 maxlength
    let buffer ← createP4AddTableEntry buffer 0 maxlength
    let buffer := Write.run buffer ⟨offTableName, tableName.1 ++ [0]⟩
    let fms ← fillAll fillFieldMatch maxlength ms.1 buffer
    let action ← addP4Action fms.2 0 maxlength
    let buffer := Write.run action.2 ⟨action.1 + offActionName, actionName.1 ++ [0]⟩
    let params ← fillAll (fillActionParameter action.1) maxlength aps.1 buffer
    let t := netconvP4Header 0 ⟨params.2, []⟩
    let t := netconvAll netconvFieldMatch (ms.1.zip fms.1) t
    return (netconvAll (fun _ => netconvP4ActionParameter) (aps.1.zip params.1) t).mem
  | .setDefaultAction tableName actionName aps => do
    let buffer ← createP4Header buffer 0 maxlength
    let buffer ← createP4SetDefaultAction buffer 0 maxlength
    let buffer := Write.run buffer ⟨offTableName, tableName.1 ++ [0]⟩
    let buffer := Write.run buffer ⟨offAction + offActionName, actionName.1 ++ [0]⟩
    let params ← fillAll (fillActionParameter offAction) maxlength aps.1 buffer
    let t := netconvP4Header 0 ⟨params.2, []⟩
    return (netconvAll (fun _ => netconvP4ActionParameter) (aps.1.zip params.1) t).mem

/-! ### The records -/

theorem P4Name.length_lt (name : P4Name) : (name.1 ++ [0]).length ≤ 128 := by
  have h : name.1.length < 128 := name.2.2
  rw [List.length_append, List.length_singleton]
  omega

theorem FieldMatch.inBounds (order : ℕ → ℕ → List Byte) (horder : ∀ n v, (order n v).length = n)
    (m : FieldMatch) : InBounds (m.record order).2 (m.record order).1 := by
  have hname := P4Name.length_lt m.name
  cases m with
  | exact name length bitmap =>
    have hbitmap : bitmap.1.length ≤ 256 := bitmap.2
    simp only [InBounds, record, rest, type, List.forall_mem_cons, horder, length_hostBytes]
    simp only [FieldMatchType.sizeof, offMatchType, offMatchLength, offMatchRest]
    exact ⟨by omega, by omega, by omega, by omega, fun w hw => absurd hw List.not_mem_nil⟩
  | lpm name prefixLength bitmap =>
    have hbitmap : bitmap.1.length ≤ 256 := bitmap.2
    simp only [InBounds, record, rest, type, List.forall_mem_cons, horder, length_hostBytes]
    simp only [FieldMatchType.sizeof, offMatchType, offMatchLength, offMatchRest]
    exact ⟨by omega, by omega, by omega, by omega, fun w hw => absurd hw List.not_mem_nil⟩
  | ternary name length priority bitmap mask =>
    have hbitmap : bitmap.1.length ≤ 256 := bitmap.2
    have hmask : mask.1.length ≤ 256 := mask.2
    simp only [InBounds, record, rest, type, List.forall_mem_cons, horder, length_hostBytes]
    simp only [FieldMatchType.sizeof, offMatchType, offMatchLength, offMatchRest, maxFieldLength,
      List.length_singleton]
    exact ⟨by omega, by omega, by omega, by omega, by omega, by omega,
      fun w hw => absurd hw List.not_mem_nil⟩

/-- What lies behind the width of a match. -/
theorem FieldMatch.le_of_mem_rest {m : FieldMatch} {w : Write Byte} (hw : w ∈ m.rest) :
    offMatchRest ≤ w.off := by
  cases m <;> simp only [rest, List.mem_cons, List.not_mem_nil, or_false] at hw
  · rw [hw]
  · rw [hw]
  · rcases hw with rfl | rfl | rfl
    · exact Nat.le_refl _
    · exact Nat.le_succ _
    · exact Nat.le_add_right_of_le (Nat.le_succ _)

theorem FieldMatch.disjoint_filled (m : FieldMatch) : ByteString.Disjoint m.filled := by
  have hname := P4Name.length_lt m.name
  have hrest : ByteString.Disjoint m.rest := by
    cases m with
    | exact => exact List.pairwise_singleton ..
    | lpm => exact List.pairwise_singleton ..
    | ternary name length priority bitmap mask =>
      have hbitmap : bitmap.1.length ≤ 256 := bitmap.2
      simp only [rest, ByteString.Disjoint, List.pairwise_cons, List.mem_cons, List.not_mem_nil,
        or_false, forall_eq_or_imp, forall_eq, List.length_singleton, maxFieldLength, offMatchRest]
      exact ⟨⟨by omega, by omega⟩, by omega, fun w hw => absurd hw (by simp), List.Pairwise.nil⟩
  refine List.pairwise_cons.mpr ⟨?_, List.pairwise_cons.mpr ⟨?_, hrest⟩⟩
  · rw [List.forall_mem_cons]
    refine ⟨.inl ?_, fun w hw => .inl ?_⟩
    · simp only [offMatchLength]
      omega
    · have hle := le_of_mem_rest hw
      simp only [offMatchRest] at hle
      dsimp only
      omega
  · intro w hw
    have hle := le_of_mem_rest hw
    simp only [offMatchRest, offMatchLength, length_hostBytes] at *
    omega

theorem widths_fieldMatch (order order' : ℕ → ℕ → List Byte) (ms : List FieldMatch) :
    widths (ms.map (FieldMatch.record order)) = widths (ms.map (FieldMatch.record order')) := by
  rw [widths, widths, List.map_map, List.map_map]
  rfl

theorem inBounds_actionFields (actionName : P4Name) (paramSize : ℕ) :
    InBounds (actionFields actionName paramSize) sizeofP4Action := by
  have hname := P4Name.length_lt actionName
  simp only [actionFields, InBounds, List.forall_mem_cons, length_hostBytes]
  simp only [offActionName, offParamSize, sizeofP4Action]
  exact ⟨by omega, by omega, fun w hw => absurd hw List.not_mem_nil⟩

theorem inBounds_entryFields (type length readSize : ℕ) (tableName : P4Name) :
    InBounds (headerFields netBytes type length tableName ++ [⟨offReadSize, hostBytes 1 readSize⟩])
      sizeofP4AddTableEntry := by
  have hname := P4Name.length_lt tableName
  simp only [headerFields, List.cons_append, List.nil_append, InBounds, List.forall_mem_cons,
    length_hostBytes, length_netBytes]
  simp only [offType, offLength, offTableName, offReadSize, sizeofP4AddTableEntry]
  exact ⟨by omega, by omega, by omega, by omega, fun w hw => absurd hw List.not_mem_nil⟩

theorem inBounds_defaultFields (type length paramSize : ℕ) (tableName actionName : P4Name) :
    InBounds (headerFields netBytes type length tableName ++
      shift offAction (actionFields actionName paramSize)) sizeofP4SetDefaultAction := by
  have hname := P4Name.length_lt tableName
  have haction := P4Name.length_lt actionName
  simp only [headerFields, actionFields, shift, List.map_cons, List.map_nil, List.cons_append,
    List.nil_append, InBounds, List.forall_mem_cons, length_hostBytes, length_netBytes]
  simp only [offType, offLength, offTableName, offAction, offActionName, offParamSize,
    sizeofP4SetDefaultAction]
  exact ⟨by omega, by omega, by omega, by omega, by omega, fun w hw => absurd hw List.not_mem_nil⟩

theorem ActionParameter.inBounds (order : ℕ → ℕ → List Byte)
    (horder : ∀ n v, (order n v).length = n) (ap : ActionParameter) :
    InBounds (ap.record order).2 (ap.record order).1 := by
  have hname := P4Name.length_lt ap.name
  have hbitmap : ap.bitmap.1.length ≤ 128 := ap.bitmap.2
  simp only [InBounds, record, List.forall_mem_cons, horder]
  simp only [sizeofP4ActionParameter, offParamBitmap, offParamLength]
  exact ⟨by omega, by omega, by omega, fun w hw => absurd hw List.not_mem_nil⟩

theorem ActionParameter.disjoint_filled (ap : ActionParameter) :
    ByteString.Disjoint ap.filled := by
  have hname := P4Name.length_lt ap.name
  simp only [filled, ByteString.Disjoint, List.pairwise_cons, List.mem_cons, List.not_mem_nil,
    or_false, forall_eq_or_imp, forall_eq, length_hostBytes, offParamBitmap, offParamLength]
  exact ⟨⟨by omega, by omega⟩, by omega, fun w hw => absurd hw (by simp), List.Pairwise.nil⟩

/-! ### Adding things -/

/-- What adding something at the end of a message of length `len` does to the buffer: the
length becomes `len'`, the counter at `c` becomes `k'`, and nothing else is changed. -/
structure Grown (b b' : Buffer) (c len len' k' : ℕ) : Prop where
  length : slice b' offLength 2 = hostBytes 2 len'
  counter : slice b' c 1 = hostBytes 1 k'
  frame : ∀ i < len, i < offLength ∨ offLength + 2 ≤ i → i ≠ c → b' i = b i

theorem Grown.trans {b b' b'' : Buffer} {c len len' len'' k' k'' : ℕ} (hlen : len ≤ len')
    (h : Grown b b' c len len' k') (h' : Grown b' b'' c len' len'' k'') :
    Grown b b'' c len len'' k'' :=
  ⟨h'.length, h'.counter, fun i hi hoff hc =>
    (h'.frame i (by omega) hoff hc).trans (h.frame i hi hoff hc)⟩

theorem grown_run {b : Buffer} {c len len' k' : ℕ} (hc : offLength + 2 ≤ c) (hclen : c < len)
    {ws : List (Write Byte)} (hws : ∀ w ∈ ws, len ≤ w.off) :
    Grown b (run (⟨offLength, hostBytes 2 len'⟩ :: ⟨c, hostBytes 1 k'⟩ :: ws) b) c len len' k' := by
  rw [run_cons, run_cons]
  set b₁ := Write.run b ⟨offLength, hostBytes 2 len'⟩ with hb₁
  have hcounter := slice_run b₁ ⟨c, hostBytes 1 k'⟩
  have hlength := slice_run b ⟨offLength, hostBytes 2 len'⟩
  rw [length_hostBytes] at hcounter hlength
  refine ⟨?_, ?_, ?_⟩
  · rw [slice_run_of_disjoints fun w hw => .inl ((by omega : offLength + 2 ≤ len).trans (hws w hw)),
      slice_run_of_disjoint]
    · exact hlength
    · exact .inl hc
  · rw [slice_run_of_disjoints fun w hw => .inl (Nat.le_trans hclen (hws w hw))]
    exact hcounter
  · intro i hi hoff hic
    rw [run_of_notMem _ fun w hw => .inl (Nat.lt_of_lt_of_le hi (hws w hw)),
      Write.run_of_notMem, hb₁, Write.run_of_notMem]
    · rw [length_hostBytes]
      exact hoff
    · rw [length_hostBytes]
      dsimp only
      omega

/-- A function that adds things of a kind, which are counted at `c`, to a message. -/
structure Adds {α : Type} (fill : α → Buffer → ℕ → Option (ℕ × Buffer))
    (record : α → ℕ × List (Write Byte)) (maxlength c : ℕ) : Prop where
  step : ∀ x b r len k, c < len → len ≤ maxlength → slice b offLength 2 = hostBytes 2 len →
    slice b c 1 = hostBytes 1 k → fill x b maxlength = some r →
      r.1 = len ∧ len + (record x).1 ≤ maxlength ∧
        Grown b r.2 c len (len + (record x).1) (k + 1) ∧ Holds r.2 len (record x).2
  inBounds : ∀ x, InBounds (record x).2 (record x).1

theorem Adds.fillAll {α : Type} {fill : α → Buffer → ℕ → Option (ℕ × Buffer)}
    {record : α → ℕ × List (Write Byte)} {maxlength c : ℕ} (h : Adds fill record maxlength c)
    (hc : offLength + 2 ≤ c) {xs : List α} {b : Buffer} {rs : List ℕ × Buffer} {len k : ℕ}
    (hclen : c < len) (hlen : len ≤ maxlength) (hlength : slice b offLength 2 = hostBytes 2 len)
    (hcounter : slice b c 1 = hostBytes 1 k) (hfill : fillAll fill maxlength xs b = some rs) :
    rs.1 = places len (xs.map record) ∧ len + widths (xs.map record) ≤ maxlength ∧
      Grown b rs.2 c len (len + widths (xs.map record)) (k + xs.length) ∧
      HoldsAll rs.2 len (xs.map record) := by
  induction xs generalizing b rs len k with
  | nil =>
    obtain rfl := Option.some.inj hfill
    exact ⟨rfl, hlen, ⟨hlength, hcounter, fun _ _ _ _ => rfl⟩, trivial⟩
  | cons x xs ih =>
    rw [T4P4S.fillAll] at hfill
    obtain ⟨r, hr, hfill⟩ := Option.bind_eq_some_iff.mp hfill
    obtain ⟨rs', hrs', hfill⟩ := Option.bind_eq_some_iff.mp hfill
    obtain rfl := Option.some.inj hfill
    obtain ⟨hplace, hroom, hgrown, hholds⟩ := h.step x b r len k hclen hlen hlength hcounter hr
    obtain ⟨hplaces, hroom', hgrown', hholds'⟩ := ih (by omega) hroom hgrown.length hgrown.counter
      hrs'
    rw [List.map_cons, widths_cons, ← Nat.add_assoc, List.length_cons]
    refine ⟨?_, hroom', ?_, ?_, hholds'⟩
    · rw [hplace, hplaces]
      rfl
    · rw [show k + (xs.length + 1) = k + 1 + xs.length by omega]
      exact hgrown.trans (Nat.le_add_right ..) hgrown'
    · -- the things that are added later leave this one alone
      refine hholds.congr (h.inBounds x) fun i hlo hhi => hgrown'.frame i hhi (.inr ?_) ?_
      · omega
      · omega

theorem number_of_slice {b : Buffer} {off n v : ℕ} (h : slice b off n = hostBytes n v)
    (hv : v < 256 ^ n) : b.number off n = v := by
  rw [Buffer.number, h, hostNat_hostBytes, Nat.mod_eq_of_lt hv]

/-- One more than a number of one byte. -/
theorem hostBytes_succ_number {b : Buffer} {off k : ℕ} (h : slice b off 1 = hostBytes 1 k) :
    hostBytes 1 (b.number off 1 + 1) = hostBytes 1 (k + 1) := by
  rw [Buffer.number, h, hostNat_hostBytes, pow_one]
  show [BitVec.ofNat 8 _] = [BitVec.ofNat 8 _]
  congr 1
  apply BitVec.eq_of_toNat_eq
  rw [BitVec.toNat_ofNat, BitVec.toNat_ofNat]
  omega

theorem addFieldMatch_eq (m : FieldMatch) :
    ∃ rest, addFieldMatch m = addP4FieldMatch m.type rest := by
  cases m with
  | exact => exact ⟨_, rfl⟩
  | lpm => exact ⟨_, rfl⟩
  | ternary => exact ⟨_, rfl⟩

theorem adds_fillFieldMatch {maxlength : ℕ} (hmax : maxlength < 2 ^ 16) :
    Adds fillFieldMatch (FieldMatch.record hostBytes) maxlength offReadSize := by
  refine ⟨?_, fun m => m.inBounds hostBytes length_hostBytes⟩
  intro m b r len k hclen hlen hlength hcounter hfill
  obtain ⟨rest, hadd⟩ := addFieldMatch_eq m
  obtain ⟨added, hadded, rfl⟩ := Option.map_eq_some_iff.mp hfill
  have hnumber : Buffer.number b offLength 2 = len := number_of_slice hlength (by omega)
  rw [hadd, addP4FieldMatch] at hadded
  simp only [Nat.zero_add, hnumber, hostBytes_succ_number hcounter] at hadded
  obtain ⟨hroom, hsome⟩ := Option.ite_none_left_eq_some.mp hadded
  obtain rfl := Option.some.inj hsome
  refine ⟨rfl, Nat.not_lt.mp hroom, ?_, ?_⟩
  · dsimp only
    rw [← run_append, List.cons_append, List.cons_append]
    refine @grown_run b offReadSize len (len + m.type.sizeof) (k + 1) (by decide) hclen _ ?_
    intro w hw
    rcases List.mem_append.mp hw with hw | hw
    · simp only [List.mem_cons, List.not_mem_nil, or_false] at hw
      rcases hw with rfl | rfl | rfl <;> exact Nat.le_add_right ..
    · obtain ⟨w', -, rfl⟩ := List.mem_map.mp hw
      exact Nat.le_add_right ..
  · refine holds_cons.mpr ⟨?_, holds_run_shift _ len m.disjoint_filled⟩
    -- the type is written first, and lies between the name and the width
    have hname := P4Name.length_lt m.name
    rw [slice_run_of_disjoints fun w hw => ?_, run_cons, run_cons, run_cons,
      slice_run_of_disjoints fun w hw => ?_]
    · exact slice_run _ ⟨len + offMatchType, hostBytes 1 m.type.code⟩
    · simp only [List.mem_cons, List.not_mem_nil, or_false] at hw
      rcases hw with rfl | rfl
      · exact .inl (Nat.add_le_add_left (by decide : offMatchType + 1 ≤ offMatchLength) len)
      · exact .inl (Nat.add_le_add_left (by decide : offMatchType + 1 ≤ offMatchRest) len)
    · obtain ⟨w', hw', rfl⟩ := List.mem_map.mp hw
      rcases List.mem_cons.mp hw' with rfl | hw'
      · exact .inr (Nat.add_le_add_left hname len)
      · rcases List.mem_cons.mp hw' with rfl | hw'
        · exact .inl (Nat.add_le_add_left (by decide : offMatchType + 1 ≤ offMatchLength) len)
        · have hle := FieldMatch.le_of_mem_rest hw'
          have hplace : offMatchType + 1 ≤ offMatchRest := by decide
          exact .inl (Nat.add_le_add_left (hplace.trans hle) len)

theorem adds_fillActionParameter {maxlength : ℕ} (hmax : maxlength < 2 ^ 16) (action : ℕ) :
    Adds (fillActionParameter action) (ActionParameter.record hostBytes) maxlength
      (action + offParamSize) := by
  refine ⟨?_, fun ap => ap.inBounds hostBytes length_hostBytes⟩
  intro ap b r len k hclen hlen hlength hcounter hfill
  obtain ⟨added, hadded, rfl⟩ := Option.map_eq_some_iff.mp hfill
  have hnumber : Buffer.number b offLength 2 = len := number_of_slice hlength (by omega)
  rw [addP4ActionParameter] at hadded
  simp only [Nat.zero_add, hnumber, hostBytes_succ_number hcounter] at hadded
  obtain ⟨hroom, hsome⟩ := Option.ite_none_left_eq_some.mp hadded
  obtain rfl := Option.some.inj hsome
  refine ⟨rfl, Nat.not_lt.mp hroom, ?_, holds_run_shift _ len ap.disjoint_filled⟩
  dsimp only
  rw [← run_append, List.cons_append, List.cons_append]
  have hc : offLength + 2 ≤ action + offParamSize :=
    (by decide : offLength + 2 ≤ offParamSize).trans (Nat.le_add_left ..)
  refine @grown_run b _ len (len + sizeofP4ActionParameter) (k + 1) hc hclen _ ?_
  intro w hw
  rcases List.mem_append.mp hw with hw | hw
  · simp only [List.mem_cons, List.not_mem_nil, or_false] at hw
    rcases hw with rfl | rfl
    · exact Nat.le_refl _
    · exact Nat.le_add_right ..
  · obtain ⟨w', -, rfl⟩ := List.mem_map.mp hw
    exact Nat.le_add_right ..

/-! ### Swapping the bytes of the numbers -/

/-- A function that swaps the bytes of a number in a record. -/
structure Converts {α : Type} (netconv : α → ℕ → Traced Byte → Traced Byte)
    (record record' : α → ℕ × List (Write Byte)) : Prop where
  holds : ∀ x p t, Holds t.mem p (record x).2 → Holds (netconv x p t).mem p (record' x).2
  frame : ∀ x p t i, i < p ∨ p + (record x).1 ≤ i → (netconv x p t).mem i = t.mem i
  width : ∀ x, (record' x).1 = (record x).1
  inBounds : ∀ x, InBounds (record x).2 (record x).1
  inBounds' : ∀ x, InBounds (record' x).2 (record' x).1

theorem Converts.netconvAll {α : Type} {netconv : α → ℕ → Traced Byte → Traced Byte}
    {record record' : α → ℕ × List (Write Byte)} (h : Converts netconv record record')
    {xs : List α} {p : ℕ} {t : Traced Byte} (hholds : HoldsAll t.mem p (xs.map record)) :
    HoldsAll (netconvAll netconv (xs.zip (places p (xs.map record))) t).mem p (xs.map record') ∧
      ∀ i, i < p ∨ p + widths (xs.map record) ≤ i →
        (netconvAll netconv (xs.zip (places p (xs.map record))) t).mem i = t.mem i := by
  induction xs generalizing p t with
  | nil => exact ⟨trivial, fun _ _ => rfl⟩
  | cons x xs ih =>
    have hrest : HoldsAll (netconv x p t).mem (p + (record x).1) (xs.map record) := by
      refine hholds.2.congr (List.forall_mem_map.mpr fun y _ => h.inBounds y) ?_
      intro i hlo _
      exact h.frame x p t i (.inr hlo)
    obtain ⟨hconv, hframe⟩ := ih hrest
    rw [List.map_cons, widths_cons]
    refine ⟨⟨?_, ?_⟩, ?_⟩
    · refine (h.holds x p t hholds.1).congr (h.inBounds' x) fun i hlo hhi => hframe i (.inl ?_)
      rw [← h.width x]
      exact hhi
    · rw [h.width x]
      exact hconv
    · intro i hi
      refine (hframe i ?_).trans (h.frame x p t i ?_)
      · omega
      · omega

/-- The width of a match is swapped, whatever its order is. -/
theorem FieldMatch.netconv_holds {order order' : ℕ → ℕ → List Byte}
    (horder : ∀ n v, (order n v).length = n) (hreverse : ∀ n v, (order n v).reverse = order' n v)
    (m : FieldMatch) {p : ℕ} {t : Traced Byte} (h : Holds t.mem p (m.record order).2) :
    Holds (netconvNumber (p + offMatchLength) 2 t).mem p (m.record order').2 := by
  have hname := P4Name.length_lt m.name
  have hswap := @netconvNumber_holds p offMatchLength 2 t
    [⟨offMatchType, hostBytes 1 m.type.code⟩, ⟨0, m.name.1 ++ [0]⟩] m.rest
    (order 2 m.number) (horder ..) (fun w hw => ?_) h
  · rw [hreverse] at hswap
    exact hswap
  · rcases List.mem_append.mp hw with hw | hw
    · simp only [List.mem_cons, List.not_mem_nil, or_false] at hw
      rcases hw with rfl | rfl
      · rw [length_hostBytes]
        exact .inl (by decide : offMatchType + 1 ≤ offMatchLength)
      · exact .inl (by simp only [offMatchLength]; omega)
    · exact .inr (FieldMatch.le_of_mem_rest hw)

theorem ActionParameter.netconv_holds {order order' : ℕ → ℕ → List Byte}
    (horder : ∀ n v, (order n v).length = n) (hreverse : ∀ n v, (order n v).reverse = order' n v)
    (ap : ActionParameter) {p : ℕ} {t : Traced Byte} (h : Holds t.mem p (ap.record order).2) :
    Holds (netconvP4ActionParameter p t).mem p (ap.record order').2 := by
  have hname := P4Name.length_lt ap.name
  have hswap := @netconvNumber_holds p offParamLength 4 t
    [⟨0, ap.name.1 ++ [0]⟩, ⟨offParamBitmap, ap.bitmap.1⟩] [] (order 4 ap.length)
    (horder ..) (fun w hw => ?_) h
  · rw [hreverse] at hswap
    exact hswap
  · simp only [List.append_nil, List.mem_cons, List.not_mem_nil, or_false] at hw
    rcases hw with rfl | rfl
    · exact .inl (by simp only [offParamLength]; omega)
    · exact .inr (by decide : offParamLength + 4 ≤ offParamBitmap)

theorem reverse_hostBytes (n v : ℕ) : (hostBytes n v).reverse = netBytes n v := rfl

theorem reverse_netBytes (n v : ℕ) : (netBytes n v).reverse = hostBytes n v := by
  rw [netBytes, List.reverse_reverse]

theorem converts_fieldMatch : Converts netconvFieldMatch (FieldMatch.record hostBytes)
    (FieldMatch.record netBytes) := by
  have hconv : ∀ m p, netconvFieldMatch m p = netconvNumber (p + offMatchLength) 2 := by
    intro m p
    cases m <;> rfl
  refine ⟨?_, ?_, fun m => rfl,
    fun m => m.inBounds _ length_hostBytes, fun m => m.inBounds _ length_netBytes⟩
  · intro m p t h
    rw [hconv]
    exact m.netconv_holds length_hostBytes reverse_hostBytes h
  · intro m p t i hi
    rw [hconv]
    refine netconvNumber_of_disjoint ?_
    have hsize := m.type.le_sizeof
    have hwidth : (m.record hostBytes).1 = m.type.sizeof := rfl
    omega

theorem converts_actionParameter : Converts (fun _ => netconvP4ActionParameter)
    (ActionParameter.record hostBytes) (ActionParameter.record netBytes) := by
  refine ⟨fun ap p t h => ?_, ?_, fun ap => rfl,
    fun ap => ap.inBounds _ length_hostBytes, fun ap => ap.inBounds _ length_netBytes⟩
  · exact ap.netconv_holds length_hostBytes reverse_hostBytes h
  · intro ap p t i hi
    refine netconvNumber_of_disjoint ?_
    have hsize : offParamLength + 4 ≤ sizeofP4ActionParameter := by decide
    have hwidth : (ap.record hostBytes).1 = sizeofP4ActionParameter := rfl
    omega

theorem netconvP4Header_frame {t : Traced Byte} {i : ℕ} (hi : sizeofP4Header ≤ i) :
    (netconvP4Header 0 t).mem i = t.mem i := by
  rw [netconvP4Header, netconvNumber_of_disjoint (.inr ?_), netconvNumber_of_disjoint (.inr ?_)]
  · exact (by decide : 0 + offLength + 2 ≤ sizeofP4Header).trans hi
  · exact (by decide : 0 + offXid + 4 ≤ sizeofP4Header).trans hi

/-- The length in the header is swapped, whatever its order is. -/
theorem netconvP4Header_holds {order order' : ℕ → ℕ → List Byte} {type length : ℕ}
    (horder : (order 2 length).length = 2) (hreverse : order' 2 length = (order 2 length).reverse)
    {tableName : P4Name} {rest : List (Write Byte)} (hrest : ∀ w ∈ rest, sizeofP4Header ≤ w.off)
    {t : Traced Byte} (h : Holds t.mem 0 (headerFields order type length tableName ++ rest)) :
    Holds (netconvP4Header 0 t).mem 0 (headerFields order' type length tableName ++ rest) := by
  have hrest' : ∀ w ∈ (⟨offTableName, tableName.1 ++ [0]⟩ :: rest : List (Write Byte)),
      offLength + 2 ≤ w.off ∧ offXid + 4 ≤ w.off := by
    refine List.forall_mem_cons.mpr ⟨⟨(by decide : offLength + 2 ≤ offTableName),
      (by decide : offXid + 4 ≤ offTableName)⟩, ?_⟩
    intro w hw
    have hle := hrest w hw
    exact ⟨(by decide : offLength + 2 ≤ sizeofP4Header).trans hle, hle⟩
  -- First the length, which goes into the place it came from.
  have hlength := @netconvNumber_holds 0 offLength 2 t [⟨offType, hostBytes 1 type⟩]
    (⟨offTableName, tableName.1 ++ [0]⟩ :: rest) (order 2 length) horder (fun w hw => by
      rcases List.mem_cons.mp hw with rfl | hw
      · rw [length_hostBytes]
        exact .inl (by decide : offType + 1 ≤ offLength)
      · exact .inr (hrest' w hw).1) h
  rw [← hreverse] at hlength
  rw [netconvP4Header, netconvNumber_mem]
  -- Then the id, which lies apart from all that the header is said to hold.
  refine holds_run_of_disjoint hlength ?_
  intro w hw
  rw [List.length_reverse, length_slice]
  rcases List.mem_cons.mp hw with rfl | hw
  · rw [length_hostBytes]
    exact .inl (by decide : 0 + offType + 1 ≤ 0 + offXid)
  · rcases List.mem_cons.mp hw with rfl | hw
    · rw [hreverse, List.length_reverse, horder]
      exact .inl (by decide : 0 + offLength + 2 ≤ 0 + offXid)
    · have hle := (hrest' w hw).2
      right
      dsimp only
      omega

/-! ### The message -/

section Build

variable {maxlength : ℕ} (hmax : maxlength < 2 ^ 16) {b b' : Buffer} {tableName actionName : P4Name}

/-- The header and the name of a message that is empty as yet. -/
theorem createP4AddTableEntry_spec (h : createP4AddTableEntry b 0 maxlength = some b') :
    sizeofP4AddTableEntry ≤ maxlength ∧
      Holds (Write.run b' ⟨offTableName, tableName.1 ++ [0]⟩) 0
        (headerFields hostBytes p4tAddTableEntry sizeofP4AddTableEntry tableName ++
          [⟨offReadSize, hostBytes 1 0⟩]) := by
  rw [createP4AddTableEntry] at h
  obtain ⟨hroom, hsome⟩ := Option.ite_none_left_eq_some.mp h
  obtain rfl := Option.some.inj hsome
  have hname := P4Name.length_lt tableName
  refine ⟨by omega, ?_⟩
  show Holds (run [⟨offLength, hostBytes 2 sizeofP4AddTableEntry⟩,
    ⟨offType, hostBytes 1 p4tAddTableEntry⟩, ⟨offReadSize, hostBytes 1 0⟩, ⟨offTableName, [0]⟩,
    ⟨offTableName, tableName.1 ++ [0]⟩] b) 0 _
  simp only [headerFields, List.cons_append, List.nil_append, holds_cons, Nat.zero_add,
    holds_nil, and_true]
  refine ⟨?_, ?_, ?_, ?_⟩
  · exact slice_run_of_last b [_] ⟨offType, _⟩ (by
      simp [offType, offReadSize, offTableName])
  · exact slice_run_of_last b [] ⟨offLength, _⟩ (by
      simp [offLength, offType, offReadSize, offTableName])
  · exact slice_run_of_last b [_, _, _, _] ⟨offTableName, _⟩ (by simp)
  · exact slice_run_of_last b [_, _] ⟨offReadSize, _⟩ (by
      simp [offReadSize, offTableName] at hname ⊢
      omega)

theorem createP4SetDefaultAction_spec (h : createP4SetDefaultAction b 0 maxlength = some b') :
    sizeofP4SetDefaultAction ≤ maxlength ∧
      Holds (Write.run (Write.run b' ⟨offTableName, tableName.1 ++ [0]⟩)
          ⟨offAction + offActionName, actionName.1 ++ [0]⟩) 0
        (headerFields hostBytes p4tSetDefaultAction sizeofP4SetDefaultAction tableName ++
          shift offAction (actionFields actionName 0)) := by
  rw [createP4SetDefaultAction] at h
  obtain ⟨hroom, hsome⟩ := Option.ite_none_left_eq_some.mp h
  obtain rfl := Option.some.inj hsome
  have hname := P4Name.length_lt tableName
  have haction := P4Name.length_lt actionName
  refine ⟨by omega, ?_⟩
  show Holds (run [⟨offLength, hostBytes 2 sizeofP4SetDefaultAction⟩,
    ⟨offType, hostBytes 1 p4tSetDefaultAction⟩, ⟨offTableName, [0]⟩, ⟨offAction, hostBytes 1 0⟩,
    ⟨offAction + offActionName, [0]⟩, ⟨offAction + offParamSize, hostBytes 1 0⟩,
    ⟨offTableName, tableName.1 ++ [0]⟩, ⟨offAction + offActionName, actionName.1 ++ [0]⟩] b) 0 _
  simp only [headerFields, actionFields, shift, List.map_cons, List.map_nil, List.cons_append,
    List.nil_append, holds_cons, Nat.zero_add, holds_nil, and_true]
  -- For each field, the last write into its place: only the two names overlap earlier ones.
  refine ⟨?_, ?_, ?_, ?_, ?_⟩
  · exact slice_run_of_last b [_] ⟨offType, _⟩ (by
      simp [offType, offTableName, offAction]
      omega)
  · exact slice_run_of_last b [] ⟨offLength, _⟩ (by
      simp [offLength, offType, offTableName, offAction]
      omega)
  · exact slice_run_of_last b [_, _, _, _, _, _] ⟨offTableName, _⟩ (by
      simp [offTableName, offAction, offActionName] at hname ⊢
      omega)
  · exact slice_run_of_last b [_, _, _, _, _, _, _] ⟨offAction + offActionName, _⟩ (by simp)
  · exact slice_run_of_last b [_, _, _, _, _] ⟨offAction + offParamSize, _⟩ (by
      simp [offTableName, offAction, offActionName, offParamSize] at hname haction ⊢
      omega)

/-- What stays of the members of the header when a message grows. -/
theorem headerFields_grown {b b' : Buffer} {type len len' : ℕ}
    (h : Holds b 0 (headerFields hostBytes type len tableName))
    (hlength : slice b' offLength 2 = hostBytes 2 len')
    (hframe : ∀ i < offAction, i < offLength ∨ offLength + 2 ≤ i → b' i = b i) :
    Holds b' 0 (headerFields hostBytes type len' tableName) := by
  have hname := P4Name.length_lt tableName
  simp only [headerFields, holds_cons, Nat.zero_add, holds_nil, and_true] at h ⊢
  refine ⟨?_, ?_, ?_⟩
  · refine (slice_congr fun i hi => hframe _ ?_ ?_).trans h.1
    · simp only [length_hostBytes, offType, offAction] at hi ⊢
      omega
    · simp only [length_hostBytes, offType, offLength] at hi ⊢
      omega
  · rw [length_hostBytes]
    exact hlength
  · refine (slice_congr fun i hi => hframe _ ?_ ?_).trans h.2.2
    · simp only [offTableName, offAction]
      omega
    · simp only [offTableName, offLength]
      omega

/-- What stays of an action when parameters are added behind it. -/
theorem actionFields_grown {b b' : Buffer} {p len len' k : ℕ} (hp : offLength + 2 ≤ p)
    (hlen : p + offParamSize ≤ len) (h : Holds b p (actionFields actionName 0))
    (hgrown : Grown b b' (p + offParamSize) len len' (0 + k)) :
    Holds b' p (actionFields actionName k) := by
  have hname := P4Name.length_lt actionName
  simp only [actionFields, holds_cons, holds_nil, and_true] at h ⊢
  refine ⟨?_, ?_⟩
  · refine (slice_congr fun i hi => hgrown.frame _ ?_ (.inr ?_) ?_).trans h.1
    · simp only [offActionName, offParamSize] at hlen ⊢
      omega
    · omega
    · simp only [offActionName, offParamSize]
      omega
  · have hcounter := hgrown.counter
    rw [Nat.zero_add] at hcounter
    rw [length_hostBytes]
    exact hcounter

include hmax

/-- An action that has no parameters as yet, behind a message of length `len`. -/
theorem addP4Action_spec {len : ℕ} (hlen : len ≤ maxlength) (hclen : offLength + 2 ≤ len)
    (hlength : slice b offLength 2 = hostBytes 2 len) {r : ℕ × Buffer}
    (h : addP4Action b 0 maxlength = some r) :
    r.1 = len ∧ len + sizeofP4Action ≤ maxlength ∧
      slice (Write.run r.2 ⟨r.1 + offActionName, actionName.1 ++ [0]⟩) offLength 2 =
        hostBytes 2 (len + sizeofP4Action) ∧
      Holds (Write.run r.2 ⟨r.1 + offActionName, actionName.1 ++ [0]⟩) len
        (actionFields actionName 0) ∧
      ∀ i < len, i < offLength ∨ offLength + 2 ≤ i →
        Write.run r.2 ⟨r.1 + offActionName, actionName.1 ++ [0]⟩ i = b i := by
  have hnumber : Buffer.number b offLength 2 = len := number_of_slice hlength (by omega)
  rw [addP4Action] at h
  simp only [Nat.zero_add, hnumber] at h
  obtain ⟨hroom, hsome⟩ := Option.ite_none_left_eq_some.mp h
  obtain rfl := Option.some.inj hsome
  have haction := P4Name.length_lt actionName
  -- With the name that the caller stores, it is one run of five writes.
  have hrun : Write.run (run [⟨offLength, hostBytes 2 (len + sizeofP4Action)⟩,
      ⟨len, hostBytes 1 0⟩, ⟨len + offActionName, [0]⟩, ⟨len + offParamSize, hostBytes 1 0⟩] b)
        ⟨len + offActionName, actionName.1 ++ [0]⟩ =
      run [⟨offLength, hostBytes 2 (len + sizeofP4Action)⟩, ⟨len, hostBytes 1 0⟩,
        ⟨len + offActionName, [0]⟩, ⟨len + offParamSize, hostBytes 1 0⟩,
        ⟨len + offActionName, actionName.1 ++ [0]⟩] b := rfl
  dsimp only
  rw [hrun]
  refine ⟨rfl, Nat.not_lt.mp hroom, ?_, ?_, ?_⟩
  · exact slice_run_of_last b [] ⟨offLength, _⟩ (by simp; omega)
  · simp only [actionFields, holds_cons, holds_nil, and_true]
    refine ⟨?_, ?_⟩
    · exact slice_run_of_last b [_, _, _, _] ⟨len + offActionName, _⟩ (by simp)
    · exact slice_run_of_last b [_, _, _] ⟨len + offParamSize, _⟩ (by
        simp [offActionName, offParamSize] at haction ⊢
        omega)
  · intro i hi hoff
    refine run_of_notMem b ?_
    simp only [List.forall_mem_cons, length_hostBytes]
    exact ⟨hoff, .inl hi, .inl (Nat.lt_add_right _ hi), .inl (Nat.lt_add_right _ hi),
      .inl (Nat.lt_add_right _ hi), fun w hw => absurd hw List.not_mem_nil⟩

/-- The names and widths of a message that adds a table entry, before the bytes of its
numbers are swapped. -/
theorem buildAddTableEntry_records {ms : UpTo p4MaxNumberOfFieldMatches FieldMatch}
    {aps : ActionParameters} {fms action params}
    (hcreate : createP4AddTableEntry b 0 maxlength = some b')
    (hfms : fillAll fillFieldMatch maxlength ms.1
      (Write.run b' ⟨offTableName, tableName.1 ++ [0]⟩) = some fms)
    (haction : addP4Action fms.2 0 maxlength = some action)
    (hparams : fillAll (fillActionParameter action.1) maxlength aps.1
      (Write.run action.2 ⟨action.1 + offActionName, actionName.1 ++ [0]⟩) = some params) :
    (CtrlRequest.addTableEntry tableName ms actionName aps).length ≤ maxlength ∧
      fms.1 = places sizeofP4AddTableEntry (ms.1.map (FieldMatch.record hostBytes)) ∧
      params.1 = places (sizeofP4AddTableEntry + widths (ms.1.map (FieldMatch.record hostBytes)) +
        sizeofP4Action) (aps.1.map (ActionParameter.record hostBytes)) ∧
      HoldsAll params.2 0
        ((CtrlRequest.addTableEntry tableName ms actionName aps).records hostBytes) := by
  obtain ⟨hroom, hheader⟩ := @createP4AddTableEntry_spec _ _ _ tableName hcreate
  obtain ⟨hheader, hcount⟩ := holds_append.mp hheader
  rw [holds_cons, Nat.zero_add, length_hostBytes] at hcount
  have hlength := (holds_cons.mp (holds_cons.mp hheader).2).1
  rw [Nat.zero_add, length_hostBytes] at hlength
  -- the matches
  obtain ⟨hplaces, hroom₁, hgrown, hms⟩ := (adds_fillFieldMatch hmax).fillAll (by decide)
    (by decide : offReadSize < sizeofP4AddTableEntry) hroom hlength hcount.1 hfms
  set len := sizeofP4AddTableEntry + widths (ms.1.map (FieldMatch.record hostBytes)) with hlen
  have hentry : sizeofP4AddTableEntry ≤ len := Nat.le_add_right ..
  have hsmall : offLength + 2 ≤ len := (by decide : offLength + 2 ≤ sizeofP4AddTableEntry).trans hentry
  -- the action
  obtain ⟨haddr, hroom₂, hlength₂, haction₂, hframe₂⟩ :=
    @addP4Action_spec _ hmax _ actionName _ hroom₁ hsmall hgrown.length _ haction
  rw [haddr] at hparams hlength₂ haction₂ hframe₂
  have hcount₂ := (holds_cons.mp (holds_cons.mp haction₂).2).1
  rw [length_hostBytes] at hcount₂
  -- the parameters
  obtain ⟨hplaces₃, hroom₃, hgrown₃, haps⟩ := (adds_fillActionParameter hmax len).fillAll
    (hsmall.trans (Nat.le_add_right ..)) (Nat.add_lt_add_left (by decide) len) hroom₂ hlength₂
    hcount₂ hparams
  have hframe₃ : ∀ i < len, i < offLength ∨ offLength + 2 ≤ i → params.2 i = fms.2 i :=
    fun i hi hoff => (hgrown₃.frame i (by omega) hoff (by omega)).trans (hframe₂ i hi hoff)
  refine ⟨hroom₃, hplaces, hplaces₃, holds_append.mpr ⟨?_, ?_⟩, holdsAll_append.mpr ⟨?_, ?_, ?_⟩⟩
  · refine headerFields_grown hheader hgrown₃.length ?_
    intro i hi hoff
    have hilen : i < sizeofP4AddTableEntry := hi.trans (by decide)
    exact (hframe₃ i (by omega) hoff).trans (hgrown.frame i hilen hoff (Nat.ne_of_lt hi))
  · refine holds_cons.mpr ⟨?_, holds_nil _ _⟩
    rw [Nat.zero_add, length_hostBytes]
    refine (slice_congr fun i hi => hframe₃ _ ?_ (.inr ?_)).trans (hgrown.counter.trans ?_)
    · obtain rfl : i = 0 := by omega
      exact (by decide : offReadSize + 0 < sizeofP4AddTableEntry).trans_le hentry
    · exact (by decide : offLength + 2 ≤ offReadSize).trans (Nat.le_add_right ..)
    · rw [Nat.zero_add]
  · rw [Nat.zero_add]
    refine hms.congr (List.forall_mem_map.mpr fun m _ => m.inBounds _ length_hostBytes)
      fun i hlo hhi => hframe₃ i hhi (.inr ?_)
    exact (by decide : offLength + 2 ≤ sizeofP4AddTableEntry).trans hlo
  · rw [Nat.zero_add, ← hlen]
    exact actionFields_grown hsmall (Nat.add_le_add_left (by decide) len) haction₂ hgrown₃
  · rw [Nat.zero_add, ← hlen]
    exact haps

theorem buildSetDefaultAction_records {aps : ActionParameters} {params}
    (hcreate : createP4SetDefaultAction b 0 maxlength = some b')
    (hparams : fillAll (fillActionParameter offAction) maxlength aps.1
      (Write.run (Write.run b' ⟨offTableName, tableName.1 ++ [0]⟩)
        ⟨offAction + offActionName, actionName.1 ++ [0]⟩) = some params) :
    (CtrlRequest.setDefaultAction tableName actionName aps).length ≤ maxlength ∧
      params.1 = places sizeofP4SetDefaultAction (aps.1.map (ActionParameter.record hostBytes)) ∧
      HoldsAll params.2 0
        ((CtrlRequest.setDefaultAction tableName actionName aps).records hostBytes) := by
  obtain ⟨hroom, hheader⟩ := @createP4SetDefaultAction_spec _ _ _ tableName actionName hcreate
  obtain ⟨hheader, haction⟩ := holds_append.mp hheader
  rw [holds_shift, Nat.zero_add] at haction
  have hlength := (holds_cons.mp (holds_cons.mp hheader).2).1
  rw [Nat.zero_add, length_hostBytes] at hlength
  have hcount := (holds_cons.mp (holds_cons.mp haction).2).1
  rw [length_hostBytes] at hcount
  obtain ⟨hplaces, hroom₁, hgrown, haps⟩ := (adds_fillActionParameter hmax offAction).fillAll
    (by decide) (by decide : offAction + offParamSize < sizeofP4SetDefaultAction) hroom hlength
    hcount hparams
  refine ⟨hroom₁, hplaces, holds_append.mpr ⟨?_, ?_⟩, ?_⟩
  · refine headerFields_grown hheader hgrown.length fun i hi hoff => hgrown.frame i ?_ hoff ?_
    · exact hi.trans (by decide)
    · exact Nat.ne_of_lt (hi.trans_le (Nat.le_add_right ..))
  · rw [holds_shift, Nat.zero_add]
    exact actionFields_grown (by decide) (by decide) haction hgrown
  · rw [Nat.zero_add]
    exact haps

omit hmax in
/-- The `netconv` functions bring the numbers of a message into network order. -/
theorem netconv_records {n type length : ℕ} {rest : List (Write Byte)} {t : Traced Byte}
    {rs : List (ℕ × List (Write Byte))} (hn : sizeofP4Header ≤ n)
    (hrest : ∀ w ∈ rest, sizeofP4Header ≤ w.off) (hrs : ∀ r ∈ rs, InBounds r.2 r.1)
    (h : HoldsAll t.mem 0 ((n, headerFields hostBytes type length tableName ++ rest) :: rs)) :
    HoldsAll (netconvP4Header 0 t).mem 0
      ((n, headerFields netBytes type length tableName ++ rest) :: rs) := by
  refine ⟨netconvP4Header_holds (length_hostBytes ..) rfl hrest h.1, ?_⟩
  exact h.2.congr hrs fun i hlo _ => netconvP4Header_frame (by omega)

/-- **What a controller sends is the message, its numbers in network order.** -/
theorem buildMsg_wire {req : CtrlRequest} (h : buildMsg maxlength b req = some b') :
    req.length ≤ maxlength ∧ HoldsAll b' 0 (req.records netBytes) := by
  cases req with
  | addTableEntry tableName ms actionName aps =>
    obtain ⟨b₁, -, h⟩ := Option.bind_eq_some_iff.mp h
    obtain ⟨b₂, hcreate, h⟩ := Option.bind_eq_some_iff.mp h
    obtain ⟨fms, hfms, h⟩ := Option.bind_eq_some_iff.mp h
    obtain ⟨action, haction, h⟩ := Option.bind_eq_some_iff.mp h
    obtain ⟨params, hparams, h⟩ := Option.bind_eq_some_iff.mp h
    obtain rfl := Option.some.inj h
    obtain ⟨hroom, hplaces, hplaces', hall⟩ :=
      buildAddTableEntry_records hmax hcreate hfms haction hparams
    refine ⟨hroom, ?_⟩
    have hheader := netconv_records (t := ⟨params.2, []⟩) ?_ ?_ ?_ hall
    · obtain ⟨hentry, hms, haction', haps⟩ := hheader.imp_right holdsAll_append.mp
      rw [Nat.zero_add] at hms haction' haps
      -- The matches are converted in place, which leaves the entry in front of them and the action.
      obtain ⟨hms', hframe⟩ := converts_fieldMatch.netconvAll hms
      rw [← hplaces] at hms' hframe
      have haps' := haps.congr (List.forall_mem_map.mpr fun ap _ => ap.inBounds _ length_hostBytes)
        fun i hlo _ => hframe i (.inr (by omega))
      -- Then the parameters, behind everything else.
      obtain ⟨haps₂, hframe₂⟩ := converts_actionParameter.netconvAll haps'
      rw [← hplaces'] at haps₂ hframe₂
      refine ⟨?_, holdsAll_append.mpr ⟨?_, ?_, ?_⟩⟩
      · refine hentry.congr (inBounds_entryFields _ _ _ _) ?_
        intro i hlo hhi
        exact (hframe₂ i (.inl (by omega))).trans (hframe i (.inl (by omega)))
      · rw [Nat.zero_add]
        refine hms'.congr (List.forall_mem_map.mpr fun m _ => m.inBounds _ length_netBytes)
          fun i hlo hhi => hframe₂ i (.inl ?_)
        rw [widths_fieldMatch netBytes hostBytes] at hhi
        omega
      · rw [Nat.zero_add, widths_fieldMatch netBytes hostBytes]
        refine haction'.congr (inBounds_actionFields _ _) ?_
        intro i hlo hhi
        exact (hframe₂ i (.inl (by omega))).trans (hframe i (.inr (by omega)))
      · rw [Nat.zero_add, widths_fieldMatch netBytes hostBytes]
        exact haps₂
    · exact (by decide : sizeofP4Header ≤ sizeofP4AddTableEntry)
    · exact List.forall_mem_singleton.mpr (by decide : sizeofP4Header ≤ offReadSize)
    · refine List.forall_mem_append.mpr ⟨?_, List.forall_mem_cons.mpr ⟨?_, ?_⟩⟩
      · exact List.forall_mem_map.mpr fun m _ => m.inBounds _ length_hostBytes
      · exact inBounds_actionFields _ _
      · exact List.forall_mem_map.mpr fun ap _ => ap.inBounds _ length_hostBytes
  | setDefaultAction tableName actionName aps =>
    obtain ⟨b₁, -, h⟩ := Option.bind_eq_some_iff.mp h
    obtain ⟨b₂, hcreate, h⟩ := Option.bind_eq_some_iff.mp h
    obtain ⟨params, hparams, h⟩ := Option.bind_eq_some_iff.mp h
    obtain rfl := Option.some.inj h
    obtain ⟨hroom, hplaces, hall⟩ := buildSetDefaultAction_records hmax hcreate hparams
    refine ⟨hroom, ?_⟩
    have hheader := netconv_records (t := ⟨params.2, []⟩) ?_ ?_ ?_ hall
    · obtain ⟨hdefault, haps⟩ := hheader
      rw [Nat.zero_add] at haps
      obtain ⟨haps', hframe⟩ := converts_actionParameter.netconvAll haps
      rw [← hplaces] at haps' hframe
      refine ⟨hdefault.congr (inBounds_defaultFields _ _ _ _ _) fun i hlo hhi => hframe i (.inl ?_), ?_⟩
      · omega
      · rw [Nat.zero_add]
        exact haps'
    · exact (by decide : sizeofP4Header ≤ sizeofP4SetDefaultAction)
    · simp only [shift, actionFields, List.map_cons, List.map_nil, List.forall_mem_cons]
      exact ⟨by decide, by decide, fun w hw => absurd hw List.not_mem_nil⟩
    · exact List.forall_mem_map.mpr fun ap _ => ActionParameter.inBounds _ length_hostBytes ap

end Build

end T4P4S
