/-
The room that a message takes in the controller's buffer.

* **`buildMsg_isSome_iff`** — a message is made iff it fits into the buffer, and does not
  fill it before anything is added;
* **`buildMsg_spare`** — behind the action nothing is written but the names, the widths and
  the bitmaps of the parameters: what lies behind a bitmap, or behind the message, is what
  the buffer held before.
-/
import T4P4S.Install

open ByteString

namespace T4P4S

/-! ### Lists of things -/

/-- Each thing lies between the two ends. -/
theorem mem_zip_places {α : Type} {record : α → ℕ × List (Write Byte)} {xs : List α} {p : ℕ}
    {x : α × ℕ} (hx : x ∈ xs.zip (places p (xs.map record))) :
    p ≤ x.2 ∧ x.2 + (record x.1).1 ≤ p + widths (xs.map record) := by
  induction xs generalizing p with
  | nil => exact absurd hx List.not_mem_nil
  | cons y ys ih =>
    rw [List.map_cons, widths_cons]
    rcases List.mem_cons.mp hx with rfl | hx
    · exact ⟨le_rfl, by dsimp only; omega⟩
    · have hle := ih hx
      omega

section FillAll

variable {α : Type} {fill : α → Buffer → ℕ → Option (ℕ × Buffer)}
  {record : α → ℕ × List (Write Byte)} {maxlength c : ℕ}

/-- All things are added if there is room for them. -/
theorem Adds.fillAll_isSome (h : Adds fill record maxlength c)
    (hfill : ∀ x b len, slice b offLength 2 = hostBytes 2 len → len + (record x).1 ≤ maxlength →
      (fill x b maxlength).isSome) {xs : List α} {b : Buffer} {len k : ℕ} (hclen : c < len)
    (hlength : slice b offLength 2 = hostBytes 2 len) (hcounter : slice b c 1 = hostBytes 1 k)
    (hroom : len + widths (xs.map record) ≤ maxlength) :
    (T4P4S.fillAll fill maxlength xs b).isSome := by
  induction xs generalizing b len k with
  | nil => rfl
  | cons x xs ih =>
    rw [List.map_cons, widths_cons] at hroom
    obtain ⟨r, hr⟩ := Option.isSome_iff_exists.mp (hfill x b len hlength (by omega))
    obtain ⟨-, -, hgrown, -⟩ := h.step x b r len k hclen (by omega) hlength hcounter hr
    obtain ⟨rs, hrs⟩ := Option.isSome_iff_exists.mp
      (ih (by omega) hgrown.length hgrown.counter (by omega))
    rw [T4P4S.fillAll, hr]
    simp only [Option.bind_eq_bind, Option.bind_some, hrs]
    rfl

/-- A byte behind the counter stays that adding none of the things changes. -/
theorem Adds.fillAll_spare (h : Adds fill record maxlength c) (hc : offLength + 2 ≤ c)
    {free : α → ℕ → ℕ → Prop}
    (hfree : ∀ x b r len, slice b offLength 2 = hostBytes 2 len → len ≤ maxlength → c < len →
      fill x b maxlength = some r → ∀ i, len ≤ i → free x len i → r.2 i = b i)
    {xs : List α} {b : Buffer} {rs : List ℕ × Buffer} {len k : ℕ} (hclen : c < len)
    (hlen : len ≤ maxlength) (hlength : slice b offLength 2 = hostBytes 2 len)
    (hcounter : slice b c 1 = hostBytes 1 k) (hfill : T4P4S.fillAll fill maxlength xs b = some rs)
    {i : ℕ} (hi : len ≤ i)
    (hspare : ∀ x ∈ xs.zip (places len (xs.map record)), i < x.2 ∨ free x.1 x.2 i) :
    rs.2 i = b i := by
  induction xs generalizing b rs len k with
  | nil =>
    obtain rfl := Option.some.inj hfill
    rfl
  | cons x xs ih =>
    rw [T4P4S.fillAll] at hfill
    obtain ⟨r, hr, hfill⟩ := Option.bind_eq_some_iff.mp hfill
    obtain ⟨rs', hrs', hfill⟩ := Option.bind_eq_some_iff.mp hfill
    obtain rfl := Option.some.inj hfill
    obtain ⟨-, hroom, hgrown, -⟩ := h.step x b r len k hclen hlen hlength hcounter hr
    obtain ⟨hfirst, hrest⟩ := List.forall_mem_cons.mp hspare
    have hfree' : r.2 i = b i := by
      rcases hfirst with hlt | hfirst
      · exact absurd hi (Nat.not_le.mpr hlt)
      · exact hfree x b r len hlength hlen hclen hr i hi hfirst
    rcases Nat.lt_or_ge i (len + (record x).1) with hlt | hge
    -- The later things are put behind this one.
    · obtain ⟨-, -, hgrown', -⟩ := h.fillAll hc (by omega) hroom hgrown.length hgrown.counter hrs'
      exact (hgrown'.frame i hlt (.inr (by omega)) (by omega)).trans hfree'
    · exact (ih (by omega) hroom hgrown.length hgrown.counter hrs' hge hrest).trans hfree'

theorem netconvAll_spare {netconv : α → ℕ → Traced Byte → Traced Byte} {xs : List (α × ℕ)} {i : ℕ}
    (h : ∀ x ∈ xs, ∀ t, (netconv x.1 x.2 t).mem i = t.mem i) (t : Traced Byte) :
    (netconvAll netconv xs t).mem i = t.mem i := by
  induction xs generalizing t with
  | nil => rfl
  | cons x xs ih =>
    obtain ⟨hx, hxs⟩ := List.forall_mem_cons.mp h
    exact (ih hxs _).trans (hx t)

end FillAll

/-! ### Matches and parameters -/

theorem fillFieldMatch_isSome {maxlength : ℕ} (hmax : maxlength < 2 ^ 16) (m : FieldMatch)
    {b : Buffer} {len : ℕ} (hlength : slice b offLength 2 = hostBytes 2 len)
    (hroom : len + (m.record hostBytes).1 ≤ maxlength) : (fillFieldMatch m b maxlength).isSome := by
  obtain ⟨rest, hadd⟩ := addFieldMatch_eq m
  have hnumber : Buffer.number b offLength 2 = len := number_of_slice hlength (by omega)
  have hroom' : ¬ maxlength < len + m.type.sizeof := Nat.not_lt.mpr hroom
  simp only [fillFieldMatch, hadd, addP4FieldMatch, Nat.zero_add, hnumber, if_neg hroom',
    Option.map_some, Option.isSome_some]

theorem fillActionParameter_isSome {maxlength : ℕ} (hmax : maxlength < 2 ^ 16) (action : ℕ)
    (ap : ActionParameter) {b : Buffer} {len : ℕ}
    (hlength : slice b offLength 2 = hostBytes 2 len)
    (hroom : len + (ap.record hostBytes).1 ≤ maxlength) :
    (fillActionParameter action ap b maxlength).isSome := by
  have hnumber : Buffer.number b offLength 2 = len := number_of_slice hlength (by omega)
  have hroom' : ¬ maxlength < len + sizeofP4ActionParameter := Nat.not_lt.mpr hroom
  simp only [fillActionParameter, addP4ActionParameter, Nat.zero_add, hnumber, if_neg hroom',
    Option.map_some, Option.isSome_some]

/-- Nothing is written behind a match. -/
theorem fillFieldMatch_spare {maxlength : ℕ} (hmax : maxlength < 2 ^ 16) {m : FieldMatch}
    {b : Buffer} {r : ℕ × Buffer} {len : ℕ} (hlength : slice b offLength 2 = hostBytes 2 len)
    (hlen : len ≤ maxlength) (hclen : offReadSize < len)
    (hfill : fillFieldMatch m b maxlength = some r) {i : ℕ}
    (hi : len + (m.record hostBytes).1 ≤ i) : r.2 i = b i := by
  obtain ⟨rest, hadd, hrest⟩ : ∃ rest, addFieldMatch m = addP4FieldMatch m.type rest ∧
      offMatchRest + rest.length ≤ m.type.sizeof := by
    cases m with
    | exact =>
      exact ⟨[], rfl, (by decide : offMatchRest + 0 ≤ FieldMatchType.exact.sizeof)⟩
    | lpm =>
      exact ⟨[], rfl, (by decide : offMatchRest + 0 ≤ FieldMatchType.lpm.sizeof)⟩
    | ternary =>
      exact ⟨[0], rfl, (by decide : offMatchRest + 1 ≤ FieldMatchType.ternary.sizeof)⟩
  obtain ⟨added, hadded, rfl⟩ := Option.map_eq_some_iff.mp hfill
  have hnumber : Buffer.number b offLength 2 = len := number_of_slice hlength (by omega)
  rw [hadd, addP4FieldMatch] at hadded
  simp only [Nat.zero_add, hnumber] at hadded
  obtain ⟨hroom, hsome⟩ := Option.ite_none_left_eq_some.mp hadded
  obtain rfl := Option.some.inj hsome
  have hsize := m.type.le_sizeof
  have hwidth : (m.record hostBytes).1 = m.type.sizeof := rfl
  have hplace : offReadSize + 1 ≤ len := hclen
  dsimp only
  rw [run_of_notMem, run_of_notMem]
  · simp only [List.forall_mem_cons, length_hostBytes]
    unfold offReadSize at hplace
    unfold offMatchLength offMatchRest offMatchType offLength offReadSize at *
    rw [hwidth] at hi
    exact ⟨.inr (by omega), .inr (by omega), .inr (by omega), .inr (by omega),
      .inr (by omega), fun w hw => absurd hw List.not_mem_nil⟩
  · intro w hw
    obtain ⟨w', hw', rfl⟩ := List.mem_map.mp hw
    have hle : w'.off + w'.data.length ≤ (m.record hostBytes).1 := by
      refine m.inBounds hostBytes length_hostBytes w' ?_
      rcases List.mem_cons.mp hw' with rfl | hw'
      · exact List.mem_cons_of_mem _ List.mem_cons_self
      · rcases List.mem_cons.mp hw' with rfl | hw'
        · exact List.mem_cons_of_mem _ (List.mem_cons_of_mem _ List.mem_cons_self)
        · exact List.mem_cons_of_mem _ (List.mem_cons_of_mem _ (List.mem_cons_of_mem _ hw'))
    dsimp only
    omega

/-- Nothing is written behind the bitmap of a parameter. -/
theorem fillActionParameter_spare {maxlength : ℕ} (hmax : maxlength < 2 ^ 16) {action : ℕ}
    {ap : ActionParameter} {b : Buffer} {r : ℕ × Buffer} {len : ℕ}
    (hlength : slice b offLength 2 = hostBytes 2 len) (hlen : len ≤ maxlength)
    (hclen : action + offParamSize < len)
    (hfill : fillActionParameter action ap b maxlength = some r) {i : ℕ}
    (hi : len + offParamBitmap + ap.bitmap.1.length ≤ i) : r.2 i = b i := by
  obtain ⟨added, hadded, rfl⟩ := Option.map_eq_some_iff.mp hfill
  have hnumber : Buffer.number b offLength 2 = len := number_of_slice hlength (by omega)
  rw [addP4ActionParameter] at hadded
  simp only [Nat.zero_add, hnumber] at hadded
  obtain ⟨hroom, hsome⟩ := Option.ite_none_left_eq_some.mp hadded
  obtain rfl := Option.some.inj hsome
  have hname := P4Name.length_lt ap.name
  have hplace : action + offParamSize + 1 ≤ len := hclen
  dsimp only
  rw [run_of_notMem, run_of_notMem]
  · simp only [List.forall_mem_cons, length_hostBytes, List.length_singleton]
    unfold offParamBitmap at hi
    unfold offParamSize at hplace
    unfold offLength offParamSize offParamLength
    exact ⟨.inr (by omega), .inr (by omega), .inr (by omega), .inr (by omega),
      fun w hw => absurd hw List.not_mem_nil⟩
  · simp only [ActionParameter.filled, shift, List.map_cons, List.map_nil, List.forall_mem_cons,
      length_hostBytes]
    unfold offParamBitmap at hi
    unfold offParamBitmap offParamLength
    exact ⟨.inr (by omega), .inr (by omega), .inr (by omega),
      fun w hw => absurd hw List.not_mem_nil⟩

/-! ### Messages -/

/-- The room for what a message is begun with. -/
def CtrlRequest.begun : CtrlRequest → ℕ
  | addTableEntry .. => sizeofP4AddTableEntry
  | setDefaultAction .. => sizeofP4SetDefaultAction

section Build

variable {maxlength : ℕ} (hmax : maxlength < 2 ^ 16)

theorem exists_createP4Header {n : ℕ} (hn : sizeofP4Header ≤ n) (hroom : n < maxlength)
    (b : Buffer) : ∃ b', createP4Header b 0 maxlength = some b' := by
  rw [createP4Header, if_neg (by omega)]
  exact ⟨_, rfl⟩

theorem exists_createP4AddTableEntry (hroom : sizeofP4AddTableEntry < maxlength) (b : Buffer) :
    ∃ b', createP4AddTableEntry b 0 maxlength = some b' := by
  rw [createP4AddTableEntry, if_neg (by omega)]
  exact ⟨_, rfl⟩

theorem exists_createP4SetDefaultAction (hroom : sizeofP4SetDefaultAction < maxlength)
    (b : Buffer) : ∃ b', createP4SetDefaultAction b 0 maxlength = some b' := by
  rw [createP4SetDefaultAction, if_neg (by omega)]
  exact ⟨_, rfl⟩

/-- The length of a message that was begun, and the number of its matches. -/
theorem createP4AddTableEntry_counts {b b' : Buffer} (tableName : P4Name)
    (h : createP4AddTableEntry b 0 maxlength = some b') :
    sizeofP4AddTableEntry ≤ maxlength ∧
      slice (Write.run b' ⟨offTableName, tableName.1 ++ [0]⟩) offLength 2 =
        hostBytes 2 sizeofP4AddTableEntry ∧
      slice (Write.run b' ⟨offTableName, tableName.1 ++ [0]⟩) offReadSize 1 = hostBytes 1 0 := by
  obtain ⟨hroom, hfields⟩ := @createP4AddTableEntry_spec _ _ _ tableName h
  obtain ⟨hfields, hcount⟩ := holds_append.mp hfields
  rw [holds_cons, Nat.zero_add, length_hostBytes] at hcount
  have hlength := (holds_cons.mp (holds_cons.mp hfields).2).1
  rw [Nat.zero_add, length_hostBytes] at hlength
  exact ⟨hroom, hlength, hcount.1⟩

/-- Behind what was begun, the buffer is as it was. -/
theorem createP4AddTableEntry_spare {b b₁ b₂ : Buffer} (tableName : P4Name)
    (hheader : createP4Header b 0 maxlength = some b₁)
    (hcreate : createP4AddTableEntry b₁ 0 maxlength = some b₂) {i : ℕ}
    (hi : sizeofP4AddTableEntry ≤ i) :
    Write.run b₂ ⟨offTableName, tableName.1 ++ [0]⟩ i = b i := by
  rw [createP4Header] at hheader
  rw [createP4AddTableEntry] at hcreate
  obtain ⟨-, hheader⟩ := Option.ite_none_left_eq_some.mp hheader
  obtain ⟨-, hcreate⟩ := Option.ite_none_left_eq_some.mp hcreate
  obtain rfl := Option.some.inj hheader
  obtain rfl := Option.some.inj hcreate
  have hname := P4Name.length_lt tableName
  have hsize : offTableName + 128 ≤ sizeofP4AddTableEntry := by decide
  have hread : offReadSize + 1 ≤ sizeofP4AddTableEntry := by decide
  have hxid : offXid + 4 ≤ offTableName := by decide
  rw [Write.run_of_notMem _ (.inr (by dsimp only; omega)), run_of_notMem, run_of_notMem]
  · simp only [List.forall_mem_cons, length_hostBytes]
    unfold offXid offTableName at *
    unfold offType offLength
    exact ⟨.inr (by omega), .inr (by omega), .inr (by omega), .inr (by omega),
      fun w hw => absurd hw List.not_mem_nil⟩
  · simp only [List.forall_mem_cons, length_hostBytes, List.length_singleton]
    unfold offTableName at *
    unfold offType offLength
    exact ⟨.inr (by omega), .inr (by omega), .inr (by omega), .inr (by omega),
      fun w hw => absurd hw List.not_mem_nil⟩

include hmax

/-- The same behind the action, with the number of its parameters. -/
theorem addP4Action_counts {b : Buffer} {len : ℕ} (actionName : P4Name) (hlen : len ≤ maxlength)
    (hclen : offLength + 2 ≤ len) (hlength : slice b offLength 2 = hostBytes 2 len)
    {r : ℕ × Buffer} (h : addP4Action b 0 maxlength = some r) :
    r.1 = len ∧ len + sizeofP4Action ≤ maxlength ∧
      slice (Write.run r.2 ⟨len + offActionName, actionName.1 ++ [0]⟩) offLength 2 =
        hostBytes 2 (len + sizeofP4Action) ∧
      slice (Write.run r.2 ⟨len + offActionName, actionName.1 ++ [0]⟩) (len + offParamSize) 1 =
        hostBytes 1 0 := by
  obtain ⟨hplace, hroom, hlength', hfields, -⟩ :=
    @addP4Action_spec _ hmax _ actionName _ hlen hclen hlength _ h
  rw [hplace] at hlength' hfields
  have hcount := (holds_cons.mp (holds_cons.mp hfields).2).1
  rw [length_hostBytes] at hcount
  exact ⟨hplace, hroom, hlength', hcount⟩

theorem addP4Action_spare {b : Buffer} {len : ℕ} (actionName : P4Name) (hlen : len ≤ maxlength)
    (hclen : offLength + 2 ≤ len) (hlength : slice b offLength 2 = hostBytes 2 len)
    {r : ℕ × Buffer} (h : addP4Action b 0 maxlength = some r) {i : ℕ}
    (hi : len + sizeofP4Action ≤ i) :
    Write.run r.2 ⟨len + offActionName, actionName.1 ++ [0]⟩ i = b i := by
  have hnumber : Buffer.number b offLength 2 = len := number_of_slice hlength (by omega)
  rw [addP4Action] at h
  simp only [Nat.zero_add, hnumber] at h
  obtain rfl := Option.some.inj (Option.ite_none_left_eq_some.mp h).2
  have hname := P4Name.length_lt actionName
  have hsize : offActionName + 128 ≤ sizeofP4Action := by decide
  have hparams : offParamSize + 1 ≤ sizeofP4Action := by decide
  rw [Write.run_of_notMem _ (.inr (by dsimp only; omega))]
  dsimp only
  rw [run_of_notMem]
  simp only [List.forall_mem_cons, length_hostBytes, List.length_singleton]
  exact ⟨.inr (by omega), .inr (by omega), .inr (by omega), .inr (by omega),
    fun w hw => absurd hw List.not_mem_nil⟩

theorem exists_addP4Action {b : Buffer} {len : ℕ} (hlength : slice b offLength 2 = hostBytes 2 len)
    (hroom : len + sizeofP4Action ≤ maxlength) : ∃ r, addP4Action b 0 maxlength = some r := by
  have hnumber : Buffer.number b offLength 2 = len := number_of_slice hlength (by omega)
  rw [addP4Action]
  simp only [Nat.zero_add, hnumber, if_neg (Nat.not_lt.mpr hroom)]
  exact ⟨_, rfl⟩

/-- There is room for a message that adds a table entry. -/
theorem exists_addTableEntry {tableName actionName : P4Name}
    {ms : UpTo p4MaxNumberOfFieldMatches FieldMatch} {aps : ActionParameters}
    (hroom : (CtrlRequest.addTableEntry tableName ms actionName aps).length ≤ maxlength)
    (b : Buffer) :
    ∃ b', buildMsg maxlength b (.addTableEntry tableName ms actionName aps) = some b' := by
  rw [CtrlRequest.length] at hroom
  set len := sizeofP4AddTableEntry + widths (ms.1.map (FieldMatch.record hostBytes)) with hlen
  have haction : 0 < sizeofP4Action := by decide
  have hbegun : sizeofP4AddTableEntry < maxlength := by omega
  obtain ⟨b₁, hheader⟩ := exists_createP4Header
    (by decide : sizeofP4Header ≤ sizeofP4AddTableEntry) hbegun b
  obtain ⟨b₂, hcreate⟩ := exists_createP4AddTableEntry hbegun b₁
  obtain ⟨hroom₁, hlength, hcount⟩ := createP4AddTableEntry_counts tableName hcreate
  obtain ⟨fms, hfms⟩ := Option.isSome_iff_exists.mp ((adds_fillFieldMatch hmax).fillAll_isSome
    (fun m _ _ hl hr => fillFieldMatch_isSome hmax m hl hr)
    (by decide : offReadSize < sizeofP4AddTableEntry) hlength hcount
    (by omega : sizeofP4AddTableEntry + widths (ms.1.map (FieldMatch.record hostBytes)) ≤ maxlength))
  obtain ⟨-, hroom₂, hgrown, -⟩ := (adds_fillFieldMatch hmax).fillAll (by decide)
    (by decide : offReadSize < sizeofP4AddTableEntry) hroom₁ hlength hcount hfms
  have hsmall : offLength + 2 ≤ len :=
    (by decide : offLength + 2 ≤ sizeofP4AddTableEntry).trans (Nat.le_add_right ..)
  obtain ⟨action, haction'⟩ := exists_addP4Action hmax hgrown.length (by omega)
  obtain ⟨hplace, -, hlength', hcount'⟩ :=
    addP4Action_counts hmax actionName hroom₂ hsmall hgrown.length haction'
  rw [← hlen] at hplace hlength' hcount'
  obtain ⟨params, hparams⟩ := Option.isSome_iff_exists.mp
    ((adds_fillActionParameter hmax len).fillAll_isSome
      (fun ap _ _ hl hr => fillActionParameter_isSome hmax len ap hl hr)
      (Nat.add_lt_add_left (by decide) len) hlength' hcount' hroom)
  rw [buildMsg]
  simp only [Option.bind_eq_bind, hheader, Option.bind_some, hcreate, hfms, haction', hplace,
    hparams]
  exact ⟨_, rfl⟩

/-- There is room for a message that sets a default action. -/
theorem exists_setDefaultAction {tableName actionName : P4Name} {aps : ActionParameters}
    (hbegun : sizeofP4SetDefaultAction < maxlength)
    (hroom : (CtrlRequest.setDefaultAction tableName actionName aps).length ≤ maxlength)
    (b : Buffer) :
    ∃ b', buildMsg maxlength b (.setDefaultAction tableName actionName aps) = some b' := by
  obtain ⟨b₁, hheader⟩ := exists_createP4Header
    (by decide : sizeofP4Header ≤ sizeofP4SetDefaultAction) hbegun b
  obtain ⟨b₂, hcreate⟩ := exists_createP4SetDefaultAction hbegun b₁
  obtain ⟨-, hfields⟩ := @createP4SetDefaultAction_spec _ _ _ tableName actionName hcreate
  obtain ⟨hfields, haction⟩ := holds_append.mp hfields
  rw [holds_shift, Nat.zero_add] at haction
  have hlength := (holds_cons.mp (holds_cons.mp hfields).2).1
  rw [Nat.zero_add, length_hostBytes] at hlength
  have hcount := (holds_cons.mp (holds_cons.mp haction).2).1
  rw [length_hostBytes] at hcount
  obtain ⟨params, hparams⟩ := Option.isSome_iff_exists.mp
    ((adds_fillActionParameter hmax offAction).fillAll_isSome
      (fun ap _ _ hl hr => fillActionParameter_isSome hmax offAction ap hl hr)
      (by decide : offAction + offParamSize < sizeofP4SetDefaultAction) hlength hcount hroom)
  rw [buildMsg]
  simp only [Option.bind_eq_bind, hheader, Option.bind_some, hcreate, hparams]
  exact ⟨_, rfl⟩

/-- **A message is made iff there is room for it**, and more than that for what it is begun
with. -/
theorem buildMsg_isSome_iff (req : CtrlRequest) (b : Buffer) :
    (buildMsg maxlength b req).isSome ↔ req.length ≤ maxlength ∧ req.begun < maxlength := by
  rw [Option.isSome_iff_exists]
  constructor
  · rintro ⟨b', hbuilt⟩
    refine ⟨(buildMsg_wire hmax hbuilt).1, ?_⟩
    cases req with
    | addTableEntry =>
      obtain ⟨b₁, -, h⟩ := Option.bind_eq_some_iff.mp hbuilt
      obtain ⟨b₂, hcreate, -⟩ := Option.bind_eq_some_iff.mp h
      rw [createP4AddTableEntry, Nat.zero_add] at hcreate
      exact Nat.not_le.mp (Option.ite_none_left_eq_some.mp hcreate).1
    | setDefaultAction =>
      obtain ⟨b₁, -, h⟩ := Option.bind_eq_some_iff.mp hbuilt
      obtain ⟨b₂, hcreate, -⟩ := Option.bind_eq_some_iff.mp h
      rw [createP4SetDefaultAction, Nat.zero_add] at hcreate
      exact Nat.not_le.mp (Option.ite_none_left_eq_some.mp hcreate).1
  · rintro ⟨hroom, hbegun⟩
    cases req with
    | addTableEntry => exact exists_addTableEntry hmax hroom b
    | setDefaultAction => exact exists_setDefaultAction hmax hbegun hroom b

omit hmax in
theorem noName_ok : (0 : Byte) ∉ ([] : List Byte) ∧ ([] : List Byte).length < p4MaxNameLen := by decide

omit hmax in
theorem noParams_ok : ([] : List ActionParameter).length ≤ p4MaxNumberOfActionParameters :=
  Nat.zero_le _

/-- The request for a default action without parameters; the names are empty. -/
def noParams : CtrlRequest := .setDefaultAction ⟨[], noName_ok⟩ ⟨[], noName_ok⟩ ⟨[], noParams_ok⟩

omit hmax in
/-- Its message fits into 268 bytes, but is not made there. -/
theorem noParams_refused : noParams.length = sizeofP4SetDefaultAction ∧
    (buildMsg sizeofP4SetDefaultAction (fun _ => 0) noParams).isSome = false := by
  refine ⟨rfl, Bool.eq_false_iff.mpr fun hmade => ?_⟩
  have hmax : sizeofP4SetDefaultAction < 2 ^ 16 := by decide
  exact absurd ((buildMsg_isSome_iff hmax noParams fun _ => 0).mp hmade).2 (Nat.lt_irrefl _)

/-- The place of the first parameter. -/
def paramsPlace (ms : UpTo p4MaxNumberOfFieldMatches FieldMatch) : ℕ :=
  sizeofP4AddTableEntry + widths (ms.1.map (FieldMatch.record hostBytes)) + sizeofP4Action

/-- **Behind the action, a message that adds a table entry is what the buffer held before**,
up to what its parameters say. -/
theorem buildMsg_spare {tableName actionName : P4Name}
    {ms : UpTo p4MaxNumberOfFieldMatches FieldMatch} {aps : ActionParameters} {b b' : Buffer}
    (h : buildMsg maxlength b (.addTableEntry tableName ms actionName aps) = some b') {i : ℕ}
    (hi : paramsPlace ms ≤ i)
    (hspare : ∀ x ∈ aps.1.zip (places (paramsPlace ms)
      (aps.1.map (ActionParameter.record hostBytes))),
        i < x.2 ∨ x.2 + offParamBitmap + x.1.bitmap.1.length ≤ i) : b' i = b i := by
  obtain ⟨b₁, hheader, h⟩ := Option.bind_eq_some_iff.mp h
  obtain ⟨b₂, hcreate, h⟩ := Option.bind_eq_some_iff.mp h
  obtain ⟨fms, hfms, h⟩ := Option.bind_eq_some_iff.mp h
  obtain ⟨action, haction, h⟩ := Option.bind_eq_some_iff.mp h
  obtain ⟨params, hparams, h⟩ := Option.bind_eq_some_iff.mp h
  obtain rfl := Option.some.inj h
  obtain ⟨hroom, hlength, hcount⟩ := createP4AddTableEntry_counts tableName hcreate
  have hclen : offReadSize < sizeofP4AddTableEntry := by decide
  obtain ⟨hplaces, hroom₁, hgrown, -⟩ := (adds_fillFieldMatch hmax).fillAll (by decide) hclen hroom
    hlength hcount hfms
  set len := sizeofP4AddTableEntry + widths (ms.1.map (FieldMatch.record hostBytes)) with hlen
  have hplace : paramsPlace ms = len + sizeofP4Action := rfl
  have hsmall : offLength + 2 ≤ len :=
    (by decide : offLength + 2 ≤ sizeofP4AddTableEntry).trans (Nat.le_add_right ..)
  obtain ⟨haddr, hroom₂, hlength₂, hcount₂⟩ :=
    addP4Action_counts hmax actionName hroom₁ hsmall hgrown.length haction
  rw [haddr] at hparams
  have hplen : len + offParamSize < len + sizeofP4Action := Nat.add_lt_add_left (by decide) len
  obtain ⟨hplaces', -⟩ := (adds_fillActionParameter hmax len).fillAll
    (hsmall.trans (Nat.le_add_right ..)) hplen hroom₂ hlength₂ hcount₂ hparams
  -- The matches lie in front of the byte.
  have hbefore : ∀ x ∈ ms.1.zip (places sizeofP4AddTableEntry
      (ms.1.map (FieldMatch.record hostBytes))), x.2 + (x.1.record hostBytes).1 ≤ i := by
    intro x hx
    have hle := (mem_zip_places hx).2
    omega
  have hnetconv : offParamLength + 4 ≤ offParamBitmap := by decide
  rw [netconvAll_spare, netconvAll_spare, netconvP4Header_frame]
  · show params.2 i = b i
    rw [(adds_fillActionParameter hmax len).fillAll_spare (hsmall.trans (Nat.le_add_right ..))
      (fun ap b r n hl hn hlt hr j _ hfree =>
        fillActionParameter_spare hmax hl hn hlt hr hfree) hplen hroom₂ hlength₂ hcount₂ hparams hi
      hspare]
    rw [addP4Action_spare hmax actionName hroom₁ hsmall hgrown.length haction hi]
    rw [(adds_fillFieldMatch hmax).fillAll_spare (by decide)
      (fun m b r n hl hn hlt hr j _ hfree => fillFieldMatch_spare hmax hl hn hlt hr hfree) hclen
      hroom hlength hcount hfms (by omega) fun x hx => .inr (hbefore x hx)]
    exact createP4AddTableEntry_spare tableName hheader hcreate (by omega)
  · exact (by decide : sizeofP4Header ≤ sizeofP4AddTableEntry).trans (by omega)
  · intro x hx t
    rw [hplaces] at hx
    exact converts_fieldMatch.frame _ _ t i (.inr (hbefore x hx))
  · intro x hx t
    rw [hplaces', ← hplace] at hx
    refine netconvNumber_of_disjoint ?_
    rcases hspare x hx with hlt | hge
    · exact .inl (Nat.lt_add_right _ hlt)
    · exact .inr (by omega)

end Build

end T4P4S
