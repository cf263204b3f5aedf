/-
What a controller puts into a message is what the dataplane takes out of it.

* **`handleP4Msg_buildMsg`** — `handle_p4_msg` calls the callback with the names,
  matches and parameters of the message that the controller made.
-/
import T4P4S.Controller

open ByteString

namespace T4P4S

/-- The C string at an offset, in an array for a name. -/
def cString (mem : Buffer) (p : ℕ) : List Byte := (slice mem p p4MaxNameLen).takeWhile (· ≠ 0)

/-- A match as the callback finds it. -/
structure FieldMatchAt (mem : Buffer) (p : ℕ) (m : FieldMatch) : Prop where
  type : mem.number (p + offMatchType) 1 = m.type.code
  name : cString mem p = m.name.1
  number : mem.number (p + offMatchLength) 2 = m.number
  /-- the bitmap, and for a ternary match the priority and the mask -/
  rest : Holds mem p m.rest

structure ActionParameterAt (mem : Buffer) (p : ℕ) (ap : ActionParameter) : Prop where
  name : cString mem p = ap.name.1
  length : mem.number (p + offParamLength) 4 = ap.length
  bitmap : slice mem (p + offParamBitmap) ap.bitmap.1.length = ap.bitmap.1

/-- What the callback is given. -/
structure ActionDecoded (d : Decoding) (type : ℕ) (tableName actionName : P4Name)
    (aps : List ActionParameter) : Prop where
  type : d.ctrl.type = type
  tableName : cString d.msg.mem d.ctrl.tableName = tableName.1
  actionName : cString d.msg.mem d.ctrl.actionName = actionName.1
  numActionParams : d.ctrl.numActionParams = aps.length
  actionParams : ∀ i ap, aps[i]? = some ap →
    ActionParameterAt d.msg.mem (d.ctrl.actionParams i) ap

structure MatchesDecoded (d : Decoding) (ms : List FieldMatch) : Prop where
  numFieldMatches : d.ctrl.numFieldMatches = ms.length
  fieldMatches : ∀ i m, ms[i]? = some m → FieldMatchAt d.msg.mem (d.ctrl.fieldMatches i) m

/-- The message that was decoded is the one that was made. -/
def Decoded (d : Decoding) : CtrlRequest → Prop
  | .addTableEntry tableName ms actionName aps =>
    ActionDecoded d p4tAddTableEntry tableName actionName aps.1 ∧ MatchesDecoded d ms.1
  | .setDefaultAction tableName actionName aps =>
    ActionDecoded d p4tSetDefaultAction tableName actionName aps.1

/-! ### Taking things out of the buffer -/

theorem cString_of_slice {mem : Buffer} {p : ℕ} (name : P4Name)
    (h : slice mem p (name.1 ++ [0]).length = name.1 ++ [0]) : cString mem p = name.1 := by
  have hlen := P4Name.length_lt name
  obtain ⟨k, hk⟩ := Nat.exists_eq_add_of_le hlen
  have hnul : ∀ b ∈ name.1, decide (b ≠ 0) = true := fun b hb =>
    decide_eq_true fun h0 => name.2.1 (h0 ▸ hb)
  have hslice : slice mem p p4MaxNameLen =
      name.1 ++ [0] ++ slice mem (p + (name.1 ++ [0]).length) k := by
    show slice mem p 128 = _
    rw [hk, slice_add, h]
  rw [cString, hslice, List.append_assoc, List.takeWhile_append_of_pos hnul]
  simp

theorem fieldMatchAt_of_holds {mem : Buffer} {p : ℕ} {m : FieldMatch}
    (h : Holds mem p (m.record hostBytes).2) : FieldMatchAt mem p m := by
  obtain ⟨htype, hname, hnumber, hrest⟩ := (holds_cons.trans (and_congr_right'
    (holds_cons.trans (and_congr_right' holds_cons)))).mp h
  rw [length_hostBytes] at htype hnumber
  exact ⟨number_of_slice htype m.type.code_lt, cString_of_slice _ hname,
    number_of_slice hnumber m.number.2, hrest⟩

theorem actionParameterAt_of_holds {mem : Buffer} {p : ℕ} {ap : ActionParameter}
    (h : Holds mem p (ap.record hostBytes).2) : ActionParameterAt mem p ap := by
  obtain ⟨hname, hbitmap, hlength, -⟩ := (holds_cons.trans (and_congr_right'
    (holds_cons.trans (and_congr_right' holds_cons)))).mp h
  rw [length_hostBytes] at hlength
  exact ⟨cString_of_slice _ hname, number_of_slice hlength ap.length.2, hbitmap⟩

/-! ### The loops -/

/-- A function that swaps the number in a record back, and knows its size. -/
structure Unpacks {α : Type} (conv : ℕ → Traced Byte → ℕ × Traced Byte)
    (record record' : α → ℕ × List (Write Byte)) : Prop where
  size : ∀ x p t, Holds t.mem p (record x).2 → (conv p t).1 = (record x).1
  holds : ∀ x p t, Holds t.mem p (record x).2 → Holds (conv p t).2.mem p (record' x).2
  frame : ∀ x p t i, Holds t.mem p (record x).2 → i < p ∨ p + (record x).1 ≤ i →
    (conv p t).2.mem i = t.mem i
  inBounds : ∀ x, InBounds (record x).2 (record x).1
  inBounds' : ∀ x, InBounds (record' x).2 (record x).1

/-- The loop finds the records one after the other, and puts their places into the array. -/
theorem Unpacks.unpackAll {α : Type} {conv : ℕ → Traced Byte → ℕ × Traced Byte}
    {record record' : α → ℕ × List (Write Byte)} (h : Unpacks conv record record')
    (store : P4CtrlMsg → ℕ → ℕ → P4CtrlMsg) (get : P4CtrlMsg → ℕ → ℕ)
    (hstore : ∀ c i p, get (store c i p) = Function.update (get c) i p) {xs : List α}
    {buffer i offset : ℕ} {d : Decoding}
    (hholds : HoldsAll d.msg.mem (buffer + offset) (xs.map record)) :
    (unpackAll conv store buffer xs.length i offset d).1 = offset + widths (xs.map record) ∧
      (∀ j x, xs[j]? = some x →
        get (unpackAll conv store buffer xs.length i offset d).2.ctrl (i + j) + (record x).1 ≤
            buffer + offset + widths (xs.map record) ∧
          Holds (unpackAll conv store buffer xs.length i offset d).2.msg.mem
            (get (unpackAll conv store buffer xs.length i offset d).2.ctrl (i + j)) (record' x).2) ∧
      (∀ k, k < buffer + offset ∨ buffer + offset + widths (xs.map record) ≤ k →
        (unpackAll conv store buffer xs.length i offset d).2.msg.mem k = d.msg.mem k) ∧
      ∀ j < i, get (unpackAll conv store buffer xs.length i offset d).2.ctrl j = get d.ctrl j := by
  induction xs generalizing i offset d with
  | nil => exact ⟨rfl, fun j x hx => absurd hx (by simp), fun _ _ => rfl, fun _ _ => rfl⟩
  | cons x xs ih =>
    obtain ⟨hx, hxs⟩ := hholds
    have hsize := h.size x _ d.msg hx
    have hframe := fun k => h.frame x _ d.msg k hx
    -- Converting the first record does not touch the others behind it.
    have hrest : HoldsAll (conv (buffer + offset) d.msg).2.mem
        (buffer + (offset + (record x).1)) (xs.map record) := by
      rw [← Nat.add_assoc]
      refine HoldsAll.congr hxs (List.forall_mem_map.mpr fun y _ => h.inBounds y) ?_
      intro k hlo _
      exact hframe k (.inr hlo)
    rw [List.length_cons, T4P4S.unpackAll, hsize]
    obtain ⟨hoffset, hplaces, hframe', hkeep⟩ := @ih (i + 1) (offset + (record x).1)
      ⟨store d.ctrl i (buffer + offset), (conv (buffer + offset) d.msg).2⟩ hrest
    set r := T4P4S.unpackAll conv store buffer xs.length (i + 1) (offset + (record x).1)
      ⟨store d.ctrl i (buffer + offset), (conv (buffer + offset) d.msg).2⟩ with hr
    rw [List.map_cons, widths_cons]
    refine ⟨?_, ?_, ?_, fun j hj => ?_⟩
    · rw [hoffset, Nat.add_assoc]
    · intro j y hy
      cases j with
      | zero =>
        obtain rfl : x = y := Option.some.inj hy
        -- The place of the first record is stored before the others are, and they keep it.
        have hplace : get r.2.ctrl (i + 0) = buffer + offset := by
          rw [Nat.add_zero, hkeep i (Nat.lt_succ_self i), hstore, Function.update_self]
        rw [hplace]
        refine ⟨by omega, ?_⟩
        refine (h.holds x _ d.msg hx).congr (h.inBounds' x) fun k _ hhi => hframe' k (.inl ?_)
        omega
      | succ j =>
        rw [show i + (j + 1) = i + 1 + j by omega]
        obtain ⟨hle, hy'⟩ := hplaces j y hy
        exact ⟨by omega, hy'⟩
    · intro k hk
      refine (hframe' k ?_).trans (hframe k ?_)
      · omega
      · omega
    · rw [hkeep j (by omega), hstore, Function.update_of_ne (Nat.ne_of_lt hj)]

theorem unpacks_fieldMatch : Unpacks netconvP4FieldMatchComplex (FieldMatch.record netBytes)
    (FieldMatch.record hostBytes) := by
  have hconv : ∀ (m : FieldMatch) p (t : Traced Byte), Holds t.mem p (m.record netBytes).2 →
      netconvP4FieldMatchComplex p t = (m.type.sizeof,
        netconvNumber (p + offMatchLength) 2 (t.read (p + offMatchType) 1).2) := by
    intro m p t h
    have htype := (holds_cons.mp h).1
    rw [length_hostBytes] at htype
    have hcode : FieldMatchType.ofCode (hostNat (slice t.mem (p + offMatchType) 1)) =
        some m.type := by
      rw [htype, hostNat_hostBytes, Nat.mod_eq_of_lt m.type.code_lt, FieldMatchType.ofCode_code]
    rw [netconvP4FieldMatchComplex, Traced.read_fst, hcode]
    cases m <;> rfl
  refine ⟨?_, ?_, ?_, fun m => m.inBounds _ length_netBytes, fun m => m.inBounds _ length_hostBytes⟩
  · intro m p t h
    rw [hconv m p t h]
    rfl
  · intro m p t h
    rw [hconv m p t h]
    exact m.netconv_holds length_netBytes reverse_netBytes h
  · intro m p t i h hi
    rw [hconv m p t h]
    refine netconvNumber_of_disjoint ?_
    have hsize := m.type.le_sizeof
    have hwidth : (m.record netBytes).1 = m.type.sizeof := rfl
    omega

theorem unpacks_actionParameter :
    Unpacks (fun p t => (sizeofP4ActionParameter, netconvP4ActionParameter p t))
      (ActionParameter.record netBytes) (ActionParameter.record hostBytes) := by
  refine ⟨fun _ _ _ _ => rfl, fun ap p t h => ?_, fun ap p t i h hi => ?_,
    fun ap => ap.inBounds _ length_netBytes, fun ap => ap.inBounds _ length_hostBytes⟩
  · exact ap.netconv_holds length_netBytes reverse_netBytes h
  · exact converts_actionParameter.frame ap p t i hi

/-! ### The handlers -/

section Handle

variable {tableName actionName : P4Name} {aps : ActionParameters} {buffer offset : ℕ} {d : Decoding}
  (h : HoldsAll d.msg.mem (buffer + offset) (aps.1.map (ActionParameter.record netBytes)))

include h

/-- The loop over the parameters leaves alone what lies in front of them. -/
theorem unpackActionParams_frame {k : ℕ} (hk : k < buffer + offset) :
    (unpackActionParams buffer aps.1.length 0 offset d).2.msg.mem k = d.msg.mem k :=
  (unpacks_actionParameter.unpackAll storeActionParam P4CtrlMsg.actionParams (fun _ _ _ => rfl)
    (i := 0) h).2.2.1 k (.inl hk)

theorem unpackActionParams_decoded {type : ℕ} (htype : d.ctrl.type = type)
    (htable : slice d.msg.mem d.ctrl.tableName (tableName.1 ++ [0]).length = tableName.1 ++ [0])
    (htable' : d.ctrl.tableName + p4MaxNameLen ≤ buffer + offset)
    (haction : slice d.msg.mem d.ctrl.actionName (actionName.1 ++ [0]).length =
      actionName.1 ++ [0])
    (haction' : d.ctrl.actionName + p4MaxNameLen ≤ buffer + offset)
    (hnum : d.ctrl.numActionParams = aps.1.length) :
    ActionDecoded (unpackActionParams buffer aps.1.length 0 offset d).2 type tableName actionName
      aps.1 := by
  have hframe := fun k => @unpackActionParams_frame aps buffer offset d h k
  have hctrl := fun g hg => @unpackAll_ctrl ℕ g
    (fun p t => (sizeofP4ActionParameter, netconvP4ActionParameter p t)) storeActionParam hg buffer
    aps.1.length 0 offset d
  -- The names lie in front of the parameters, so the conversion leaves them as they are.
  have hstring : ∀ p (name : P4Name), p + p4MaxNameLen ≤ buffer + offset →
      slice d.msg.mem p (name.1 ++ [0]).length = name.1 ++ [0] →
      cString (unpackActionParams buffer aps.1.length 0 offset d).2.msg.mem p = name.1 := by
    intro p name hp hname
    refine cString_of_slice name ((slice_congr fun i hi => hframe (p + i) ?_).trans hname)
    have hlen := P4Name.length_lt name
    unfold p4MaxNameLen at hp
    omega
  refine ⟨?_, ?_, ?_, ?_, ?_⟩
  · exact (hctrl P4CtrlMsg.type fun _ _ _ => rfl).trans htype
  · rw [show (unpackActionParams buffer aps.1.length 0 offset d).2.ctrl.tableName = d.ctrl.tableName
      from hctrl P4CtrlMsg.tableName fun _ _ _ => rfl]
    exact hstring _ _ htable' htable
  · rw [show (unpackActionParams buffer aps.1.length 0 offset d).2.ctrl.actionName =
      d.ctrl.actionName from hctrl P4CtrlMsg.actionName fun _ _ _ => rfl]
    exact hstring _ _ haction' haction
  · exact (hctrl P4CtrlMsg.numActionParams fun _ _ _ => rfl).trans hnum
  · intro i ap hap
    have hap' := ((unpacks_actionParameter.unpackAll storeActionParam P4CtrlMsg.actionParams
      (fun _ _ _ => rfl) (i := 0) h).2.1 i ap hap).2
    rw [Nat.zero_add] at hap'
    exact actionParameterAt_of_holds hap'

end Handle

theorem hostNat_slice {mem : Buffer} {off n v : ℕ} (h : slice mem off n = hostBytes n v)
    (hv : v < 256 ^ n) : hostNat (slice mem off n) = v := number_of_slice h hv

theorem UpTo.length_lt {n : ℕ} {α : Type} (hn : n < 256) (l : UpTo n α) : l.1.length < 256 ^ 1 :=
  l.2.trans_lt hn

/-- `handle_p4_set_default_action`, once the header is in host order. -/
theorem handleP4SetDefaultAction_decoded {len : ℕ} {tableName actionName : P4Name}
    {aps : ActionParameters} {d : Decoding}
    (h : HoldsAll d.msg.mem 0 ((sizeofP4SetDefaultAction,
      headerFields hostBytes p4tSetDefaultAction len tableName ++
        shift offAction (actionFields actionName aps.1.length)) ::
      aps.1.map (ActionParameter.record netBytes))) :
    (handleP4SetDefaultAction d).1 = 0 ∧
      Decoded (handleP4SetDefaultAction d).2 (.setDefaultAction tableName actionName aps) := by
  obtain ⟨hfields, haps⟩ := h
  obtain ⟨hheader, haction⟩ := holds_append.mp hfields
  rw [holds_shift] at haction
  simp only [headerFields, actionFields, holds_cons, holds_nil, and_true, Nat.zero_add,
    length_hostBytes] at hheader haction haps
  have htype : hostNat (slice d.msg.mem offType 1) = p4tSetDefaultAction :=
    hostNat_slice hheader.1 (by decide)
  have hsize : hostNat (slice d.msg.mem (offAction + offParamSize) 1) = aps.1.length :=
    hostNat_slice haction.2 (aps.length_lt (by decide))
  have hfew : ¬ p4MaxNumberOfActionParameters < aps.1.length := Nat.not_lt.mpr aps.2
  simp only [handleP4SetDefaultAction, Decoding.number, Traced.read_fst, Traced.read_mem, htype,
    hsize, if_neg hfew]
  refine ⟨trivial, unpackActionParams_decoded haps rfl hheader.2.2 ?_ haction.1 ?_ rfl⟩
  · exact (by decide : offTableName + p4MaxNameLen ≤ sizeofP4SetDefaultAction + 0)
  · exact (by decide : offAction + offActionName + p4MaxNameLen ≤ sizeofP4SetDefaultAction + 0)

/-- The part behind the matches. -/
theorem handleEntryAction_decoded {offset : ℕ} {tableName actionName : P4Name}
    {aps : ActionParameters} {ms : List FieldMatch} {d : Decoding}
    (haction : Holds d.msg.mem (sizeofP4AddTableEntry + offset)
      (actionFields actionName aps.1.length))
    (haps : HoldsAll d.msg.mem (sizeofP4AddTableEntry + (offset + sizeofP4Action))
      (aps.1.map (ActionParameter.record netBytes)))
    (htype : d.ctrl.type = p4tAddTableEntry) (htableName : d.ctrl.tableName = offTableName)
    (htable : slice d.msg.mem offTableName (tableName.1 ++ [0]).length = tableName.1 ++ [0])
    (hnum : d.ctrl.numFieldMatches = ms.length)
    (hms : ∀ i m, ms[i]? = some m →
      d.ctrl.fieldMatches i + m.type.sizeof ≤ sizeofP4AddTableEntry + offset ∧
        Holds d.msg.mem (d.ctrl.fieldMatches i) (m.record hostBytes).2) :
    (handleEntryAction offset d).1 = 0 ∧
      ActionDecoded (handleEntryAction offset d).2 p4tAddTableEntry tableName actionName aps.1 ∧
      MatchesDecoded (handleEntryAction offset d).2 ms := by
  simp only [actionFields, holds_cons, holds_nil, and_true, length_hostBytes] at haction
  have hsize : hostNat (slice d.msg.mem (sizeofP4AddTableEntry + offset + offParamSize) 1) =
      aps.1.length := hostNat_slice haction.2 (aps.length_lt (by decide))
  have hfew : ¬ p4MaxNumberOfActionParameters < aps.1.length := Nat.not_lt.mpr aps.2
  simp only [handleEntryAction, Decoding.number, Traced.read_fst, Traced.read_mem, hsize,
    if_neg hfew]
  set d₁ : Decoding :=
    { ctrl := { d.ctrl with
        actionType := hostNat (slice d.msg.mem (sizeofP4AddTableEntry + offset) 1)
        actionName := sizeofP4AddTableEntry + offset + offActionName
        numActionParams := aps.1.length }
      msg := ((d.msg.read (sizeofP4AddTableEntry + offset) 1).2.read
        (sizeofP4AddTableEntry + offset + offParamSize) 1).2 } with hd₁
  have haps₁ : HoldsAll d₁.msg.mem (sizeofP4AddTableEntry + (offset + sizeofP4Action))
      (aps.1.map (ActionParameter.record netBytes)) := haps
  refine ⟨trivial, ?_, ?_⟩
  · refine unpackActionParams_decoded haps₁ htype ?_ ?_ haction.1 ?_ rfl
    · rw [← htableName] at htable
      exact htable
    · show d.ctrl.tableName + p4MaxNameLen ≤ _
      rw [htableName]
      exact (by decide : offTableName + p4MaxNameLen ≤ sizeofP4AddTableEntry).trans
        (Nat.le_add_right ..)
    · show sizeofP4AddTableEntry + offset + offActionName + p4MaxNameLen ≤ _
      have hname : offActionName + p4MaxNameLen ≤ sizeofP4Action := by decide
      omega
  · have hctrl := fun γ g hg => @unpackAll_ctrl γ g
      (fun p t => (sizeofP4ActionParameter, netconvP4ActionParameter p t)) storeActionParam hg
      sizeofP4AddTableEntry aps.1.length 0 (offset + sizeofP4Action) d₁
    refine ⟨(hctrl ℕ P4CtrlMsg.numFieldMatches fun _ _ _ => rfl).trans hnum,
      fun i m hm => fieldMatchAt_of_holds ?_⟩
    obtain ⟨hle, hm'⟩ := hms i m hm
    rw [unpackActionParams, hctrl (ℕ → ℕ) P4CtrlMsg.fieldMatches fun _ _ _ => rfl]
    -- The matches lie in front of the action, and only the parameters behind it are converted.
    refine Holds.congr hm' (m.inBounds _ length_hostBytes) ?_
    intro k _ hhi
    have hhi' : k < sizeofP4AddTableEntry + (offset + sizeofP4Action) := by
      have hwidth : (m.record hostBytes).1 = m.type.sizeof := rfl
      have hfieldMatches : d₁.ctrl.fieldMatches i = d.ctrl.fieldMatches i := rfl
      omega
    exact unpackActionParams_frame haps₁ hhi'

/-- `handle_p4_add_table_entry`, once the header is in host order. -/
theorem handleP4AddTableEntry_decoded {len : ℕ} {tableName actionName : P4Name}
    {ms : UpTo p4MaxNumberOfFieldMatches FieldMatch} {aps : ActionParameters} {d : Decoding}
    (h : HoldsAll d.msg.mem 0 ((sizeofP4AddTableEntry,
      headerFields hostBytes p4tAddTableEntry len tableName ++
        [⟨offReadSize, hostBytes 1 ms.1.length⟩]) ::
      (ms.1.map (FieldMatch.record netBytes) ++
        (sizeofP4Action, actionFields actionName aps.1.length) ::
          aps.1.map (ActionParameter.record netBytes)))) :
    (handleP4AddTableEntry d).1 = 0 ∧
      Decoded (handleP4AddTableEntry d).2 (.addTableEntry tableName ms actionName aps) := by
  obtain ⟨hfields, hrest⟩ := h
  obtain ⟨hms, haction, haps⟩ := holdsAll_append.mp hrest
  obtain ⟨hheader, hcount⟩ := holds_append.mp hfields
  simp only [headerFields, holds_cons, holds_nil, and_true, Nat.zero_add, length_hostBytes]
    at hheader hcount hms haction haps
  have htype : hostNat (slice d.msg.mem offType 1) = p4tAddTableEntry :=
    hostNat_slice hheader.1 (by decide)
  have hsize : hostNat (slice d.msg.mem offReadSize 1) = ms.1.length :=
    hostNat_slice hcount (ms.length_lt (by decide))
  have hfew : ¬ p4MaxNumberOfFieldMatches < ms.1.length := Nat.not_lt.mpr ms.2
  simp only [handleP4AddTableEntry, Decoding.number, Traced.read_fst, Traced.read_mem, htype,
    hsize, if_neg hfew]
  set d₁ : Decoding :=
    { ctrl := { d.ctrl with
        type := p4tAddTableEntry, xid := hostNat (slice d.msg.mem offXid 4)
        tableName := offTableName, numFieldMatches := ms.1.length }
      msg := ((((d.msg.read offType 1).2).read offXid 4).2.read offReadSize 1).2 } with hd₁
  have hms₁ : HoldsAll d₁.msg.mem (sizeofP4AddTableEntry + 0)
      (ms.1.map (FieldMatch.record netBytes)) := hms
  obtain ⟨hoffset, hplaces, hframe, -⟩ := unpacks_fieldMatch.unpackAll storeFieldMatch
    P4CtrlMsg.fieldMatches (fun _ _ _ => rfl) (i := 0) hms₁
  have hctrl := fun g hg => @unpackAll_ctrl ℕ g netconvP4FieldMatchComplex storeFieldMatch hg
    sizeofP4AddTableEntry ms.1.length 0 0 d₁
  rw [unpackFieldMatches]
  set walk := unpackAll netconvP4FieldMatchComplex storeFieldMatch sizeofP4AddTableEntry
    ms.1.length 0 0 d₁ with hwalk
  rw [Nat.zero_add] at hoffset
  -- The walk ends where the action is, which it has left as it was.
  refine handleEntryAction_decoded ?_ ?_ ?_ ?_ ?_ ?_ ?_
  · rw [hoffset]
    refine haction.congr (inBounds_actionFields _ _) fun k hlo _ => hframe k (.inr hlo)
  · rw [hoffset, ← Nat.add_assoc]
    refine haps.congr (List.forall_mem_map.mpr fun ap _ => ap.inBounds _ length_netBytes)
      fun k hlo _ => hframe k (.inr ?_)
    omega
  · exact hctrl P4CtrlMsg.type fun _ _ _ => rfl
  · exact hctrl P4CtrlMsg.tableName fun _ _ _ => rfl
  · refine (slice_congr fun i hi => hframe (offTableName + i) (.inl ?_)).trans hheader.2.2
    have hlen := P4Name.length_lt tableName
    simp only [offTableName, sizeofP4AddTableEntry]
    omega
  · exact hctrl P4CtrlMsg.numFieldMatches fun _ _ _ => rfl
  · intro i m hm
    obtain ⟨hle, hm'⟩ := hplaces i m hm
    rw [Nat.zero_add] at hle hm'
    rw [hoffset]
    exact ⟨hle, hm'⟩

/-- The header of a message from the network. -/
theorem handleP4Msg_header {n type len length : ℕ} (hn : sizeofP4Header ≤ n)
    (hlen : sizeofP4Header ≤ len) (hlen' : len < 2 ^ 16) (hlength : len ≤ length)
    (htype : type < 256) {tableName : P4Name} {rest : List (Write Byte)}
    (hrest : ∀ w ∈ rest, sizeofP4Header ≤ w.off) {rs : List (ℕ × List (Write Byte))}
    (hrs : ∀ r ∈ rs, InBounds r.2 r.1) {buffer : Buffer}
    (h : HoldsAll buffer 0 ((n, headerFields netBytes type len tableName ++ rest) :: rs))
    (ctrl : P4CtrlMsg) :
    ∃ d : Decoding, handleP4Msg ctrl buffer length = switchType type d ∧
      HoldsAll d.msg.mem 0 ((n, headerFields hostBytes type len tableName ++ rest) :: rs) := by
  have hall : HoldsAll (netconvP4Header 0 ⟨buffer, []⟩).mem 0
      ((n, headerFields hostBytes type len tableName ++ rest) :: rs) := by
    refine ⟨netconvP4Header_holds (length_netBytes ..) (reverse_netBytes ..).symm hrest h.1, ?_⟩
    exact HoldsAll.congr h.2 hrs fun i hlo _ => netconvP4Header_frame (by omega)
  have hheader := (holds_append.mp hall.1).1
  simp only [headerFields, holds_cons, holds_nil, and_true, Nat.zero_add, length_hostBytes]
    at hheader
  have hmsglen : hostNat (slice (netconvP4Header 0 ⟨buffer, []⟩).mem offLength 2) = len :=
    hostNat_slice hheader.2.1 hlen'
  have htype' : hostNat (slice (netconvP4Header 0 ⟨buffer, []⟩).mem offType 1) = type :=
    hostNat_slice hheader.1 htype
  rw [handleP4Msg, if_neg (Nat.not_lt.mpr (hlen.trans hlength))]
  simp only [Decoding.number, Traced.read_fst, Traced.read_mem, hmsglen, htype',
    if_neg (Nat.not_lt.mpr hlength)]
  exact ⟨_, rfl, hall⟩

/-- **What a controller sends is what the callback is given.** -/
theorem handleP4Msg_buildMsg {maxlength length : ℕ} (hmax : maxlength < 2 ^ 16)
    {buffer buffer' : Buffer} {req : CtrlRequest} (h : buildMsg maxlength buffer req = some buffer')
    (hlength : req.length ≤ length) (ctrl : P4CtrlMsg) :
    (handleP4Msg ctrl buffer' length).rval = 0 ∧ (handleP4Msg ctrl buffer' length).called = true ∧
      Decoded (handleP4Msg ctrl buffer' length).decoding req := by
  -- What was built is on the wire in network order, and the header is the first to be read.
  obtain ⟨hroom, hwire⟩ := buildMsg_wire hmax h
  have hlen' : req.length < 2 ^ 16 := hroom.trans_lt hmax
  cases req with
  | addTableEntry tableName ms actionName aps =>
    have hlen : sizeofP4AddTableEntry ≤
        (CtrlRequest.addTableEntry tableName ms actionName aps).length := by
      simp only [CtrlRequest.length]
      omega
    have hrecords : ∀ r ∈ ms.1.map (FieldMatch.record netBytes) ++
        (sizeofP4Action, actionFields actionName aps.1.length) ::
          aps.1.map (ActionParameter.record netBytes), InBounds r.2 r.1 := by
      refine List.forall_mem_append.mpr ⟨?_, List.forall_mem_cons.mpr ⟨?_, ?_⟩⟩
      · exact List.forall_mem_map.mpr fun m _ => m.inBounds _ length_netBytes
      · exact inBounds_actionFields _ _
      · exact List.forall_mem_map.mpr fun ap _ => ap.inBounds _ length_netBytes
    obtain ⟨d, hd, hall⟩ := handleP4Msg_header (by decide) (le_trans (by decide) hlen) hlen' hlength
      (by decide) (List.forall_mem_singleton.mpr (by decide : sizeofP4Header ≤ offReadSize))
      hrecords hwire ctrl
    obtain ⟨hrval, hdecoded⟩ := handleP4AddTableEntry_decoded hall
    rw [hd, switchType, if_neg (by decide), if_pos rfl]
    simp only [hrval]
    exact ⟨rfl, rfl, hdecoded⟩
  | setDefaultAction tableName actionName aps =>
    have hlen : sizeofP4SetDefaultAction ≤
        (CtrlRequest.setDefaultAction tableName actionName aps).length := Nat.le_add_right ..
    have haction : ∀ w ∈ shift offAction (actionFields actionName aps.1.length),
        sizeofP4Header ≤ w.off := by
      simp only [shift, actionFields, List.map_cons, List.map_nil, List.forall_mem_cons]
      exact ⟨by decide, by decide, fun w hw => absurd hw List.not_mem_nil⟩
    obtain ⟨d, hd, hall⟩ := handleP4Msg_header (by decide) (le_trans (by decide) hlen) hlen' hlength
      (by decide) haction
      (List.forall_mem_map.mpr fun ap _ => ActionParameter.inBounds _ length_netBytes ap) hwire ctrl
    obtain ⟨hrval, hdecoded⟩ := handleP4SetDefaultAction_decoded hall
    rw [hd, switchType, if_pos rfl]
    simp only [hrval]
    exact ⟨rfl, rfl, hdecoded⟩

/-- The request to send a packet with the destination 10 to port 1. -/
def forwardRequest : CtrlRequest :=
  .addTableEntry ⟨[109], by decide⟩ ⟨[.exact ⟨[100], by decide⟩ 8 ⟨[10], by decide⟩], by decide⟩
    ⟨[102], by decide⟩ ⟨[⟨⟨[112], by decide⟩, 8, ⟨[1], by decide⟩⟩], by decide⟩

/-- It goes through a buffer of 2048 bytes. -/
theorem handleP4Msg_forwardRequest : ∃ buffer', buildMsg 2048 (fun _ => 0) forwardRequest =
      some buffer' ∧ (handleP4Msg default buffer' 2048).rval = 0 ∧
    (handleP4Msg default buffer' 2048).called = true ∧
    Decoded (handleP4Msg default buffer' 2048).decoding forwardRequest := by
  have hbuilt : (buildMsg 2048 (fun _ => 0) forwardRequest).isSome := by decide +kernel
  obtain ⟨buffer', h⟩ := Option.isSome_iff_exists.mp hbuilt
  exact ⟨buffer', h, handleP4Msg_buildMsg (by decide) h (by decide) default⟩

end T4P4S
