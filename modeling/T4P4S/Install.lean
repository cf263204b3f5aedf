/-
Installing what a controller asks for.

A request is made into a message, read into a memory cell, and decoded there; the
callback looks the table and the action up by their names and takes the key and the
parameters from the places that the decoder found.

* **`handleCell_change`** — what is done to the tables is the change that the controller
  asked for, whatever was in the memory before;
* **`serves_requests`** — so it is for all requests on the controller's connection.
-/
import T4P4S.ControlPlane
import T4P4S.MemCells
import T4P4S.RoundTrip
import T4P4S.SockHelpers

open ByteString

namespace T4P4S

/-! ### From the controller to the cell -/

theorem inBounds_records (req : CtrlRequest) : ∀ r ∈ req.records netBytes, InBounds r.2 r.1 := by
  cases req with
  | addTableEntry tableName ms actionName aps =>
    refine List.forall_mem_cons.mpr ⟨inBounds_entryFields _ _ _ _, List.forall_mem_append.mpr
      ⟨?_, List.forall_mem_cons.mpr ⟨inBounds_actionFields _ _, ?_⟩⟩⟩
    · exact List.forall_mem_map.mpr fun m _ => m.inBounds _ length_netBytes
    · exact List.forall_mem_map.mpr fun ap _ => ap.inBounds _ length_netBytes
  | setDefaultAction tableName actionName aps =>
    exact List.forall_mem_cons.mpr ⟨inBounds_defaultFields _ _ _ _ _,
      List.forall_mem_map.mpr fun ap _ => ap.inBounds _ length_netBytes⟩

theorem widths_params (aps : List ActionParameter) :
    widths (aps.map (ActionParameter.record netBytes)) =
      widths (aps.map (ActionParameter.record hostBytes)) := by
  rw [widths, widths, List.map_map, List.map_map]
  rfl

/-- The records of a message take as much room as its header says. -/
theorem widths_records (req : CtrlRequest) : widths (req.records netBytes) = req.length := by
  cases req with
  | addTableEntry tableName ms actionName aps =>
    rw [CtrlRequest.records, widths_cons, widths, List.map_append, List.sum_append]
    show _ + (widths (ms.1.map (FieldMatch.record netBytes)) + (sizeofP4Action +
      widths (aps.1.map (ActionParameter.record netBytes)))) = _
    rw [widths_fieldMatch netBytes hostBytes, widths_params, CtrlRequest.length]
    omega
  | setDefaultAction tableName actionName aps =>
    rw [CtrlRequest.records, widths_cons, widths_params]
    rfl

/-- The cell holds the message of the request. -/
structure Received (req : CtrlRequest) (cell : Buffer) : Prop where
  length_lt : req.length < 2 ^ 16
  holds : HoldsAll cell 0 (req.records netBytes)

/-- Only the bytes of the message count. -/
theorem Received.congr {req : CtrlRequest} {cell cell' : Buffer} (h : Received req cell)
    (hcell : slice cell' 0 req.length = slice cell 0 req.length) : Received req cell' := by
  refine ⟨h.length_lt, h.holds.congr (inBounds_records req) fun i _ hi => ?_⟩
  rw [widths_records, Nat.zero_add] at hi
  have hget := congrArg (·[i]?) hcell
  simpa [slice, hi] using hget

/-- A controller makes such a message. -/
theorem received_of_built {req : CtrlRequest} {maxlength : ℕ} {buffer buffer' : Buffer}
    (hmax : maxlength < 2 ^ 16) (hbuilt : buildMsg maxlength buffer req = some buffer') :
    Received req buffer' := by
  obtain ⟨hroom, hwire⟩ := buildMsg_wire hmax hbuilt
  exact ⟨hroom.trans_lt hmax, hwire⟩

/-- The dataplane decodes a message that is in the cell, whatever is behind it. -/
theorem Received.decoded {req : CtrlRequest} {cell : Buffer} (h : Received req cell) {length : ℕ}
    (hlength : req.length ≤ length) (ctrl : P4CtrlMsg) :
    (handleP4Msg ctrl cell length).called = true ∧
      Decoded (handleP4Msg ctrl cell length).decoding req := by
  obtain ⟨hlen', hwire⟩ := h
  have hbounds := inBounds_records req
  cases req with
  | addTableEntry tableName ms actionName aps =>
    have hlen : sizeofP4AddTableEntry ≤
        (CtrlRequest.addTableEntry tableName ms actionName aps).length := by
      simp only [CtrlRequest.length]
      omega
    obtain ⟨d, hd, hall⟩ := handleP4Msg_header (by decide) (le_trans (by decide) hlen) hlen' hlength
      (by decide) (List.forall_mem_singleton.mpr (by decide : sizeofP4Header ≤ offReadSize))
      (List.forall_mem_cons.mp hbounds).2 hwire ctrl
    obtain ⟨hrval, hdecoded⟩ := handleP4AddTableEntry_decoded hall
    rw [hd, switchType, if_neg (by decide), if_pos rfl]
    simp only [hrval]
    exact ⟨rfl, hdecoded⟩
  | setDefaultAction tableName actionName aps =>
    have hlen : sizeofP4SetDefaultAction ≤
        (CtrlRequest.setDefaultAction tableName actionName aps).length := Nat.le_add_right ..
    have haction : ∀ w ∈ shift offAction (actionFields actionName aps.1.length),
        sizeofP4Header ≤ w.off :=
      List.forall_mem_map.mpr fun w _ => (by decide : sizeofP4Header ≤ offAction).trans
        (Nat.le_add_right ..)
    obtain ⟨d, hd, hall⟩ := handleP4Msg_header (by decide) (le_trans (by decide) hlen) hlen' hlength
      (by decide) haction (List.forall_mem_cons.mp hbounds).2 hwire ctrl
    obtain ⟨hrval, hdecoded⟩ := handleP4SetDefaultAction_decoded hall
    rw [hd, switchType, if_pos rfl]
    simp only [hrval]
    exact ⟨rfl, hdecoded⟩

/-! ### Names -/

/-- The bytes of a name of the program. -/
def nameBytes (name : String) : List Byte := name.toList.map fun c => BitVec.ofNat 8 c.toNat

/-- The string is the bytes in front of the first zero. -/
theorem slice_of_cString {mem : Buffer} {p : ℕ} {name : P4Name} (h : cString mem p = name.1) :
    slice mem p (name.1.length + 1) = name.1 ++ [0] := by
  have hlen : name.1.length < 128 := name.2.2
  obtain ⟨k, hk⟩ := Nat.exists_eq_add_of_le hlen
  have hsplit : slice mem p p4MaxNameLen =
      slice mem p name.1.length ++ mem (p + name.1.length) :: slice mem (p + (name.1.length + 1)) k := by
    show slice mem p 128 = _
    rw [hk, slice_add, Nat.succ_eq_add_one, slice_add, List.append_assoc]
    rfl
  have hfirst : slice mem p name.1.length = name.1 := by
    have hprefix := List.takeWhile_prefix (l := slice mem p p4MaxNameLen) (· ≠ 0)
    have hname : (slice mem p p4MaxNameLen).takeWhile (· ≠ 0) = name.1 := h
    rw [hname, hsplit] at hprefix
    have htake := List.prefix_iff_eq_take.mp hprefix
    rw [List.take_left' (length_slice ..)] at htake
    exact htake.symm
  have hlast : mem (p + name.1.length) = 0 := by
    by_contra hne
    have hall : ∀ b ∈ name.1, decide (b ≠ 0) = true := fun b hb =>
      decide_eq_true fun h0 => name.2.1 (h0 ▸ hb)
    have hlonger : (cString mem p).length = name.1.length := by rw [h]
    rw [cString, hsplit, hfirst, List.takeWhile_append_of_pos hall,
      List.takeWhile_cons, if_pos (decide_eq_true hne), List.length_append, List.length_cons] at hlonger
    omega
  rw [slice_add, hfirst]
  exact congrArg (fun b => name.1 ++ [b]) hlast

/-- `strcmp` compares the names. -/
theorem strcmpEq_iff {mem : Buffer} {p : ℕ} {name : P4Name} (h : cString mem p = name.1)
    {n : String} (hn : 0 ∉ nameBytes n) : strcmpEq n mem p = true ↔ nameBytes n = name.1 := by
  have hstring := slice_of_cString h
  have hdef : strcmpEq n mem p =
      decide (slice mem p ((nameBytes n).length + 1) = nameBytes n ++ [0]) := rfl
  rw [hdef, decide_eq_true_iff]
  constructor
  · intro heq
    -- Of two strings at one place the shorter one ends first.
    rcases Nat.lt_trichotomy (nameBytes n).length name.1.length with hlt | hlen | hlt
    · obtain ⟨k, hk⟩ := Nat.exists_eq_add_of_le hlt
      have hle : name.1.length + 1 = (nameBytes n).length + 1 + (k + 1) := by omega
      rw [hle, slice_add, heq, List.append_assoc] at hstring
      have hzero : name.1[(nameBytes n).length]? = some 0 := by
        have hget := congrArg (·[(nameBytes n).length]?) hstring
        rw [List.getElem?_append_right le_rfl, Nat.sub_self, List.getElem?_append_left hlt] at hget
        exact hget.symm
      exact absurd (List.mem_of_getElem? hzero) name.2.1
    · rw [hlen, hstring] at heq
      exact (List.append_cancel_right heq).symm
    · obtain ⟨k, hk⟩ := Nat.exists_eq_add_of_le hlt
      have hle : (nameBytes n).length + 1 = name.1.length + 1 + (k + 1) := by omega
      rw [hle, slice_add, hstring, List.append_assoc] at heq
      have hzero : (nameBytes n)[name.1.length]? = some 0 := by
        have hget := congrArg (·[name.1.length]?) heq
        rw [List.getElem?_append_right le_rfl, Nat.sub_self, List.getElem?_append_left hlt] at hget
        exact hget.symm
      exact absurd (List.mem_of_getElem? hzero) hn
  · intro heq
    rw [heq]
    exact hstring

/-- The only element that fits is the one that is found. -/
theorem find?_eq_some_of_unique {α : Type*} {l : List α} {p : α → Bool} {a : α} (ha : a ∈ l)
    (hp : p a = true) (hunique : ∀ b ∈ l, p b = true → b = a) : l.find? p = some a := by
  obtain ⟨b, hb⟩ := Option.isSome_iff_exists.mp (List.find?_isSome.mpr ⟨a, ha, hp⟩)
  rw [hb, hunique b (List.mem_of_find?_eq_some hb) (List.find?_some hb)]

/-- Names that `strcmp` can tell apart. -/
structure Distinct (names : List String) : Prop where
  nodup : (names.map nameBytes).Nodup
  terminated : ∀ n ∈ names, 0 ∉ nameBytes n

/-! ### Changes of a table -/

/-- A field of the key and what a rule says about it; the length counts in an lpm match only. -/
structure MatchSlot where
  type : LookupType
  elem : KeyElement
  value : ℕ
  prefixLength : ℕ

namespace MatchSlot

def part (s : MatchSlot) : KeyPart := ⟨s.elem.matchOrder, s.type, .field s.elem⟩

def received (s : MatchSlot) : KeyElement × List Byte := (s.elem, s.elem.bitmap s.value)

/-- What the depth is computed from. -/
def keyMatch (s : MatchSlot) : KeyElement × KeyMatch ℕ :=
  (s.elem, if s.type = .lpm then .lpm s.prefixLength else .exact)

/-- The match of a message that says the same. -/
inductive Sends (s : MatchSlot) : FieldMatch → Prop
  | exact (name : P4Name) (length : Fin (2 ^ 16)) (bitmap : Bitmap maxFieldLength)
      (htype : s.type = .exact) (hbitmap : s.elem.bitmap s.value <+: bitmap.1) :
      Sends s (.exact name length bitmap)
  | lpm (name : P4Name) (prefixLength : Fin (2 ^ 16)) (bitmap : Bitmap maxFieldLength)
      (htype : s.type = .lpm) (hbitmap : s.elem.bitmap s.value <+: bitmap.1)
      (hlength : prefixLength = s.prefixLength) : Sends s (.lpm name prefixLength bitmap)

end MatchSlot

/-- An action with its arguments. -/
structure ActionCall where
  action : String
  args : List ActionArg

namespace ActionCall

variable (call : ActionCall)

/-- The entry with which the action body receives the arguments. -/
def entry : ActionEntry := ⟨some ⟨call.action⟩, call.args.map ActionArg.bytes⟩

/-- The table has the action, with parameters that fill their C types. -/
structure For (table : CtrlTable) : Prop where
  action : ⟨call.action, call.args.map ActionArg.param⟩ ∈ table.actions
  whole : ∀ a ∈ call.args, a.param.byteWidth = a.param.memberSize

/-- The name and the parameters of a message for it: the bitmaps begin with the arguments. -/
structure SentBy (actionName : P4Name) (aps : ActionParameters) : Prop where
  name : actionName.1 = nameBytes call.action
  args : List.Forall₂ (fun a ap => a.bytes.take a.param.byteWidth <+: ap.bitmap.1) call.args aps.1

end ActionCall

/-- What a controller wants of a table: a rule, with its matches in match order, or another
default action. -/
inductive TableChange
  | addRule (slots : List MatchSlot) (call : ActionCall)
  | setDefault (call : ActionCall)

namespace TableChange

/-- The table has the key and the action. -/
def For (table : CtrlTable) : TableChange → Prop
  | addRule slots call =>
    table.sortedKey = slots.map MatchSlot.part ∧ slots ≠ [] ∧ call.For table
  | setDefault call => call.For table

/-- A request for the change. -/
inductive AskedBy (table : CtrlTable) : TableChange → CtrlRequest → Prop
  | addRule (slots : List MatchSlot) (call : ActionCall) (tableName actionName : P4Name)
      (ms : UpTo p4MaxNumberOfFieldMatches FieldMatch) (aps : ActionParameters)
      (htable : tableName.1 = nameBytes table.name)
      (hms : List.Forall₂ MatchSlot.Sends slots ms.1) (hcall : call.SentBy actionName aps) :
      AskedBy table (.addRule slots call) (.addTableEntry tableName ms actionName aps)
  | setDefault (call : ActionCall) (tableName actionName : P4Name) (aps : ActionParameters)
      (htable : tableName.1 = nameBytes table.name) (hcall : call.SentBy actionName aps) :
      AskedBy table (.setDefault call) (.setDefaultAction tableName actionName aps)

/-- The call that changes the table so. -/
def tableCall (align : ℕ → ℕ) (table : CtrlTable) : TableChange → TableCall
  | addRule slots call =>
    .addPromote table.matchType (some (setupKeyFrom align 0 (slots.map MatchSlot.received)))
      (if table.matchType = .lpm then some (setupKeyDepth (slots.map MatchSlot.keyMatch)) else none)
      call.entry
  | setDefault call => .setdefaultPromote call.entry

end TableChange


/-! ### What the callback finds -/

section Callback

variable {prog : List CtrlTable} {table : CtrlTable} {tid : ℕ} {mem : Buffer} {ctrl : P4CtrlMsg}

theorem tableOf_eq (hnames : Distinct (prog.map CtrlTable.name)) (ht : prog[tid]? = some table)
    {name : P4Name} (h : cString mem ctrl.tableName = name.1)
    (heq : name.1 = nameBytes table.name) : tableOf prog mem ctrl = some (table, tid) := by
  have hterm : ∀ t ∈ prog, 0 ∉ nameBytes t.name := fun t ht =>
    hnames.terminated _ (List.mem_map_of_mem ht)
  refine find?_eq_some_of_unique (List.mem_zipIdx_iff_getElem?.mpr ht) ?_ ?_
  · exact (strcmpEq_iff h (hterm _ (List.mem_of_getElem? ht))).mpr heq.symm
  · rintro ⟨t, i⟩ hmem hcmp
    have hi : prog[i]? = some t := List.mem_zipIdx_iff_getElem?.mp hmem
    have hname : nameBytes t.name = nameBytes table.name :=
      ((strcmpEq_iff h (hterm _ (List.mem_of_getElem? hi))).mp hcmp).trans heq
    -- The names are distinct, so the places are the same.
    have hindex : ∀ {j : ℕ} {u : CtrlTable}, prog[j]? = some u →
        ((prog.map CtrlTable.name).map nameBytes)[j]? = some (nameBytes u.name) := by
      intro j u hj
      rw [List.getElem?_map, List.getElem?_map, hj]
      rfl
    obtain ⟨hlti, hgeti⟩ := List.getElem?_eq_some_iff.mp (hindex hi)
    obtain ⟨hltt, hgett⟩ := List.getElem?_eq_some_iff.mp (hindex ht)
    obtain rfl : i = tid :=
      hnames.nodup.getElem_inj_iff.mp ((hgeti.trans hname).trans hgett.symm)
    rw [hi] at ht
    rw [Option.some.inj ht]

theorem actionOf_eq (hnames : Distinct (table.actions.map ActionDecl.name)) {ao : ActionDecl}
    (hao : ao ∈ table.actions) {name : P4Name} (h : cString mem ctrl.actionName = name.1)
    (heq : name.1 = nameBytes ao.name) : table.actionOf mem ctrl = some ao := by
  have hterm : ∀ a ∈ table.actions, 0 ∉ nameBytes a.name := fun a ha =>
    hnames.terminated _ (List.mem_map_of_mem ha)
  refine find?_eq_some_of_unique hao ((strcmpEq_iff h (hterm _ hao)).mpr heq.symm) ?_
  intro b hb hcmp
  have hname : nameBytes b.name = nameBytes ao.name :=
    ((strcmpEq_iff h (hterm _ hb)).mp hcmp).trans heq
  have hnodup := hnames.nodup
  rw [List.map_map] at hnodup
  exact List.inj_on_of_nodup_map hnodup hb hao hname

/-- Bitmaps that begin with the arguments make the entry with them, whatever was in the
members before. -/
theorem messageEntry_eq {args : List ActionArg} {aps : List ActionParameter}
    (hwhole : ∀ a ∈ args, a.param.byteWidth = a.param.memberSize)
    (haps : List.Forall₂ (fun a ap => a.bytes.take a.param.byteWidth <+: ap.bitmap.1) args aps)
    (hmem : ∀ i ap, aps[i]? = some ap → ActionParameterAt mem (ctrl.actionParams i) ap)
    (name : String) (stack : ℕ → ℕ → Byte) :
    messageEntry mem ctrl stack ⟨name, args.map ActionArg.param⟩ =
      ⟨some ⟨name⟩, args.map ActionArg.bytes⟩ := by
  have hmembers : ∀ i, List.Forall₂ (fun a ap => a.bytes.take a.param.byteWidth <+: ap.bitmap.1)
      args aps → (∀ j ap, aps[j]? = some ap →
        ActionParameterAt mem (ctrl.actionParams (i + j)) ap) →
      paramMembers mem ctrl stack i (args.map ActionArg.param) = args.map ActionArg.bytes := by
    clear haps hmem
    intro i haps hmem
    induction haps generalizing i with
    | nil => rfl
    | @cons a ap args aps hprefix _ ih =>
      obtain ⟨ha, hargs⟩ := List.forall_mem_cons.mp hwhole
      have hat := hmem 0 ap rfl
      have htake : a.bytes.take a.param.byteWidth = a.bytes := by
        rw [ha, ← a.length_bytes, List.take_length]
      rw [htake] at hprefix
      have hlen : a.param.byteWidth = a.bytes.length := by rw [ha, a.length_bytes]
      have hbitmap : paramBitmap mem ctrl i a.param = a.bytes := by
        rw [paramBitmap, hlen, ← slice_drop_take hprefix.length_le]
        exact (congrArg (List.take _) hat.bitmap).trans
          (List.prefix_iff_eq_take.mp hprefix).symm
      rw [List.map_cons, List.map_cons, paramMembers, hbitmap, ih hargs (i + 1) ?_]
      · rw [List.drop_of_length_le (by rw [length_slice, ha]), List.append_nil]
      · intro j ap' hj
        have hat' := hmem (j + 1) ap' hj
        rwa [Nat.add_right_comm, Nat.add_assoc]
  rw [messageEntry]
  exact congrArg _ (hmembers 0 haps fun j ap hj => by rw [Nat.zero_add]; exact hmem j ap hj)

/-- Of a bitmap, no more than the value's bytes is taken. -/
theorem fillKeyComponent_of_prefix {align : ℕ → ℕ} (halign : IsAlign align) {k : KeyElement}
    {bitmap bitmap' : List Byte} (hlen : bitmap.length = k.keyByteWidth)
    (h : bitmap <+: bitmap') : k.fillKeyComponent align bitmap' = k.fillKeyComponent align bitmap := by
  obtain ⟨rest, rfl⟩ := h
  have hpos := k.keyByteWidth_pos
  unfold KeyElement.fillKeyComponent
  split_ifs with horder
  · have hle : k.keyByteWidth ≤ 4 := by
      rw [KeyElement.isT4p4sOrder, Bool.and_eq_true, decide_eq_true_iff] at horder
      exact horder.1
    have hbyte : align k.keyByteWidth / 8 = 1 := by rw [halign.le8 _ hpos (by omega)]
    rw [hbyte, List.take_append_of_le_length (by omega)]
  · rw [List.take_append_of_le_length hlen.ge]

theorem length_bitmap (k : KeyElement) (v : ℕ) : (k.bitmap v).length = k.keyByteWidth := by
  rw [KeyElement.bitmap]
  split_ifs
  · exact length_hostBytes _ _
  · exact length_netBytes _ _

/-- The match says what the slot says, and is read from its place. -/
structure SlotAt (table : CtrlTable) (mem : Buffer) (ctrl : P4CtrlMsg) (i : ℕ) (s : MatchSlot) :
    Prop where
  bitmap : s.elem.bitmap s.value <+: table.matchBitmap mem ctrl i s.elem
  length : s.type = .lpm → mem.number (ctrl.fieldMatches i + offMatchLength) 2 = s.prefixLength
  type : s.type ≠ .ternary

/-- An exact or lpm match has its bitmap where the callback of such a table looks for it. -/
theorem slotAt_of_sends (hkind : table.matchType ≠ .ternary) {i : ℕ} {s : MatchSlot}
    {m : FieldMatch} (h : s.Sends m) (hm : FieldMatchAt mem (ctrl.fieldMatches i) m) :
    SlotAt table mem ctrl i s := by
  have hoff : table.matchType.offBitmap = offMatchRest := by
    cases hc : table.matchType with
    | exact => rfl
    | lpm => rfl
    | ternary => exact absurd hc hkind
  have hbitmap : ∀ bitmap : Bitmap maxFieldLength, s.elem.bitmap s.value <+: bitmap.1 →
      Holds mem (ctrl.fieldMatches i) [⟨offMatchRest, bitmap.1⟩] →
      s.elem.bitmap s.value <+: table.matchBitmap mem ctrl i s.elem := by
    intro bitmap hprefix hholds
    refine hprefix.trans (List.prefix_iff_eq_take.mpr ?_)
    rw [CtrlTable.matchBitmap, hoff, slice_drop_take (bitmap.2.trans (le_max_left ..))]
    exact ((holds_cons.mp hholds).1).symm
  cases h with
  | exact name length bitmap htype hprefix =>
    refine ⟨hbitmap bitmap hprefix hm.rest, fun hlpm => ?_, ?_⟩
    · rw [htype] at hlpm
      exact nomatch hlpm
    · rw [htype]
      decide
  | lpm name prefixLength bitmap htype hprefix hlength =>
    refine ⟨hbitmap bitmap hprefix hm.rest, fun _ => hm.number.trans hlength, ?_⟩
    rw [htype]
    decide

theorem keyWrites_eq {align : ℕ → ℕ} (halign : IsAlign align) {slots : List MatchSlot} {i : ℕ}
    (hslots : ∀ j s, slots[j]? = some s → SlotAt table mem ctrl (i + j) s) (off : ℕ) :
    table.keyWrites align mem ctrl i off (slots.map MatchSlot.part) =
      setupKeyFrom align off (slots.map MatchSlot.received) := by
  induction slots generalizing i off with
  | nil => rfl
  | cons s slots ih =>
    have hs := hslots 0 s rfl
    have hrest := ih (i := i + 1) fun j s' hj => by
      have hat := hslots (j + 1) s' hj
      rwa [Nat.add_right_comm, Nat.add_assoc]
    rw [List.map_cons, List.map_cons, MatchSlot.received, setupKeyFrom,
      ← fillKeyComponent_of_prefix halign (length_bitmap ..) hs.bitmap]
    exact congrArg (List.cons _) (hrest _)

theorem map_keyMatch_eq {slots : List MatchSlot} {i : ℕ}
    (hslots : ∀ j s, slots[j]? = some s → SlotAt table mem ctrl (i + j) s) :
    ((slots.map fun s => (s.type, s.elem)).zipIdx i).map
        (fun k => (k.1.2, keyMatchOf mem ctrl k.2 k.1.1)) = slots.map MatchSlot.keyMatch := by
  induction slots generalizing i with
  | nil => rfl
  | cons s slots ih =>
    have hs := hslots 0 s rfl
    have hrest := ih (i := i + 1) fun j s' hj => by
      have hat := hslots (j + 1) s' hj
      rwa [Nat.add_right_comm, Nat.add_assoc]
    rw [List.map_cons, List.zipIdx_cons, List.map_cons, List.map_cons, hrest, MatchSlot.keyMatch]
    refine congrArg (fun m => (s.elem, m) :: slots.map MatchSlot.keyMatch) ?_
    cases hc : s.type with
    | exact => rfl
    | lpm => exact congrArg KeyMatch.lpm (hs.length hc)
    | ternary => exact absurd hc hs.type

end Callback

/-! ### The call -/

/-- What the callback makes of the cell, if it is called. -/
def handleCell (align : ℕ → ℕ) (prog : List CtrlTable) (ctrl : P4CtrlMsg) (cell : Buffer)
    (length : ℕ) (stack : ℕ → ℕ → Byte) : CtrlHandling :=
  let handled := handleP4Msg ctrl cell length
  if handled.called then
    recvFromController align prog handled.decoding.msg.mem handled.decoding.ctrl stack
  else {}

/-- A request for a change of a table makes this change of this table: the key is made of the
values, the depth of the prefix lengths, and the action gets the arguments, whatever was
in the cell behind the message, in the variables of the callback, and in the decoder's. -/
theorem handleCell_change {align : ℕ → ℕ} (halign : IsAlign align) {prog : List CtrlTable}
    (hnames : Distinct (prog.map CtrlTable.name)) {table : CtrlTable} {tid : ℕ}
    (htable : prog[tid]? = some table) (hkind : table.matchType ≠ .ternary)
    (hactions : Distinct (table.actions.map ActionDecl.name)) {change : TableChange}
    (hchange : change.For table) {req : CtrlRequest} (hasked : change.AskedBy table req)
    {cell : Buffer} (hcell : Received req cell) {length : ℕ} (hlength : req.length ≤ length)
    (ctrl : P4CtrlMsg) (stack : ℕ → ℕ → Byte) :
    (handleCell align prog ctrl cell length stack).call =
      some (tid, change.tableCall align table) := by
  obtain ⟨hcalled, hdecoded⟩ := hcell.decoded hlength ctrl
  rw [handleCell]
  simp only [hcalled, if_true]
  generalize (handleP4Msg ctrl cell length).decoding = d at hdecoded
  cases hasked with
  | addRule slots call tableName actionName ms aps htname hms hcall =>
    obtain ⟨haction, hmatches⟩ := hdecoded
    obtain ⟨hkey, hne, hfor⟩ := hchange
    have htableOf := tableOf_eq hnames htable haction.tableName htname
    have hactionOf := actionOf_eq hactions hfor.action haction.actionName hcall.name
    have hentry := messageEntry_eq hfor.whole hcall.args haction.actionParams call.action stack
    have hslots : ∀ j s, slots[j]? = some s → SlotAt table d.msg.mem d.ctrl (0 + j) s := by
      intro j s hj
      obtain ⟨hlt, hget⟩ := List.getElem?_eq_some_iff.mp hj
      have hlt' : j < ms.1.length := hms.length_eq ▸ hlt
      have hsends := List.Forall₂.get hms hlt hlt'
      rw [Nat.zero_add]
      refine slotAt_of_sends hkind ?_ (hmatches.fieldMatches j _ (List.getElem?_eq_getElem hlt'))
      rw [← hget]
      exact hsends
    have hkeyElements : table.keyElements ≠ [] := by
      intro hnil
      rw [CtrlTable.sortedKey, hnil] at hkey
      exact hne (List.map_eq_nil_iff.mp hkey.symm)
    have hwrites : (table.setupKey align d.msg.mem d.ctrl).1 =
        setupKeyFrom align 0 (slots.map MatchSlot.received) := by
      rw [CtrlTable.setupKey, hkey]
      exact keyWrites_eq halign hslots 0
    have hdepth : (table.setupKey align d.msg.mem d.ctrl).2 =
        if table.matchType = .lpm then some (setupKeyDepth (slots.map MatchSlot.keyMatch))
        else none := by
      by_cases hlpm : table.matchType = .lpm
      · rw [if_pos hlpm, ← map_keyMatch_eq hslots]
        refine setupKey_depth table d.msg.mem d.ctrl ?_ hlpm ?_
        · refine List.forall_mem_map.mpr fun s hs => ?_
          obtain ⟨j, hj⟩ := List.mem_iff_getElem?.mp hs
          exact (hslots j s hj).type
        · rw [hkey, List.map_map]
          rfl
      · rw [if_neg hlpm, CtrlTable.setupKey, if_neg hlpm]
    rw [recvFromController_add haction.type htableOf]
    simp only [CtrlTable.addTableEntry, CtrlTable.setupEntry, hactionOf, Option.map_some,
      if_neg hkeyElements, hwrites, hdepth, hentry]
    rfl
  | setDefault call tableName actionName aps htname hcall =>
    have htableOf := tableOf_eq hnames htable hdecoded.tableName htname
    have hactionOf := actionOf_eq hactions hchange.action hdecoded.actionName hcall.name
    have hentry := messageEntry_eq hchange.whole hcall.args hdecoded.actionParams call.action stack
    rw [recvFromController_setdefault hdecoded.type htableOf]
    simp only [CtrlTable.makeSetDefaultTableEntry, hactionOf, Option.elim_some, hentry]
    rfl

/-! ### The stream of requests -/

/-- The turns of the backend's loop read a request each, whatever the memory cells hold; the
cell is handled as this call; and then comes the end of the stream. -/
def Serves (align : ℕ → ℕ) (prog : List CtrlTable) : Sock → List (ℕ × TableCall) → Prop
  | sock, [] => ∀ data, (backendTurn sock data p4BgMemCellSize).closed = true
  | sock, call :: calls => ∀ data,
    let turn := backendTurn sock data p4BgMemCellSize
    turn.queued = true ∧ turn.closed = false ∧
      (∀ ctrl stack, (handleCell align prog ctrl turn.data p4BgMemCellSize stack).call = some call) ∧
      Serves align prog turn.sock calls

/-- The bytes are a message that a controller makes, in a buffer not larger than a cell, for a
change of a table of the program; this is the call for the change. -/
inductive RequestFor (align : ℕ → ℕ) (prog : List CtrlTable) :
    List Byte → ℕ × TableCall → Prop
  | intro (table : CtrlTable) (tid : ℕ) (change : TableChange) (req : CtrlRequest)
      (maxlength : ℕ) (buffer buffer' : Buffer) (htable : prog[tid]? = some table)
      (hkind : table.matchType ≠ .ternary)
      (hactions : Distinct (table.actions.map ActionDecl.name)) (hchange : change.For table)
      (hasked : change.AskedBy table req) (hmax : maxlength ≤ p4BgMemCellSize)
      (hbuilt : buildMsg maxlength buffer req = some buffer') :
      RequestFor align prog (slice buffer' 0 req.length) (tid, change.tableCall align table)

theorem sizeofP4Header_le_length (req : CtrlRequest) : sizeofP4Header ≤ req.length := by
  cases req with
  | addTableEntry tableName ms actionName aps =>
    refine (by decide : sizeofP4Header ≤ sizeofP4AddTableEntry).trans ?_
    simp only [CtrlRequest.length]
    omega
  | setDefaultAction tableName actionName aps =>
    exact (by decide : sizeofP4Header ≤ sizeofP4SetDefaultAction).trans (Nat.le_add_right ..)

/-- The header counts the bytes of the message, in network order. -/
theorem Received.header {req : CtrlRequest} {cell : Buffer} (h : Received req cell) :
    slice cell offLength 2 = netBytes 2 req.length := by
  have hwire := h.holds
  have hfields : ∀ type tableName rest, Holds cell 0
      (headerFields netBytes type req.length tableName ++ rest) →
        slice cell offLength 2 = netBytes 2 req.length := by
    intro type tableName rest hholds
    have hlength := hholds ⟨offLength, netBytes 2 req.length⟩
      (List.mem_append_left _ (List.mem_cons_of_mem _ List.mem_cons_self))
    rwa [Nat.zero_add, length_netBytes] at hlength
  cases req with
  | addTableEntry tableName ms actionName aps => exact hfields _ _ _ hwire.1
  | setDefaultAction tableName actionName aps => exact hfields _ _ _ hwire.1

/-- With such a header a cell begins with a message. -/
theorem exists_p4Msg {cell : Buffer} {n : ℕ} (h : slice cell offLength 2 = netBytes 2 n)
    (hheader : sizeofP4Header ≤ n) (hn : n ≤ p4BgMemCellSize) :
    ∃ m : P4Msg, m.bytes = slice cell 0 n ∧ m.InRange p4BgMemCellSize := by
  have hnet : hostNat (((slice cell 0 n).drop offLength).take 2).reverse = n := by
    rw [slice_part cell ((by decide : offLength + 2 ≤ sizeofP4Header).trans hheader), Nat.zero_add,
      h, reverse_netBytes, hostNat_hostBytes]
    exact Nat.mod_eq_of_lt (hn.trans_lt (by decide))
  let m : P4Msg := ⟨slice cell 0 n, by rw [hnet, length_slice, Nat.max_eq_right hheader]⟩
  have hmsglen : m.msglen = n := hnet
  exact ⟨m, rfl, hmsglen.symm ▸ hheader, hmsglen.symm ▸ hn⟩

/-- The message of a request for a change makes the call, in every cell that begins with it. -/
theorem Received.understood {align : ℕ → ℕ} (halign : IsAlign align) {prog : List CtrlTable}
    (hnames : Distinct (prog.map CtrlTable.name)) {table : CtrlTable} {tid : ℕ}
    (htable : prog[tid]? = some table) (hkind : table.matchType ≠ .ternary)
    (hactions : Distinct (table.actions.map ActionDecl.name)) {change : TableChange}
    (hchange : change.For table) {req : CtrlRequest} (hasked : change.AskedBy table req)
    {cell : Buffer} (hcell : Received req cell) (hroom : req.length ≤ p4BgMemCellSize) :
    ∃ m : P4Msg, m.bytes = slice cell 0 req.length ∧ m.InRange p4BgMemCellSize ∧
      ∀ cell', slice cell' 0 req.length = slice cell 0 req.length → ∀ ctrl stack,
        (handleCell align prog ctrl cell' p4BgMemCellSize stack).call =
          some (tid, change.tableCall align table) := by
  obtain ⟨m, hbytes, hrange⟩ := exists_p4Msg hcell.header (sizeofP4Header_le_length req) hroom
  exact ⟨m, hbytes, hrange, fun cell' hcell' ctrl stack => handleCell_change halign hnames htable
    hkind hactions hchange hasked (hcell.congr hcell') hroom ctrl stack⟩

theorem RequestFor.understood {align : ℕ → ℕ} (halign : IsAlign align) {prog : List CtrlTable}
    (hnames : Distinct (prog.map CtrlTable.name)) {bytes : List Byte} {call : ℕ × TableCall}
    (h : RequestFor align prog bytes call) :
    ∃ m : P4Msg, m.bytes = bytes ∧ m.InRange p4BgMemCellSize ∧
      ∀ cell, slice cell 0 bytes.length = bytes →
        ∀ ctrl stack, (handleCell align prog ctrl cell p4BgMemCellSize stack).call = some call := by
  cases h with
  | intro table tid change req maxlength buffer buffer' htable hkind hactions hchange hasked hmax
      hbuilt =>
    have hmax' : maxlength < 2 ^ 16 := hmax.trans_lt (by decide)
    have hroom : req.length ≤ p4BgMemCellSize := (buildMsg_wire hmax' hbuilt).1.trans hmax
    rw [length_slice]
    exact (received_of_built hmax' hbuilt).understood halign hnames htable hkind hactions hchange
      hasked hroom

/-- **The requests on the stream are served one after the other**, however the stream is split
into chunks, and whatever is in memory. -/
theorem serves_requests {align : ℕ → ℕ} (halign : IsAlign align) {prog : List CtrlTable}
    (hnames : Distinct (prog.map CtrlTable.name)) {msgs : List (List Byte)}
    {calls : List (ℕ × TableCall)} (h : List.Forall₂ (RequestFor align prog) msgs calls)
    {sock : Sock} (hsock : [] ∉ sock) (hflat : sock.flatten = msgs.flatten) :
    Serves align prog sock calls := by
  induction h generalizing sock with
  | nil =>
    intro data
    have hend := readP4Msg_eof hsock (by decide : sizeofP4Header ≤ p4BgMemCellSize) hflat data
    exact decide_eq_true hend
  | cons hreq _ ih =>
    intro data
    obtain ⟨m, rfl, hrange, hcall⟩ := hreq.understood halign hnames
    obtain ⟨sock', hread, hne, hrest⟩ := readP4Msg_inRange hsock hflat (by decide) hrange data
    have hpos : 0 < m.bytes.length :=
      Nat.lt_of_lt_of_le (by decide : 0 < sizeofP4Header) (m.length_eq ▸ Nat.le_max_left ..)
    dsimp only
    rw [backendTurn, hread]
    exact ⟨decide_eq_true (Int.natCast_pos.mpr hpos),
      decide_eq_false (Int.natCast_pos.mpr hpos).ne', hcall _ (slice_run data ⟨0, m.bytes⟩),
      ih hne hrest⟩

theorem threeFields_size_pos : 0 < (threeFields.field 0).size := by decide

theorem threeFields_notVw : (threeFields.field 0).isVw = false := rfl

/-- The first byte of a header. -/
def leadByte : KeyElement := ⟨threeFields, 0, 0, threeFields_size_pos, threeFields_notVw⟩

theorem unsigned_size_pos (size : ℕ) : false = true → 0 < size := nofun

def byteParam : ActionParam := ⟨8, false, unsigned_size_pos 8⟩

theorem byteParam_inRange : CInt.InRange byteParam.size byteParam.isSigned 1 := by decide

/-- A table with the first byte of a header as its key. -/
def forwardTable : CtrlTable where
  name := "m"
  matchType := .exact
  keySize := 1
  keyElements := [⟨0, .exact, .field leadByte⟩]
  actions := [⟨"f", [byteParam]⟩]

/-- The rule of `forwardRequest`. -/
def forwardChange : TableChange :=
  .addRule [⟨.exact, leadByte, 10, 0⟩] ⟨"f", [⟨byteParam, 1, byteParam_inRange⟩]⟩

theorem forwardChange_askedBy : forwardChange.AskedBy forwardTable forwardRequest := by
  refine .addRule _ _ _ _ _ _ (by decide) ?_ ⟨by decide, ?_⟩
  · exact .cons (.exact _ _ _ rfl (by decide)) .nil
  · exact .cons (by decide) .nil

theorem forwardChange_for : forwardChange.For forwardTable :=
  ⟨rfl, by decide, List.mem_singleton.mpr rfl, List.forall_mem_singleton.mpr (by decide)⟩

theorem distinct_singleton {n : String} (h : 0 ∉ nameBytes n) : Distinct [n] :=
  ⟨List.nodup_singleton _, List.forall_mem_singleton.mpr h⟩

theorem buildMsg_forwardRequest :
    ∃ buffer, buildMsg p4BgMemCellSize (fun _ => 0) forwardRequest = some buffer := by
  have hbuilt : (buildMsg p4BgMemCellSize (fun _ => 0) forwardRequest).isSome := by decide +kernel
  exact Option.isSome_iff_exists.mp hbuilt

/-- The request to forward packets with the destination 10 to port 1, in two chunks. -/
theorem serves_forward : ∃ first rest : List Byte, first.length = 5 ∧
    Serves align8or16or32 [forwardTable] [first, rest]
      [(0, .addPromote .exact (some [⟨0, [10]⟩]) none ⟨some ⟨"f"⟩, [[1]]⟩)] := by
  obtain ⟨buffer, hbuilt⟩ := buildMsg_forwardRequest
  have hnames : Distinct ([forwardTable].map CtrlTable.name) := distinct_singleton (by decide)
  have hactions : Distinct (forwardTable.actions.map ActionDecl.name) :=
    distinct_singleton (by decide)
  have hlen : (slice buffer 0 forwardRequest.length).length = 918 := by
    rw [length_slice]
    rfl
  refine ⟨(slice buffer 0 forwardRequest.length).take 5,
    (slice buffer 0 forwardRequest.length).drop 5, ?_, serves_requests isAlign_align8or16or32 hnames
      (.cons (.intro forwardTable 0 forwardChange forwardRequest p4BgMemCellSize _ buffer rfl
        (by decide) hactions forwardChange_for forwardChange_askedBy le_rfl hbuilt) .nil) ?_ ?_⟩
  · rw [List.length_take, hlen]
    rfl
  · intro hmem
    rcases List.mem_cons.mp hmem with hnil | hmem
    · have hzero := congrArg List.length hnil
      rw [List.length_take, hlen] at hzero
      exact absurd hzero (by decide)
    · have hzero := congrArg List.length (List.mem_singleton.mp hmem)
      rw [List.length_drop, hlen] at hzero
      exact absurd hzero (by decide)
  · rw [List.flatten_cons, List.flatten_cons, List.flatten_nil, List.append_nil,
      List.take_append_drop, List.flatten_singleton]

end T4P4S
