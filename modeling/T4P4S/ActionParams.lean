/-
The parameters of an action, as they get into a table.

A const entry is initialised by the compiler's constants, the program's default action by
its id only, and the two control messages are copied into a variable that is not
initialised, a parameter's width in bytes at a time.

* **`paramsLaw_iff`** — the action body receives the arguments: from a const entry unless
  one of them is a negative value of more than 32 bits; from the default action iff all
  are 0; from a message iff no parameter has 17 to 24 bits.
-/
import T4P4S.Apply
import T4P4S.Lib.CInt
import T4P4S.Messages
import T4P4S.TableKey
import Mathlib.Data.List.Forall2

open ByteString

namespace T4P4S

/-- A parameter of type `bit<size>` or `int<size>`. -/
structure ActionParam where
  size : ℕ
  isSigned : Bool
  size_pos : isSigned = true → 0 < size

/-- A parameter and a value of its type. -/
structure ActionArg where
  param : ActionParam
  value : ℤ
  inRange : CInt.InRange param.size param.isSigned value

/-- The width of the parameter in bytes. -/
def ActionParam.byteWidth (p : ActionParam) : ℕ := (p.size + 7) / 8

/-- The size of the member of `action_X_params_t`, an integer or an array of bytes. -/
def ActionParam.memberSize (p : ActionParam) : ℕ :=
  if p.size ≤ 32 then sizeup p.size false / 8 else p.byteWidth

/-- The value in the member's bytes, in two's complement. -/
def ActionArg.pattern (a : ActionArg) : ℕ := (a.value % 2 ^ (8 * a.param.memberSize)).toNat

/-- The member that holds the value: an integer, or the bytes of the value in order. -/
def ActionArg.bytes (a : ActionArg) : List Byte :=
  if a.param.size ≤ 32 then hostBytes a.param.memberSize a.pattern
  else netBytes a.param.memberSize a.pattern

/-- `X_entry_t`: the action's id, `none` for `INVALID_ACTION`, and the members of its
parameters. -/
structure ActionEntry where
  id : Option ActionId
  params : List (List Byte)

/-- An action of a table. -/
structure ActionDecl where
  name : String
  params : List ActionParam

/-! ### The four ways into a table -/

/-- The initialiser of a member in `gen_make_const_entry`.  The constant of a negative
value has a sign among its hexadecimal digits and does not compile. -/
def ActionArg.constInit (a : ActionArg) : Option (List Byte) :=
  if a.param.size ≤ 32 then some (hostBytes a.param.memberSize a.pattern)
  else if a.value < 0 then none
  else some (makeConst a.param.size a.value.toNat false)

/-- `gen_make_const_entry` -/
def makeConstEntry (name : String) (args : List ActionArg) : Option ActionEntry :=
  (args.mapM ActionArg.constInit).map fun params => ⟨some ⟨name⟩, params⟩

/-- `setdefault_X`, as `init_table_default_actions` calls it for the default action of the
program. -/
def setdefault (ao : ActionDecl) : ActionEntry :=
  ⟨some ⟨ao.name⟩, ao.params.map fun p => List.replicate p.memberSize 0⟩

/-- `memcpy` of the parameters' bitmaps into the members, undefined if there is none or it
is too short. -/
def copyParams : List ActionParam → List (List Byte) → List (List Byte) → Option (List (List Byte))
  | [], _, _ => some []
  | p :: ps, member :: members, bitmap :: bitmaps =>
    if p.byteWidth ≤ bitmap.length then
      (copyParams ps members bitmaps).map
        ((bitmap.take p.byteWidth ++ member.drop p.byteWidth) :: ·)
    else
      none
  | _ :: _, _, _ => none

variable (actions : List ActionDecl)

/-- The part that the two functions for messages share: the action is found by its name.
The members are what they were before. -/
def fillEntry (members : List (List Byte)) (actionName : String) (bitmaps : List (List Byte))
    (mismatch : Option ActionEntry) : Option ActionEntry :=
  match actions.find? fun ao => ao.name = actionName with
  | some ao => (copyParams ao.params members bitmaps).map fun params => ⟨some ⟨ao.name⟩, params⟩
  | none => mismatch

/-- `X_setup_entry`, as `X_add_table_entry` calls it.  No entry is added for another name. -/
def setupEntry (members : List (List Byte)) (actionName : String) (bitmaps : List (List Byte)) :
    Option ActionEntry :=
  fillEntry actions members actionName bitmaps none

/-- `make_X_set_default_table_entry`, as `ctrl_setdefault` calls it. -/
def makeSetDefaultTableEntry (members : List (List Byte)) (actionName : String)
    (bitmaps : List (List Byte)) : Option ActionEntry :=
  fillEntry actions members actionName bitmaps (some ⟨none, members⟩)

/-! ### What should hold -/

/-- An action of a table, with arguments. -/
structure Installation where
  actions : List ActionDecl
  nodup : (actions.map ActionDecl.name).Nodup
  name : String
  args : List ActionArg
  mem : ⟨name, args.map ActionArg.param⟩ ∈ actions

/-- The ways into a table. -/
inductive InstallPath
  | constEntry
  | defaultAction
  | addEntry
  | setDefault

namespace Installation

variable (I : Installation)

def action : ActionDecl := ⟨I.name, I.args.map ActionArg.param⟩

/-- The entry with which the action body receives the arguments. -/
def expected : ActionEntry := ⟨some ⟨I.name⟩, I.args.map ActionArg.bytes⟩

/-- What is in the members before a message is copied into them. -/
def Members (members : List (List Byte)) : Prop :=
  List.Forall₂ (fun a member => member.length = a.param.memberSize) I.args members

/-- The bitmaps of a message that hold the values. -/
def HoldValues (bitmaps : List (List Byte)) : Prop :=
  List.Forall₂ (fun a bitmap => bitmap.length = maxActionParameterBitmapLength ∧
    a.bytes.take a.param.byteWidth <+: bitmap) I.args bitmaps

/-- The entry that is installed is the one with the arguments, whatever was in memory
before. -/
def ParamsLaw : InstallPath → Prop
  | .constEntry => makeConstEntry I.name I.args = some I.expected
  | .defaultAction => setdefault I.action = I.expected
  | .addEntry => ∀ members bitmaps, I.Members members → I.HoldValues bitmaps →
      setupEntry I.actions members I.name bitmaps = some I.expected
  | .setDefault => ∀ members bitmaps, I.Members members → I.HoldValues bitmaps →
      makeSetDefaultTableEntry I.actions members I.name bitmaps = some I.expected

/-- The condition for it.  Values of more than 128 bytes do not fit into a message. -/
def Ok : InstallPath → Prop
  | .constEntry => ∀ a ∈ I.args, a.param.size ≤ 32 ∨ 0 ≤ a.value
  | .defaultAction => ∀ a ∈ I.args, a.value = 0
  | .addEntry | .setDefault =>
    (∀ a ∈ I.args, a.param.size ≠ 0 ∧ ¬(16 < a.param.size ∧ a.param.size ≤ 24)) ∨
      ∃ a ∈ I.args, maxActionParameterBitmapLength < a.param.byteWidth

end Installation

/-! ### Members -/

namespace ActionParam

variable (p : ActionParam)

theorem byteWidth_le : p.byteWidth ≤ p.memberSize := by
  rw [byteWidth, memberSize]
  split_ifs with hle
  · simp only [sizeup, Bool.false_eq_true, if_false]
    split_ifs <;> omega
  · exact le_rfl

/-- The C type is wider than its parameter for 17 to 24 bits only. -/
theorem byteWidth_eq_iff :
    p.byteWidth = p.memberSize ↔ p.size ≠ 0 ∧ ¬(16 < p.size ∧ p.size ≤ 24) := by
  rw [byteWidth, memberSize]
  split_ifs with hle
  · simp only [sizeup, Bool.false_eq_true, if_false]
    split_ifs <;> omega
  · exact iff_of_true rfl (by omega)

end ActionParam

namespace ActionArg

variable (a : ActionArg)

@[simp] theorem length_bytes : a.bytes.length = a.param.memberSize := by
  rw [bytes]
  split_ifs
  · exact length_hostBytes _ _
  · exact length_netBytes _ _

theorem memberSize_pos : 0 < a.param.memberSize := by
  rw [ActionParam.memberSize, ActionParam.byteWidth]
  split_ifs
  · simp only [sizeup, Bool.false_eq_true, if_false]
    split_ifs <;> decide
  · omega

/-- The value is one of the member's type. -/
theorem inRange_member : CInt.InRange (8 * a.param.memberSize) a.param.isSigned a.value := by
  refine a.inRange.mono ?_
  have hle := a.param.byteWidth_le
  rw [ActionParam.byteWidth] at hle
  omega

theorem pattern_eq_zero_iff : a.pattern = 0 ↔ a.value = 0 := by
  have hpos := a.memberSize_pos
  have hpow : (0 : ℤ) < 2 ^ (8 * a.param.memberSize) := by positivity
  constructor
  · intro hzero
    have hmod : a.value % 2 ^ (8 * a.param.memberSize) = 0 :=
      le_antisymm (Int.toNat_eq_zero.mp hzero) (Int.emod_nonneg _ hpow.ne')
    refine a.inRange_member.eq_of_modEq (by omega) ?_ (hmod.trans (Int.zero_emod _).symm)
    cases a.param.isSigned
    · rw [CInt.inRange_false]
      exact ⟨le_rfl, hpow⟩
    · rw [CInt.inRange_true]
      exact ⟨by simp, by positivity⟩
  · intro hzero
    rw [pattern, hzero, Int.zero_emod]
    rfl

theorem pattern_lt : a.pattern < 256 ^ a.param.memberSize := by
  have hpow : (0 : ℤ) < 2 ^ (8 * a.param.memberSize) := by positivity
  have hlt := Int.emod_lt_of_pos a.value hpow
  have hnat : ((256 ^ a.param.memberSize : ℕ) : ℤ) = 2 ^ (8 * a.param.memberSize) := by
    rw [pow_mul]
    push_cast
    norm_num
  rw [pattern]
  omega

theorem replicate_eq_bytes_iff :
    List.replicate a.param.memberSize 0 = a.bytes ↔ a.value = 0 := by
  have hhost : hostBytes a.param.memberSize 0 = hostBytes a.param.memberSize a.pattern ↔
      a.value = 0 := by
    rw [hostBytes_eq_iff, Nat.ModEq, Nat.zero_mod, Nat.mod_eq_of_lt a.pattern_lt, eq_comm,
      pattern_eq_zero_iff]
  rw [bytes]
  split_ifs
  · rw [← hostBytes_zero, hhost]
  · rw [← netBytes_zero, netBytes, netBytes, List.reverse_inj, hhost]

theorem constInit_eq_iff : a.constInit = some a.bytes ↔ a.param.size ≤ 32 ∨ 0 ≤ a.value := by
  rw [constInit, bytes]
  by_cases hle : a.param.size ≤ 32
  · rw [if_pos hle, if_pos hle]
    exact iff_of_true rfl (.inl hle)
  · rw [if_neg hle, if_neg hle]
    by_cases hneg : a.value < 0
    · rw [if_pos hneg]
      exact iff_of_false (fun h => nomatch h) (by omega)
    · rw [if_neg hneg]
      refine iff_of_true ?_ (.inr (by omega))
      have hsize : a.param.memberSize = (a.param.size + 7) / 8 := if_neg hle
      have hpattern : a.pattern = a.value.toNat % 256 ^ a.param.memberSize := by
        have hnat : (256 ^ a.param.memberSize : ℕ) = 2 ^ (8 * a.param.memberSize) := by
          rw [pow_mul]
          rfl
        have hvalue : a.value = a.value.toNat := by omega
        rw [pattern, hnat, hvalue]
        exact_mod_cast rfl
      rw [makeConst, if_neg Bool.false_ne_true, ← hsize, hpattern, netBytes, netBytes,
        hostBytes_mod]

end ActionArg

/-! ### The paths -/

theorem exists_of_forall₂ {α β : Type*} {P : α → β → Prop} {l : List α} {l' : List β}
    (h : List.Forall₂ P l l') {a : α} (ha : a ∈ l) : ∃ b, P a b := by
  induction h with
  | nil => exact absurd ha List.not_mem_nil
  | cons hab _ ih =>
    rcases List.mem_cons.mp ha with rfl | ha
    · exact ⟨_, hab⟩
    · exact ih ha

theorem mapM_constInit_iff (args : List ActionArg) :
    args.mapM ActionArg.constInit = some (args.map ActionArg.bytes) ↔
      ∀ a ∈ args, a.param.size ≤ 32 ∨ 0 ≤ a.value := by
  induction args with
  | nil => exact iff_of_true rfl fun _ ha => absurd ha List.not_mem_nil
  | cons a args ih =>
    rw [List.forall_mem_cons, ← ih, ← a.constInit_eq_iff, List.mapM_cons, List.map_cons]
    cases a.constInit with
    | none => exact iff_of_false (fun h => nomatch h) fun h => nomatch h.1
    | some bytes =>
      cases args.mapM ActionArg.constInit with
      | none => exact iff_of_false (fun h => nomatch h) fun h => nomatch h.2
      | some rest =>
        rw [Option.some_inj, Option.some_inj]
        exact Option.some_inj.trans List.cons_eq_cons

/-- Parameters of a whole C type get the values, whatever the members were. -/
theorem copyParams_eq {args : List ActionArg}
    (hwhole : ∀ a ∈ args, a.param.byteWidth = a.param.memberSize)
    {members bitmaps : List (List Byte)}
    (hmembers : List.Forall₂ (fun a member => member.length = a.param.memberSize) args members)
    (hbitmaps : List.Forall₂ (fun a bitmap => bitmap.length = maxActionParameterBitmapLength ∧
      a.bytes.take a.param.byteWidth <+: bitmap) args bitmaps) :
    copyParams (args.map ActionArg.param) members bitmaps = some (args.map ActionArg.bytes) := by
  induction args generalizing members bitmaps with
  | nil => rfl
  | cons a args ih =>
    obtain ⟨ha, hargs⟩ := List.forall_mem_cons.mp hwhole
    obtain ⟨member, members, hlen, hmembers', rfl⟩ := List.forall₂_cons_left_iff.mp hmembers
    obtain ⟨bitmap, bitmaps, ⟨-, hprefix⟩, hbitmaps', rfl⟩ :=
      List.forall₂_cons_left_iff.mp hbitmaps
    have htake : a.bytes.take a.param.byteWidth = a.bytes := by
      rw [ha, ← a.length_bytes, List.take_length]
    obtain ⟨rest, rfl⟩ := htake ▸ hprefix
    have hwidth : a.param.byteWidth = a.bytes.length := by rw [ha, a.length_bytes]
    have hdrop : member.drop a.bytes.length = [] := by
      rw [a.length_bytes, ← hlen, List.drop_length]
    rw [List.map_cons, copyParams, hwidth, if_pos (by rw [List.length_append]; omega),
      ih hargs hmembers' hbitmaps', List.take_left, hdrop, List.append_nil]
    rfl

/-- Members that differ from the value in each byte. -/
def ActionArg.other (a : ActionArg) : List Byte := a.bytes.map (· + 1)

/-- The bitmap with the value and zeros. -/
def ActionArg.bitmap (a : ActionArg) : List Byte :=
  a.bytes.take a.param.byteWidth ++
    List.replicate (maxActionParameterBitmapLength - a.param.byteWidth) 0

/-- A member that is wider than its parameter keeps a byte. -/
theorem byteWidth_eq_of_copyParams {args : List ActionArg}
    (h : copyParams (args.map ActionArg.param) (args.map ActionArg.other)
      (args.map ActionArg.bitmap) = some (args.map ActionArg.bytes)) :
    ∀ a ∈ args, a.param.byteWidth = a.param.memberSize := by
  induction args with
  | nil => exact fun _ ha => absurd ha List.not_mem_nil
  | cons a args ih =>
    rw [List.map_cons, List.map_cons, List.map_cons, List.map_cons, copyParams] at h
    split_ifs at h
    obtain ⟨rest, hrest, hcons⟩ := Option.map_eq_some_iff.mp h
    obtain ⟨hbytes, rfl⟩ := List.cons_eq_cons.mp hcons
    refine List.forall_mem_cons.mpr ⟨?_, ih hrest⟩
    by_contra hne
    have hlt : a.param.byteWidth < a.bytes.length := by
      have := a.param.byteWidth_le
      rw [a.length_bytes]
      omega
    -- the byte behind the copied ones
    have hdrop := congrArg (List.drop a.param.byteWidth) hbytes
    have hlen : (a.bitmap.take a.param.byteWidth).length = a.param.byteWidth := by
      rw [ActionArg.bitmap, List.length_take, List.length_append, List.length_take]
      omega
    rw [List.drop_append_of_le_length hlen.ge, List.drop_eq_nil_of_le hlen.le, List.nil_append,
      ActionArg.other, ← List.map_drop, List.drop_eq_getElem_cons hlt, List.map_cons,
      List.cons_eq_cons] at hdrop
    exact absurd hdrop.1 (by simp)

namespace Installation

variable (I : Installation)

theorem find?_name : I.actions.find? (fun ao => ao.name = I.name) = some I.action := by
  cases hfind : I.actions.find? fun ao => ao.name = I.name with
  | none => exact absurd (decide_eq_true rfl) (List.find?_eq_none.mp hfind _ I.mem)
  | some ao =>
    have hname : ao.name = I.name := by simpa using List.find?_some hfind
    exact congrArg some
      (List.inj_on_of_nodup_map I.nodup (List.mem_of_find?_eq_some hfind) I.mem hname)

/-- With the action's id, an entry is the expected one iff its parameters are. -/
theorem map_eq_expected_iff (params : Option (List (List Byte))) :
    (params.map fun params => (⟨some ⟨I.name⟩, params⟩ : ActionEntry)) = some I.expected ↔
      params = some (I.args.map ActionArg.bytes) := by
  rw [Option.map_eq_some_iff]
  constructor
  · rintro ⟨params, rfl, hentry⟩
    exact congrArg some (congrArg ActionEntry.params hentry)
  · exact fun h => ⟨_, h, rfl⟩

theorem fillEntry_eq_iff (members bitmaps : List (List Byte)) (mismatch : Option ActionEntry) :
    fillEntry I.actions members I.name bitmaps mismatch = some I.expected ↔
      copyParams (I.args.map ActionArg.param) members bitmaps =
        some (I.args.map ActionArg.bytes) := by
  rw [fillEntry, I.find?_name]
  exact I.map_eq_expected_iff _

/-- What a message installs, for both kinds of messages. -/
theorem message_iff (mismatch : List (List Byte) → Option ActionEntry) :
    (∀ members bitmaps, I.Members members → I.HoldValues bitmaps →
      fillEntry I.actions members I.name bitmaps (mismatch members) = some I.expected) ↔
    (∀ a ∈ I.args, a.param.size ≠ 0 ∧ ¬(16 < a.param.size ∧ a.param.size ≤ 24)) ∨
      ∃ a ∈ I.args, maxActionParameterBitmapLength < a.param.byteWidth := by
  simp only [I.fillEntry_eq_iff, ← ActionParam.byteWidth_eq_iff]
  constructor
  · intro h
    by_cases hwide : ∃ a ∈ I.args, maxActionParameterBitmapLength < a.param.byteWidth
    · exact .inr hwide
    · refine .inl (byteWidth_eq_of_copyParams (h _ _ ?_ ?_))
      · rw [Members, List.forall₂_map_right_iff, List.forall₂_same]
        exact fun a _ => by rw [ActionArg.other, List.length_map, a.length_bytes]
      · rw [HoldValues, List.forall₂_map_right_iff, List.forall₂_same]
        refine fun a ha => ⟨?_, List.prefix_append _ _⟩
        have hle : ¬ maxActionParameterBitmapLength < a.param.byteWidth :=
          fun hlt => hwide ⟨a, ha, hlt⟩
        have hbytes := a.param.byteWidth_le
        rw [ActionArg.bitmap, List.length_append, List.length_take, List.length_replicate,
          a.length_bytes]
        omega
  · rintro (hwhole | ⟨a, ha, hlt⟩) members bitmaps hmembers hbitmaps
    · exact copyParams_eq hwhole hmembers hbitmaps
    · -- the value does not fit into the bitmap
      obtain ⟨bitmap, hlen, hprefix⟩ := exists_of_forall₂ hbitmaps ha
      have hle := hprefix.length_le
      have hbytes := a.param.byteWidth_le
      rw [List.length_take, a.length_bytes, hlen] at hle
      omega

/-- **The action body receives the arguments on a path iff its condition holds.** -/
theorem paramsLaw_iff (I : Installation) (path : InstallPath) : I.ParamsLaw path ↔ I.Ok path := by
  cases path with
  | constEntry =>
    exact (I.map_eq_expected_iff _).trans (mapM_constInit_iff I.args)
  | defaultAction =>
    rw [ParamsLaw, setdefault, action, expected, List.map_map]
    constructor
    · intro h a ha
      have hparams := List.map_inj_left.mp (congrArg ActionEntry.params h) a ha
      exact a.replicate_eq_bytes_iff.mp hparams
    · intro h
      refine congrArg (ActionEntry.mk _) (List.map_inj_left.mpr fun a ha => ?_)
      exact a.replicate_eq_bytes_iff.mpr (h a ha)
  | addEntry => exact I.message_iff fun _ => none
  | setDefault => exact I.message_iff fun members => some ⟨none, members⟩

/-- The body of the action gets what is in the entry that is found. -/
theorem runAction_expected (I : Installation) {Stmt : Type} {t : P4Table Stmt} {e : TableEntry t}
    (hid : some e.id = I.expected.id) (hparams : e.params = I.expected.params.flatten)
    (hbody : e.action.body.length ≠ 0) (isHit : Bool) :
    (t.runAction e isHit).2 = [(⟨I.name⟩, (I.args.map ActionArg.bytes).flatten)] := by
  have hname : e.id = ⟨I.name⟩ := Option.some_inj.mp hid
  rw [P4Table.runAction_eq, P4Table.callsOf, if_pos hbody, hname, hparams]
  rfl

/-! ### A default action with an argument -/

/-- `default_action = forward(3)`, for a port of 9 bits. -/
def forwardThree : Installation where
  actions := [⟨"forward", [⟨9, false, by decide⟩]⟩]
  nodup := by decide
  name := "forward"
  args := [⟨⟨9, false, by decide⟩, 3, by decide⟩]
  mem := List.mem_singleton.mpr rfl

/-- The port is 0 instead. -/
theorem forwardThree_not_paramsLaw :
    ¬ ∀ (I : Installation) (path : InstallPath), I.ParamsLaw path := by
  intro hlaw
  have hparams := congrArg ActionEntry.params (hlaw forwardThree .defaultAction)
  exact absurd hparams (by decide)

end Installation

end T4P4S
