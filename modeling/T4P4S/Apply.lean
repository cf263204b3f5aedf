/-
Applying a table: `X_apply`.

The lookup gives an entry, which is the default entry on a miss.  The code
infers from it whether it was a hit, and runs the entry's action.

* **`apply_hit_iff`** — the action that is run is the one of the matched entry, or the
  default one; a hit is reported for a matched entry unless its action is the
  table's `NoAction`, and always for a table without keys.
-/
import T4P4S.Tables

namespace T4P4S

variable {Stmt κ : Type}

/-! ### Tables of the program -/

/-- An action and the components of its body. -/
structure Action (Stmt : Type) where
  name : String
  body : List Stmt

/-- A table as the compiler sees it.  `hasDirectSmem` says that it has a direct
meter or counter. -/
structure P4Table (Stmt : Type) where
  keyBitSize : ℕ
  actions : List (Action Stmt)
  hasDirectSmem : Bool := false
  nodup : (actions.map Action.name).Nodup

/-- The constant `action_X` of `actions_e`. -/
structure ActionId where
  name : String
  deriving DecidableEq

/-- An entry of the table: one of its actions, with parameters. -/
structure TableEntry (t : P4Table Stmt) where
  action : Action Stmt
  mem : action ∈ t.actions
  params : List Byte

/-- `entry->id` -/
def TableEntry.id {t : P4Table Stmt} (e : TableEntry t) : ActionId := ⟨e.action.name⟩

/-- What the data plane has for the table: its default entry, and the entry that
is found at an address. -/
structure TableData (t : P4Table Stmt) where
  defaultVal : EntryPtr
  entry : EntryPtr → TableEntry t

/-- `apply_result_t`.  `actionRun` is `none` where the code leaves it zero. -/
structure ApplyResult where
  hit : Bool
  actionRun : Option ActionId
  deriving DecidableEq

/-- What a call of `X_apply` does: the result, the calls of `action_code_Y` with
their parameters, and whether the direct meters and counters are updated. -/
structure Applied where
  result : ApplyResult
  calls : List (ActionId × List Byte)
  smems : Bool
  deriving DecidableEq

/-! ### The generated code -/

namespace P4Table

variable (t : P4Table Stmt)

/-- `noaction_names` -/
def noActionNames : List String :=
  (t.actions.map Action.name).filter fun name => "NoAction".toList.isPrefixOf name.toList

/-- The first value of `is_hit`; `none` when the compiler reports an error. -/
def initialHit (id : ActionId) : Option Bool :=
  match t.noActionNames with
  | [] => some true
  | [name] => some (id != ⟨name⟩)
  | _ => none

/-- `is_hit` of a table with keys. -/
def isHit (s : TableData t) (entry : EntryPtr) : Option Bool := do
  let isHit ← t.initialHit (s.entry entry).id
  return if isHit then entry != s.defaultVal else isHit

/-- The part of `X_apply` that runs the action. -/
def runAction (e : TableEntry t) (isHit : Bool) : ApplyResult × List (ActionId × List Byte) :=
  match t.actions with
  | [ao] =>
    (⟨isHit, some ⟨ao.name⟩⟩, if ao.body.length ≠ 0 then [(⟨ao.name⟩, e.params)] else [])
  | actions =>
    -- the cases of the switch: actions with a body, then those without one
    match actions.find? fun ao => ao.body.length ≠ 0 && e.id == ⟨ao.name⟩ with
    | some ao => (⟨isHit, some e.id⟩, [(⟨ao.name⟩, e.params)])
    | none =>
      match actions.find? fun ao => ao.body.length = 0 && e.id == ⟨ao.name⟩ with
      | some _ => (⟨isHit, some e.id⟩, [])
      | none => (⟨false, none⟩, [])

/-- `X_get_default_entry` -/
def getDefaultEntry (s : TableData t) : EntryPtr := s.defaultVal

/-- `X_apply`, with `lookup` the lookup function of the kind of the table. -/
def apply (s : TableData t) (lookup : κ → EntryPtr) (key : κ) : Option Applied :=
  let finish (entry : EntryPtr) (isHit : Bool) : Applied :=
    let (result, calls) := t.runAction (s.entry entry) isHit
    { result := result, calls := calls, smems := t.hasDirectSmem && isHit }
  if t.keyBitSize = 0 then
    some (finish (t.getDefaultEntry s) true)
  else do
    let entry := lookup key
    let isHit ← t.isHit s entry
    return finish entry isHit

/-! ### What it does -/

variable {t}

/-- The action of the entry is the `NoAction` of the table. -/
def IsNoAction (e : TableEntry t) : Prop := e.action.name ∈ t.noActionNames

instance (e : TableEntry t) : Decidable (IsNoAction e) := by
  unfold IsNoAction
  infer_instance

/-- The calls that the action of an entry stands for. -/
def callsOf (e : TableEntry t) : List (ActionId × List Byte) :=
  if e.action.body.length ≠ 0 then [(e.id, e.params)] else []

/-- Actions of the table are told apart by their names. -/
theorem eq_of_id_eq {e : TableEntry t} {ao : Action Stmt} (hao : ao ∈ t.actions)
    (h : e.id = ⟨ao.name⟩) : ao = e.action := by
  have hname : e.action.name = ao.name := congrArg ActionId.name h
  exact (List.inj_on_of_nodup_map t.nodup hao e.mem hname.symm)

/-- The switch finds the action of the entry. -/
theorem find?_eq_some {e : TableEntry t} {p : Action Stmt → Bool} (hp : p e.action = true) :
    t.actions.find? (fun ao => p ao && e.id == ⟨ao.name⟩) = some e.action := by
  cases hfind : t.actions.find? fun ao => p ao && e.id == ⟨ao.name⟩ with
  | none =>
    have hno := List.find?_eq_none.mp hfind e.action e.mem
    simp [hp, TableEntry.id] at hno
  | some ao =>
    have hsome := List.find?_some hfind
    rw [Bool.and_eq_true, beq_iff_eq] at hsome
    rw [eq_of_id_eq (List.mem_of_find?_eq_some hfind) hsome.2]

theorem find?_eq_none {e : TableEntry t} {p : Action Stmt → Bool} (hp : p e.action = false) :
    t.actions.find? (fun ao => p ao && e.id == ⟨ao.name⟩) = none := by
  refine List.find?_eq_none.mpr fun ao hao hsome => ?_
  rw [Bool.and_eq_true, beq_iff_eq] at hsome
  rw [eq_of_id_eq hao hsome.2, hp] at hsome
  exact absurd hsome.1 Bool.false_ne_true

/-- The entry's action is run, and its id returned. -/
theorem runAction_eq (e : TableEntry t) (isHit : Bool) :
    t.runAction e isHit = (⟨isHit, some e.id⟩, callsOf e) := by
  unfold runAction
  split
  · rename_i ao hactions
    have hao : e.action = ao := by
      have hmem := e.mem
      rw [hactions, List.mem_singleton] at hmem
      exact hmem
    rw [callsOf, TableEntry.id, hao]
  · rename_i actions _
    by_cases hbody : e.action.body.length = 0
    · rw [find?_eq_none (by simp [hbody]), find?_eq_some (by simp [hbody])]
      simp [callsOf, hbody]
    · rw [find?_eq_some (by simp [hbody])]
      simp [callsOf, hbody, TableEntry.id]

/-- The lookup returns the entry that `matched` gives for the key, and the default
entry exactly when there is none. -/
structure LooksUpMatched (s : TableData t) (lookup : κ → EntryPtr)
    (matched : κ → Option EntryPtr) : Prop where
  hit : ∀ key p, matched key = some p → lookup key = p ∧ p ≠ s.defaultVal
  miss : ∀ key, matched key = none → lookup key = s.defaultVal

theorem initialHit_eq (hno : t.noActionNames.length ≤ 1) (e : TableEntry t) :
    t.initialHit e.id = some (decide ¬IsNoAction e) := by
  rcases hnames : t.noActionNames with _ | ⟨name, _ | ⟨name', names⟩⟩
  · have hna : ¬IsNoAction e := by simp [IsNoAction, hnames]
    simp [initialHit, hnames, hna]
  · have hna : IsNoAction e ↔ e.id = ⟨name⟩ := by simp [IsNoAction, hnames, TableEntry.id]
    by_cases hid : e.id = ⟨name⟩ <;> simp [initialHit, hnames, hna, hid]
  · simp [hnames] at hno

theorem isHit_eq (hno : t.noActionNames.length ≤ 1) (s : TableData t) (p : EntryPtr) :
    t.isHit s p = some (decide (¬IsNoAction (s.entry p) ∧ p ≠ s.defaultVal)) := by
  simp only [isHit, initialHit_eq hno, Option.bind_eq_bind, Option.bind_some]
  by_cases hna : IsNoAction (s.entry p) <;> simp [hna, bne, beq_eq_decide]

/-- When `X_apply` updates the direct meters and counters. -/
theorem apply_smems (hno : t.noActionNames.length ≤ 1) (s : TableData t) (lookup : κ → EntryPtr)
    (key : κ) : ∃ r, t.apply s lookup key = some r ∧ r.smems = (t.hasDirectSmem &&
      decide (t.keyBitSize = 0 ∨
        ¬IsNoAction (s.entry (lookup key)) ∧ lookup key ≠ s.defaultVal)) := by
  by_cases hkey : t.keyBitSize = 0
  · exact ⟨_, if_pos hkey, by simp [hkey]⟩
  · refine ⟨_, (if_neg hkey).trans (congrArg (Option.bind · _) (isHit_eq hno s (lookup key))), ?_⟩
    simp only [hkey, false_or]

/-- **What `X_apply` reports and runs.** -/
theorem apply_hit_iff (hno : t.noActionNames.length ≤ 1) {s : TableData t} {lookup : κ → EntryPtr}
    {matched : κ → Option EntryPtr} (hlookup : LooksUpMatched s lookup matched) (key : κ) :
    ∃ r, t.apply s lookup key = some r ∧
      (r.result.hit = true ↔ t.keyBitSize = 0 ∨
        ∃ p, matched key = some p ∧ ¬IsNoAction (s.entry p)) ∧
      (t.keyBitSize = 0 → r.result.actionRun = some (s.entry s.defaultVal).id ∧
        r.calls = callsOf (s.entry s.defaultVal)) ∧
      (t.keyBitSize ≠ 0 →
        r.result.actionRun = some (s.entry ((matched key).getD s.defaultVal)).id ∧
        r.calls = callsOf (s.entry ((matched key).getD s.defaultVal))) := by
  by_cases hkey : t.keyBitSize = 0
  · refine ⟨_, if_pos hkey, ?_⟩
    simp [hkey, runAction_eq, getDefaultEntry]
  · have happly : ∀ b, t.isHit s (lookup key) = some b → t.apply s lookup key =
        some ⟨⟨b, some (s.entry (lookup key)).id⟩, callsOf (s.entry (lookup key)),
          t.hasDirectSmem && b⟩ := by
      intro b hb
      simp [apply, hkey, hb, runAction_eq]
    refine ⟨_, happly _ (isHit_eq hno s (lookup key)), ?_⟩
    cases hm : matched key with
    | none =>
      rw [hlookup.miss key hm]
      simp [hkey]
    | some p =>
      obtain ⟨hp, hne⟩ := hlookup.hit key p hm
      rw [hp]
      simp [hkey, hne]

/-! ### A table with a `NoAction` -/

/-- The hit flag says whether the lookup found an entry. -/
def HitMeansMatched (s : TableData t) (lookup : κ → EntryPtr) (matched : κ → Option EntryPtr) :
    Prop :=
  ∀ key, ∃ r, t.apply s lookup key = some r ∧ (r.result.hit = true ↔ ∃ p, matched key = some p)

/-- A table that forwards or does nothing. -/
def forwardTable : P4Table Unit :=
  { keyBitSize := 8
    actions := [⟨"forward", [()]⟩, ⟨"NoAction", []⟩]
    nodup := by decide }

def forward (port : Byte) : TableEntry forwardTable :=
  { action := ⟨"forward", [()]⟩, mem := by simp [forwardTable], params := [port] }

def noAction : TableEntry forwardTable :=
  { action := ⟨"NoAction", []⟩, mem := by simp [forwardTable], params := [] }

/-- The entry 1 forwards; the entry 2 and the default entry 0 do nothing. -/
def forwardData : TableData forwardTable :=
  { defaultVal := 0, entry := fun p => if p = 1 then forward 7 else noAction }

/-- The keys 1 and 2 have an entry. -/
def forwardMatched (key : ℕ) : Option EntryPtr := if key = 1 ∨ key = 2 then some key else none

theorem forwardLooksUp :
    LooksUpMatched forwardData (fun key => (forwardMatched key).getD 0) forwardMatched := by
  constructor
  · intro key p hp
    obtain ⟨hkey, hsome⟩ := Option.ite_none_right_eq_some.mp hp
    obtain rfl := Option.some.inj hsome
    refine ⟨by simp [hp], ?_⟩
    show key ≠ 0
    omega
  · intro key hnone
    simp [hnone, forwardData]

/-- A packet that the entry 1 forwards. -/
theorem forwardTable_apply :
    ∃ r, forwardTable.apply forwardData (fun key => (forwardMatched key).getD 0) 1 = some r ∧
      r.result = ⟨true, some ⟨"forward"⟩⟩ ∧ r.calls = [(⟨"forward"⟩, [7])] := by
  obtain ⟨r, happly, hhit, -, hkeyed⟩ := apply_hit_iff (by decide) forwardLooksUp 1
  obtain ⟨haction, hcalls⟩ := hkeyed (by decide)
  refine ⟨r, happly, ?_, hcalls⟩
  have htrue : r.result.hit = true := hhit.mpr (.inr ⟨1, rfl, by decide⟩)
  obtain ⟨⟨hit, actionRun⟩, calls, smems⟩ := r
  exact congrArg₂ ApplyResult.mk htrue haction

/-- The entry 2 matches, but its action is `NoAction`. -/
theorem forwardTable_not_hit :
    ¬HitMeansMatched forwardData (fun key => (forwardMatched key).getD 0) forwardMatched := by
  intro h
  obtain ⟨r, happly, hhit⟩ := h 2
  obtain rfl := Option.some.inj happly
  exact absurd (hhit.mpr ⟨2, rfl⟩) (by decide)

end P4Table

end T4P4S
