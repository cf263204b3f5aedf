/-
Installing what a controller sends.

The callback looks the table up by its name, `X_setup_entry` or
`make_X_set_default_table_entry` the action, and `X_setup_key` takes the key from
the matches.  They go by the program's own counts, and cast the matches to the kind
of the table; the counts and types in the message are not looked at.

* **`copyParams_paramMembers`**, **`keyWrites_fields`**, **`setupKey_depth`** — the
  entry, the key and the depth are those of `ActionParams`, `TableKey` and
  `LpmDepth`, on the bitmaps that the pointers lead to.
* **`ctrlLaw_iff`** — a message that does not fit its table changes no replica, and the
  arrays are read below their counts, iff the message fits, or its table is unknown, or
  it adds an entry for an unknown action, or to a table without a key.
-/
import Mathlib.Logic.Relation
import T4P4S.ActionParams
import T4P4S.Handlers
import T4P4S.LpmDepth
import T4P4S.Replica

open ByteString

namespace T4P4S

/-! ### The program's tables -/

/-- The expression of a key element: a field, or a slice or method call, for which
`gen_fill_key_component` puts nothing into the member of the key. -/
inductive KeyExpr
  | field (k : KeyElement)
  | unfilled (memberAlign memberSize : ℕ)

/-- A key element. -/
structure KeyPart where
  matchOrder : ℕ
  matchType : LookupType
  expression : KeyExpr

/-- A table as the generator of the control plane sees it: `name` is its
`canonical_name`, and `keySize` the `key_size` in `table_config`. -/
structure CtrlTable where
  name : String
  matchType : LookupType
  keySize : ℕ
  keyElements : List KeyPart
  actions : List ActionDecl

/-- `sorted(table.key.keyElements, key = lambda k: k.match_order)` -/
def CtrlTable.sortedKey (table : CtrlTable) : List KeyPart :=
  table.keyElements.insertionSort fun a b => a.matchOrder ≤ b.matchOrder

/-- The type of the matches that a controller sends for the match kind. -/
def LookupType.fieldMatchType : LookupType → FieldMatchType
  | .exact => .exact
  | .lpm => .lpm
  | .ternary => .ternary

/-- The `bitmap` of a `p4_field_match_X`. -/
def LookupType.offBitmap : LookupType → ℕ
  | .exact | .lpm => 132
  | .ternary => 133

/-- `strcmp` of a name of the program with the string at `p`, with the result 0. -/
def strcmpEq (name : String) (mem : Buffer) (p : ℕ) : Bool :=
  let bytes : List Byte := name.toList.map fun c => BitVec.ofNat 8 c.toNat
  slice mem p (bytes.length + 1) = bytes ++ [0]

/-- The calls that change the tables. -/
inductive TableCall
  /-- `X_add_promote`; the depth is that of an lpm table, and there is no key if `NULL` is passed -/
  | addPromote (type : LookupType) (key : Option (List (Write Byte))) (depth : Option ℕ)
      (entry : ActionEntry)
  | setdefaultPromote (entry : ActionEntry)

/-- What handling a message comes to: the indices at which `action_params` and `field_matches`
are read, and the call for the table of that number. -/
structure CtrlHandling where
  params : List ℕ := []
  fieldMatches : List ℕ := []
  call : Option (ℕ × TableCall) := none

/-! ### The generated functions -/

section Generated

variable (align : ℕ → ℕ) (prog : List CtrlTable) (table : CtrlTable) (mem : Buffer)
  (ctrl : P4CtrlMsg) (stack : ℕ → ℕ → Byte)

/-- The action with the name in the message. -/
def CtrlTable.actionOf : Option ActionDecl :=
  table.actions.find? fun ao => strcmpEq ao.name mem ctrl.actionName

/-- The bitmap of a parameter of the message, as far as `memcpy` reads it. -/
def paramBitmap (i : ℕ) (p : ActionParam) : List Byte :=
  slice mem (ctrl.actionParams i + offParamBitmap) p.byteWidth

/-- The members for the parameters from the `i`-th one on.  The variable is not initialised:
`stack i` is what was in the `i`-th member. -/
def paramMembers : ℕ → List ActionParam → List (List Byte)
  | _, [] => []
  | i, p :: ps =>
    (paramBitmap mem ctrl i p ++ (slice (stack i) 0 p.memberSize).drop p.byteWidth) ::
      paramMembers (i + 1) ps

/-- The entry for an action, from the parameters of the message. -/
def messageEntry (ao : ActionDecl) : ActionEntry :=
  ⟨some ⟨ao.name⟩, paramMembers mem ctrl stack 0 ao.params⟩

/-- The indices at which the parameters of the action are read. -/
def CtrlTable.paramReads : List ℕ :=
  (table.actionOf mem ctrl).elim [] fun ao => List.range ao.params.length

namespace CtrlTable

/-- `X_setup_entry`; `none` if it returns false. -/
def setupEntry : Option ActionEntry := (table.actionOf mem ctrl).map (messageEntry mem ctrl stack)

/-- `make_X_set_default_table_entry` -/
def makeSetDefaultTableEntry : ActionEntry :=
  (table.actionOf mem ctrl).elim ⟨none, []⟩ (messageEntry mem ctrl stack)

/-- The bitmap of a match, which is cast to the kind of the table. -/
def matchBitmap (i : ℕ) (k : KeyElement) : List Byte :=
  slice mem (ctrl.fieldMatches i + table.matchType.offBitmap) (max maxFieldLength k.keyByteWidth)

/-- The members of the key from the `i`-th element on, as `gen_fill_key_component` fills them. -/
def keyWrites : ℕ → ℕ → List KeyPart → List (Write Byte)
  | _, _, [] => []
  | i, off, part :: parts =>
    match part.expression with
    | .field k =>
      ⟨alignUp off k.memberAlign, k.fillKeyComponent align (matchBitmap table mem ctrl i k)⟩ ::
        keyWrites (i + 1) (alignUp off k.memberAlign + k.memberSize) parts
    | .unfilled memberAlign memberSize =>
      keyWrites (i + 1) (alignUp off memberAlign + memberSize) parts

/-- `prefix_length += field_matches[i]->prefix_length`, for the lpm elements. -/
def prefixLengths : ℕ → ℕ → List KeyPart → ℕ
  | _, n, [] => n
  | i, n, part :: parts =>
    let n := if part.matchType = .lpm then
        (n + mem.number (ctrl.fieldMatches i + offMatchLength) 2) % 256
      else n
    prefixLengths (i + 1) n parts

/-- What the components add to the `prefix_length` of an lpm table. -/
def componentWidths : ℕ → List KeyPart → ℕ
  | n, [] => n
  | n, part :: parts =>
    match part.expression with
    | .field k =>
      componentWidths (if part.matchType = .ternary then n else (n + k.keyByteWidth) % 256) parts
    | .unfilled _ _ => componentWidths n parts

/-- `X_setup_key`: the key, and what it returns for an lpm table. -/
def setupKey : List (Write Byte) × Option ℕ :=
  (keyWrites align table mem ctrl 0 0 table.sortedKey,
    if table.matchType = .lpm then
      some (componentWidths (prefixLengths mem ctrl 0 0 table.sortedKey) table.sortedKey)
    else none)

/-- Whether `X_setup_key` reads the match of the element: its prefix length, or its bitmap. -/
def readsMatch (part : KeyPart) : Bool :=
  part.matchType = .lpm || match part.expression with
    | .field _ => true
    | .unfilled _ _ => false

/-- The indices at which `X_setup_key` reads the matches. -/
def matchReads : List ℕ :=
  (List.range table.sortedKey.length).filter fun i => table.sortedKey[i]?.any readsMatch

/-- `X_add_table_entry` -/
def addTableEntry (tid : ℕ) : CtrlHandling :=
  match table.setupEntry mem ctrl stack with
  | none => { params := table.paramReads mem ctrl }
  | some entry =>
    let key := if table.keyElements = [] then (none, none)
      else (some (table.setupKey align mem ctrl).1, (table.setupKey align mem ctrl).2)
    { params := table.paramReads mem ctrl
      fieldMatches := table.matchReads
      call := some (tid, .addPromote table.matchType key.1 key.2 entry) }

end CtrlTable

/-- The table with the name in the message, and its number. -/
def tableOf : Option (CtrlTable × ℕ) :=
  prog.zipIdx.find? fun t => strcmpEq t.1.name mem ctrl.tableName

/-- `ctrl_add_table_entry` -/
def ctrlAddTableEntry : CtrlHandling :=
  (tableOf prog mem ctrl).elim {} fun t => t.1.addTableEntry align mem ctrl stack t.2

/-- `ctrl_setdefault` -/
def ctrlSetdefault : CtrlHandling :=
  (tableOf prog mem ctrl).elim {} fun t =>
    { params := t.1.paramReads mem ctrl
      call := some (t.2, .setdefaultPromote (t.1.makeSetDefaultTableEntry mem ctrl stack)) }

/-- `recv_from_controller` -/
def recvFromController : CtrlHandling :=
  if ctrl.type = p4tAddTableEntry then ctrlAddTableEntry align prog mem ctrl stack
  else if ctrl.type = p4tSetDefaultAction then ctrlSetdefault prog mem ctrl stack
  else {}

end Generated

/-! ### The same functions on bitmaps -/

section Bitmaps

variable {align : ℕ → ℕ} (table : CtrlTable) (mem : Buffer) (ctrl : P4CtrlMsg)
  (stack : ℕ → ℕ → Byte)

theorem slice_drop_take {m : ℕ → Byte} {off n k : ℕ} (h : n ≤ k) :
    (slice m off k).take n = slice m off n := by
  obtain ⟨d, rfl⟩ := Nat.exists_eq_add_of_le h
  rw [slice_add, List.take_left' (length_slice ..)]

/-- The entry is the one that `ActionParams` makes from the bitmaps and the members. -/
theorem copyParams_paramMembers {ps : List ActionParam}
    (hps : ∀ p ∈ ps, p.byteWidth ≤ maxActionParameterBitmapLength) (i : ℕ) :
    copyParams ps ((ps.zipIdx i).map fun p => slice (stack p.2) 0 p.1.memberSize)
        ((ps.zipIdx i).map fun p => slice mem (ctrl.actionParams p.2 + offParamBitmap)
          maxActionParameterBitmapLength) =
      some (paramMembers mem ctrl stack i ps) := by
  induction ps generalizing i with
  | nil => rfl
  | cons p ps ih =>
    obtain ⟨hp, hrest⟩ := List.forall_mem_cons.mp hps
    rw [List.zipIdx_cons, List.map_cons, List.map_cons, copyParams, length_slice, if_pos hp,
      ih hrest, slice_drop_take hp]
    rfl

/-- The key of a table whose elements are fields is the one that `TableKey` makes from the
bitmaps. -/
theorem keyWrites_fields (ks : List (LookupType × KeyElement)) (i off : ℕ) :
    table.keyWrites align mem ctrl i off
        (ks.map fun k => ⟨k.2.matchOrder, k.1, .field k.2⟩) =
      setupKeyFrom align off
        ((ks.zipIdx i).map fun k => (k.1.2, table.matchBitmap mem ctrl k.2 k.1.2)) := by
  induction ks generalizing i off with
  | nil => rfl
  | cons k ks ih =>
    rw [List.zipIdx_cons, List.map_cons, List.map_cons, CtrlTable.keyWrites, setupKeyFrom]
    exact congrArg (List.cons _) (ih (i + 1) _)

/-- What `LpmDepth` has for the match of an element. -/
def keyMatchOf (i : ℕ) : LookupType → KeyMatch ℕ
  | .lpm => .lpm (mem.number (ctrl.fieldMatches i + offMatchLength) 2)
  | .exact | .ternary => .exact

theorem prefixLengths_fields (ks : List (LookupType × KeyElement)) (i n : ℕ) :
    CtrlTable.prefixLengths mem ctrl i n (ks.map fun k => ⟨k.2.matchOrder, k.1, .field k.2⟩) =
      ((ks.zipIdx i).map fun k => (k.1.2, keyMatchOf mem ctrl k.2 k.1.1)).foldl
        (fun n k => match k.2 with
          | .exact => n
          | .lpm len => (n + len) % 256) n := by
  induction ks generalizing i n with
  | nil => rfl
  | cons k ks ih =>
    obtain ⟨type, k⟩ := k
    cases type with
    | exact => exact ih (i + 1) n
    | lpm => exact ih (i + 1) _
    | ternary => exact ih (i + 1) n

theorem componentWidths_fields {ks : List (LookupType × KeyElement)}
    (hks : ∀ k ∈ ks, k.1 ≠ .ternary) (i n : ℕ) :
    CtrlTable.componentWidths n (ks.map fun k => ⟨k.2.matchOrder, k.1, .field k.2⟩) =
      ((ks.zipIdx i).map fun k => (k.1.2, keyMatchOf mem ctrl k.2 k.1.1)).foldl
        (fun n k => (n + k.1.keyByteWidth) % 256) n := by
  induction ks generalizing i n with
  | nil => rfl
  | cons k ks ih =>
    obtain ⟨hk, hrest⟩ := List.forall_mem_cons.mp hks
    refine Eq.trans ?_ (ih hrest (i + 1) ((n + k.2.keyByteWidth) % 256))
    rw [List.map_cons, CtrlTable.componentWidths]
    dsimp only
    rw [if_neg hk]

/-- The depth of an entry of an lpm table whose elements are fields is that of `LpmDepth`. -/
theorem setupKey_depth {ks : List (LookupType × KeyElement)} (hks : ∀ k ∈ ks, k.1 ≠ .ternary)
    (hlpm : table.matchType = .lpm)
    (hkey : table.sortedKey = ks.map fun k => ⟨k.2.matchOrder, k.1, .field k.2⟩) :
    (table.setupKey align mem ctrl).2 = some (setupKeyDepth
      ((ks.zipIdx 0).map fun k => (k.1.2, keyMatchOf mem ctrl k.2 k.1.1))) := by
  have hparts : table.sortedKey.Pairwise fun a b => a.matchOrder ≤ b.matchOrder :=
    List.pairwise_insertionSort _ _
  rw [hkey, List.pairwise_map] at hparts
  have hsorted : (((ks.zipIdx 0).map fun k => (k.1.2, keyMatchOf mem ctrl k.2 k.1.1)).map
      Prod.fst).Pairwise fun a b => a.matchOrder ≤ b.matchOrder := by
    have hfst : ((ks.zipIdx 0).map fun k => (k.1.2, keyMatchOf mem ctrl k.2 k.1.1)).map Prod.fst =
        (ks.zipIdx.map Prod.fst).map Prod.snd := by
      rw [List.map_map, List.map_map]
      rfl
    rw [hfst, List.zipIdx_map_fst, List.pairwise_map]
    exact hparts
  have hprefix := prefixLengths_fields mem ctrl ks 0 0
  have hwidths := componentWidths_fields mem ctrl hks 0
    (CtrlTable.prefixLengths mem ctrl 0 0 (ks.map fun k => ⟨k.2.matchOrder, k.1, .field k.2⟩))
  rw [CtrlTable.setupKey, if_pos hlpm, hkey, setupKeyDepth, sortedByMatchOrder_of_pairwise hsorted]
  refine congrArg some (hwidths.trans ?_)
  exact congrArg (fun n => List.foldl _ n _) hprefix

end Bitmaps

/-! ### The effect on the replicas -/

/-- What the functions for `CHANGE_TABLE` do with one replica, behind the test of `exact_add`,
`lpm_add` and `ternary_add` for tables without a key. -/
structure TableOps (T : Type) where
  add : LookupType → Option (List (Write Byte)) → Option ℕ → ActionEntry → T → T
  setDefaultAction : ActionEntry → T → T

/-- The function for `CHANGE_TABLE`, on a table whose key has that size. -/
def TableCall.run {T : Type} (ops : TableOps T) (keySize : ℕ) : TableCall → T → T
  | .addPromote type key depth entry => fun t =>
    if keySize = 0 then t else ops.add type key depth entry t
  | .setdefaultPromote entry => ops.setDefaultAction entry

def keySizeOf (prog : List CtrlTable) (tid : ℕ) : ℕ := (prog[tid]?).elim 0 CtrlTable.keySize

/-- The state in which the update of the tables begins, if there is one. -/
def CtrlHandling.begin {T : Type} (h : CtrlHandling) (ops : TableOps T) (prog : List CtrlTable)
    (st : ReplicaState T) : ReplicaState T :=
  h.call.elim st fun c => { st with ctl := .visit c.1 (c.2.run ops (keySizeOf prog c.1)) 0 }

/-- The control plane goes on with the update, or an lcore starts a packet. -/
def HandlingStep {T : Type} (C : ReplicaConfig T) (st st' : ReplicaState T) : Prop :=
  C.ctlStep st = some st' ∨ ∃ lcore, C.IsLcore lcore ∧ st' = ReplicaConfig.startPacketOn st lcore

/-- All replicas of all tables hold the same. -/
def SameTables {T : Type} (st st' : ReplicaState T) : Prop :=
  ∀ s tid r, (st'.socket s).tables tid r = (st.socket s).tables tid r

/-! ### The law -/

/-- The action is one of the table, with as many parameters as it needs, and if the message
adds an entry, its matches are those of the table's key. -/
structure FitsTable (table : CtrlTable) (mem : Buffer) (ctrl : P4CtrlMsg) : Prop where
  action : ∃ ao, table.actionOf mem ctrl = some ao ∧ ctrl.numActionParams = ao.params.length
  key : ctrl.type = p4tAddTableEntry → ctrl.numFieldMatches = table.keyElements.length ∧
    ∀ i part, table.sortedKey[i]? = some part →
      mem.number (ctrl.fieldMatches i + offMatchType) 1 = part.matchType.fieldMatchType.code

/-- The message adds an entry to a table of the program or sets its default action, and it
fits the table. -/
def MsgFitsTable (prog : List CtrlTable) (mem : Buffer) (ctrl : P4CtrlMsg) : Prop :=
  ∃ t, tableOf prog mem ctrl = some t ∧ FitsTable t.1 mem ctrl

/-- A message that adds an entry or sets a default action but does not fit changes no replica,
at no time, whatever the tables are; and of the arrays, only what was received is read. -/
structure CtrlLaw (align : ℕ → ℕ) (prog : List CtrlTable) (mem : Buffer) (ctrl : P4CtrlMsg) :
    Prop where
  rejects : ctrl.type = p4tAddTableEntry ∨ ctrl.type = p4tSetDefaultAction →
    ¬ MsgFitsTable prog mem ctrl → ∀ stack {T : Type} (C : ReplicaConfig T) (ops : TableOps T)
      (st st' : ReplicaState T), st.ctl = .idle →
      Relation.ReflTransGen (HandlingStep C)
        ((recvFromController align prog mem ctrl stack).begin ops prog st) st' → SameTables st st'
  params : ∀ stack, ∀ i ∈ (recvFromController align prog mem ctrl stack).params,
    i < ctrl.numActionParams
  fieldMatches : ∀ stack, ∀ i ∈ (recvFromController align prog mem ctrl stack).fieldMatches,
    i < ctrl.numFieldMatches

/-- The condition for it. -/
def CtrlGuarded (prog : List CtrlTable) (mem : Buffer) (ctrl : P4CtrlMsg) : Prop :=
  ∀ t, tableOf prog mem ctrl = some t →
    (ctrl.type = p4tSetDefaultAction → FitsTable t.1 mem ctrl) ∧
    (ctrl.type = p4tAddTableEntry → ∀ ao, t.1.actionOf mem ctrl = some ao →
      FitsTable t.1 mem ctrl ∨ (t.1.keySize = 0 ∧ ao.params.length ≤ ctrl.numActionParams ∧
        ∀ i ∈ t.1.matchReads, i < ctrl.numFieldMatches))

/-! ### Updates that change nothing -/

section Unchanged

variable {T : Type} {C : ReplicaConfig T} {st st' : ReplicaState T}

/-- The function with which the control plane is changing a table. -/
def ctlFn : Ctl T → Option (T → T)
  | .idle => none
  | .visit _ fn _ => some fn
  | .switching _ fn _ _ _ => some fn
  | .waiting _ fn _ _ _ => some fn
  | .mutateRest _ fn _ _ _ => some fn

/-- No update is going on, or one that changes nothing. -/
def Inert (st : ReplicaState T) : Prop := ∀ fn, ctlFn st.ctl = some fn → ∀ t, fn t = t

theorem SameTables.trans {st'' : ReplicaState T} (h : SameTables st st')
    (h' : SameTables st' st'') : SameTables st st'' :=
  fun s tid r => (h' s tid r).trans (h s tid r)

theorem sameTables_mutate {fn : T → T} (hfn : ∀ t, fn t = t) (p : TablePtr) :
    SameTables st (st.mutate p fn) := by
  intro s tid r
  have hid : fn = id := funext hfn
  rw [ReplicaConfig.mutate_tables]
  split_ifs with hp
  · obtain ⟨rfl, rfl, rfl⟩ := hp
    rw [hid, Option.map_id_fun, id]
  · rfl

theorem sameTables_point_activate (lcore : ℕ) (p : TablePtr) :
    SameTables st ((st.point lcore p).activate p) := by
  intro s tid r
  rw [ReplicaConfig.activate_tables]
  rfl

theorem inert_ctlStep (hst : Inert st) (h : C.ctlStep st = some st') :
    SameTables st st' ∧ Inert st' := by
  rw [ReplicaConfig.ctlStep] at h
  unfold Inert at hst ⊢
  split at h
  next => cases h
  next tid fn socketid hctl =>
    rw [hctl] at hst
    have hfn : ∀ t, fn t = t := hst fn rfl
    have hnext : ∀ fn', some fn = some fn' → ∀ t, fn' t = t := by
      rintro fn' ⟨⟩
      exact hfn
    split_ifs at h
    · obtain rfl := Option.some.inj h
      exact ⟨sameTables_mutate hfn _, hnext⟩
    · obtain rfl := Option.some.inj h
      exact ⟨fun _ _ _ => rfl, hnext⟩
    · obtain rfl := Option.some.inj h
      exact ⟨fun _ _ _ => rfl, fun fn' hnone => absurd hnone (by simp [ctlFn])⟩
  next tid fn socketid next lcore hctl =>
    rw [hctl] at hst
    split_ifs at h
    · obtain rfl := Option.some.inj h
      exact ⟨sameTables_point_activate lcore _, hst⟩
    · obtain rfl := Option.some.inj h
      exact ⟨fun _ _ _ => rfl, hst⟩
    · obtain rfl := Option.some.inj h
      exact ⟨fun _ _ _ => rfl, hst⟩
  next tid fn socketid next begun hctl =>
    rw [hctl] at hst
    split_ifs at h
    obtain rfl := Option.some.inj h
    exact ⟨fun _ _ _ => rfl, hst⟩
  next tid fn socketid next replica hctl =>
    rw [hctl] at hst
    split_ifs at h
    · obtain rfl := Option.some.inj h
      exact ⟨sameTables_mutate (hst fn rfl) _, hst⟩
    · obtain rfl := Option.some.inj h
      exact ⟨fun _ _ _ => rfl, hst⟩
    · obtain rfl := Option.some.inj h
      exact ⟨fun _ _ _ => rfl, hst⟩

/-- A packet has nothing to do with the update. -/
theorem inert_startPacketOn (hst : Inert st) (lcore : ℕ) :
    SameTables st (ReplicaConfig.startPacketOn st lcore) ∧
      Inert (ReplicaConfig.startPacketOn st lcore) := by
  refine ⟨fun _ _ _ => rfl, ?_⟩
  have hctl : ctlFn (ReplicaConfig.startPacketOn st lcore).ctl = ctlFn st.ctl := by
    rw [ReplicaConfig.startPacketOn]
    dsimp only
    split
    next h => rw [h]; rfl
    next => rfl
  rw [Inert, hctl]
  exact hst

/-- The tables stay as they are as long as nothing but such an update is going on. -/
theorem sameTables_of_inert {st₀ : ReplicaState T} (hst₀ : Inert st₀)
    (h : Relation.ReflTransGen (HandlingStep C) st₀ st') : SameTables st₀ st' := by
  suffices hboth : SameTables st₀ st' ∧ Inert st' from hboth.1
  induction h with
  | refl => exact ⟨fun _ _ _ => rfl, hst₀⟩
  | tail _ hstep ih =>
    obtain hctl | ⟨lcore, -, rfl⟩ := hstep
    · obtain ⟨hsame, hinert⟩ := inert_ctlStep ih.2 hctl
      exact ⟨ih.1.trans hsame, hinert⟩
    · obtain ⟨hsame, hinert⟩ := inert_startPacketOn ih.2 lcore
      exact ⟨ih.1.trans hsame, hinert⟩

end Unchanged

/-! ### Updates that change something -/

/-- What is in a table: the entries, the last one first, and the default action. -/
structure TableContent where
  entries : List (LookupType × Option (List (Write Byte)) × Option ℕ × ActionEntry)
  defaultAction : Option ActionEntry

/-- Tables that take whatever they are given. -/
def contentOps : TableOps TableContent where
  add type key depth entry t := { t with entries := (type, key, depth, entry) :: t.entries }
  setDefaultAction entry t := { t with defaultAction := some entry }

/-- A state in which all tables hold `t`. -/
def tablesOf (t : TableContent) : ReplicaState TableContent where
  socket _ := ⟨fun _ _ => some t, fun _ => 0⟩
  lcoreTables _ _ := none
  inWork _ _ := none
  ctl := .idle

/-- A machine without lcores. -/
def noLcores : ReplicaConfig TableContent where
  nbTables := 1
  maxLcore := 0
  enabled _ := false
  rteSocket _ := 0
  numaOn := false
  fresh _ := ⟨[], none⟩

/-- The first step of an update that changes `t` changes a replica that holds `t`. -/
theorem not_sameTables_of_update {tid : ℕ} {fn : TableContent → TableContent} {t : TableContent}
    (hfn : fn t ≠ t) : ∃ st', noLcores.ctlStep { tablesOf t with ctl := .visit tid fn 0 } =
      some st' ∧ ¬ SameTables (tablesOf t) st' := by
  refine ⟨_, rfl, ?_⟩
  intro hsame
  have hreplica := hsame 0 tid 1
  simp [ReplicaState.mutate, tablesOf, nbReplica] at hreplica
  exact hfn hreplica

/-! ### What a message comes to -/

section Message

variable {align : ℕ → ℕ} {prog : List CtrlTable} {table : CtrlTable} {mem : Buffer}
  {ctrl : P4CtrlMsg} {stack : ℕ → ℕ → Byte} {t : CtrlTable × ℕ} {ao : ActionDecl}

theorem keySizeOf_tableOf (h : tableOf prog mem ctrl = some t) :
    keySizeOf prog t.2 = t.1.keySize := by
  have hget := List.mem_zipIdx_iff_getElem?.mp (List.mem_of_find?_eq_some h)
  rw [keySizeOf, hget]
  rfl

theorem lt_of_mem_matchReads {i : ℕ} (hi : i ∈ table.matchReads) :
    i < table.keyElements.length := by
  have hlt := List.mem_range.mp (List.mem_filter.mp hi).1
  rwa [CtrlTable.sortedKey, List.length_insertionSort] at hlt

theorem addTableEntry_of_some (h : table.actionOf mem ctrl = some ao) (tid : ℕ) :
    ∃ key depth, table.addTableEntry align mem ctrl stack tid =
      { params := List.range ao.params.length
        fieldMatches := table.matchReads
        call := some (tid, .addPromote table.matchType key depth
          (messageEntry mem ctrl stack ao)) } := by
  simp only [CtrlTable.addTableEntry, CtrlTable.setupEntry, CtrlTable.paramReads, h,
    Option.map_some, Option.elim_some]
  exact ⟨_, _, rfl⟩

/-- No entry is added for an action that the table does not have. -/
theorem addTableEntry_of_none (h : table.actionOf mem ctrl = none) (tid : ℕ) :
    table.addTableEntry align mem ctrl stack tid = {} := by
  simp only [CtrlTable.addTableEntry, CtrlTable.setupEntry, CtrlTable.paramReads, h,
    Option.map_none, Option.elim_none]

theorem recvFromController_add (htype : ctrl.type = p4tAddTableEntry)
    (ht : tableOf prog mem ctrl = some t) :
    recvFromController align prog mem ctrl stack = t.1.addTableEntry align mem ctrl stack t.2 := by
  rw [recvFromController, if_pos htype, ctrlAddTableEntry, ht]
  rfl

theorem recvFromController_setdefault (htype : ctrl.type = p4tSetDefaultAction)
    (ht : tableOf prog mem ctrl = some t) :
    recvFromController align prog mem ctrl stack =
      { params := t.1.paramReads mem ctrl
        call := some (t.2, .setdefaultPromote (t.1.makeSetDefaultTableEntry mem ctrl stack)) } := by
  have hadd : ctrl.type ≠ p4tAddTableEntry := by
    rw [htype]
    decide
  rw [recvFromController, if_neg hadd, if_pos htype, ctrlSetdefault, ht]
  rfl

/-- Nothing comes of a message for a table that the program does not have. -/
theorem recvFromController_of_none (h : tableOf prog mem ctrl = none) :
    recvFromController align prog mem ctrl stack = {} := by
  rw [recvFromController, ctrlAddTableEntry, ctrlSetdefault, h]
  simp only [Option.elim_none, ite_self]

theorem recvFromController_of_type (hadd : ctrl.type ≠ p4tAddTableEntry)
    (hset : ctrl.type ≠ p4tSetDefaultAction) :
    recvFromController align prog mem ctrl stack = {} := by
  rw [recvFromController, if_neg hadd, if_neg hset]

/-- A message that fits has as many parameters as are read. -/
theorem FitsTable.mem_paramReads (h : FitsTable table mem ctrl) {i : ℕ}
    (hi : i ∈ table.paramReads mem ctrl) : i < ctrl.numActionParams := by
  obtain ⟨ao, hao, hparams⟩ := h.action
  rw [CtrlTable.paramReads, hao] at hi
  rw [hparams]
  exact List.mem_range.mp hi

/-! ### The law -/

/-- A message that should be rejected has no update, or one that changes nothing. -/
theorem CtrlLaw.run_eq (h : CtrlLaw align prog mem ctrl)
    (htype : ctrl.type = p4tAddTableEntry ∨ ctrl.type = p4tSetDefaultAction)
    (hmisfit : ¬ MsgFitsTable prog mem ctrl) {tid : ℕ} {call : TableCall}
    (hcall : (recvFromController align prog mem ctrl stack).call = some (tid, call))
    (content : TableContent) : call.run contentOps (keySizeOf prog tid) content = content := by
  by_contra hfn
  obtain ⟨st', hstep, hne⟩ := @not_sameTables_of_update tid _ content hfn
  refine hne (h.rejects htype hmisfit stack noLcores contentOps _ st' rfl ?_)
  rw [CtrlHandling.begin, hcall]
  exact .single (.inl hstep)

/-- The replicas stay as they are if there is no such update. -/
theorem sameTables_of_run_eq {T : Type} {C : ReplicaConfig T} {ops : TableOps T}
    {h : CtrlHandling} {st st' : ReplicaState T} (hidle : st.ctl = .idle)
    (hrun : ∀ c, h.call = some c → ∀ t, c.2.run ops (keySizeOf prog c.1) t = t)
    (hsteps : Relation.ReflTransGen (HandlingStep C) (h.begin ops prog st) st') :
    SameTables st st' := by
  rcases hcall : h.call with _ | c
  · have hbegin : h.begin ops prog st = st := by
      rw [CtrlHandling.begin, hcall]
      rfl
    rw [hbegin] at hsteps
    refine sameTables_of_inert ?_ hsteps
    intro fn hfn
    rw [hidle] at hfn
    exact absurd hfn (by simp [ctlFn])
  · have hbegin : h.begin ops prog st =
        { st with ctl := .visit c.1 (c.2.run ops (keySizeOf prog c.1)) 0 } := by
      rw [CtrlHandling.begin, hcall]
      rfl
    rw [hbegin] at hsteps
    have hinert : Inert { st with ctl := .visit c.1 (c.2.run ops (keySizeOf prog c.1)) 0 } := by
      intro fn hfn
      obtain rfl := Option.some.inj hfn
      exact hrun c hcall
    have hsame := sameTables_of_inert hinert hsteps
    exact hsame

/-- The arrays are read below their counts, as far as the message decides it. -/
theorem reads_of_guarded (h : CtrlGuarded prog mem ctrl) :
    (∀ i ∈ (recvFromController align prog mem ctrl stack).params, i < ctrl.numActionParams) ∧
      ∀ i ∈ (recvFromController align prog mem ctrl stack).fieldMatches,
        i < ctrl.numFieldMatches := by
  have hnone : ∀ handling : CtrlHandling, handling = {} →
      (∀ i ∈ handling.params, i < ctrl.numActionParams) ∧
        ∀ i ∈ handling.fieldMatches, i < ctrl.numFieldMatches := by
    rintro _ rfl
    exact ⟨fun _ hi => absurd hi List.not_mem_nil, fun _ hi => absurd hi List.not_mem_nil⟩
  rcases ht : tableOf prog mem ctrl with _ | t
  · exact hnone _ (recvFromController_of_none ht)
  obtain ⟨hset, hadd⟩ := h t ht
  by_cases hentry : ctrl.type = p4tAddTableEntry
  · rw [recvFromController_add hentry ht]
    rcases hao : t.1.actionOf mem ctrl with _ | ao
    · exact hnone _ (addTableEntry_of_none hao t.2)
    · obtain ⟨key, depth, hcall⟩ := addTableEntry_of_some hao t.2
      rw [hcall]
      dsimp only
      obtain hfits | ⟨-, hparams, hmatches⟩ := hadd hentry ao hao
      · refine ⟨?_, ?_⟩
        · intro i hi
          refine hfits.mem_paramReads ?_
          rw [CtrlTable.paramReads, hao]
          exact hi
        · intro i hi
          rw [(hfits.key hentry).1]
          exact lt_of_mem_matchReads hi
      · exact ⟨fun i hi => (List.mem_range.mp hi).trans_le hparams, hmatches⟩
  by_cases hdefault : ctrl.type = p4tSetDefaultAction
  · rw [recvFromController_setdefault hdefault ht]
    exact ⟨fun i hi => (hset hdefault).mem_paramReads hi, fun _ hi => absurd hi List.not_mem_nil⟩
  · exact hnone _ (recvFromController_of_type hentry hdefault)

/-- The update of a message that is guarded but does not fit changes nothing. -/
theorem run_eq_of_guarded (h : CtrlGuarded prog mem ctrl) (hmisfit : ¬ MsgFitsTable prog mem ctrl)
    {T : Type} (ops : TableOps T) :
    ∀ c, (recvFromController align prog mem ctrl stack).call = some c →
      ∀ x, c.2.run ops (keySizeOf prog c.1) x = x := by
  intro c hcall
  rcases ht : tableOf prog mem ctrl with _ | t
  · rw [recvFromController_of_none ht] at hcall
    exact absurd hcall (by simp)
  obtain ⟨hset, hadd⟩ := h t ht
  by_cases hentry : ctrl.type = p4tAddTableEntry
  · rw [recvFromController_add hentry ht] at hcall
    rcases hao : t.1.actionOf mem ctrl with _ | ao
    · rw [addTableEntry_of_none hao] at hcall
      exact absurd hcall (by simp)
    · obtain ⟨key, depth, hentryCall⟩ := addTableEntry_of_some hao t.2
      rw [hentryCall] at hcall
      obtain rfl := Option.some.inj hcall
      obtain hfits | ⟨hkey, -⟩ := hadd hentry ao hao
      · exact absurd ⟨t, ht, hfits⟩ hmisfit
      · intro x
        exact if_pos ((keySizeOf_tableOf ht).trans hkey)
  by_cases hdefault : ctrl.type = p4tSetDefaultAction
  · exact absurd ⟨t, ht, hset hdefault⟩ hmisfit
  · rw [recvFromController_of_type hentry hdefault] at hcall
    exact absurd hcall (by simp)

end Message

/-- **A message that does not fit its table changes no replica, and the arrays are read below
their counts, iff the message fits, or its table is unknown, or it adds an entry for an unknown
action, or to a table without a key while the arrays have what is read.** -/
theorem ctrlLaw_iff (align : ℕ → ℕ) (prog : List CtrlTable) (mem : Buffer) (ctrl : P4CtrlMsg) :
    CtrlLaw align prog mem ctrl ↔ CtrlGuarded prog mem ctrl := by
  constructor
  · intro h t ht
    -- The table is the only one with the name, so what does not fit it does not fit.
    have hmisfit : ¬ FitsTable t.1 mem ctrl → ¬ MsgFitsTable prog mem ctrl := by
      rintro hnot ⟨t', ht', hfits⟩
      obtain rfl := Option.some.inj (ht.symm.trans ht')
      exact hnot hfits
    refine ⟨?_, ?_⟩
    · intro hdefault
      by_contra hnot
      have hcall : (recvFromController align prog mem ctrl fun _ _ => 0).call = some (t.2,
          .setdefaultPromote (t.1.makeSetDefaultTableEntry mem ctrl fun _ _ => 0)) := by
        rw [recvFromController_setdefault hdefault ht]
      have hrun := h.run_eq (.inr hdefault) (hmisfit hnot) hcall ⟨[], none⟩
      exact absurd (congrArg TableContent.defaultAction hrun) (Option.some_ne_none _)
    · intro hentry ao hao
      by_cases hfits : FitsTable t.1 mem ctrl
      · exact .inl hfits
      · obtain ⟨key, depth, hadd⟩ :=
          @addTableEntry_of_some align t.1 mem ctrl (fun _ _ => 0) ao hao t.2
        rw [← recvFromController_add hentry ht] at hadd
        have hparams := h.params fun _ _ => 0
        have hmatches := h.fieldMatches fun _ _ => 0
        rw [hadd] at hparams hmatches
        refine .inr ⟨?_, ?_, hmatches⟩
        · by_contra hkey
          have hcall := congrArg CtrlHandling.call hadd
          have hrun := h.run_eq (.inl hentry) (hmisfit hfits) hcall ⟨[], none⟩
          rw [keySizeOf_tableOf ht, TableCall.run] at hrun
          simp only [if_neg hkey] at hrun
          exact absurd (congrArg TableContent.entries hrun) (List.cons_ne_nil _ _)
        · by_contra hlt
          exact absurd (hparams _ (List.mem_range.mpr (Nat.not_le.mp hlt))) (Nat.lt_irrefl _)
  · intro h
    refine ⟨?_, fun _ => (reads_of_guarded h).1, fun _ => (reads_of_guarded h).2⟩
    intro _ hmisfit stack T C ops st st' hidle hsteps
    exact sameTables_of_run_eq hidle (run_eq_of_guarded h hmisfit ops) hsteps

/-- A table with an action `a` without parameters. -/
def tableT : CtrlTable where
  name := "t"
  matchType := .exact
  keySize := 0
  keyElements := []
  actions := [⟨"a", []⟩]

/-- The names `t` and `b`. -/
def namesTB : Buffer := run [⟨0, [116, 0]⟩, ⟨2, [98, 0]⟩] fun _ => 0

/-- A message that makes `b` the default action of `t`. -/
def setDefaultB : P4CtrlMsg :=
  { (default : P4CtrlMsg) with type := 103, tableName := 0, actionName := 2 }

/-- The default action becomes `INVALID_ACTION`. -/
theorem not_ctrlLaw : ¬ CtrlLaw align8or16or32 [tableT] namesTB setDefaultB := by
  intro h
  have htable : tableOf [tableT] namesTB setDefaultB = some (tableT, 0) := rfl
  have haction : tableT.actionOf namesTB setDefaultB = none := rfl
  have hmisfit : ¬ MsgFitsTable [tableT] namesTB setDefaultB := by
    rintro ⟨t, ht, hfits⟩
    obtain rfl := Option.some.inj (htable.symm.trans ht)
    obtain ⟨ao, hao, -⟩ := hfits.action
    exact absurd (haction.symm.trans hao) (by simp)
  have hcall := congrArg CtrlHandling.call
    (@recvFromController_setdefault align8or16or32 _ _ _ (fun _ _ => 0) _ rfl htable)
  have hrun := h.run_eq (.inr rfl) hmisfit hcall ⟨[], none⟩
  exact absurd (congrArg TableContent.defaultAction hrun) (Option.some_ne_none _)

end T4P4S
