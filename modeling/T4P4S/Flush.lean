/-
Flushing a table.

`flush_table` and `create_table` choose the functions by the kind of the table.
A flushed table should be as good as a new one.

* **`flushTable_asFresh_iff`** — it is so iff the table has no keys, or is an
  exact table without an entry.
-/
import T4P4S.Exact
import T4P4S.Lpm
import T4P4S.Ternary

namespace T4P4S

/-! ### The kinds of tables -/

/-- The functions of one kind of table, with `Add` the arguments of its add. -/
structure TableKind (c : TableConfig) where
  T : Type
  Add : Type
  create : Except Halt T
  add : LookupTable c T → Add → Except Halt (LookupTable c T)
  lookup : LookupTable c T → Key c → Except Halt (Option EntryPtr)
  flush : LookupTable c T → Except Halt (LookupTable c T)

variable {c : TableConfig} (H : RteHash (Key c)) (L4 : RteLpm (BitVec 32)) (L6 : RteLpm Lpm6Key)

/-- `exact_flush` resets the hash first, so that there is no key left to delete.
The call of `exact_delete` in the loop would get the hash in place of the table. -/
def exactFlush (t : ExactTable H) : Except Halt (ExactTable H) :=
  match t.table with
  | none => .error .undefined
  | some ext =>
    let rteTable := H.reset ext.rteTable
    match H.iterate rteTable 0 with
    | some _ => .error .undefined
    | none => .ok { t with table := some { ext with rteTable := rteTable } }

abbrev exactKind : TableKind c where
  T := ExtendedTable H.State
  Add := Key c × TableAction c
  create := .ok (createExtTable H.create)
  add t a := exactAdd t a.1 a.2
  lookup t key := .ok (exactLookup t key)
  flush := exactFlush H

/-- `rte_lpm_delete_all` or `rte_lpm6_delete_all`, by the size of the key. -/
def RteLpmTable.deleteAll (c : TableConfig) : RteLpmTable L4 L6 → Except Halt (RteLpmTable L4 L6)
  | .lpm4 l => if c.keySize ≤ 4 then .ok (.lpm4 (L4.deleteAll l)) else .error .undefined
  | .lpm6 l =>
    if c.keySize ≤ 4 then .error .undefined
    else if c.keySize ≤ lpm6ByteSizeLimit then .ok (.lpm6 (L6.deleteAll l))
    else .ok (.lpm6 l)

/-- `lpm_flush` -/
def lpmFlush (t : LpmTable (c := c) L4 L6) : Except Halt (LpmTable (c := c) L4 L6) :=
  match t.table with
  | none => .error .undefined
  | some ext => do
    let heap ← match ext.content ext.size with
      | some p => t.heap.free p
      | none => .error .undefined
    let rteTable ← ext.rteTable.deleteAll L4 L6 c
    return { t with heap := heap, table := some { ext with rteTable := rteTable } }

abbrev lpmKind : TableKind c where
  T := ExtendedTable (RteLpmTable L4 L6)
  Add := Key c × ℕ × TableAction c
  create := lpmCreate L4 L6 c
  add t a := lpmAdd t a.1 a.2.1 a.2.2
  lookup t key := .ok (lpmLookup t key)
  flush := lpmFlush L4 L6

abbrev ternaryKind : TableKind c where
  T := TernaryTable
  Add := Key c × Key c × TableAction c
  create := .ok (ternaryCreate c)
  add t a := ternaryAdd t a.1 a.2.1 a.2.2
  lookup := ternaryLookup
  flush := ternaryFlush

/-- `switch (t->type)` -/
def tableKind : LookupType → TableKind c
  | .exact => exactKind H
  | .lpm => lpmKind L4 L6
  | .ternary => ternaryKind

namespace TableKind

variable {H L4 L6} (k : TableKind c)

/-- A new table with the default action `d`. -/
def fresh (d : TableAction c) : Except Halt (LookupTable c k.T) :=
  if c.keySize = 0 then
    .ok { defaultVal := some 0, table := none, heap := { blocks := [fillTableEntry d] } }
  else do
    let table ← k.create
    return freshTable c table d

/-- `flush_table` -/
def flushTable (t : LookupTable c k.T) : Except Halt (LookupTable c k.T) :=
  if c.keySize = 0 then .ok t else k.flush t

/-- A call of the control plane or of the data plane. -/
inductive Op
  | add (a : k.Add)
  | lookup (key : Key c)

/-- A run of calls, with the entries that the lookups return. -/
def run (t : LookupTable c k.T) :
    List k.Op → Except Halt (LookupTable c k.T × List (Option (List Byte)))
  | [] => .ok (t, [])
  | .add a :: ops => do
    let t ← k.add t a
    run t ops
  | .lookup key :: ops => do
    let p ← k.lookup t key
    let (t', entries) ← run t ops
    return (t', t.entry p :: entries)

/-- The table `t'`, which `t` became by a flush, is as good as the new table `t₀`. -/
structure AsFresh (d : TableAction c) (t₀ t t' : LookupTable c k.T) : Prop where
  results : ∀ ops, (k.run t' ops).map Prod.snd = (k.run t₀ ops).map Prod.snd
  lookup_default : ∀ key, k.lookup t' key = .ok t'.defaultVal
  entry_default : t'.entry t'.defaultVal = some (fillTableEntry d)
  released : ∀ p < t.heap.blocks.length, t.defaultVal ≠ some p → t'.heap.freed.count p = 1
  not_freed : ∀ ops t'' entries, k.run t' ops = .ok (t'', entries) →
    ∀ key p, k.lookup t'' key = .ok (some p) → p ∉ t''.heap.freed

/-! ### Tables that nothing was added to -/

variable {k} {d : TableAction c} {t₀ : LookupTable c k.T}

theorem fresh_fields (h₀ : k.fresh d = .ok t₀) :
    t₀.defaultVal = some 0 ∧ t₀.heap = { blocks := [fillTableEntry d] } := by
  unfold fresh at h₀
  split_ifs at h₀ with hkey
  · obtain rfl := Except.ok.inj h₀
    exact ⟨rfl, rfl⟩
  · obtain ⟨table, -, hret⟩ := bind_eq_ok.mp h₀
    obtain rfl := Except.ok.inj hret
    exact ⟨rfl, rfl⟩

theorem fresh_table (hkey : c.keySize ≠ 0) (h₀ : k.fresh d = .ok t₀) :
    ∃ table, k.create = .ok table ∧ t₀.table = some table := by
  rw [fresh, if_neg hkey] at h₀
  obtain ⟨table, hcreate, hret⟩ := bind_eq_ok.mp h₀
  obtain rfl := Except.ok.inj hret
  exact ⟨table, hcreate, if_neg hkey⟩

/-- A run of calls frees nothing when no add does. -/
theorem run_freed (hadd : ∀ t a t', k.add t a = .ok t' → t'.heap.freed = t.heap.freed)
    {ops : List k.Op} {t t' : LookupTable c k.T} {entries : List (Option (List Byte))}
    (h : k.run t ops = .ok (t', entries)) : t'.heap.freed = t.heap.freed := by
  induction ops generalizing t entries with
  | nil =>
    obtain ⟨rfl, -⟩ := Prod.mk.inj (Except.ok.inj h)
    rfl
  | cons op ops ih =>
    cases op with
    | add a =>
      obtain ⟨t₁, ha, hrest⟩ := bind_eq_ok.mp h
      rw [ih hrest, hadd t a t₁ ha]
    | lookup key =>
      obtain ⟨p, -, hrest⟩ := bind_eq_ok.mp h
      obtain ⟨⟨t₁, entries₁⟩, hrun, hret⟩ := bind_eq_ok.mp hrest
      obtain ⟨rfl, -⟩ := Prod.mk.inj (Except.ok.inj hret)
      exact ih hrun

/-- A new table that a flush does not change is as good as new. -/
theorem asFresh_self (h₀ : k.fresh d = .ok t₀)
    (hadd : ∀ t a t', k.add t a = .ok t' → t'.heap.freed = t.heap.freed)
    (hlookup : ∀ key, k.lookup t₀ key = .ok t₀.defaultVal) : k.AsFresh d t₀ t₀ t₀ := by
  obtain ⟨hdefault, hheap⟩ := fresh_fields h₀
  constructor
  · intro ops
    rfl
  · exact hlookup
  · rw [LookupTable.entry, hdefault, hheap]
    rfl
  · intro p hp hne
    rw [hheap] at hp
    rw [hdefault] at hne
    exact absurd (congrArg some (Nat.lt_one_iff.mp hp).symm) hne
  · intro ops t'' entries hrun key p _
    rw [run_freed hadd hrun, hheap]
    exact List.not_mem_nil

/-- A table without keys stays as it is. -/
theorem flushTable_asFresh_of_keyless (hkey : c.keySize = 0)
    (hadd : ∀ t a, k.add t a = .ok t) (hlookup : ∀ t key, k.lookup t key = .ok t.defaultVal)
    (h₀ : k.fresh d = .ok t₀) {adds : List k.Add} {t : LookupTable c k.T}
    (hadds : adds.foldlM k.add t₀ = .ok t) :
    ∃ t', k.flushTable t = .ok t' ∧ k.AsFresh d t₀ t t' := by
  have ht : t = t₀ := by
    refine foldlM_inv (P := fun t => t = t₀) ?_ rfl hadds
    intro s a s' hs ha
    rw [hadd] at ha
    rw [← Except.ok.inj ha, hs]
  subst ht
  refine ⟨t, if_pos hkey, asFresh_self h₀ ?_ (hlookup t)⟩
  intro s a s' ha
  rw [hadd] at ha
  rw [Except.ok.inj ha]

end TableKind

/-! ### Exact tables -/

section Exact

variable {H} {index : H.State → Key c → Option ℕ} (hH : H.Documented index)
  {d : TableAction c} {t₀ t : ExactTable H} {adds : List (Key c × TableAction c)}

theorem exactAdd_freed {t t' : ExactTable H} {a : Key c × TableAction c}
    (h : exactAdd t a.1 a.2 = .ok t') : t'.heap.freed = t.heap.freed := by
  obtain ⟨-, rfl⟩ | ⟨ext, -, -, -, -, rfl⟩ := exactAdd_cases h
  · rfl
  · rfl

theorem exactFlush_heap {t t' : ExactTable H} (h : exactFlush H t = .ok t') :
    t'.heap = t.heap := by
  unfold exactFlush at h
  split at h
  · cases h
  · dsimp only at h
    split at h
    · cases h
    · obtain rfl := Except.ok.inj h
      rfl

include hH in
/-- Without keys in the hash, the reset of the hash changes nothing. -/
theorem exactFlush_fresh (hkey : c.keySize ≠ 0) (h₀ : (exactKind H).fresh d = .ok t₀) :
    exactFlush H t₀ = .ok t₀ := by
  obtain ⟨table, hcreate, htable⟩ := TableKind.fresh_table hkey h₀
  obtain rfl := Except.ok.inj hcreate
  have hreset : H.reset H.create = H.create := hH.reset_eq _
  have hiterate : H.iterate H.create 0 = none := hH.iterate_none _ 0 hH.index_create
  obtain ⟨defaultVal, table, heap⟩ := t₀
  obtain rfl : table = some (createExtTable H.create) := htable
  simp [exactFlush, createExtTable, hreset, hiterate]

include hH in
/-- An exact table is as good as new iff nothing was added: the entries of a
flushed table are never freed. -/
theorem exactFlush_asFresh_iff (hkey : c.keySize ≠ 0) (h₀ : (exactKind H).fresh d = .ok t₀)
    (hadds : adds.foldlM (exactKind H).add t₀ = .ok t) :
    (∃ t', (exactKind H).flushTable t = .ok t' ∧ (exactKind H).AsFresh d t₀ t t') ↔
      adds = [] := by
  obtain ⟨hdefault, hheap⟩ := TableKind.fresh_fields h₀
  constructor
  · rintro ⟨t', hflush, hfresh⟩
    cases adds with
    | nil => rfl
    | cons a adds =>
      rw [List.foldlM_cons] at hadds
      obtain ⟨t₁, ha, hrest⟩ := bind_eq_ok.mp hadds
      -- the first entry is still there when the flush comes
      have hkept : t.defaultVal = some 0 ∧ t.heap.freed = [] ∧ 1 < t.heap.blocks.length := by
        refine foldlM_inv (P := fun t : ExactTable H =>
          t.defaultVal = some 0 ∧ t.heap.freed = [] ∧ 1 < t.heap.blocks.length) ?_ ?_ hrest
        · rintro s b s' ⟨hsd, hsf, hsl⟩ hb
          obtain ⟨hzero, -⟩ | ⟨ext, -, -, -, -, rfl⟩ := exactAdd_cases hb
          · contradiction
          · refine ⟨hsd, hsf, ?_⟩
            show 1 < (s.heap.blocks ++ [_]).length
            rw [List.length_append]
            omega
        · obtain ⟨hzero, -⟩ | ⟨ext, -, -, -, -, rfl⟩ := exactAdd_cases ha
          · contradiction
          · refine ⟨hdefault, ?_, ?_⟩
            · show t₀.heap.freed = []
              rw [hheap]
            · show 1 < (t₀.heap.blocks ++ [_]).length
              rw [hheap]
              exact Nat.lt_succ_self 1
      have hcount := hfresh.released 1 hkept.2.2 (by rw [hkept.1]; simp)
      rw [TableKind.flushTable, if_neg hkey] at hflush
      rw [exactFlush_heap hflush, hkept.2.1] at hcount
      simp at hcount
  · rintro rfl
    obtain rfl : t₀ = t := Except.ok.inj hadds
    refine ⟨t₀, ?_, TableKind.asFresh_self h₀ (fun _ _ _ => exactAdd_freed) ?_⟩
    · rw [TableKind.flushTable, if_neg hkey]
      exact exactFlush_fresh hH hkey h₀
    · intro key
      obtain ⟨table, hcreate, htable⟩ := TableKind.fresh_table hkey h₀
      obtain rfl := Except.ok.inj hcreate
      exact congrArg Except.ok (exactLookup_none hH hkey htable (hH.index_create key))

end Exact

/-! ### Longest-prefix tables -/

/-- The cells from `size` on were never written, so that a flush frees no entry. -/
theorem lpmFlush_not_asFresh {d : TableAction c} {t₀ t t' : LpmTable (c := c) L4 L6}
    {adds : List (Key c × ℕ × TableAction c)} (hkey : c.keySize ≠ 0)
    (h₀ : (lpmKind L4 L6).fresh d = .ok t₀)
    (hadds : adds.foldlM (lpmKind L4 L6).add t₀ = .ok t) :
    (lpmKind L4 L6).flushTable t ≠ .ok t' := by
  have hcells : ∃ ext, t.table = some ext ∧ ext.rteTable.Fits c ∧
      ∀ i, ext.size ≤ i → ext.content i = none := by
    refine foldlM_inv (P := fun t : LpmTable (c := c) L4 L6 => ∃ ext, t.table = some ext ∧
      ext.rteTable.Fits c ∧ ∀ i, ext.size ≤ i → ext.content i = none) ?_ ?_ hadds
    -- An add writes into the cell `size` and moves on to the next one.
    · rintro s a s' ⟨ext, htable, hfits, hnone⟩ ha
      rw [lpmAdd_eq_put hkey htable hfits ha]
      refine ⟨_, rfl, hfits.add .., ?_⟩
      intro i hi
      have hlt : ext.size < i := hi
      show Function.update ext.content ext.size _ i = none
      rw [Function.update_of_ne (by omega)]
      exact hnone i (by omega)
    · obtain ⟨table, hcreate, htable⟩ := TableKind.fresh_table hkey h₀
      have hcreate' : lpmCreate L4 L6 c = .ok table := hcreate
      unfold lpmCreate at hcreate'
      split_ifs at hcreate' with hshort hlong
      · obtain rfl := Except.ok.inj hcreate'
        exact ⟨_, htable, hshort, fun _ _ => rfl⟩
      · obtain rfl := Except.ok.inj hcreate'
        exact ⟨_, htable, ⟨not_le.mp hshort, hlong⟩, fun _ _ => rfl⟩
  -- The flush frees up to the cell `size`, one too many.
  obtain ⟨ext, htable, -, hnone⟩ := hcells
  rw [TableKind.flushTable, if_neg hkey]
  show lpmFlush L4 L6 t ≠ .ok t'
  simp [lpmFlush, htable, hnone ext.size le_rfl, bind, Except.bind]

/-! ### Ternary tables -/

/-- A lookup in a flushed table is undefined. -/
theorem ternaryFlush_not_asFresh {d : TableAction c} {t₀ t t' : LookupTable c TernaryTable}
    (hkey : c.keySize ≠ 0) (hflush : ternaryKind.flushTable t = .ok t') :
    ¬ternaryKind.AsFresh d t₀ t t' := by
  intro hfresh
  rw [TableKind.flushTable, if_neg hkey] at hflush
  have hflush' : ternaryFlush t = .ok t' := hflush
  rw [ternaryFlush, if_neg hkey] at hflush'
  cases htable : t.table with
  | none => simp [htable] at hflush'
  | some table =>
    simp only [htable, Except.ok.injEq] at hflush'
    have hlookup := hfresh.lookup_default (List.Vector.replicate _ 0)
    rw [← hflush'] at hlookup
    have hundef := ternaryLookup_empty (t := { t with table := some (naiveTernaryFlush table) })
      hkey rfl rfl (List.Vector.replicate _ 0)
    exact absurd (hundef.symm.trans hlookup) (by simp)

/-! ### All kinds of tables -/

section

variable {H L4 L6} {index : H.State → Key c → Option ℕ} {d : TableAction c}

/-- The functions of a table without keys return at once. -/
theorem tableKind_keyless (hkey : c.keySize = 0) (type : LookupType) :
    (∀ t a, (tableKind H L4 L6 type).add t a = .ok t) ∧
      ∀ t key, (tableKind H L4 L6 type).lookup t key = .ok t.defaultVal := by
  cases type with
  | exact => exact ⟨fun t a => if_pos hkey, fun t key => congrArg Except.ok (if_pos hkey)⟩
  | lpm => exact ⟨fun t a => if_pos hkey, fun t key => congrArg Except.ok (if_pos hkey)⟩
  | ternary => exact ⟨fun t a => if_pos hkey, fun t key => if_pos hkey⟩

theorem flushTable_asFresh_iff_of_type (hH : H.Documented index) (type : LookupType)
    {t₀ t : LookupTable c (tableKind H L4 L6 type).T} {adds : List (tableKind H L4 L6 type).Add}
    (h₀ : (tableKind H L4 L6 type).fresh d = .ok t₀)
    (hadds : adds.foldlM (tableKind H L4 L6 type).add t₀ = .ok t) :
    (∃ t', (tableKind H L4 L6 type).flushTable t = .ok t' ∧
        (tableKind H L4 L6 type).AsFresh d t₀ t t') ↔
      c.keySize = 0 ∨ type = .exact ∧ adds = [] := by
  by_cases hkey : c.keySize = 0
  · obtain ⟨hadd, hlookup⟩ := @tableKind_keyless c H L4 L6 hkey type
    exact iff_of_true (TableKind.flushTable_asFresh_of_keyless hkey hadd hlookup h₀ hadds)
      (.inl hkey)
  · cases type with
    | exact =>
      refine (exactFlush_asFresh_iff hH hkey h₀ hadds).trans ?_
      simp only [hkey, false_or, true_and]
      exact Iff.rfl
    | lpm =>
      refine iff_of_false ?_ (by simp [hkey])
      rintro ⟨t', hflush, -⟩
      exact lpmFlush_not_asFresh L4 L6 hkey h₀ hadds hflush
    | ternary =>
      refine iff_of_false ?_ (by simp [hkey])
      rintro ⟨t', hflush, hfresh⟩
      exact ternaryFlush_not_asFresh hkey hflush hfresh

/-- **A flushed table is as good as a new one iff it has no keys, or is an exact
table that nothing was added to.** -/
theorem flushTable_asFresh_iff (hH : H.Documented index)
    {t₀ t : LookupTable c (tableKind H L4 L6 c.type).T}
    {adds : List (tableKind H L4 L6 c.type).Add}
    (h₀ : (tableKind H L4 L6 c.type).fresh d = .ok t₀)
    (hadds : adds.foldlM (tableKind H L4 L6 c.type).add t₀ = .ok t) :
    (∃ t', (tableKind H L4 L6 c.type).flushTable t = .ok t' ∧
        (tableKind H L4 L6 c.type).AsFresh d t₀ t t') ↔
      c.keySize = 0 ∨ c.type = .exact ∧ adds = [] :=
  flushTable_asFresh_iff_of_type hH c.type h₀ hadds

end

/-! ### An exact table with an entry -/

/-- An exact table with keys of one byte. -/
def smallTable : TableConfig := { type := .exact, maxSize := 4, keySize := 1, actionSize := 1 }

/-- The functions of this table. -/
abbrev smallKind : TableKind smallTable :=
  tableKind (rteHash (Key smallTable)) rteLpm4 rteLpm6 smallTable.type

/-- A flush of the table that is still new. -/
theorem smallTable_asFresh :
    ∃ t₀ t', smallKind.fresh ⟨[0], rfl⟩ = .ok t₀ ∧ smallKind.flushTable t₀ = .ok t' ∧
      smallKind.AsFresh ⟨[0], rfl⟩ t₀ t₀ t' := by
  have hnone : [].foldlM smallKind.add
      (freshTable smallTable (createExtTable (rteHash (Key smallTable)).create) ⟨[0], rfl⟩) =
      .ok _ := rfl
  obtain ⟨t', hflush, hfresh⟩ :=
    (flushTable_asFresh_iff (rteHash_documented _) rfl hnone).mpr (.inr ⟨rfl, rfl⟩)
  exact ⟨_, t', rfl, hflush, hfresh⟩

/-- After one add, the flush leaves the entry allocated. -/
theorem smallTable_not_asFresh :
    ¬∀ (adds : List smallKind.Add) t₀ t, smallKind.fresh ⟨[0], rfl⟩ = .ok t₀ →
      adds.foldlM smallKind.add t₀ = .ok t →
      ∃ t', smallKind.flushTable t = .ok t' ∧ smallKind.AsFresh ⟨[0], rfl⟩ t₀ t t' := by
  intro h
  obtain ⟨t', hflush, hfresh⟩ := h [(⟨[1], rfl⟩, ⟨[2], rfl⟩)] _ _ rfl rfl
  obtain rfl := Except.ok.inj hflush
  exact absurd (hfresh.released 1 (by decide) (by decide)) (by decide)

end T4P4S
