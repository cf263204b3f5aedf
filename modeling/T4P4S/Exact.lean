/-
Exact tables: a hash that numbers the keys, and an array of entries.

`exact_add` puts the entry in the cell that belongs to the key's number, taken
as an unsigned integer and modulo `max_size`.

* **`exactRun_finiteMap_iff`** — an exact table behaves as a finite map in a run
  of `exact_add` calls iff no call gets a cell that another key uses.
-/
import Mathlib.Data.List.Induction
import T4P4S.Tables

namespace T4P4S

/-! ### `rte_hash` -/

/-- The hash library.  `add` and `lookup` return an `int32_t`. -/
structure RteHash (κ : Type) where
  State : Type
  create : State
  add : State → κ → State × ℤ
  lookup : State → κ → ℤ
  reset : State → State
  iterate : State → ℕ → Option κ

/-- What the documentation of the library promises, with `index s k` the position
of the key `k` in the hash `s` when it is present. -/
structure RteHash.Documented {κ : Type} (H : RteHash κ) (index : H.State → κ → Option ℕ) :
    Prop where
  index_create : ∀ k, index H.create k = none
  index_inj : ∀ s k k' i, index s k = some i → index s k' = some i → k = k'
  add_same : ∀ s k i, index s k = some i → 0 ≤ (H.add s k).2 → (H.add s k).2 = i
  index_add : ∀ s k, 0 ≤ (H.add s k).2 → index (H.add s k).1 k = some (H.add s k).2.toNat
  index_add_ne : ∀ s k k', k' ≠ k → index (H.add s k).1 k' = index s k'
  index_add_fail : ∀ s k, (H.add s k).2 < 0 → index (H.add s k).1 = index s
  add_int32 : ∀ s k, -2 ^ 31 ≤ (H.add s k).2 ∧ (H.add s k).2 < 2 ^ 31
  lookup_some : ∀ s k i, index s k = some i → H.lookup s k = i
  lookup_none : ∀ s k, index s k = none → H.lookup s k < 0
  reset_eq : ∀ s, H.reset s = H.create
  iterate_none : ∀ s i, (∀ k, index s k = none) → H.iterate s i = none

/-- `HASH_ENTRIES` -/
def hashEntries : ℕ := 1024

/-- A hash with room for `hashEntries` keys, which numbers them in the order in
which they come.  It refuses a key with `-ENOSPC`, and does not find one with
`-ENOENT`. -/
def rteHash (κ : Type) [DecidableEq κ] : RteHash κ where
  State := { keys : List κ // keys.length ≤ hashEntries }
  create := ⟨[], Nat.zero_le _⟩
  add s k :=
    if k ∈ s.1 then
      (s, s.1.idxOf k)
    else if h : s.1.length < hashEntries then
      (⟨s.1 ++ [k], by rw [List.length_append]; exact h⟩, s.1.length)
    else
      (s, -28)
  lookup s k := if k ∈ s.1 then s.1.idxOf k else -2
  reset _ := ⟨[], Nat.zero_le _⟩
  iterate s i := s.1[i]?

/-- The position of a key in `rteHash`. -/
def rteHashIndex {κ : Type} [DecidableEq κ] (s : (rteHash κ).State) (k : κ) : Option ℕ :=
  if k ∈ s.1 then some (s.1.idxOf k) else none

theorem rteHash_documented (κ : Type) [DecidableEq κ] :
    (rteHash κ).Documented rteHashIndex := by
  constructor
  · intro k
    simp [rteHashIndex, rteHash]
  · intro s k k' i hk hk'
    simp only [rteHashIndex, Option.ite_none_right_eq_some, Option.some.injEq] at hk hk'
    exact (List.idxOf_inj hk.1).mp (hk.2.trans hk'.2.symm)
  · intro s k i hk _
    simp only [rteHashIndex, Option.ite_none_right_eq_some, Option.some.injEq] at hk
    simp [rteHash, hk]
  · intro s k h
    by_cases hk : k ∈ s.1
    · simp [rteHashIndex, rteHash, hk]
    · by_cases hlen : s.1.length < hashEntries
      · simp [rteHashIndex, rteHash, hk, hlen, List.idxOf_append_of_notMem hk]
      · simp [rteHash, hk, hlen] at h
  -- The key is there, or there is room for it, or there is none: the positions of the others stay.
  · intro s k k' hne
    by_cases hk : k ∈ s.1
    · simp [rteHashIndex, rteHash, hk]
    · by_cases hlen : s.1.length < hashEntries
      · by_cases hk' : k' ∈ s.1
        · simp [rteHashIndex, rteHash, hk, hlen, hk', List.idxOf_append_of_mem hk']
        · simp [rteHashIndex, rteHash, hk, hlen, hk', hne]
      · simp [rteHashIndex, rteHash, hk, hlen]
  · intro s k h
    by_cases hk : k ∈ s.1
    · simp only [rteHash, hk, if_true] at h
      omega
    · by_cases hlen : s.1.length < hashEntries
      · simp only [rteHash, hk, if_false, hlen, dif_pos] at h
        omega
      · simp [rteHash, hk, hlen]
  · intro s k
    -- The positions are bounded by the size, so they fit into an `int32_t`.
    have hs : s.1.length ≤ 1024 := s.2
    by_cases hk : k ∈ s.1
    · have hidx := List.idxOf_lt_length_of_mem hk
      simp only [rteHash, hk, if_true]
      omega
    · by_cases hlen : s.1.length < hashEntries
      · simp only [rteHash, hk, if_false, hlen, dif_pos]
        omega
      · simp [rteHash, hk, hlen]
  · intro s k i hk
    simp only [rteHashIndex, Option.ite_none_right_eq_some, Option.some.injEq] at hk
    simp [rteHash, hk]
  · intro s k hk
    have hmem : k ∉ s.1 := by
      intro hmem
      simp [rteHashIndex, hmem] at hk
    simp [rteHash, hmem]
  · intro s
    rfl
  · intro s i hs
    have hnil : s.1 = [] := by
      refine List.eq_nil_iff_forall_not_mem.mpr ?_
      intro k hk
      simpa [rteHashIndex, hk] using hs k
    simp [rteHash, hnil]

theorem rteHash_add_new {κ : Type} [DecidableEq κ] {s : (rteHash κ).State} {k : κ}
    (hk : k ∉ s.1) (hlen : s.1.length < hashEntries) :
    ((rteHash κ).add s k).2 = s.1.length ∧ ((rteHash κ).add s k).1.1 = s.1 ++ [k] := by
  simp [rteHash, hk, hlen]

theorem rteHash_add_full {κ : Type} [DecidableEq κ] {s : (rteHash κ).State} {k : κ}
    (hk : k ∉ s.1) (hlen : ¬s.1.length < hashEntries) : (rteHash κ).add s k = (s, -28) := by
  simp [rteHash, hk, hlen]

/-! ### The operations -/

variable {c : TableConfig} (H : RteHash (Key c))

/-- An exact table. -/
abbrev ExactTable := LookupTable c (ExtendedTable H.State)

/-- The conversion of an `int32_t` to `uint32_t`. -/
def toUInt32 (i : ℤ) : ℕ := (i % 2 ^ 32).toNat

/-- `exact_create`, and the default action `d` set. -/
def exactFresh (d : TableAction c) : ExactTable H :=
  freshTable c (createExtTable H.create) d

variable {H}

/-- `exact_add` -/
def exactAdd (t : ExactTable H) (key : Key c) (action : TableAction c) :
    Except Halt (ExactTable H) :=
  if c.keySize = 0 then
    .ok t
  else
    match t.table with
    | none => .error .undefined
    | some ext =>
      let (rteTable, ret) := H.add ext.rteTable key
      let index := toUInt32 ret
      -- never taken: `index` is unsigned
      if index < 0 then
        .error .exited
      else if c.onErrorFail ∧ c.maxSize < index then
        .error .exited
      else if c.maxSize = 0 then
        .error .undefined
      else
        let (t, entry) := makeTableEntry t action
        .ok { t with
          table := some { ext with
            rteTable := rteTable
            content := Function.update ext.content (index % c.maxSize) (some entry) } }

/-- `exact_lookup`.  The result is `none` when it is no entry. -/
def exactLookup (t : ExactTable H) (key : Key c) : Option EntryPtr :=
  if c.keySize = 0 then
    t.defaultVal
  else
    t.table.bind fun ext =>
      let ret := H.lookup ext.rteTable key
      if ret < 0 then t.defaultVal else ext.content (ret.toNat % c.maxSize)

/-! ### Runs of adds -/

/-- `rte_hash_add_key` accepts the key of an `exact_add` call. -/
def addSucceeds (t : ExactTable H) (key : Key c) : Bool :=
  c.keySize ≠ 0 && t.table.any fun ext => 0 ≤ (H.add ext.rteTable key).2

/-- One call of `exact_add`, beside the map `m` from each key to the action that
was last added for it with success. -/
def exactStep (s : ExactTable H × (Key c → Option (TableAction c)))
    (add : Key c × TableAction c) :
    Except Halt (ExactTable H × (Key c → Option (TableAction c))) := do
  let t ← exactAdd s.1 add.1 add.2
  return (t, if addSucceeds s.1 add.1 then Function.update s.2 add.1 (some add.2) else s.2)

variable (H) in
/-- A run of `exact_add` calls on a fresh table. -/
def exactRun (d : TableAction c) (adds : List (Key c × TableAction c)) :
    Except Halt (ExactTable H × (Key c → Option (TableAction c))) :=
  adds.foldlM exactStep (exactFresh H d, fun _ => none)

/-- The lookup of `k` returns the entry of its action in `m`, and the default
entry when there is none. -/
def LooksUp (d : TableAction c) (t : ExactTable H) (m : Key c → Option (TableAction c))
    (k : Key c) : Prop :=
  t.entry (exactLookup t k) = some (fillTableEntry ((m k).getD d)) ∧
    (m k = none → exactLookup t k = t.defaultVal)

variable (H) in
/-- The table behaves as a finite map at each point of the run: its lookups are
those of the map, and an add changes what the lookup of a key returns only when
it succeeds and only for the key that is added. -/
def FiniteMapRun (d : TableAction c) (adds : List (Key c × TableAction c)) : Prop :=
  ∀ pre, pre <+: adds → exactRun H d pre ≠ .error .undefined ∧
    ∀ t m, exactRun H d pre = .ok (t, m) →
      (∀ k, LooksUp d t m k) ∧
      ∀ k a t', pre ++ [(k, a)] <+: adds → exactAdd t k a = .ok t' →
        ∀ k', k' ≠ k ∨ addSucceeds t k = false → exactLookup t' k' = exactLookup t k'

/-- The cell that an add of `k` writes is not the cell of another key, nor of any
key when the hash refuses `k`.  There is such a cell unless the call ends the
process first. -/
def OwnSlot (index : H.State → Key c → Option ℕ) (t : ExactTable H) (k : Key c) : Prop :=
  ∀ ext, c.keySize ≠ 0 → t.table = some ext →
    ¬(c.onErrorFail ∧ c.maxSize < toUInt32 (H.add ext.rteTable k).2) →
      c.maxSize ≠ 0 ∧ ∀ k' i, index ext.rteTable k' = some i →
        k' ≠ k ∨ (H.add ext.rteTable k).2 < 0 →
        i % c.maxSize ≠ toUInt32 (H.add ext.rteTable k).2 % c.maxSize

variable (H) in
/-- Each add of a run that gets so far has a cell of its own. -/
def OwnSlots (index : H.State → Key c → Option ℕ) (d : TableAction c)
    (adds : List (Key c × TableAction c)) : Prop :=
  ∀ pre k a, pre ++ [(k, a)] <+: adds →
    ∀ t m, exactRun H d pre = .ok (t, m) → OwnSlot index t k

/-! ### What an add does -/

/-- The table after an add that reaches the content array. -/
def exactPut (t : ExactTable H) (ext : ExtendedTable H.State) (key : Key c)
    (action : TableAction c) : ExactTable H :=
  { (makeTableEntry t action).1 with
    table := some { ext with
      rteTable := (H.add ext.rteTable key).1
      content := Function.update ext.content
        (toUInt32 (H.add ext.rteTable key).2 % c.maxSize) (some t.heap.blocks.length) } }

theorem exactAdd_eq {t : ExactTable H} {ext : ExtendedTable H.State} (k : Key c)
    (a : TableAction c) (hkey : c.keySize ≠ 0) (htable : t.table = some ext) :
    exactAdd t k a =
      if c.onErrorFail ∧ c.maxSize < toUInt32 (H.add ext.rteTable k).2 then .error .exited
      else if c.maxSize = 0 then .error .undefined
      else .ok (exactPut t ext k a) := by
  unfold exactAdd
  rw [if_neg hkey, htable]
  simp only [Nat.not_lt_zero, if_false]
  rfl

theorem exactAdd_cases {t t' : ExactTable H} {k : Key c} {a : TableAction c}
    (h : exactAdd t k a = .ok t') :
    (c.keySize = 0 ∧ t' = t) ∨
    ∃ ext, c.keySize ≠ 0 ∧ t.table = some ext ∧
      ¬(c.onErrorFail ∧ c.maxSize < toUInt32 (H.add ext.rteTable k).2) ∧
      c.maxSize ≠ 0 ∧ t' = exactPut t ext k a := by
  by_cases hkey : c.keySize = 0
  · rw [exactAdd, if_pos hkey] at h
    exact .inl ⟨hkey, (Except.ok.inj h).symm⟩
  · cases htable : t.table with
    | none => simp [exactAdd, hkey, htable] at h
    | some ext =>
      rw [exactAdd_eq k a hkey htable] at h
      split_ifs at h with hfail hmax
      exact .inr ⟨ext, hkey, rfl, hfail, hmax, (Except.ok.inj h).symm⟩

theorem addSucceeds_eq {t : ExactTable H} {ext : ExtendedTable H.State} (k : Key c)
    (hkey : c.keySize ≠ 0) (htable : t.table = some ext) :
    addSucceeds t k = decide (0 ≤ (H.add ext.rteTable k).2) := by
  simp [addSucceeds, hkey, htable]

section Documented

variable {index : H.State → Key c → Option ℕ} (hH : H.Documented index)
include hH

theorem exactLookup_some {t : ExactTable H} {ext : ExtendedTable H.State} {k : Key c} {i : ℕ}
    (hkey : c.keySize ≠ 0) (htable : t.table = some ext)
    (hi : index ext.rteTable k = some i) :
    exactLookup t k = ext.content (i % c.maxSize) := by
  simp [exactLookup, hkey, htable, hH.lookup_some _ _ _ hi]

theorem exactLookup_none {t : ExactTable H} {ext : ExtendedTable H.State} {k : Key c}
    (hkey : c.keySize ≠ 0) (htable : t.table = some ext)
    (hi : index ext.rteTable k = none) :
    exactLookup t k = t.defaultVal := by
  simp [exactLookup, hkey, htable, hH.lookup_none _ _ hi]

/-- A position is the value of a non-negative `int32_t`, which stays the same as
an unsigned integer. -/
theorem toUInt32_of_nonneg {s : H.State} {k : Key c} (h : 0 ≤ (H.add s k).2) :
    toUInt32 (H.add s k).2 = (H.add s k).2.toNat := by
  have hr := hH.add_int32 s k
  unfold toUInt32
  rw [Int.emod_eq_of_lt h (by omega)]

/-- What holds of the table and the map while every add has a cell of its own. -/
structure ExactInv (index : H.State → Key c → Option ℕ) (d : TableAction c)
    (t : ExactTable H) (m : Key c → Option (TableAction c)) : Prop where
  entry_default : t.entry t.defaultVal = some (fillTableEntry d)
  keyless : c.keySize = 0 → ∀ k, m k = none
  table : c.keySize ≠ 0 → ∃ ext, t.table = some ext ∧
    (∀ k, index ext.rteTable k = none → m k = none) ∧
    ∀ k i, index ext.rteTable k = some i →
      ∃ a, m k = some a ∧ t.entry (ext.content (i % c.maxSize)) = some (fillTableEntry a)

omit hH in
theorem entry_exactPut {t : ExactTable H} {p : Option EntryPtr} {e : List Byte}
    (ext : ExtendedTable H.State) (k : Key c) (a : TableAction c) (hp : t.entry p = some e) :
    (exactPut t ext k a).entry p = some e :=
  entry_makeTableEntry hp a

omit hH in
theorem entry_exactPut_new (t : ExactTable H) (ext : ExtendedTable H.State) (k : Key c)
    (a : TableAction c) :
    (exactPut t ext k a).entry (some t.heap.blocks.length) = some (fillTableEntry a) := by
  simp [LookupTable.entry, exactPut]

theorem exactInv_fresh (d : TableAction c) :
    ExactInv index d (exactFresh H d) fun _ => none := by
  refine ⟨rfl, fun _ _ => rfl, ?_⟩
  intro hkey
  refine ⟨createExtTable H.create, if_neg hkey, fun _ _ => rfl, ?_⟩
  intro k i hi
  have hnone : index H.create k = some i := hi
  rw [hH.index_create] at hnone
  contradiction

theorem ExactInv.looksUp {d : TableAction c} {t : ExactTable H}
    {m : Key c → Option (TableAction c)} (hinv : ExactInv index d t m) (k : Key c) :
    LooksUp d t m k := by
  by_cases hkey : c.keySize = 0
  · have hlook : exactLookup t k = t.defaultVal := if_pos hkey
    rw [LooksUp, hlook, hinv.keyless hkey k]
    exact ⟨hinv.entry_default, fun _ => rfl⟩
  · obtain ⟨ext, htable, habsent, hpresent⟩ := hinv.table hkey
    cases hi : index ext.rteTable k with
    | none =>
      rw [LooksUp, exactLookup_none hH hkey htable hi, habsent k hi]
      exact ⟨hinv.entry_default, fun _ => rfl⟩
    | some i =>
      obtain ⟨a, hm, hentry⟩ := hpresent k i hi
      rw [LooksUp, exactLookup_some hH hkey htable hi, hm]
      exact ⟨hentry, by simp⟩

/-- A call of `exact_add` that has a cell of its own keeps the invariant. -/
theorem ExactInv.step {d a : TableAction c} {t t' : ExactTable H}
    {m : Key c → Option (TableAction c)} {k : Key c} (hinv : ExactInv index d t m)
    (hown : OwnSlot index t k) (hadd : exactAdd t k a = .ok t') :
    ExactInv index d t' (if addSucceeds t k then Function.update m k (some a) else m) := by
  obtain ⟨hkey, rfl⟩ | ⟨ext, hkey, htable, hfail, hmax, rfl⟩ := exactAdd_cases hadd
  · have hno : addSucceeds t' k = false := by simp [addSucceeds, hkey]
    rw [hno]
    exact hinv
  obtain ⟨-, hslot⟩ := hown ext hkey htable hfail
  obtain ⟨ext₀, htable₀, habsent, hpresent⟩ := hinv.table hkey
  obtain rfl : ext₀ = ext := Option.some.inj (htable₀.symm.trans htable)
  refine ⟨entry_exactPut ext₀ k a hinv.entry_default, fun h => absurd h hkey, ?_⟩
  intro _
  refine ⟨_, rfl, ?_⟩
  rw [addSucceeds_eq k hkey htable]
  -- a key other than the one that was just put into its cell
  have hkeep : ∀ k' i, index ext₀.rteTable k' = some i →
      k' ≠ k ∨ (H.add ext₀.rteTable k).2 < 0 → ∃ a', m k' = some a' ∧
        (exactPut t ext₀ k a).entry (Function.update ext₀.content
          (toUInt32 (H.add ext₀.rteTable k).2 % c.maxSize) (some t.heap.blocks.length)
          (i % c.maxSize)) = some (fillTableEntry a') := by
    intro k' i hi hne
    obtain ⟨a', hm, hentry⟩ := hpresent k' i hi
    refine ⟨a', hm, ?_⟩
    rw [Function.update_of_ne (hslot k' i hi hne)]
    exact entry_exactPut ext₀ k a hentry
  by_cases hret : 0 ≤ (H.add ext₀.rteTable k).2
  · -- the hash accepts the key
    simp only [hret, decide_true, if_true]
    constructor
    · intro k' hk'
      have hne : k' ≠ k := by
        rintro rfl
        simp [hH.index_add _ _ hret] at hk'
      rw [Function.update_of_ne hne]
      exact habsent k' (by rwa [hH.index_add_ne _ _ _ hne] at hk')
    · intro k' i hi
      by_cases hk' : k' = k
      · subst hk'
        rw [hH.index_add _ _ hret] at hi
        obtain rfl := Option.some.inj hi
        refine ⟨a, Function.update_self .., ?_⟩
        rw [toUInt32_of_nonneg hH hret, Function.update_self]
        exact entry_exactPut_new t ext₀ k' a
      · rw [hH.index_add_ne _ _ _ hk'] at hi
        rw [Function.update_of_ne hk']
        exact hkeep k' i hi (.inl hk')
  · -- the hash refuses the key and stays as it is
    have hneg : (H.add ext₀.rteTable k).2 < 0 := not_le.mp hret
    simp only [hret, decide_false, Bool.false_eq_true, if_false, hH.index_add_fail _ _ hneg]
    exact ⟨habsent, fun k' i hi => hkeep k' i hi (.inr hneg)⟩

/-- A call that has a cell of its own leaves what other lookups return. -/
theorem exactLookup_step {a : TableAction c} {t t' : ExactTable H} {k k' : Key c}
    (hown : OwnSlot index t k) (hadd : exactAdd t k a = .ok t')
    (hk' : k' ≠ k ∨ addSucceeds t k = false) : exactLookup t' k' = exactLookup t k' := by
  obtain ⟨-, rfl⟩ | ⟨ext, hkey, htable, hfail, hmax, rfl⟩ := exactAdd_cases hadd
  · rfl
  obtain ⟨-, hslot⟩ := hown ext hkey htable hfail
  have hk'' : k' ≠ k ∨ (H.add ext.rteTable k).2 < 0 := by
    rcases hk' with hne | hno
    · exact .inl hne
    · rw [addSucceeds_eq k hkey htable] at hno
      exact .inr (by simpa using hno)
  have hidx : index (H.add ext.rteTable k).1 k' = index ext.rteTable k' := by
    rcases hk'' with hne | hneg
    · exact hH.index_add_ne _ _ _ hne
    · rw [hH.index_add_fail _ _ hneg]
  cases hi : index ext.rteTable k' with
  | none =>
    rw [exactLookup_none hH hkey htable hi, exactLookup_none hH hkey rfl (hidx.trans hi)]
    rfl
  | some i =>
    rw [exactLookup_some hH hkey htable hi, exactLookup_some hH hkey rfl (hidx.trans hi)]
    exact Function.update_of_ne (hslot k' i hi hk'') ..

end Documented

/-! ### What a run of adds does -/

theorem exactRun_append (d : TableAction c) (pre : List (Key c × TableAction c))
    (add : Key c × TableAction c) :
    exactRun H d (pre ++ [add]) = exactRun H d pre >>= fun s => exactStep s add := by
  simp [exactRun, List.foldlM_append]

theorem exactStep_eq_ok {t t' : ExactTable H} {m m' : Key c → Option (TableAction c)}
    {add : Key c × TableAction c} (h : exactStep (t, m) add = .ok (t', m')) :
    exactAdd t add.1 add.2 = .ok t' ∧
      m' = if addSucceeds t add.1 then Function.update m add.1 (some add.2) else m := by
  cases hadd : exactAdd t add.1 add.2 with
  | error e => simp [exactStep, hadd, bind, Except.bind] at h
  | ok t₁ =>
    simp only [exactStep, hadd, bind, Except.bind, pure, Except.pure, Except.ok.injEq,
      Prod.mk.injEq] at h
    exact ⟨by rw [h.1], h.2.symm⟩

theorem exactStep_ok {t t' : ExactTable H} (m : Key c → Option (TableAction c))
    {k : Key c} {a : TableAction c} (h : exactAdd t k a = .ok t') :
    exactStep (t, m) (k, a) =
      .ok (t', if addSucceeds t k then Function.update m k (some a) else m) := by
  simp [exactStep, h, bind, Except.bind, pure, Except.pure]

theorem exactStep_error {t : ExactTable H} (m : Key c → Option (TableAction c))
    {k : Key c} {a : TableAction c} {e : Halt} (h : exactAdd t k a = .error e) :
    exactStep (t, m) (k, a) = .error e := by
  simp [exactStep, h, bind, Except.bind]

section Documented

variable {index : H.State → Key c → Option ℕ} (hH : H.Documented index)
include hH

/-- A run in which each add has a cell of its own keeps the invariant. -/
theorem exactInv_run {d : TableAction c} {adds : List (Key c × TableAction c)}
    (hown : OwnSlots H index d adds) {t : ExactTable H} {m : Key c → Option (TableAction c)}
    (hrun : exactRun H d adds = .ok (t, m)) : ExactInv index d t m := by
  induction adds using List.reverseRecOn generalizing t m with
  | nil =>
    obtain ⟨rfl, rfl⟩ := Prod.mk.inj (Except.ok.inj hrun)
    exact exactInv_fresh hH d
  | append_singleton adds add ih =>
    rw [exactRun_append] at hrun
    cases hpre : exactRun H d adds with
    | error e => simp [hpre, bind, Except.bind] at hrun
    | ok s =>
      obtain ⟨t₁, m₁⟩ := s
      have hstep : exactStep (t₁, m₁) add = .ok (t, m) := by
        simpa [hpre, bind, Except.bind] using hrun
      obtain ⟨hadd, rfl⟩ := exactStep_eq_ok hstep
      have hprefix : OwnSlots H index d adds := fun pre k a hle =>
        hown pre k a (hle.trans (List.prefix_append ..))
      exact (ih hprefix hpre).step hH (hown adds add.1 add.2 List.prefix_rfl t₁ m₁ hpre) hadd

/-- A run in which each add has a cell of its own does nothing undefined. -/
theorem exactRun_defined {d : TableAction c} {adds : List (Key c × TableAction c)}
    (hown : OwnSlots H index d adds) : exactRun H d adds ≠ .error .undefined := by
  induction adds using List.reverseRecOn with
  | nil => simp [exactRun, pure, Except.pure]
  | append_singleton adds add ih =>
    have hprefix : OwnSlots H index d adds := fun pre k a hle =>
      hown pre k a (hle.trans (List.prefix_append ..))
    rw [exactRun_append]
    cases hpre : exactRun H d adds with
    | error e =>
      show Except.error e ≠ _
      rw [← hpre]
      exact ih hprefix
    | ok s =>
      obtain ⟨t, m⟩ := s
      show exactStep (t, m) add ≠ _
      have hown' := hown adds add.1 add.2 List.prefix_rfl t m hpre
      have hinv := exactInv_run hH hprefix hpre
      -- A table without keys is not added to at all.
      by_cases hkey : c.keySize = 0
      · have hadd : exactAdd t add.1 add.2 = .ok t := if_pos hkey
        rw [exactStep_ok m hadd]
        simp
      obtain ⟨ext, htable, -⟩ := hinv.table hkey
      have heq := exactAdd_eq add.1 add.2 hkey htable
      -- An add that fails may exit, which is defined; one that succeeds has a cell of its own.
      split_ifs at heq with hfail hmax
      · rw [exactStep_error m heq]
        simp
      · exact absurd hmax (hown' ext hkey htable hfail).1
      · rw [exactStep_ok m heq]
        simp

/-- A run in which some add gets a cell that is in use, or no cell at all, breaks
the map at that add. -/
theorem ownSlot_of_finiteMapRun {d a : TableAction c} {pre : List (Key c × TableAction c)}
    {k : Key c} (hmap : FiniteMapRun H d (pre ++ [(k, a)])) (hown : OwnSlots H index d pre)
    {t : ExactTable H} {m : Key c → Option (TableAction c)}
    (hrun : exactRun H d pre = .ok (t, m)) : OwnSlot index t k := by
  intro ext hkey htable hfail
  have heq := exactAdd_eq k a hkey htable
  rw [if_neg hfail] at heq
  have hmax : c.maxSize ≠ 0 := by
    intro hzero
    rw [if_pos hzero] at heq
    have hundef : exactRun H d (pre ++ [(k, a)]) = .error .undefined := by
      rw [exactRun_append, hrun]
      exact exactStep_error m heq
    exact (hmap _ List.prefix_rfl).1 hundef
  rw [if_neg hmax] at heq
  refine ⟨hmax, ?_⟩
  intro k' i hi hk' hslot
  have hk'' : k' ≠ k ∨ addSucceeds t k = false := by
    rw [addSucceeds_eq k hkey htable]
    simpa using hk'
  have hkeep := ((hmap pre (List.prefix_append ..)).2 t m hrun).2 k a _ List.prefix_rfl heq k' hk''
  have hidx : index (H.add ext.rteTable k).1 k' = some i := by
    rcases hk' with hne | hneg
    · rw [hH.index_add_ne _ _ _ hne, hi]
    · rw [hH.index_add_fail _ _ hneg, hi]
  -- the lookup of `k'` now finds the new entry, which is none of those before
  rw [exactLookup_some hH hkey rfl hidx, exactLookup_some hH hkey htable hi, hslot] at hkeep
  dsimp only at hkeep
  rw [Function.update_self] at hkeep
  obtain ⟨ext₀, htable₀, -, hpresent⟩ := (exactInv_run hH hown hrun).table hkey
  obtain rfl : ext₀ = ext := Option.some.inj (htable₀.symm.trans htable)
  obtain ⟨a', -, hentry⟩ := hpresent k' i hi
  rw [hslot, ← hkeep] at hentry
  simp [LookupTable.entry] at hentry

/-- An exact table behaves as a finite map in a run of adds iff each add of it
gets a cell that no other key uses. -/
theorem exactRun_finiteMap_iff (d : TableAction c) (adds : List (Key c × TableAction c)) :
    FiniteMapRun H d adds ↔ OwnSlots H index d adds := by
  constructor
  · intro hmap
    induction adds using List.reverseRecOn with
    | nil =>
      intro pre k a hle
      simp at hle
    | append_singleton adds add ih =>
      have hprefix : OwnSlots H index d adds := by
        refine ih ?_
        intro pre hpre
        obtain ⟨hdef, hok⟩ := hmap pre (hpre.trans (List.prefix_append ..))
        refine ⟨hdef, fun t m hrun => ⟨(hok t m hrun).1, ?_⟩⟩
        intro k a t' hle
        exact (hok t m hrun).2 k a t' (hle.trans (List.prefix_append ..))
      intro pre k a hle t m hrun
      rcases List.prefix_concat_iff.mp hle with heq | hle
      · obtain ⟨rfl, hadd⟩ := List.append_inj' heq rfl
        obtain rfl : (k, a) = add := List.singleton_inj.mp hadd
        exact ownSlot_of_finiteMapRun hH hmap hprefix hrun
      · exact hprefix pre k a hle t m hrun
  · intro hown pre hpre
    have hprefix : OwnSlots H index d pre := fun p k a hle => hown p k a (hle.trans hpre)
    refine ⟨exactRun_defined hH hprefix, fun t m hrun => ⟨?_, ?_⟩⟩
    · exact (exactInv_run hH hprefix hrun).looksUp hH
    · intro k a t' hle hadd k' hk'
      exact exactLookup_step hH (hown pre k a hle t m hrun) hadd hk'

end Documented

/-! ### A full hash -/

/-- A table with as many cells as the hash has entries. -/
def fullTable : TableConfig :=
  { type := .exact, maxSize := 1024, keySize := 2, actionSize := 1 }

theorem exactAdd_fullTable {t : ExactTable (rteHash (Key fullTable))}
    {ext : ExtendedTable (rteHash (Key fullTable)).State} (k : Key fullTable)
    (a : TableAction fullTable) (htable : t.table = some ext) :
    exactAdd t k a = .ok (exactPut t ext k a) := by
  have hfail : ¬(fullTable.onErrorFail ∧
      fullTable.maxSize < toUInt32 ((rteHash (Key fullTable)).add ext.rteTable k).2) :=
    fun h => absurd h.1 (by decide)
  rw [exactAdd_eq k a (by decide) htable, if_neg hfail, if_neg (by decide)]

def actionOf (id : Byte) : TableAction fullTable := ⟨[id], rfl⟩

/-- Sixteen-bit keys. -/
def keyOf (i : ℕ) : Key fullTable := ⟨[BitVec.ofNat 8 (i / 256), BitVec.ofNat 8 i], rfl⟩

theorem keyOf_inj {i j : ℕ} (hi : i < 2 ^ 16) (hj : j < 2 ^ 16) (h : keyOf i = keyOf j) :
    i = j := by
  have hlist : [BitVec.ofNat 8 (i / 256), BitVec.ofNat 8 i] =
      [BitVec.ofNat 8 (j / 256), BitVec.ofNat 8 j] := congrArg List.Vector.toList h
  simp only [List.cons.injEq, and_true] at hlist
  have hhi := congrArg BitVec.toNat hlist.1
  have hlo := congrArg BitVec.toNat hlist.2
  simp only [BitVec.toNat_ofNat] at hhi hlo
  omega

/-- `n` different keys, each with the action `1`. -/
def addsUpTo (n : ℕ) : List (Key fullTable × TableAction fullTable) :=
  (List.range n).map fun i => (keyOf i, actionOf 1)

theorem addsUpTo_succ (n : ℕ) :
    addsUpTo (n + 1) = addsUpTo n ++ [(keyOf n, actionOf 1)] := by
  rw [addsUpTo, List.range_succ, List.map_append, List.map_singleton]
  rfl

theorem addsUpTo_prefix {n : ℕ} {pre : List (Key fullTable × TableAction fullTable)}
    {k : Key fullTable} {a : TableAction fullTable} (h : pre ++ [(k, a)] <+: addsUpTo n) :
    ∃ i < n, pre = addsUpTo i ∧ k = keyOf i := by
  induction n with
  | zero => simp [addsUpTo] at h
  | succ n ih =>
    rw [addsUpTo_succ] at h
    rcases List.prefix_concat_iff.mp h with heq | hle
    · obtain ⟨hpre, hadd⟩ := List.append_inj' heq rfl
      exact ⟨n, Nat.lt_succ_self n, hpre, congrArg Prod.fst (List.singleton_inj.mp hadd)⟩
    · obtain ⟨i, hi, hpre⟩ := ih hle
      exact ⟨i, by omega, hpre⟩

theorem keyOf_notMem {n : ℕ} (hn : n < 2 ^ 16) : keyOf n ∉ (List.range n).map keyOf := by
  intro hmem
  obtain ⟨i, hi, heq⟩ := List.mem_map.mp hmem
  have hlt : i < n := List.mem_range.mp hi
  have hin : i = n := keyOf_inj (by omega) hn heq
  omega

theorem rteHashIndex_range {n i : ℕ} (hn : n ≤ 2 ^ 16) (hi : i < n) :
    (if keyOf i ∈ (List.range n).map keyOf then some (((List.range n).map keyOf).idxOf (keyOf i))
      else none) = some i := by
  have hnodup : ((List.range n).map keyOf).Nodup := by
    refine List.Nodup.map_on ?_ List.nodup_range
    intro x hx y hy hxy
    have hxn := List.mem_range.mp hx
    have hyn := List.mem_range.mp hy
    exact keyOf_inj (by omega) (by omega) hxy
  have hmem : keyOf i ∈ (List.range n).map keyOf :=
    List.mem_map_of_mem (List.mem_range.mpr hi)
  have hidx := hnodup.idxOf_getElem i (by simpa using hi)
  rw [if_pos hmem]
  simpa using hidx

/-- A key that follows gets the position `n` and, as there are 1024 of them, the cell `n`. -/
theorem rteHash_add_keyOf {s : (rteHash (Key fullTable)).State} {n : ℕ} (hn : n < 1024)
    (hs : s.1 = (List.range n).map keyOf) :
    toUInt32 ((rteHash (Key fullTable)).add s (keyOf n)).2 % 1024 = n ∧
      ((rteHash (Key fullTable)).add s (keyOf n)).1.1 = (List.range (n + 1)).map keyOf := by
  have hlen : s.1.length = n := by
    rw [hs, List.length_map, List.length_range]
  have hmem : keyOf n ∉ s.1 := by
    rw [hs]
    exact keyOf_notMem (by omega)
  obtain ⟨hret, hkeys⟩ := rteHash_add_new hmem (by rw [hlen, hashEntries]; omega)
  rw [hret, hkeys, hlen, hs, List.range_succ, List.map_append]
  refine ⟨?_, rfl⟩
  unfold toUInt32
  omega

theorem addsUpTo_run (n : ℕ) (hn : n ≤ 1024) :
    ∃ t m ext, exactRun (rteHash (Key fullTable)) (actionOf 0) (addsUpTo n) = .ok (t, m) ∧
      t.table = some ext ∧ ext.rteTable.1 = (List.range n).map keyOf ∧
      t.heap.blocks.length = n + 1 ∧ ∀ i < n, ext.content i = some (i + 1) := by
  induction n with
  | zero => exact ⟨_, _, _, rfl, rfl, rfl, rfl, fun i hi => absurd hi (Nat.not_lt_zero i)⟩
  | succ n ih =>
    obtain ⟨t, m, ext, hrun, htable, hkeys, hlen, hcontent⟩ := ih (by omega)
    obtain ⟨hcell, hkeys'⟩ := rteHash_add_keyOf (by omega) hkeys
    have hadd := exactAdd_fullTable (keyOf n) (actionOf 1) htable
    have hstep := exactStep_ok m hadd
    have hrun' : exactRun (rteHash (Key fullTable)) (actionOf 0) (addsUpTo (n + 1)) =
        exactStep (t, m) (keyOf n, actionOf 1) := by
      rw [addsUpTo_succ, exactRun_append, hrun]
      rfl
    refine ⟨_, _, _, hrun'.trans hstep, rfl, hkeys', ?_, ?_⟩
    · show (t.heap.blocks ++ [_]).length = n + 1 + 1
      rw [List.length_append, hlen]
      rfl
    -- The cell of the new key is none of those written before, as there is room.
    · intro i hi
      show Function.update ext.content (toUInt32 _ % 1024) (some t.heap.blocks.length) i = _
      rw [hcell, hlen]
      by_cases hin : i = n
      · rw [hin, Function.update_self]
      · rw [Function.update_of_ne hin]
        exact hcontent i (by omega)

/-- Until the hash is full, each key gets a cell of its own. -/
theorem fullTable_finiteMapRun :
    FiniteMapRun (rteHash (Key fullTable)) (actionOf 0) (addsUpTo 1024) := by
  refine (exactRun_finiteMap_iff (rteHash_documented _) _ _).mpr ?_
  intro pre k a hle t m hrun ext _ htable _
  obtain ⟨n, hn, rfl, rfl⟩ := addsUpTo_prefix hle
  obtain ⟨t', m', ext', hrun', htable', hkeys, -⟩ := addsUpTo_run n (by omega)
  obtain ⟨rfl, rfl⟩ := Prod.mk.inj (Except.ok.inj (hrun.symm.trans hrun'))
  obtain rfl : ext = ext' := Option.some.inj (htable.symm.trans htable')
  refine ⟨by decide, ?_⟩
  intro k' i hi _
  have hlen : ext.rteTable.1.length = n := by
    rw [hkeys, List.length_map, List.length_range]
  obtain ⟨hcell, -⟩ := rteHash_add_keyOf (by omega) hkeys
  simp only [rteHashIndex, Option.ite_none_right_eq_some, Option.some.injEq] at hi
  have hin : i < n := by
    rw [← hlen, ← hi.2]
    exact List.idxOf_lt_length_of_mem hi.1
  -- Both positions are below 1024, and the old one is below the new one.
  show i % 1024 ≠ toUInt32 _ % 1024
  omega

/-- The key that the hash has no room for takes the cell of the key 996. -/
theorem fullTable_not_finiteMapRun :
    ¬FiniteMapRun (rteHash (Key fullTable)) (actionOf 0)
      (addsUpTo 1024 ++ [(keyOf 1024, actionOf 2)]) := by
  intro hmap
  obtain ⟨t, m, ext, hrun, htable, hkeys, hlen, hcontent⟩ := addsUpTo_run 1024 le_rfl
  have hmem : keyOf 1024 ∉ ext.rteTable.1 := by
    rw [hkeys]
    exact keyOf_notMem (by decide)
  have hfull : ¬ext.rteTable.1.length < hashEntries := by
    rw [hkeys, List.length_map, List.length_range, hashEntries]
    omega
  have hret := rteHash_add_full hmem hfull
  have hadd := exactAdd_fullTable (keyOf 1024) (actionOf 2) htable
  have hfails : addSucceeds t (keyOf 1024) = false := by
    rw [addSucceeds_eq _ (by decide) htable, hret]
    rfl
  have hkeep := ((hmap _ (List.prefix_append ..)).2 t m hrun).2 _ _ _ List.prefix_rfl hadd
    (keyOf 996) (.inr hfails)
  have hindex : rteHashIndex ext.rteTable (keyOf 996) = some 996 := by
    rw [rteHashIndex, hkeys]
    exact rteHashIndex_range (by decide) (by decide)
  rw [exactLookup_some (rteHash_documented _) (by decide) rfl (by rw [hret]; exact hindex),
    exactLookup_some (rteHash_documented _) (by decide) htable hindex] at hkeep
  -- The failed add returns -28, which as a `uint32_t` is 996 modulo the size of the table.
  have hcell : toUInt32 (-28) % fullTable.maxSize = 996 % fullTable.maxSize := by decide
  rw [hret] at hkeep
  simp only [hcell, Function.update_self] at hkeep
  rw [show 996 % fullTable.maxSize = 996 from rfl, hcontent 996 (by decide), hlen] at hkeep
  simp at hkeep

end T4P4S
