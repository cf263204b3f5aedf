/-
Ternary tables: a list of keys with masks that a lookup goes through.

* **`ternaryLookup_empty`** — a lookup in a table without rows has no result.
* **`looksUpFirst_iff_last`** — the first entry that covers the key is found just if
  the last entry decides as it does.
* **`keepsAll_iff_le_capacity`** — the table holds all that was added just if it fits
  into a `uint8_t` size and the cells that were allocated.
-/
import Mathlib.Data.List.Induction
import T4P4S.Tables

namespace T4P4S

/-- `ternary_entry` -/
structure TernaryEntry where
  mask : List Byte
  key : List Byte
  value : EntryPtr

/-- `ternary_table`.  A cell of `entries` is `none` unless it holds an entry that
was not freed; `capacity` is the number of cells. -/
structure TernaryTable where
  entries : ℕ → Option TernaryEntry
  keylen : ℕ
  size : ℕ
  capacity : ℕ

/-- `naive_ternary_create`.  Both arguments are `uint8_t`, and the cells are
pointers in memory for `max_size` entries of three pointers each. -/
def naiveTernaryCreate (keylen maxSize : ℕ) : TernaryTable :=
  { entries := fun _ => none
    keylen := keylen % 256
    size := 0
    capacity := 3 * (maxSize % 256) }

/-- `naive_ternary_add` -/
def naiveTernaryAdd (t : TernaryTable) (key mask : List Byte) (value : EntryPtr) :
    Except Halt TernaryTable :=
  if t.capacity ≤ t.size then
    .error .undefined
  else
    let e : TernaryEntry :=
      { mask := mask.take t.keylen, key := key.take t.keylen, value := value }
    .ok { t with
      entries := Function.update t.entries t.size (some e)
      size := (t.size + 1) % 256 }

/-- The key of the entry is the masked key. -/
def TernaryEntry.isMatch (e : TernaryEntry) (keylen : ℕ) (key : List Byte) : Bool :=
  (List.range keylen).all fun j => e.key.getD j 0 == key.getD j 0 &&& e.mask.getD j 0

/-- One round of the loop over the entries, with the variables `match` and `res`. -/
def ternaryRound (t : TernaryTable) (key : List Byte)
    (s : Except Halt (Bool × Option TernaryEntry)) (i : ℕ) :
    Except Halt (Bool × Option TernaryEntry) := do
  let (_, res) ← s
  match t.entries i with
  | none => .error .undefined
  | some e => if e.isMatch t.keylen key then .ok (true, some e) else .ok (false, res)

/-- `naive_ternary_lookup`.  At its end `match` is that of the last entry, and
`res->value` is read when it is set. -/
def naiveTernaryLookup (t : TernaryTable) (key : List Byte) : Except Halt (Option EntryPtr) := do
  let (isMatch, res) ← (List.range t.size).foldl (ternaryRound t key) (.ok (true, none))
  if isMatch then
    match res with
    | some e => .ok (some e.value)
    | none => .error .undefined
  else
    .ok none

/-- `naive_ternary_flush` frees the entries from the last one on. -/
def naiveTernaryFlush (t : TernaryTable) : TernaryTable :=
  { t with
    entries := fun i => if i < t.size then none else t.entries i
    size := 0 }

variable {c : TableConfig}

/-- `ternary_create` -/
def ternaryCreate (c : TableConfig) : TernaryTable := naiveTernaryCreate c.keySize c.maxSize

/-- `ternary_add` -/
def ternaryAdd (t : LookupTable c TernaryTable) (key mask : Key c) (action : TableAction c) :
    Except Halt (LookupTable c TernaryTable) :=
  if c.keySize = 0 then
    .ok t
  else
    match t.table with
    | none => .error .undefined
    | some table => do
      let (t, entry) := makeTableEntry t action
      let table ← naiveTernaryAdd table key.toList mask.toList entry
      return { t with table := some table }

/-- `ternary_lookup` -/
def ternaryLookup (t : LookupTable c TernaryTable) (key : Key c) :
    Except Halt (Option EntryPtr) :=
  if c.keySize = 0 then
    .ok t.defaultVal
  else
    match t.table with
    | none => .error .undefined
    | some table => do
      let ret ← naiveTernaryLookup table key.toList
      return if ret = none then t.defaultVal else ret

/-- `ternary_flush` -/
def ternaryFlush (t : LookupTable c TernaryTable) : Except Halt (LookupTable c TernaryTable) :=
  if c.keySize = 0 then
    .ok t
  else
    match t.table with
    | none => .error .undefined
    | some table => .ok { t with table := some (naiveTernaryFlush table) }

theorem naiveTernaryLookup_of_size {t : TernaryTable} (hsize : t.size = 0) (key : List Byte) :
    naiveTernaryLookup t key = .error .undefined := by
  rw [naiveTernaryLookup, hsize]
  rfl

/-- A lookup in a table without entries reads the entry that it did not find. -/
theorem ternaryLookup_empty {t : LookupTable c TernaryTable} {table : TernaryTable}
    (hkey : c.keySize ≠ 0) (htable : t.table = some table) (hsize : table.size = 0)
    (key : Key c) : ternaryLookup t key = .error .undefined := by
  rw [ternaryLookup, if_neg hkey, htable]
  simp [naiveTernaryLookup_of_size hsize, bind, Except.bind]

/-! ### What a table holds after adds -/

/-- The arguments of a call of `naive_ternary_add`. -/
structure TernaryAdd (c : TableConfig) where
  key : Key c
  mask : Key c
  value : EntryPtr

/-- The entry that the call makes. -/
def TernaryAdd.entry (a : TernaryAdd c) (keylen : ℕ) : TernaryEntry :=
  { mask := a.mask.toList.take keylen, key := a.key.toList.take keylen, value := a.value }

/-- A sequence of calls of `naive_ternary_add`. -/
def ternaryAdds (t : TernaryTable) (adds : List (TernaryAdd c)) : Except Halt TernaryTable :=
  adds.foldlM (fun t a => naiveTernaryAdd t a.key.toList a.mask.toList a.value) t

/-- The table is as `adds` leave one of configuration `c`.  The size is a
`uint8_t`: its cells hold what was added since it was last zero. -/
structure TernaryTable.Holds (t : TernaryTable) (adds : List (TernaryAdd c)) : Prop where
  keylen : t.keylen = c.keySize % 256
  capacity : t.capacity = 3 * (c.maxSize % 256)
  size : t.size = adds.length % 256
  entries : ∀ i, i < t.size → t.entries i =
    adds[adds.length / 256 * 256 + i]?.map fun a => a.entry t.keylen

theorem ternaryAdds_concat (t : TernaryTable) (adds : List (TernaryAdd c)) (a : TernaryAdd c) :
    ternaryAdds t (adds ++ [a]) =
      ternaryAdds t adds >>= fun t => naiveTernaryAdd t a.key.toList a.mask.toList a.value := by
  simp only [ternaryAdds, List.foldlM_append, List.foldlM_cons, List.foldlM_nil, bind_pure]

theorem naiveTernaryAdd_eq_ok {t t' : TernaryTable} {a : TernaryAdd c} :
    naiveTernaryAdd t a.key.toList a.mask.toList a.value = .ok t' ↔
      t.size < t.capacity ∧ t' =
        { t with
          entries := Function.update t.entries t.size (some (a.entry t.keylen))
          size := (t.size + 1) % 256 } := by
  rw [naiveTernaryAdd]
  by_cases h : t.capacity ≤ t.size
  · rw [if_pos h]
    simp [Nat.not_lt.mpr h]
  · rw [if_neg h]
    simp [Nat.not_le.mp h, TernaryAdd.entry, eq_comm]

theorem TernaryTable.Holds.add {t t' : TernaryTable} {adds : List (TernaryAdd c)}
    {a : TernaryAdd c} (h : t.Holds adds)
    (ha : naiveTernaryAdd t a.key.toList a.mask.toList a.value = .ok t') :
    t'.Holds (adds ++ [a]) := by
  obtain ⟨-, rfl⟩ := naiveTernaryAdd_eq_ok.mp ha
  have hsize := h.size
  refine ⟨h.keylen, h.capacity, ?_, ?_⟩
  · show (t.size + 1) % 256 = (adds ++ [a]).length % 256
    rw [List.length_append, List.length_singleton, hsize, Nat.mod_add_mod]
  · intro i hi
    have hi : i < (t.size + 1) % 256 := hi
    -- the size did not wrap, as there is a cell below it
    have hlast : t.size + 1 < 256 ∧ i ≤ t.size := by omega
    have hdiv : (adds ++ [a]).length / 256 = adds.length / 256 := by
      rw [List.length_append, List.length_singleton]
      omega
    show Function.update t.entries t.size (some (a.entry t.keylen)) i =
      (adds ++ [a])[(adds ++ [a]).length / 256 * 256 + i]?.map fun a => a.entry t.keylen
    rw [hdiv]
    by_cases hlt : i < t.size
    · rw [Function.update_of_ne (Nat.ne_of_lt hlt), h.entries i hlt,
        List.getElem?_append_left (by omega)]
    · obtain rfl : i = t.size := by omega
      have hpos : adds.length / 256 * 256 + t.size = adds.length := by omega
      rw [Function.update_self, hpos, List.getElem?_concat_length, Option.map_some]

theorem holds_ternaryAdds {t : TernaryTable} {adds : List (TernaryAdd c)}
    (h : ternaryAdds (ternaryCreate c) adds = .ok t) : t.Holds adds := by
  induction adds using List.reverseRecOn generalizing t with
  | nil =>
    obtain rfl : ternaryCreate c = t := Except.ok.inj h
    refine ⟨rfl, rfl, rfl, ?_⟩
    intro i hi
    exact absurd hi (Nat.not_lt_zero i)
  | append_singleton adds a ih =>
    rw [ternaryAdds_concat] at h
    obtain ⟨t₁, h₁, ha⟩ := bind_eq_ok.mp h
    exact (ih h₁).add ha

/-! ### The entries of a lookup table -/

/-- The call of `naive_ternary_add` that `ternary_add` makes, with the address of
the new entry. -/
def TernaryAdd.ofCall (entry : EntryPtr) (a : Key c × Key c × TableAction c) : TernaryAdd c :=
  { key := a.1, mask := a.2.1, value := entry }

theorem ternaryAdd_eq_ok {t t' : LookupTable c TernaryTable} {table : TernaryTable}
    {a : Key c × Key c × TableAction c} (hkey : c.keySize ≠ 0) (htable : t.table = some table)
    (h : ternaryAdd t a.1 a.2.1 a.2.2 = .ok t') :
    ∃ table', t'.table = some table' ∧ t'.heap.blocks.length = t.heap.blocks.length + 1 ∧
      naiveTernaryAdd table a.1.toList a.2.1.toList t.heap.blocks.length = .ok table' := by
  rw [ternaryAdd, if_neg hkey, htable] at h
  obtain ⟨table', hadd, hret⟩ := bind_eq_ok.mp h
  obtain rfl := Except.ok.inj hret
  refine ⟨table', rfl, ?_, hadd⟩
  show (t.heap.blocks ++ [fillTableEntry a.2.2]).length = t.heap.blocks.length + 1
  rw [List.length_append, List.length_singleton]

/-- Calls of `ternary_add` are calls of `naive_ternary_add` with the addresses in
the order in which they are given out. -/
theorem ternaryAdds_of_ternaryAdd {calls : List (Key c × Key c × TableAction c)}
    {t t' : LookupTable c TernaryTable} {table : TernaryTable} (hkey : c.keySize ≠ 0)
    (htable : t.table = some table)
    (h : calls.foldlM (fun t a => ternaryAdd t a.1 a.2.1 a.2.2) t = .ok t') :
    ∃ table', t'.table = some table' ∧
      ternaryAdds table ((calls.zipIdx t.heap.blocks.length).map fun a => .ofCall a.2 a.1) =
        .ok table' := by
  induction calls generalizing t table with
  | nil =>
    obtain rfl : t = t' := Except.ok.inj h
    exact ⟨table, htable, rfl⟩
  | cons a calls ih =>
    rw [List.foldlM_cons] at h
    obtain ⟨t₁, hcall, hcalls⟩ := bind_eq_ok.mp h
    obtain ⟨table₁, htable₁, hlen, hadd⟩ := ternaryAdd_eq_ok hkey htable hcall
    obtain ⟨table', htable', hadds⟩ := ih htable₁ hcalls
    refine ⟨table', htable', ?_⟩
    rw [List.zipIdx_cons, List.map_cons, ← hlen]
    exact bind_eq_ok.mpr ⟨table₁, hadd, hadds⟩

/-! ### Lookup -/

/-- The bits of the key that the entry is about are those of its key. -/
def TernaryAdd.covers (a : TernaryAdd c) (key : Key c) : Bool :=
  (List.range c.keySize).all fun j =>
    key.toList.getD j 0 &&& a.mask.toList.getD j 0 ==
      a.key.toList.getD j 0 &&& a.mask.toList.getD j 0

/-- The value of the entry that was added first of those that cover the key. -/
def firstCover (adds : List (TernaryAdd c)) (key : Key c) : Option EntryPtr :=
  (adds.find? fun a => a.covers key).map TernaryAdd.value

/-- Over cells that are all filled the loop goes on. -/
theorem ternaryRound_foldl_ok (t : TernaryTable) (key : List Byte) {n : ℕ}
    (h : ∀ i, i < n → (t.entries i).isSome) :
    ∃ s, (List.range n).foldl (ternaryRound t key) (.ok (true, none)) = .ok s := by
  induction n with
  | zero => exact ⟨_, rfl⟩
  | succ n ih =>
    obtain ⟨⟨isMatch, res⟩, hs⟩ := ih fun i hi => h i (Nat.lt_succ_of_lt hi)
    obtain ⟨e, he⟩ := Option.isSome_iff_exists.mp (h n (Nat.lt_succ_self n))
    rw [List.range_succ, List.foldl_append, hs]
    simp only [List.foldl_cons, List.foldl_nil, ternaryRound, bind, Except.bind, he]
    by_cases hmatch : e.isMatch t.keylen key
    · exact ⟨_, if_pos hmatch⟩
    · exact ⟨_, if_neg hmatch⟩

/-- The lookup depends on the entry in the last cell. -/
theorem naiveTernaryLookup_of_last {t : TernaryTable} {key : List Byte} {n : ℕ} {e : TernaryEntry}
    (hsize : t.size = n + 1) (h : ∀ i, i < n → (t.entries i).isSome) (he : t.entries n = some e) :
    naiveTernaryLookup t key =
      .ok (if e.isMatch t.keylen key then some e.value else none) := by
  obtain ⟨⟨isMatch, res⟩, hs⟩ := ternaryRound_foldl_ok t key h
  have hround : (List.range t.size).foldl (ternaryRound t key) (.ok (true, none)) =
      if e.isMatch t.keylen key then .ok (true, some e) else .ok (false, res) := by
    rw [hsize, List.range_succ, List.foldl_append, hs]
    simp only [List.foldl_cons, List.foldl_nil, ternaryRound, bind, Except.bind, he]
  rw [naiveTernaryLookup, hround]
  by_cases hmatch : e.isMatch t.keylen key
  · rw [if_pos hmatch, if_pos hmatch]
    rfl
  · rw [if_neg hmatch, if_neg hmatch]
    rfl

/-- The lookup in a table that got adds, unless the last one made its size wrap. -/
theorem naiveTernaryLookup_concat {t : TernaryTable} {adds : List (TernaryAdd c)}
    {a : TernaryAdd c} (h : t.Holds (adds ++ [a])) (hsize : (adds ++ [a]).length % 256 ≠ 0)
    (key : List Byte) :
    naiveTernaryLookup t key =
      .ok (if (a.entry t.keylen).isMatch t.keylen key then some a.value else none) := by
  have hlen : (adds ++ [a]).length = adds.length + 1 := by
    rw [List.length_append, List.length_singleton]
  obtain ⟨n, hn⟩ : ∃ n, t.size = n + 1 := Nat.exists_eq_succ_of_ne_zero (h.size ▸ hsize)
  have hmod := h.size
  have hpos : (adds ++ [a]).length / 256 * 256 + n = adds.length := by omega
  have hlast : t.entries n = some (a.entry t.keylen) := by
    rw [h.entries n (by omega), hpos, List.getElem?_concat_length, Option.map_some]
  have hfilled : ∀ i, i < n → (t.entries i).isSome := by
    intro i hi
    rw [h.entries i (by omega), List.getElem?_eq_getElem (by omega)]
    rfl
  rw [naiveTernaryLookup_of_last hn hfilled hlast]
  rfl

/-- The lookup finds the entry that was added first of those that cover the key,
and `ternary_lookup` has its value or else the default entry. -/
def LooksUpFirst (table : TernaryTable) (adds : List (TernaryAdd c)) (key : Key c) : Prop :=
  naiveTernaryLookup table key.toList = .ok (firstCover adds key) ∧
  ∀ t : LookupTable c TernaryTable, c.keySize ≠ 0 → t.table = some table →
    ternaryLookup t key = .ok ((firstCover adds key).or t.defaultVal)

theorem looksUpFirst_iff {table : TernaryTable} {adds : List (TernaryAdd c)} {key : Key c} :
    LooksUpFirst table adds key ↔
      naiveTernaryLookup table key.toList = .ok (firstCover adds key) := by
  constructor
  · intro h
    exact h.1
  · intro h
    refine ⟨h, ?_⟩
    intro t hkey htable
    rw [ternaryLookup, if_neg hkey, htable]
    simp only [h, bind, Except.bind, pure, Except.pure]
    cases hfirst : firstCover adds key with
    | none => simp
    | some v => simp

theorem firstCover_eq_none {adds : List (TernaryAdd c)} {key : Key c} :
    firstCover adds key = none ↔ ∀ b ∈ adds, b.covers key = false := by
  simp [firstCover]

/-- The lookup finds the first entry that covers the key just if the size did not
wrap to zero and the last entry decides as the first one: if its own key is the
masked key, then the first covering entry has its value, and otherwise no entry
covers the key. -/
theorem looksUpFirst_iff_last {table : TernaryTable} {adds : List (TernaryAdd c)}
    (h : ternaryAdds (ternaryCreate c) adds = .ok table) (key : Key c) :
    LooksUpFirst table adds key ↔
      adds.length % 256 ≠ 0 ∧ ∃ a, adds.getLast? = some a ∧
        if (a.entry (c.keySize % 256)).isMatch (c.keySize % 256) key.toList then
          firstCover adds key = some a.value
        else
          ∀ b ∈ adds, b.covers key = false := by
  rw [looksUpFirst_iff]
  have hholds := holds_ternaryAdds h
  by_cases hsize : adds.length % 256 = 0
  · -- the loop has no round and leaves `match` set
    rw [naiveTernaryLookup_of_size (hholds.size.trans hsize)]
    simp [hsize]
  · have hne : adds ≠ [] := by
      rintro rfl
      exact hsize rfl
    obtain ⟨adds, a, rfl⟩ := List.eq_nil_or_concat' adds |>.resolve_left hne
    rw [naiveTernaryLookup_concat hholds hsize, hholds.keylen, ← firstCover_eq_none]
    simp only [hsize, ne_eq, not_false_eq_true, true_and, List.getLast?_concat,
      Option.some.injEq, exists_eq_left', Except.ok.injEq]
    by_cases hmatch : (a.entry (c.keySize % 256)).isMatch (c.keySize % 256) key.toList
    · rw [if_pos hmatch, if_pos hmatch, eq_comm]
    · rw [if_neg hmatch, if_neg hmatch, eq_comm]

/-- A table for keys of one byte, of which the sizes below are about. -/
abbrev byteConfig (maxSize : ℕ) : TableConfig :=
  { type := .ternary, maxSize := maxSize, keySize := 1, actionSize := 4 }

/-- The key of one byte. -/
def byteKey (maxSize : ℕ) (key : Byte) : Key (byteConfig maxSize) :=
  ⟨[key], List.length_singleton⟩

/-- The call with the given bytes. -/
def byteAdd (maxSize : ℕ) (key mask : Byte) (value : EntryPtr) : TernaryAdd (byteConfig maxSize) :=
  { key := byteKey maxSize key, mask := byteKey maxSize mask, value := value }

/-- Two entries, of which the second one covers all keys. -/
def overlapping : List (TernaryAdd (byteConfig 8)) := [byteAdd 8 0x20 0xf0 7, byteAdd 8 0 0 8]

theorem looksUpFirst_iff_last_overlapping : ∃ table : TernaryTable,
    ternaryAdds (ternaryCreate (byteConfig 8)) overlapping = .ok table ∧
    ¬ LooksUpFirst table overlapping (byteKey 8 0x2c) ∧
    LooksUpFirst table overlapping (byteKey 8 0x3c) := by
  obtain ⟨table, h⟩ : ∃ table, ternaryAdds (ternaryCreate (byteConfig 8)) overlapping = .ok table :=
    ⟨_, rfl⟩
  refine ⟨table, h, ?_, ?_⟩
  · rw [looksUpFirst_iff_last h]
    decide
  · rw [looksUpFirst_iff_last h]
    decide

/-- Of two entries that cover the key the value of the second one is returned. -/
theorem not_looksUpFirst : ¬ ∀ (c : TableConfig) (adds : List (TernaryAdd c))
    (table : TernaryTable) (key : Key c),
    ternaryAdds (ternaryCreate c) adds = .ok table → LooksUpFirst table adds key := by
  intro h
  have hval := (h (byteConfig 8) overlapping _ (byteKey 8 0x2c) rfl).1
  exact absurd hval (by decide)

/-! ### Capacity -/

/-- The table holds all that was added, in the order in which it was. -/
def KeepsAll (table : TernaryTable) (adds : List (TernaryAdd c)) : Prop :=
  table.size = adds.length ∧
    ∀ i a, adds[i]? = some a → table.entries i =
      some { mask := a.mask.toList, key := a.key.toList, value := a.value }

/-- As long as there are cells the adds return. -/
theorem exists_ternaryAdds {adds : List (TernaryAdd c)} (hlen : adds.length < 256)
    (hcap : adds.length ≤ 3 * (c.maxSize % 256)) :
    ∃ table, ternaryAdds (ternaryCreate c) adds = .ok table := by
  induction adds using List.reverseRecOn with
  | nil => exact ⟨_, rfl⟩
  | append_singleton adds a ih =>
    rw [List.length_append, List.length_singleton] at hlen hcap
    obtain ⟨t, ht⟩ := ih (by omega) (by omega)
    have hholds := holds_ternaryAdds ht
    have hsize : t.size < t.capacity := by
      rw [hholds.size, hholds.capacity, Nat.mod_eq_of_lt (by omega)]
      omega
    have hadd := naiveTernaryAdd_eq_ok (a := a).mpr ⟨hsize, rfl⟩
    rw [ternaryAdds_concat, ht]
    exact ⟨_, hadd⟩

/-- The adds stay in the cells and the table holds them all, just if their number
fits into the `uint8_t` of the size and into the cells that a `uint8_t` of the
maximal size makes, and the length of the keys is a `uint8_t`. -/
theorem keepsAll_iff_le_capacity (adds : List (TernaryAdd c)) :
    (∃ table, ternaryAdds (ternaryCreate c) adds = .ok table ∧ KeepsAll table adds) ↔
      adds = [] ∨
        (c.keySize < 256 ∧ adds.length < 256 ∧ adds.length ≤ 3 * (c.maxSize % 256)) := by
  constructor
  · rintro ⟨table, h, hsize, hentries⟩
    have hholds := holds_ternaryAdds h
    have hlen : adds.length < 256 := by
      rw [← hsize, hholds.size]
      exact Nat.mod_lt _ (by omega)
    rcases List.eq_nil_or_concat' adds with rfl | ⟨adds, a, rfl⟩
    · exact Or.inl rfl
    refine Or.inr ⟨?_, hlen, ?_⟩
    · -- the entry of the last call has the whole key
      have hlast := hentries adds.length a (List.getElem?_concat_length ..)
      have hcell : table.entries adds.length = some (a.entry table.keylen) := by
        rw [hholds.entries adds.length (by rw [hsize]; simp), Nat.div_eq_of_lt hlen,
          Nat.zero_mul, Nat.zero_add, List.getElem?_concat_length, Option.map_some]
      have hkey : a.key.toList.take table.keylen = a.key.toList :=
        congrArg TernaryEntry.key (Option.some.inj (hcell.symm.trans hlast))
      have hkeylen := congrArg List.length hkey
      rw [List.length_take, List.Vector.toList_length, hholds.keylen] at hkeylen
      omega
    · -- the last call found a cell
      rw [ternaryAdds_concat] at h
      obtain ⟨t, ht, ha⟩ := bind_eq_ok.mp h
      have hcell := (naiveTernaryAdd_eq_ok.mp ha).1
      rw [List.length_append, List.length_singleton] at hlen ⊢
      rw [(holds_ternaryAdds ht).size, (holds_ternaryAdds ht).capacity,
        Nat.mod_eq_of_lt (by omega)] at hcell
      exact hcell
  · rintro (rfl | ⟨hkey, hlen, hcap⟩)
    · refine ⟨_, rfl, rfl, ?_⟩
      intro i a hi
      cases hi
    obtain ⟨table, h⟩ := exists_ternaryAdds hlen hcap
    have hholds := holds_ternaryAdds h
    have hsize : table.size = adds.length := by
      rw [hholds.size, Nat.mod_eq_of_lt hlen]
    refine ⟨table, h, hsize, ?_⟩
    intro i a hi
    have hlt : i < adds.length := (List.getElem?_eq_some_iff.mp hi).1
    rw [hholds.entries i (hsize ▸ hlt), Nat.div_eq_of_lt hlen, Nat.zero_mul, Nat.zero_add, hi,
      Option.map_some, TernaryAdd.entry, hholds.keylen, Nat.mod_eq_of_lt hkey,
      List.take_of_length_le (by simp), List.take_of_length_le (by simp)]

/-- A table for 256 entries has no cell. -/
theorem not_keepsAll : ¬ ∀ (c : TableConfig) (adds : List (TernaryAdd c)),
    c.maxSize ≤ 250000 → adds.length ≤ c.maxSize →
    ∃ table, ternaryAdds (ternaryCreate c) adds = .ok table ∧ KeepsAll table adds := by
  intro h
  obtain ⟨table, hadds, -⟩ := h (byteConfig 256) [byteAdd 256 0x20 0xf0 7] (by decide) (by decide)
  cases hadds

end T4P4S
