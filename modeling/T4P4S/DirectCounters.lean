/-
Direct counters.

`X_apply` calls `X_apply_smems` on a hit, which adds to the one cell that the table has
for the counter.

* **`directCounterLaw_iff`** — over the packets that are applied to a table, the counter
  of each entry counts what its kind says iff each packet that matches an entry is a hit
  for `X_apply`, there is no other entry, and no bytes are to be counted.
-/
import T4P4S.Apply
import T4P4S.Counters

open Lockstep

namespace T4P4S

variable {Stmt κ : Type}

/-- A table with a direct counter, and the addresses of the entries in it.  The lookup of
a table with keys gives one of them or the default entry; more than one `NoAction` is an
error of the compiler. -/
structure DirectCounter (Stmt κ : Type) where
  table : P4Table Stmt
  hasDirectSmem : table.hasDirectSmem = true
  noActionNames_le : table.noActionNames.length ≤ 1
  data : TableData table
  lookup : κ → EntryPtr
  entries : List EntryPtr
  kind : PacketsOrBytes
  keyless : table.keyBitSize = 0 → entries = []
  lookup_mem : table.keyBitSize ≠ 0 → ∀ key, lookup key ≠ data.defaultVal → lookup key ∈ entries
  ne_default : ∀ p ∈ entries, p ≠ data.defaultVal

/-- A packet that is applied to the table: its key, `parsed_size` and `packet_size`. -/
structure AppliedPacket (κ : Type) where
  key : κ
  parsedSize : BitVec 32
  size : BitVec 32

/-! ### The functions -/

/-- `apply_direct_counter` -/
def applyDirectCounter (smem : CounterCell) (packetsValue bytesValue : BitVec 32) : CounterCell :=
  let smem := if smem.pob = .packets ∨ smem.pob = .packetsAndBytes then
    { smem with packets := smem.packets + packetsValue } else smem
  if smem.pob = .bytes ∨ smem.pob = .packetsAndBytes then
    { smem with bytes := smem.bytes + bytesValue }
  else smem

/-- `X_apply_smems`, on the cell `[0]` of the counter. -/
def applySmems (smem : CounterCell) (pd : AppliedPacket κ) : CounterCell :=
  -- The number of bytes is `parsed_size`, which has the headers of the packet only.
  applyDirectCounter smem 1 pd.parsedSize

variable (D : DirectCounter Stmt κ)

namespace DirectCounter

/-- What `X_apply` does to the counter. -/
def apply (smem : CounterCell) (pd : AppliedPacket κ) : Option CounterCell :=
  (D.table.apply D.data D.lookup pd.key).map fun r => if r.smems then applySmems smem pd else smem

/-! ### What should hold -/

/-- The entry that the lookup matches with the key. -/
def matched (key : κ) : Option EntryPtr :=
  if D.table.keyBitSize = 0 ∨ D.lookup key = D.data.defaultVal then none else some (D.lookup key)

/-- The counter of an entry, in a memory that has one cell for the table. -/
def own (smem : CounterCell) (_ : EntryPtr) : CounterCell := smem

/-- The counters of the entries have what their kind says of the packets. -/
def Counts (pds : List (AppliedPacket κ)) (smem : CounterCell) : Prop :=
  Totals (fun pd => D.matched pd.key) AppliedPacket.size D.kind (· ∈ D.entries) pds (own smem)

end DirectCounter

/-- The cell, and the packets that were applied. -/
structure DirectState (κ : Type) where
  smem : CounterCell
  applied : List (AppliedPacket κ)

/-- The state behind a packet. -/
def DirectState.next (s : DirectState κ) (pd : AppliedPacket κ) : DirectState κ :=
  ⟨(D.apply s.smem pd).getD s.smem, s.applied ++ [pd]⟩

/-- What should become of a packet: the totals are right, and the counter of each entry
that it does not match stays. -/
def DirectState.Law (s : DirectState κ) (pd : AppliedPacket κ) : Prop :=
  ∃ smem, D.apply s.smem pd = some smem ∧ D.Counts (s.applied ++ [pd]) smem ∧
    ∀ p ∈ D.entries, D.matched pd.key ≠ some p → DirectCounter.own smem p = DirectCounter.own s.smem p

/-- The counter counts for each entry, over the packets. -/
def DirectCounterLaw (pds : List (AppliedPacket κ)) : Prop :=
  Along (DirectState.next D) (DirectState.Law D) pds ⟨.zero, []⟩

/-- The condition for a packet.  A packet that matches the entry `p` is a hit unless its
action is the `NoAction`. -/
def DirectCounter.Ok (pd : AppliedPacket κ) : Prop :=
  ∀ p, D.matched pd.key = some p →
    (P4Table.IsNoAction (D.data.entry p) ∨ ∀ q ∈ D.entries, q = p) ∧
      (D.kind ≠ .bytes → ¬P4Table.IsNoAction (D.data.entry p)) ∧
      (D.kind ≠ .packets → pd.size = 0)

/-! ### What the functions do -/

variable {D} {smem : CounterCell} {pd : AppliedPacket κ} {pds : List (AppliedPacket κ)}

/-- With a `pob` that was never set, only packets are counted. -/
theorem applySmems_eq (hpob : smem.pob = .packets) :
    applySmems smem pd = { smem with packets := smem.packets + 1 } := by
  rw [applySmems, applyDirectCounter]
  simp [hpob]

namespace DirectCounter

theorem matched_eq_some_iff {key : κ} {p : EntryPtr} : D.matched key = some p ↔
    D.table.keyBitSize ≠ 0 ∧ D.lookup key = p ∧ p ≠ D.data.defaultVal := by
  rw [matched]
  split_ifs with h
  · refine iff_of_false (fun hnone => nomatch hnone) ?_
    rintro ⟨hkey, rfl, hne⟩
    exact h.elim hkey hne
  · rw [not_or] at h
    rw [Option.some_inj]
    exact ⟨fun hp => ⟨h.1, hp, hp ▸ h.2⟩, fun hp => hp.2.1⟩

theorem mem_of_matched {key : κ} {p : EntryPtr} (h : D.matched key = some p) : p ∈ D.entries := by
  obtain ⟨hkey, rfl, hne⟩ := matched_eq_some_iff.mp h
  exact D.lookup_mem hkey key hne

/-- A packet that matches an entry. -/
theorem apply_of_matched {p : EntryPtr} (h : D.matched pd.key = some p) :
    D.apply smem pd = some (if P4Table.IsNoAction (D.data.entry p) then smem
      else applySmems smem pd) := by
  obtain ⟨hkey, hlookup, hne⟩ := matched_eq_some_iff.mp h
  obtain ⟨r, hr, hsmems⟩ := P4Table.apply_smems D.noActionNames_le D.data D.lookup pd.key
  rw [apply, hr, Option.map_some, hsmems, D.hasDirectSmem, hlookup]
  by_cases hna : P4Table.IsNoAction (D.data.entry p) <;> simp [hna, hkey, hne]

/-- A packet that matches no entry of a table with keys. -/
theorem apply_of_matched_none (hkey : D.table.keyBitSize ≠ 0) (h : D.matched pd.key = none) :
    D.apply smem pd = some smem := by
  obtain ⟨r, hr, hsmems⟩ := P4Table.apply_smems D.noActionNames_le D.data D.lookup pd.key
  have hmiss : D.lookup pd.key = D.data.defaultVal := by
    by_contra hne
    rw [matched_eq_some_iff.mpr ⟨hkey, rfl, hne⟩] at h
    cases h
  rw [apply, hr, Option.map_some, hsmems, hmiss]
  simp [hkey]

end DirectCounter

/-! ### Runs -/

/-- The totals of the packets so far, and a `pob` that was never set. -/
def DirectState.Inv (D : DirectCounter Stmt κ) (s : DirectState κ) : Prop :=
  D.Counts s.applied s.smem ∧ s.smem.pob = .packets

variable {s : DirectState κ}

/-- A packet that matches no entry: misses, and all packets of a table without keys. -/
theorem DirectState.law_of_matched_none (hinv : s.Inv D) (h : D.matched pd.key = none) :
    s.Law D pd := by
  obtain ⟨hcounts, hpob⟩ := hinv
  have hno : ∀ p, ¬ D.matched pd.key = some p := fun p hp => by
    rw [h] at hp
    cases hp
  by_cases hkey : D.table.keyBitSize = 0
  · -- there are no entries whose counters could be wrong
    have hentries : ∀ p, p ∉ D.entries := by
      rw [D.keyless hkey]
      exact fun _ => List.not_mem_nil
    obtain ⟨r, hr, -⟩ := P4Table.apply_smems D.noActionNames_le D.data D.lookup pd.key
    refine ⟨_, congrArg (Option.map _) hr, ⟨fun _ p hp => ?_, fun _ p hp => ?_⟩, fun p hp _ => ?_⟩
    all_goals exact absurd hp (hentries p)
  · refine ⟨s.smem, DirectCounter.apply_of_matched_none hkey h, hcounts.append_iff.mpr
      ⟨fun _ p _ => ?_, fun _ p _ => ?_⟩, fun _ _ _ => rfl⟩
    all_goals rw [if_neg (hno p), add_zero]

/-- A packet that matches the entry `p`. -/
theorem DirectState.law_of_matched_iff (hinv : s.Inv D) {p : EntryPtr}
    (h : D.matched pd.key = some p) : s.Law D pd ↔ D.Ok pd := by
  obtain ⟨hcounts, hpob⟩ := hinv
  have hmem := DirectCounter.mem_of_matched h
  rw [Law, DirectCounter.apply_of_matched h, applySmems_eq hpob]
  constructor
  · rintro ⟨smem, hsome, hcounts', hframe⟩ p' hp'
    obtain rfl := Option.some_inj.mp (h.symm.trans hp')
    obtain rfl := Option.some_inj.mp hsome
    obtain ⟨hp, hb⟩ := hcounts.append_iff.mp hcounts'
    by_cases hna : P4Table.IsNoAction (D.data.entry p)
    -- No hit: nothing is added, though the packet has matched the entry.
    · simp only [if_pos hna, DirectCounter.own] at hp hb
      refine ⟨.inl hna, ?_, ?_⟩
      · intro hkind
        have hone := hp hkind p hmem
        rw [if_pos h, left_eq_add] at hone
        exact absurd hone (by decide)
      · intro hkind
        have hzero := hb hkind p hmem
        rwa [if_pos h, left_eq_add] at hzero
    · simp only [if_neg hna, DirectCounter.own] at hb hframe
      -- A hit adds to the one cell, which is also that of every other entry.
      refine ⟨.inr ?_, fun _ => hna, ?_⟩
      · intro q hq
        by_contra hne
        have hsame := congrArg CounterCell.packets
          (hframe q hq fun hpq => hne (Option.some_inj.mp (hpq.symm.trans h)))
        rw [add_eq_left] at hsame
        exact absurd hsame (by decide)
      · intro hkind
        have hzero := hb hkind p hmem
        rwa [if_pos h, left_eq_add] at hzero
  · intro hok
    obtain ⟨hshared, hhit, hsize⟩ := hok p h
    by_cases hna : P4Table.IsNoAction (D.data.entry p)
    · rw [if_pos hna]
      refine ⟨_, rfl, hcounts.append_iff.mpr ⟨fun hkind => absurd hna (hhit hkind),
        ?_⟩, fun _ _ _ => rfl⟩
      intro hkind q _
      rw [hsize hkind, ite_self, add_zero]
    · rw [if_neg hna]
      have honly : ∀ q ∈ D.entries, D.matched pd.key = some q := fun q hq => by
        rw [hshared.resolve_left hna q hq, h]
      refine ⟨_, rfl, hcounts.append_iff.mpr ⟨?_, ?_⟩, fun q hq hne => absurd (honly q hq) hne⟩
      · intro _ q hq
        rw [if_pos (honly q hq)]
        rfl
      · intro hkind q _
        rw [hsize hkind, ite_self, add_zero]
        rfl

theorem DirectState.law_iff (hinv : s.Inv D) : s.Law D pd ↔ D.Ok pd := by
  cases h : D.matched pd.key with
  | none =>
    refine iff_of_true (law_of_matched_none hinv h) ?_
    intro p hp
    rw [h] at hp
    cases hp
  | some p => exact law_of_matched_iff hinv h

theorem DirectState.Inv.next (hinv : s.Inv D) (hlaw : s.Law D pd) : (s.next D pd).Inv D := by
  obtain ⟨smem, hsome, hcounts, -⟩ := hlaw
  rw [DirectState.next, hsome, Option.getD_some]
  refine ⟨hcounts, ?_⟩
  obtain ⟨r, -, rfl⟩ := Option.map_eq_some_iff.mp hsome
  split_ifs
  · rw [applySmems_eq hinv.2]
    exact hinv.2
  · exact hinv.2

/-- **The counters of the entries count over a sequence of packets iff each packet meets
the condition.** -/
theorem directCounterLaw_iff (D : DirectCounter Stmt κ) (pds : List (AppliedPacket κ)) :
    DirectCounterLaw D pds ↔ ∀ pd ∈ pds, D.Ok pd := by
  have hinit : (⟨.zero, []⟩ : DirectState κ).Inv D := ⟨⟨fun _ _ _ => rfl, fun _ _ _ => rfl⟩, rfl⟩
  have hlaw : ∀ (s : DirectState κ) (pd : AppliedPacket κ), s.Inv D → (s.Law D pd ↔ D.Ok pd) :=
    fun _ _ hinv => DirectState.law_iff hinv
  exact (along_congr hlaw (fun _ _ hinv hlaw => hinv.next hlaw) hinit).trans along_const

/-! ### Two entries -/

/-- A table with two entries that forward, found by the keys 1 and 2. -/
def twoEntries : DirectCounter Unit ℕ where
  table :=
    { keyBitSize := 8, actions := [⟨"forward", [()]⟩], hasDirectSmem := true
      nodup := by decide }
  hasDirectSmem := rfl
  noActionNames_le := by decide
  data :=
    { defaultVal := 0
      entry := fun _ => ⟨⟨"forward", [()]⟩, List.mem_singleton.mpr rfl, [7]⟩ }
  lookup key := if key = 1 ∨ key = 2 then key else 0
  entries := [1, 2]
  kind := .packets
  keyless := fun h => absurd h (by decide)
  lookup_mem := by
    intro _ key hne
    rw [ite_ne_right_iff] at hne
    rw [if_pos hne.1]
    rcases hne.1 with rfl | rfl <;> decide
  ne_default := by decide

/-- A packet for the entry 1 is counted for the entry 2. -/
theorem twoEntries_not_directCounterLaw : ¬ ∀ (D : DirectCounter Unit ℕ)
    (pds : List (AppliedPacket ℕ)), DirectCounterLaw D pds := by
  intro hlaw
  obtain ⟨⟨smem, hsome, hcounts, -⟩, -⟩ := hlaw twoEntries [⟨1, 14, 64⟩]
  have htwo := hcounts.packets (by decide) 2 (by decide)
  obtain rfl := Option.some_inj.mp hsome
  exact absurd htwo (by decide)

end T4P4S
