/-
Gathering blocks: copying a list of blocks, one after another, to consecutive
destinations of the same memory.

The sources may lie where the destinations are, so a copy can destroy what a
later one has to read.  It does not iff the blocks are `GatherSafe`: inside their
objects, and no block that moves is written over a block that has still to be read.

* **`GatherSafe.gathered`** — gathering safe blocks puts the original contents into
  place;
* **`gatherSafe_of_gathered`** — if it does so whatever the contents are, they are safe;
* `coalesce` joins blocks that lie one right behind the other, and
  **`flatMap_load_coalesce`** says that this does not change what is read.
-/
import Mathlib.Algebra.GroupWithZero.Nat
import T4P4S.Lib.Memory

namespace CMem

variable {ι β : Type*}

/-- `len` addresses from `start` on. -/
@[ext] structure Block (ι : Type*) where
  start : Ptr ι
  len : ℕ
  deriving DecidableEq

/-- The number of addresses in a list of blocks. -/
def total (bs : List (Block ι)) : ℕ := (bs.map Block.len).sum

@[simp] theorem total_nil : total ([] : List (Block ι)) = 0 := rfl

@[simp] theorem total_cons (b : Block ι) (bs : List (Block ι)) :
    total (b :: bs) = b.len + total bs := by
  simp [total]

/-- The contents of a block. -/
def Block.load (m : Mem ι β) (b : Block ι) : List β := CMem.load m b.start b.len

theorem length_flatMap_load (m : Mem ι β) (bs : List (Block ι)) :
    (bs.flatMap (Block.load m)).length = total bs := by
  simp [total, Block.load]

/-- From `dst` on, `m'` holds what the blocks hold in `m`. -/
def Gathered (m m' : Mem ι β) : Ptr ι → List (Block ι) → Prop
  | _, [] => True
  | dst, b :: bs =>
    (∀ i < b.len, m' (dst + i) = m (b.start + i)) ∧ Gathered m m' (dst + b.len) bs

theorem gathered_iff_load {m m' : Mem ι β} {bs : List (Block ι)} : ∀ {dst : Ptr ι},
    Gathered m m' dst bs ↔ load m' dst (total bs) = bs.flatMap (Block.load m) := by
  induction bs with
  | nil => simp [Gathered]
  | cons b bs ih =>
    intro dst
    rw [Gathered, ih, total_cons, load_append, List.flatMap_cons, Block.load]
    constructor
    · rintro ⟨hb, hbs⟩
      rw [hbs, load_eq_load_iff.mpr hb]
    · intro h
      obtain ⟨hb, hbs⟩ := List.append_inj h (by simp)
      exact ⟨load_eq_load_iff.mp hb, hbs⟩

theorem Gathered.congr {m₁ m₂ m' : Mem ι β} {bs : List (Block ι)} : ∀ {dst : Ptr ι},
    (∀ b ∈ bs, ∀ i < b.len, m₁ (b.start + i) = m₂ (b.start + i)) →
      Gathered m₁ m' dst bs → Gathered m₂ m' dst bs := by
  induction bs with
  | nil => intros; trivial
  | cons b bs ih =>
    intro dst h hg
    refine ⟨?_, ih (fun c hc => h c (List.mem_cons_of_mem _ hc)) hg.2⟩
    intro i hi
    rw [hg.1 i hi, h b List.mem_cons_self i hi]

variable [DecidableEq ι]

/-- Copy the blocks one after another to `dst`, `dst + len`, … -/
def gather (size : ι → ℕ) : Mem ι β → Ptr ι → List (Block ι) → Option (Mem ι β)
  | m, _, [] => some m
  | m, dst, b :: bs =>
    (memcpy size m dst b.start b.len).bind fun m' => gather size m' (dst + b.len) bs

theorem gather_cons_eq_some {size : ι → ℕ} {m m' : Mem ι β} {dst : Ptr ι} {b : Block ι}
    {bs : List (Block ι)} :
    gather size m dst (b :: bs) = some m' ↔
      (b.start.off + b.len ≤ size b.start.obj ∧ dst.off + b.len ≤ size dst.obj ∧
        (b.start = dst ∨ Apart dst b.len b.start b.len)) ∧
      gather size (copy m dst b.start b.len) (dst + b.len) bs = some m' := by
  rw [gather, Option.bind_eq_some_iff]
  constructor
  · rintro ⟨m₁, h₁, h₂⟩
    obtain ⟨hdef, rfl⟩ := memcpy_eq_some_iff.mp h₁
    exact ⟨hdef, h₂⟩
  · rintro ⟨hdef, h⟩
    exact ⟨_, memcpy_eq_some_iff.mpr ⟨hdef, rfl⟩, h⟩

/-- The address whose content the address `a` has after gathering. -/
def gatherSource : Ptr ι → List (Block ι) → Ptr ι → Ptr ι
  | _, [], a => a
  | dst, b :: bs, a => copySource dst b.start b.len (gatherSource (dst + b.len) bs a)

/-- Gathering moves contents, the same for every memory. -/
theorem gather_eq_source {size : ι → ℕ} {bs : List (Block ι)} :
    ∀ {m m' : Mem ι β} {dst : Ptr ι}, gather size m dst bs = some m' → ∀ m₂ : Mem ι β,
      gather size m₂ dst bs = some fun a => m₂ (gatherSource dst bs a) := by
  induction bs with
  | nil => intro m m' dst _ m₂; rfl
  | cons b bs ih =>
    intro m m' dst h m₂
    obtain ⟨hdef, h⟩ := gather_cons_eq_some.mp h
    refine gather_cons_eq_some.mpr ⟨hdef, ?_⟩
    rw [ih h, copy_eq_source]
    rfl

/-- What is gathered lies inside its object. -/
theorem gather_reads {size : ι → ℕ} {bs : List (Block ι)} :
    ∀ {m m' : Mem ι β} {dst : Ptr ι}, gather size m dst bs = some m' → ∀ b ∈ bs,
      b.start.off + b.len ≤ size b.start.obj := by
  induction bs with
  | nil => intro m m' dst _ b hb; exact absurd hb List.not_mem_nil
  | cons b bs ih =>
    intro m m' dst h
    obtain ⟨⟨hsrc, -, -⟩, hrest⟩ := gather_cons_eq_some.mp h
    exact List.forall_mem_cons.mpr ⟨hsrc, ih hrest⟩

/-- Only the addresses from `dst` on, in its object, are written. -/
theorem gather_frame {size : ι → ℕ} {bs : List (Block ι)} :
    ∀ {m m' : Mem ι β} {dst a : Ptr ι}, gather size m dst bs = some m' →
      ¬ InBlock a dst (total bs) → m' a = m a := by
  induction bs with
  | nil =>
    intro m m' dst a h _
    rw [gather, Option.some_inj] at h
    rw [h]
  | cons b bs ih =>
    intro m m' dst a h ha
    obtain ⟨-, h⟩ := gather_cons_eq_some.mp h
    rw [total_cons] at ha
    rw [ih h, copy_of_not_inBlock]
    · rintro ⟨hobj, hlo, hhi⟩
      exact ha ⟨hobj, hlo, by omega⟩
    · rintro ⟨hobj, hlo, hhi⟩
      simp only [Ptr.off_add] at hlo hhi
      exact ha ⟨hobj, by omega, by omega⟩

/-- All blocks that are written lie inside their object. -/
theorem gather_bound {size : ι → ℕ} {bs : List (Block ι)} :
    ∀ {m m' : Mem ι β} {dst : Ptr ι}, gather size m dst bs = some m' → bs ≠ [] →
      dst.off + total bs ≤ size dst.obj := by
  induction bs with
  | nil => intro m m' dst _ hne; exact absurd rfl hne
  | cons b bs ih =>
    intro m m' dst h _
    obtain ⟨⟨-, hb, -⟩, h⟩ := gather_cons_eq_some.mp h
    rcases eq_or_ne bs [] with rfl | hne
    · simpa using hb
    · have := ih h hne
      simp only [Ptr.off_add, Ptr.obj_add] at this
      rw [total_cons]
      omega

/-- Blocks may be gathered at `dst`: each lies inside its object, and either
stays where it is or is written over nothing that it or a later block reads. -/
def GatherSafe (size : ι → ℕ) : Ptr ι → List (Block ι) → Prop
  | _, [] => True
  | dst, b :: bs =>
    (b.start.off + b.len ≤ size b.start.obj ∧ dst.off + b.len ≤ size dst.obj ∧
      (b.start = dst ∨ ∀ c ∈ b :: bs, Apart dst b.len c.start c.len)) ∧
    GatherSafe size (dst + b.len) bs

instance GatherSafe.decidable (size : ι → ℕ) : (dst : Ptr ι) → (bs : List (Block ι)) →
    Decidable (GatherSafe size dst bs)
  | _, [] => isTrue trivial
  | dst, b :: bs =>
    have := GatherSafe.decidable size (dst + b.len) bs
    inferInstanceAs (Decidable (_ ∧ _))

/-- Safe blocks can be gathered, and their contents arrive. -/
theorem GatherSafe.gathered {size : ι → ℕ} {bs : List (Block ι)} : ∀ {dst : Ptr ι},
    GatherSafe size dst bs → ∀ m : Mem ι β,
      ∃ m', gather size m dst bs = some m' ∧ Gathered m m' dst bs := by
  induction bs with
  | nil => intro dst _ m; exact ⟨m, rfl, trivial⟩
  | cons b bs ih =>
    rintro dst ⟨⟨hsrc, hdst, hmove⟩, hsafe⟩ m
    obtain ⟨m', hm', hg⟩ := ih hsafe (copy m dst b.start b.len)
    refine ⟨m', gather_cons_eq_some.mpr ⟨⟨hsrc, hdst, ?_⟩, hm'⟩, ?_, ?_⟩
    · exact hmove.imp_right fun h => h b List.mem_cons_self
    · intro i hi
      rw [gather_frame hm', copy_add hi]
      rintro ⟨-, hlo, -⟩
      simp only [Ptr.off_add] at hlo
      omega
    · -- the later blocks still hold what they held before this copy
      refine hg.congr ?_
      intro c hc i hi
      rcases hmove with heq | hapart
      · rw [heq, copy_self]
      · exact copy_of_not_inBlock
          ((hapart c (List.mem_cons_of_mem _ hc)).not_inBlock (inBlock_add hi))

/-- If the contents of `m` arrive although `m₀` is what is gathered from, the
two agree on every address that is read and not written from `dst` on. -/
theorem Gathered.source_eq {size : ι → ℕ} {m : Mem ι β} {bs : List (Block ι)} :
    ∀ {m₀ m' : Mem ι β} {dst : Ptr ι}, gather size m₀ dst bs = some m' →
      Gathered m m' dst bs → ∀ c ∈ bs, ∀ a, InBlock a c.start c.len →
        (a.obj = dst.obj → a.off < dst.off) → m₀ a = m a := by
  induction bs with
  | nil => intro m₀ m' dst _ _ c hc; exact absurd hc List.not_mem_nil
  | cons b bs ih =>
    intro m₀ m' dst h hg c hc a ha hbelow
    obtain ⟨-, h⟩ := gather_cons_eq_some.mp h
    have hout : ¬ InBlock a dst b.len := fun hin => by
      have := hbelow hin.1
      have := hin.2.1
      omega
    rcases List.mem_cons.mp hc with rfl | hc
    · obtain ⟨i, hi, rfl⟩ := ha.eq_add
      have harr : m' (dst + i) = m₀ (c.start + i) := by
        rw [gather_frame h, copy_add hi]
        rintro ⟨-, hlo, -⟩
        simp only [Ptr.off_add] at hlo
        omega
      rw [← harr, hg.1 i hi]
    · rw [← ih h hg.2 c hc a ha ?_, copy_of_not_inBlock hout]
      intro hobj
      have := hbelow hobj
      simp only [Ptr.off_add]
      omega

/-- The converse of `GatherSafe.gathered`, also when the memory was changed by
`T` before it is gathered from. -/
theorem gatherSafe_of_gathered [Nontrivial β] {size : ι → ℕ} {bs : List (Block ι)} :
    ∀ {dst : Ptr ι} {T : Mem ι β → Mem ι β},
      (∀ m, ∃ m', gather size (T m) dst bs = some m' ∧ Gathered m m' dst bs) →
        GatherSafe size dst bs := by
  induction bs with
  | nil => intros; trivial
  | cons b bs ih =>
    intro dst T h
    have hstep : ∀ m, ∃ m', gather size (copy (T m) dst b.start b.len) (dst + b.len) bs
        = some m' ∧ Gathered m m' (dst + b.len) bs := fun m => by
      obtain ⟨m', hm', hg⟩ := h m
      exact ⟨m', (gather_cons_eq_some.mp hm').2, hg.2⟩
    refine ⟨?_, ih hstep⟩
    obtain ⟨x, -⟩ := exists_pair_ne β
    obtain ⟨m', hm', -⟩ := h fun _ => x
    obtain ⟨⟨hsrc, hdst, hmove⟩, -⟩ := gather_cons_eq_some.mp hm'
    refine ⟨hsrc, hdst, or_iff_not_imp_left.mpr ?_⟩
    intro hne c hc
    have hb := hmove.resolve_left hne
    rcases List.mem_cons.mp hc with rfl | hc
    · exact hb
    · -- a common address would have to hold two contents at once
      by_contra hna
      obtain ⟨a, had, hac⟩ := exists_inBlock_of_not_apart hna
      obtain ⟨i, hi, rfl⟩ := had.eq_add
      refine hne (Ptr.ext ?_ ?_) <;>
      · have hfix : b.start + i = dst + i := eq_of_forall_mem fun m : Mem ι β => by
          obtain ⟨m', hm', hg⟩ := h m
          have hm₁ := (gather_cons_eq_some.mp hm').2
          have hlt : (dst + i).obj = (dst + b.len).obj → (dst + i).off < (dst + b.len).off := by
            intro _
            simpa using hi
          rw [← hg.2.source_eq hm₁ c hc _ hac hlt, ← hg.1 i hi, gather_frame hm₁]
          rintro ⟨-, hlo, -⟩
          simp only [Ptr.off_add] at hlo
          omega
        have := congrArg Ptr.obj hfix
        have := congrArg Ptr.off hfix
        simp only [Ptr.obj_add, Ptr.off_add] at *
        first | assumption | omega

/-! ### Joining neighbours -/

/-- Join each block to the one it lies right behind; `none` keeps its two sides
apart.  `cur` is the block being extended. -/
def coalesceFrom : Option (Block ι) → List (Option (Block ι)) → List (Block ι)
  | cur, [] => cur.toList
  | cur, none :: l => cur.toList ++ coalesceFrom none l
  | none, some b :: l => coalesceFrom (some b) l
  | some c, some b :: l =>
    if b.start = c.start + c.len then
      coalesceFrom (some ⟨c.start, c.len + b.len⟩) l
    else
      c :: coalesceFrom (some b) l

/-- The maximal runs of blocks that lie one right behind the other. -/
def coalesce (l : List (Option (Block ι))) : List (Block ι) := coalesceFrom none l

theorem flatMap_load_coalesceFrom (m : Mem ι β) (l : List (Option (Block ι))) :
    ∀ cur : Option (Block ι), (coalesceFrom cur l).flatMap (Block.load m) =
      (cur.toList ++ (l.filterMap id)).flatMap (Block.load m) := by
  induction l with
  | nil => intro cur; simp [coalesceFrom]
  | cons o l ih =>
    intro cur
    cases o with
    | none => simp [coalesceFrom, ih]
    | some b =>
      cases cur with
      | none => simp [coalesceFrom, ih]
      | some c =>
        rw [coalesceFrom]
        split
        · next heq =>
          simp [ih, Block.load, load_append, heq]
        · simp [ih]

/-- Joining neighbours does not change what is read. -/
theorem flatMap_load_coalesce (m : Mem ι β) (l : List (Option (Block ι))) :
    (coalesce l).flatMap (Block.load m) = (l.filterMap id).flatMap (Block.load m) := by
  simp [coalesce, flatMap_load_coalesceFrom]

/-- An address in one of the blocks is in one of the joined blocks. -/
theorem exists_mem_coalesceFrom {a : Ptr ι} (l : List (Option (Block ι))) :
    ∀ {cur : Option (Block ι)} {b : Block ι}, b ∈ cur.toList ++ l.filterMap id →
      InBlock a b.start b.len → ∃ c ∈ coalesceFrom cur l, InBlock a c.start c.len := by
  induction l with
  | nil => intro cur b hb ha; exact ⟨b, by simpa [coalesceFrom] using hb, ha⟩
  | cons o l ih =>
    intro cur b hb ha
    cases o with
    | none =>
      rw [coalesceFrom]
      rw [List.filterMap_cons_none (by rfl), List.mem_append] at hb
      rcases hb with hb | hb
      · exact ⟨b, List.mem_append_left _ hb, ha⟩
      · obtain ⟨c, hc, hac⟩ := @ih none b (by simpa using hb) ha
        exact ⟨c, List.mem_append_right _ hc, hac⟩
    | some d =>
      rw [List.filterMap_cons_some (by rfl)] at hb
      cases cur with
      | none => exact ih hb ha
      | some e =>
        rw [coalesceFrom]
        split
        · next hnext =>
          -- `e` and `d` are parts of the block that joins them
          have hpart : InBlock a b.start b.len → b = e ∨ b = d →
              InBlock a e.start (e.len + d.len) := by
            rintro ⟨hobj, hlo, hhi⟩ (rfl | rfl)
            · exact ⟨hobj, hlo, by omega⟩
            · rw [hnext] at hobj hlo hhi
              simp only [Ptr.obj_add, Ptr.off_add] at hobj hlo hhi
              exact ⟨hobj, by omega, by omega⟩
          rcases List.mem_cons.mp hb with hbe | hb
          · exact ih List.mem_cons_self (hpart ha (.inl hbe))
          · rcases List.mem_cons.mp hb with hbd | hb
            · exact ih List.mem_cons_self (hpart ha (.inr hbd))
            · exact ih (List.mem_cons_of_mem _ hb) ha
        · rcases List.mem_cons.mp hb with rfl | hb
          · exact ⟨_, List.mem_cons_self, ha⟩
          · obtain ⟨c, hc, hac⟩ := @ih (some d) b hb ha
            exact ⟨c, List.mem_cons_of_mem _ hc, hac⟩

theorem exists_mem_coalesce {a : Ptr ι} {l : List (Option (Block ι))} {b : Block ι}
    (hb : b ∈ l.filterMap id) (ha : InBlock a b.start b.len) :
    ∃ c ∈ coalesce l, InBlock a c.start c.len :=
  exists_mem_coalesceFrom l (by simpa using hb) ha

/-- Joining neighbours hides no address that is out of bounds. -/
theorem gather_coalesce_reads {size : ι → ℕ} {l : List (Option (Block ι))} {m m' : Mem ι β}
    {dst : Ptr ι} (h : gather size m dst (coalesce l) = some m') {b : Block ι}
    (hb : b ∈ l.filterMap id) {a : Ptr ι} (ha : InBlock a b.start b.len) :
    a.off < size a.obj := by
  obtain ⟨c, hc, hobj, -, hhi⟩ := exists_mem_coalesce hb ha
  have hread := gather_reads h c hc
  rw [hobj]
  omega

theorem total_coalesceFrom (l : List (Option (Block ι))) :
    ∀ cur : Option (Block ι), total (coalesceFrom cur l) =
      total (cur.toList ++ (l.filterMap id)) := by
  induction l with
  | nil => intro cur; simp [coalesceFrom]
  | cons o l ih =>
    intro cur
    cases o with
    | none => cases cur <;> simp [coalesceFrom, ih]
    | some b =>
      cases cur with
      | none => simp [coalesceFrom, ih]
      | some c =>
        rw [coalesceFrom]
        split
        · simp [ih, Nat.add_assoc]
        · simp [ih]

theorem total_coalesce (l : List (Option (Block ι))) :
    total (coalesce l) = total (l.filterMap id) := by
  simp [coalesce, total_coalesceFrom]

/-! ### Blocks that are in place -/

/-- The blocks fill the addresses from `dst` to `stop`, one right behind the other. -/
def Tiled (stop : Ptr ι) : Ptr ι → List (Block ι) → Prop
  | dst, [] => dst = stop
  | dst, b :: bs => (b.len = 0 ∨ b.start = dst) ∧ Tiled stop (dst + b.len) bs

/-- Blocks are in place iff reading the addresses they fill is reading the blocks. -/
theorem tiled_iff_load [Nontrivial β] {stop : Ptr ι} {bs : List (Block ι)} : ∀ {dst : Ptr ι},
    Tiled stop dst bs ↔ dst + total bs = stop ∧
      ∀ m : Mem ι β, load m dst (total bs) = bs.flatMap (Block.load m) := by
  induction bs with
  | nil => simp [Tiled]
  | cons b bs ih =>
    intro dst
    rw [Tiled, ih, total_cons, Ptr.add_add]
    constructor
    · rintro ⟨hb, hend, hbs⟩
      refine ⟨hend, ?_⟩
      intro m
      rw [load_append, List.flatMap_cons, hbs, Block.load]
      rcases hb with hlen | hstart
      · rw [hlen, load_zero, load_zero]
      · rw [hstart]
    · rintro ⟨hend, hload⟩
      have hsplit : ∀ m : Mem ι β, load m dst b.len = load m b.start b.len ∧
          load m (dst + b.len) (total bs) = bs.flatMap (Block.load m) := fun m => by
        have := hload m
        rw [load_append, List.flatMap_cons, Block.load] at this
        exact List.append_inj this (by simp)
      refine ⟨or_iff_not_imp_left.mpr ?_, hend, fun m => (hsplit m).2⟩
      intro hlen
      refine eq_of_forall_mem fun m : Mem ι β => ?_
      exact (load_eq_load_iff.mp (hsplit m).1 0 (Nat.pos_of_ne_zero hlen)).symm

omit [DecidableEq ι] in
/-- A block put right behind those that are in place. -/
theorem Tiled.concat {stop : Ptr ι} {bs : List (Block ι)} (n : ℕ) : ∀ {dst : Ptr ι},
    Tiled stop dst bs → Tiled (stop + n) dst (bs ++ [⟨stop, n⟩]) := by
  induction bs with
  | nil => rintro dst rfl; exact ⟨.inr rfl, rfl⟩
  | cons b bs ih => exact fun h => ⟨h.1, ih h.2⟩

omit [DecidableEq ι] in
/-- Empty blocks make no difference. -/
theorem tiled_filter_len {stop : Ptr ι} {bs : List (Block ι)} : ∀ {dst : Ptr ι},
    Tiled stop dst (bs.filter fun b => b.len ≠ 0) ↔ Tiled stop dst bs := by
  induction bs with
  | nil => exact Iff.rfl
  | cons b bs ih =>
    intro dst
    by_cases hlen : b.len = 0
    · simp [hlen, Tiled, ← ih]
    · simp only [List.filter_cons, hlen, ne_eq, not_false_eq_true, decide_true, if_true, Tiled]
      rw [← ih]

end CMem
