/-
Byte memory made of separate objects, and the C copying function on it.

A pointer is an object together with an offset, a memory gives every pointer
its content.  `memcpy` is partial exactly where C leaves it undefined:

* **`memcpy_eq_some_iff`** — it succeeds iff both blocks lie inside their
  objects and the blocks are apart (a block may also be copied onto itself);
* **`copy_add`**, **`copy_of_not_inBlock`** — what a copy puts into its
  destination, and that it changes nothing else;
* **`load_append`** — reading a long block is reading its two parts;
* **`copySource_eq_iff`** — when two copies do the same;
* **`eq_put_iff`** — what it means to write contents at an address.

Nothing here depends on what the objects or the contents are.
-/
import Mathlib.Data.List.Basic
import Mathlib.Data.List.GetD
import Mathlib.Tactic.Common

namespace CMem

variable {ι β : Type*}

/-- A pointer: an offset into an object. -/
@[ext] structure Ptr (ι : Type*) where
  obj : ι
  off : ℕ
  deriving DecidableEq

instance : HAdd (Ptr ι) ℕ (Ptr ι) := ⟨fun p n => ⟨p.obj, p.off + n⟩⟩

@[simp] theorem Ptr.obj_add (p : Ptr ι) (n : ℕ) : (p + n).obj = p.obj := rfl

@[simp] theorem Ptr.off_add (p : Ptr ι) (n : ℕ) : (p + n).off = p.off + n := rfl

@[simp] theorem Ptr.add_zero (p : Ptr ι) : p + 0 = p := rfl

theorem Ptr.add_add (p : Ptr ι) (a b : ℕ) : p + a + b = p + (a + b) := by
  ext
  · rfl
  · simp [Nat.add_assoc]

theorem Ptr.add_right_cancel {p q : Ptr ι} {n : ℕ} (h : p + n = q + n) : p = q :=
  Ptr.ext (congrArg Ptr.obj h :) (Nat.add_right_cancel (congrArg Ptr.off h :))

/-- A memory: the content of every address. -/
abbrev Mem (ι β : Type*) := Ptr ι → β

/-- The address `a` is one of the `n` addresses from `p` on. -/
def InBlock (a p : Ptr ι) (n : ℕ) : Prop :=
  a.obj = p.obj ∧ p.off ≤ a.off ∧ a.off < p.off + n

instance [DecidableEq ι] (a p : Ptr ι) (n : ℕ) : Decidable (InBlock a p n) :=
  inferInstanceAs (Decidable (_ ∧ _ ∧ _))

theorem inBlock_add {p : Ptr ι} {n i : ℕ} (h : i < n) : InBlock (p + i) p n := by
  refine ⟨rfl, ?_, ?_⟩
  · simp
  · simpa using h

theorem InBlock.eq_add {a p : Ptr ι} {n : ℕ} (h : InBlock a p n) :
    ∃ i < n, a = p + i := by
  obtain ⟨hobj, hlo, hhi⟩ := h
  refine ⟨a.off - p.off, by omega, ?_⟩
  ext
  · exact hobj
  · simp; omega

/-- Two blocks share no address. -/
def Apart (p : Ptr ι) (n : ℕ) (q : Ptr ι) (k : ℕ) : Prop :=
  p.obj = q.obj → p.off + n ≤ q.off ∨ q.off + k ≤ p.off ∨ n = 0 ∨ k = 0

instance [DecidableEq ι] (p : Ptr ι) (n : ℕ) (q : Ptr ι) (k : ℕ) : Decidable (Apart p n q k) :=
  inferInstanceAs (Decidable (_ → _))

theorem Apart.not_inBlock {a p q : Ptr ι} {n k : ℕ} (h : Apart p n q k)
    (ha : InBlock a q k) : ¬ InBlock a p n := by
  rintro ⟨hobj, hlo, hhi⟩
  obtain ⟨hobj', hlo', hhi'⟩ := ha
  have := h (hobj.symm.trans hobj')
  omega

theorem exists_inBlock_of_not_apart {p q : Ptr ι} {n k : ℕ} (h : ¬ Apart p n q k) :
    ∃ a, InBlock a p n ∧ InBlock a q k := by
  simp only [Apart, Classical.not_imp, not_or, Nat.not_le] at h
  obtain ⟨hobj, h1, h2, h3, h4⟩ := h
  refine ⟨⟨p.obj, max p.off q.off⟩, ⟨rfl, ?_, ?_⟩, ⟨hobj, ?_, ?_⟩⟩ <;> simp <;> omega

theorem apart_iff_forall {p q : Ptr ι} {n k : ℕ} :
    Apart p n q k ↔ ∀ a, InBlock a p n → ¬ InBlock a q k := by
  constructor
  · intro h a hp hq
    exact h.not_inBlock hq hp
  · intro h
    by_contra hnot
    obtain ⟨a, hp, hq⟩ := exists_inBlock_of_not_apart hnot
    exact h a hp hq

/-- The contents of `n` addresses from `p` on. -/
def load (m : Mem ι β) (p : Ptr ι) (n : ℕ) : List β :=
  (List.range n).map fun i => m (p + i)

@[simp] theorem length_load (m : Mem ι β) (p : Ptr ι) (n : ℕ) : (load m p n).length = n := by
  simp [load]

@[simp] theorem load_zero (m : Mem ι β) (p : Ptr ι) : load m p 0 = [] := rfl

theorem load_append (m : Mem ι β) (p : Ptr ι) (a b : ℕ) :
    load m p (a + b) = load m p a ++ load m (p + a) b := by
  simp [load, List.range_add, List.map_append, Function.comp_def, Ptr.add_add]

theorem take_load (m : Mem ι β) (p : Ptr ι) {k n : ℕ} (h : k ≤ n) :
    (load m p n).take k = load m p k := by
  rw [load, ← List.map_take, List.take_range, Nat.min_eq_left h, load]

theorem load_eq_load_iff {m m' : Mem ι β} {p q : Ptr ι} {n : ℕ} :
    load m p n = load m' q n ↔ ∀ i < n, m (p + i) = m' (q + i) := by
  simp [load, List.map_inj_left]

variable [DecidableEq ι]

/-- Copy the `n` addresses from `src` on to `dst`; all of them are read before
the first is written. -/
def copy (m : Mem ι β) (dst src : Ptr ι) (n : ℕ) : Mem ι β :=
  fun a => if InBlock a dst n then m (src + (a.off - dst.off)) else m a

@[simp] theorem copy_add {m : Mem ι β} {dst src : Ptr ι} {n i : ℕ} (h : i < n) :
    copy m dst src n (dst + i) = m (src + i) := by
  simp [copy, inBlock_add h]

theorem copy_of_not_inBlock {m : Mem ι β} {a dst src : Ptr ι} {n : ℕ}
    (h : ¬ InBlock a dst n) : copy m dst src n a = m a := by
  simp [copy, h]

/-- The address whose content the address `a` has after a copy. -/
def copySource (dst src : Ptr ι) (n : ℕ) (a : Ptr ι) : Ptr ι :=
  if InBlock a dst n then src + (a.off - dst.off) else a

theorem copy_eq_source (m : Mem ι β) (dst src : Ptr ι) (n : ℕ) :
    copy m dst src n = fun a => m (copySource dst src n a) := by
  funext a
  rw [copy, copySource, apply_ite m]

@[simp] theorem copySource_self (p : Ptr ι) (n : ℕ) (a : Ptr ι) : copySource p p n a = a := by
  rw [copySource]
  split
  · next h =>
    obtain ⟨i, -, rfl⟩ := h.eq_add
    rw [Ptr.off_add, Nat.add_sub_cancel_left]
  · rfl

theorem copySource_add {dst src : Ptr ι} {n i : ℕ} (h : i < n) :
    copySource dst src n (dst + i) = src + i := by
  rw [copySource, if_pos (inBlock_add h), Ptr.off_add, Nat.add_sub_cancel_left]

/-- Two addresses that every memory fills alike are one address. -/
theorem eq_of_forall_mem [Nontrivial β] {a b : Ptr ι}
    (h : ∀ m : Mem ι β, m a = m b) : a = b := by
  obtain ⟨x, y, hxy⟩ := exists_pair_ne β
  by_contra hab
  have := h fun c => if c = a then x else y
  simp only [↓reduceIte, Ne.symm hab] at this
  exact hxy this

/-- Contents that every copy leaves are read where they were. -/
theorem forall_copy_apply_iff [Nontrivial β] {d s a b : Ptr ι} {n : ℕ} :
    (∀ m : Mem ι β, copy m d s n a = m b) ↔ copySource d s n a = b := by
  constructor
  · intro h
    refine eq_of_forall_mem (β := β) fun m => ?_
    have hat := h m
    rwa [copy_eq_source] at hat
  · rintro rfl m
    rw [copy_eq_source]

/-- Copying a block onto itself changes nothing. -/
@[simp] theorem copy_self (m : Mem ι β) (p : Ptr ι) (n : ℕ) : copy m p p n = m := by
  funext a
  by_cases h : InBlock a p n
  · obtain ⟨i, hi, rfl⟩ := h.eq_add
    exact copy_add hi
  · exact copy_of_not_inBlock h

/-- The C library's `memcpy`, in a memory whose objects have the given sizes.
It is undefined (`none`) outside the objects and on overlapping blocks; copying
a block onto itself is let through, as compilers do. -/
def memcpy (size : ι → ℕ) (m : Mem ι β) (dst src : Ptr ι) (n : ℕ) : Option (Mem ι β) :=
  if src.off + n ≤ size src.obj ∧ dst.off + n ≤ size dst.obj ∧
      (src = dst ∨ Apart dst n src n) then
    some (copy m dst src n)
  else
    none

theorem memcpy_eq_some_iff {size : ι → ℕ} {m m' : Mem ι β} {dst src : Ptr ι} {n : ℕ} :
    memcpy size m dst src n = some m' ↔
      (src.off + n ≤ size src.obj ∧ dst.off + n ≤ size dst.obj ∧
        (src = dst ∨ Apart dst n src n)) ∧ copy m dst src n = m' := by
  simp only [memcpy, Option.ite_none_right_eq_some, Option.some.injEq]

/-- Two memories that agree where `known` says so still do after a copy, which `known`
follows. -/
theorem memcpy_rel {size : ι → ℕ} {m₁ m₂ : Mem ι β} {known : Mem ι Bool}
    (h : ∀ a, known a = true → m₁ a = m₂ a) (dst src : Ptr ι) (n : ℕ) :
    Option.Rel (fun m₁' m₂' => ∀ a, copy known dst src n a = true → m₁' a = m₂' a)
      (memcpy size m₁ dst src n) (memcpy size m₂ dst src n) := by
  rw [memcpy, memcpy]
  split
  · refine .some ?_
    intro a ha
    simp only [copy_eq_source] at ha ⊢
    exact h _ ha
  · exact .none

/-- Of two blocks of one length, the first has an address that is not in the second,
unless they start at one address. -/
theorem exists_add_not_inBlock {p q : Ptr ι} {n : ℕ} (hn : 0 < n) (hne : p ≠ q) :
    ∃ i < n, ¬ InBlock (p + i) q n := by
  by_cases hlt : p.off < q.off ∨ p.obj ≠ q.obj
  · refine ⟨0, hn, ?_⟩
    rintro ⟨hobj, hlo, -⟩
    rcases hlt with hlt | hobj'
    · exact absurd hlo (Nat.not_le.mpr hlt)
    · exact hobj' hobj
  · obtain ⟨hle, hobj⟩ := not_or.mp hlt
    have hoff : p.off ≠ q.off := fun h => hne (Ptr.ext (not_not.mp hobj) h)
    refine ⟨n - 1, by omega, ?_⟩
    rintro ⟨-, -, hhi⟩
    simp only [Ptr.off_add] at hhi
    omega

/-- Two copies of one length do the same iff they are one copy, or both copy a block
onto itself. -/
theorem copySource_eq_iff {d s d' s' : Ptr ι} {n : ℕ} (hn : 0 < n) :
    copySource d s n = copySource d' s' n ↔ (d = d' ∧ s = s') ∨ (d = s ∧ d' = s') := by
  constructor
  · intro h
    by_cases hd : d = d'
    · subst hd
      have hat := congrFun h (d + 0)
      rw [copySource_add hn, copySource_add hn] at hat
      exact .inl ⟨rfl, hat⟩
    · obtain ⟨i, hi, hout⟩ := exists_add_not_inBlock hn hd
      have hat := congrFun h (d + i)
      rw [copySource_add hi, copySource, if_neg hout] at hat
      obtain rfl : s = d := Ptr.add_right_cancel hat
      -- the first copy changes nothing, so neither does the second
      have hat' := congrFun h (d' + 0)
      rw [copySource_self, copySource_add hn] at hat'
      exact .inr ⟨rfl, hat'⟩
  · rintro (⟨rfl, rfl⟩ | ⟨rfl, rfl⟩)
    · rfl
    · funext a
      rw [copySource_self, copySource_self]

/-! ### Writing contents -/

/-- Write `bs` from `p` on. -/
def put (m : Mem ι β) (p : Ptr ι) (bs : List β) : Mem ι β :=
  fun a => if InBlock a p bs.length then bs.getD (a.off - p.off) (m a) else m a

theorem put_add (m : Mem ι β) (p : Ptr ι) {bs : List β} {i : ℕ} (hi : i < bs.length) :
    put m p bs (p + i) = bs[i] := by
  rw [put, if_pos (inBlock_add hi), Ptr.off_add, Nat.add_sub_cancel_left,
    List.getD_eq_getElem _ _ hi]

theorem put_of_not_inBlock {m : Mem ι β} {a p : Ptr ι} {bs : List β}
    (h : ¬ InBlock a p bs.length) : put m p bs a = m a := if_neg h

@[simp] theorem put_nil (m : Mem ι β) (p : Ptr ι) : put m p [] = m := by
  funext a
  refine put_of_not_inBlock ?_
  rintro ⟨-, hlo, hhi⟩
  exact absurd (Nat.lt_of_le_of_lt hlo hhi) (Nat.lt_irrefl _)

theorem put_append (m : Mem ι β) (p : Ptr ι) (bs cs : List β) :
    put (put m p bs) (p + bs.length) cs = put m p (bs ++ cs) := by
  funext a
  by_cases hlo : a.obj = p.obj ∧ p.off ≤ a.off
  · obtain ⟨hobj, hlo⟩ := hlo
    obtain ⟨i, rfl⟩ : ∃ i, a = p + i := ⟨a.off - p.off, Ptr.ext hobj (by simp; omega)⟩
    by_cases hbs : i < bs.length
    · have hin : i < (bs ++ cs).length := by
        rw [List.length_append]
        omega
      rw [put_of_not_inBlock, put_add m p hbs, put_add m p hin, List.getElem_append_left hbs]
      rintro ⟨-, hlo', -⟩
      simp only [Ptr.off_add] at hlo'
      omega
    · by_cases hcs : i < bs.length + cs.length
      · have hi : p + i = p + bs.length + (i - bs.length) := by
          rw [Ptr.add_add, Nat.add_sub_cancel' (Nat.not_lt.mp hbs)]
        have hin : i < (bs ++ cs).length := by
          rw [List.length_append]
          exact hcs
        rw [hi, put_add _ _ (by omega : i - bs.length < cs.length), ← hi, put_add m p hin,
          List.getElem_append_right (Nat.not_lt.mp hbs)]
      · rw [put_of_not_inBlock, put_of_not_inBlock, put_of_not_inBlock]
        all_goals
          rintro ⟨-, -, hhi⟩
          simp only [Ptr.off_add, List.length_append] at hhi
          omega
  · have hout : ∀ k n : ℕ, ¬ InBlock a (p + k) n := by
      rintro k n ⟨hobj, hlo', -⟩
      exact hlo ⟨hobj, Nat.le_trans (Nat.le_add_right p.off k) hlo'⟩
    have hout' : ∀ n : ℕ, ¬ InBlock a p n := hout 0
    rw [put_of_not_inBlock (hout _ _), put_of_not_inBlock (hout' _), put_of_not_inBlock (hout' _)]

/-- Writing what is read elsewhere is copying. -/
theorem put_load (m : Mem ι β) (d s : Ptr ι) (n : ℕ) : put m d (load m s n) = copy m d s n := by
  funext a
  by_cases h : InBlock a d n
  · obtain ⟨i, hi, rfl⟩ := h.eq_add
    rw [copy_add hi, put_add _ _ (by rwa [length_load])]
    simp [load]
  · rw [copy_of_not_inBlock h, put_of_not_inBlock (by rwa [length_load])]

/-- A memory that holds `bs` at `p`, and elsewhere what it held before. -/
theorem eq_put_iff {m m' : Mem ι β} {p : Ptr ι} {bs : List β} :
    m' = put m p bs ↔
      load m' p bs.length = bs ∧ ∀ a, ¬ InBlock a p bs.length → m' a = m a := by
  constructor
  · rintro rfl
    refine ⟨List.ext_getElem (length_load _ _ _) ?_, fun a ha => put_of_not_inBlock ha⟩
    intro i hi hi'
    simp only [load, List.getElem_map, List.getElem_range]
    exact put_add m p hi'
  · rintro ⟨hload, hframe⟩
    funext a
    by_cases h : InBlock a p bs.length
    · obtain ⟨i, hi, rfl⟩ := h.eq_add
      rw [put_add m p hi]
      have := List.getElem_of_eq hload (i := i) (by rwa [length_load])
      simpa [load] using this
    · rw [put_of_not_inBlock h, hframe a h]

theorem put_inj {m : Mem ι β} {p : Ptr ι} {bs cs : List β} (hlen : bs.length = cs.length) :
    put m p bs = put m p cs ↔ bs = cs := by
  constructor
  · intro h
    have hbs := (eq_put_iff.mp (rfl : put m p bs = put m p bs)).1
    have hcs := (eq_put_iff.mp h).1
    rw [← hbs, ← hcs, hlen]
  · rintro rfl
    rfl

/-- Contents that are written at two places make two memories, if one of them is new. -/
theorem put_ne_put {m : Mem ι β} {p q : Ptr ι} {bs cs : List β} (hlen : bs.length = cs.length)
    (hne : p ≠ q) (hnew : ∀ i (hi : i < bs.length), bs[i] ≠ m (p + i)) (hpos : bs ≠ []) :
    put m p bs ≠ put m q cs := by
  obtain ⟨i, hi, hout⟩ := exists_add_not_inBlock (List.length_pos_of_ne_nil hpos) hne
  intro h
  have hat := congrFun h (p + i)
  rw [put_add m p hi, put_of_not_inBlock (by rwa [← hlen])] at hat
  exact hnew i hi hat

/-- Two copies of one length do the same in every memory iff they are one copy, or both
copy a block onto itself. -/
theorem forall_copy_eq_iff [Nontrivial β] {d s d' s' : Ptr ι} {n : ℕ} (hn : 0 < n) :
    (∀ m : Mem ι β, copy m d s n = copy m d' s' n) ↔ (d = d' ∧ s = s') ∨ (d = s ∧ d' = s') := by
  rw [← copySource_eq_iff hn]
  constructor
  · intro h
    funext a
    refine eq_of_forall_mem (β := β) fun m => ?_
    have hat := congrFun (h m) a
    rwa [copy_eq_source, copy_eq_source] at hat
  · intro h m
    rw [copy_eq_source, copy_eq_source, h]

end CMem
