/-
The pool of message buffers of the control plane.

`create_backend` makes the cells; `touch_mem_cell` takes one from the list of the
unused cells and `detouch_mem_cell` puts it back, both under a mutex.

* **`inductive_poolInv`** — in every run, the two lists are well formed and split the cells
  into those that are held and those that are not, and a cell that is taken is not
  held by anyone else;
* **`poolLaw_iff`** — the cells have buffers of their own iff the bytes of all buffers can
  be counted by an `int`.
-/
import T4P4S.Lib.CInt
import T4P4S.Lib.LinkedList
import T4P4S.Lib.Transition

open CInt LinkedList Transition

namespace T4P4S

/-- `P4_BG_MEM_CELL_SIZE` -/
def p4BgMemCellSize : ℕ := 2048

/-- The cells, by their number, and the heads of the two lists in `backend_t`.  `data` is
where a cell's buffer begins, counted from `msg_buffer`. -/
structure MemPool where
  data : ℕ → ℤ
  length : ℕ → ℕ
  next : ℕ → Option ℕ
  prev : ℕ → Option ℕ
  unusedHead : Option ℕ
  usedHead : Option ℕ

/-- `P4_BG_MEM_CELL_SIZE * i`, which is an `int` and wraps around. -/
def cellPlace (i : ℕ) : ℤ := wrap 32 true (p4BgMemCellSize * i)

/-- The bytes that `create_backend` asks `malloc` for: the product as a `size_t`. -/
def msgBufferSize (queueSize : ℕ) : ℕ := (wrap 64 false (cellPlace queueSize)).toNat

/-- One turn of the loop of `create_backend`, which makes the cell `i`. -/
def createMemCell (bg : MemPool) (i : ℕ) : MemPool :=
  { bg with
    data := Function.update bg.data i (cellPlace i)
    length := Function.update bg.length i p4BgMemCellSize
    prev := Function.update bg.prev i none
    next := Function.update bg.next i bg.unusedHead
    unusedHead := some i }

/-- The loop of `create_backend`, in memory with the given contents. -/
def createMemCells (queueSize : ℕ) (bg : MemPool) : MemPool :=
  (List.range queueSize).foldl createMemCell { bg with unusedHead := none, usedHead := none }

/-- The pool of `create_backend`; `none` if it returns 0.  `malloc` gives what it is asked for,
but nothing of more than `PTRDIFF_MAX` bytes. -/
def createBackend (queueSize : ℕ) (bg : MemPool) : Option MemPool :=
  if queueSize = 0 ∨ 2 ^ 63 ≤ msgBufferSize queueSize then none
  else some (createMemCells queueSize bg)

def touchMemCell (bgt : MemPool) : MemPool × Option ℕ :=
  match bgt.unusedHead with
  | none => (bgt, none)
  | some result =>
    let bgt := { bgt with unusedHead := bgt.next result }
    let bgt := { bgt with prev := setBack bgt.prev bgt.unusedHead none }
    let bgt := { bgt with prev := setBack bgt.prev bgt.usedHead (some result) }
    let bgt := { bgt with next := Function.update bgt.next result bgt.usedHead }
    ({ bgt with usedHead := some result }, some result)

/-- The branch at the start of `detouch_mem_cell`, which makes what stands before the cell
point behind it; `none` if it follows a `NULL` pointer. -/
def unlinkUsed (bgt : MemPool) (cell : ℕ) : Option MemPool :=
  if bgt.usedHead ≠ some cell then
    (bgt.prev cell).map fun p => { bgt with next := Function.update bgt.next p (bgt.next cell) }
  else
    some { bgt with usedHead := bgt.next cell }

def detouchMemCell (bgt : MemPool) (cell : ℕ) : Option MemPool := do
  let bgt ← unlinkUsed bgt cell
  let bgt := { bgt with prev := setBack bgt.prev (bgt.next cell) (bgt.prev cell) }
  let bgt := { bgt with prev := setBack bgt.prev bgt.unusedHead (some cell) }
  let bgt := { bgt with next := Function.update bgt.next cell bgt.unusedHead }
  let bgt := { bgt with prev := Function.update bgt.prev cell none }
  return { bgt with unusedHead := some cell }

/-- The pool, and the cells that were taken and not given back. -/
structure PoolState where
  bgt : MemPool
  held : List ℕ

/-- Take a cell, or give one back that is held. -/
inductive PoolStep : PoolState → PoolState → Prop
  | touch (st : PoolState) :
      PoolStep st ⟨(touchMemCell st.bgt).1, (touchMemCell st.bgt).2.toList ++ st.held⟩
  | detouch (st : PoolState) (cell : ℕ) (bgt : MemPool) (hcell : cell ∈ st.held)
      (h : detouchMemCell st.bgt cell = some bgt) : PoolStep st ⟨bgt, st.held.erase cell⟩

/-- Runs on the pool that `create_backend` makes. -/
def poolSystem (queueSize : ℕ) : System PoolState where
  init st := st.held = [] ∧ ∃ bg, createBackend queueSize bg = some st.bgt
  step := PoolStep

/-- The lists of the pool, as lists of cells. -/
structure PoolLists (queueSize : ℕ) (st : PoolState) (used unused : List ℕ) : Prop where
  used_next : Linked st.bgt.next st.bgt.usedHead used none
  used_prev : Backed st.bgt.prev none used
  unused_next : Linked st.bgt.next st.bgt.unusedHead unused none
  unused_prev : ∀ c, st.bgt.unusedHead = some c → st.bgt.prev c = none
  cells : (used ++ unused).Perm (List.range queueSize)
  held : used.Perm st.held

/-- What should hold of the pool: the lists of used and unused cells are well formed,
disjoint and complete; the buffers are inside of `msg_buffer`, and those of different cells
do not overlap; a cell that is taken is one that nobody holds, and none is taken, nor anything
changed, exactly when all are held; and a held cell can be given back. -/
structure PoolLaw (queueSize : ℕ) (st : PoolState) : Prop where
  lists : ∃ used unused, PoolLists queueSize st used unused
  inside : ∀ c < queueSize, 0 ≤ st.bgt.data c ∧
    st.bgt.data c + st.bgt.length c ≤ msgBufferSize queueSize
  buffers : ∀ c < queueSize, ∀ d < queueSize, c ≠ d →
    st.bgt.data c + st.bgt.length c ≤ st.bgt.data d ∨
      st.bgt.data d + st.bgt.length d ≤ st.bgt.data c
  touch_some : ∀ c, (touchMemCell st.bgt).2 = some c → c < queueSize ∧ c ∉ st.held
  touch_none : (touchMemCell st.bgt).2 = none ↔ ∀ c < queueSize, c ∈ st.held
  touch_unchanged : (touchMemCell st.bgt).2 = none → (touchMemCell st.bgt).1 = st.bgt
  detouch : ∀ c ∈ st.held, (detouchMemCell st.bgt c).isSome

/-! ### The invariant -/

/-- The lists are well formed, and no buffer was moved. -/
structure PoolInv (queueSize : ℕ) (st : PoolState) : Prop where
  lists : ∃ used unused, PoolLists queueSize st used unused
  data : ∀ c < queueSize, st.bgt.data c = cellPlace c
  length : ∀ c < queueSize, st.bgt.length c = p4BgMemCellSize

section Lists

variable {queueSize : ℕ} {st : PoolState} {used unused : List ℕ}

theorem PoolLists.nodup (h : PoolLists queueSize st used unused) : (used ++ unused).Nodup :=
  h.cells.nodup_iff.mpr List.nodup_range

theorem PoolLists.mem_iff (h : PoolLists queueSize st used unused) {c : ℕ} :
    c ∈ used ∨ c ∈ unused ↔ c < queueSize := by
  rw [← List.mem_append, h.cells.mem_iff, List.mem_range]

theorem PoolLists.disjoint (h : PoolLists queueSize st used unused) {c : ℕ} (hc : c ∈ used) :
    c ∉ unused := fun hc' => (List.nodup_append.mp h.nodup).2.2 c hc c hc' rfl

theorem createMemCell_lists {bg : MemPool} {i : ℕ} (h : PoolLists i ⟨bg, []⟩ [] unused) :
    PoolLists (i + 1) ⟨createMemCell bg i, []⟩ [] (i :: unused) := by
  have hi : i ∉ unused := by
    intro hmem
    exact absurd (h.mem_iff.mp (.inr hmem)) (Nat.lt_irrefl i)
  refine ⟨h.used_next, trivial, ⟨rfl, ?_⟩, ?_, ?_, h.held⟩
  · show Linked (Function.update bg.next i bg.unusedHead)
      (Function.update bg.next i bg.unusedHead i) unused none
    rw [Function.update_self]
    exact (linked_update hi).mpr h.unused_next
  · intro c hc
    obtain rfl : i = c := Option.some.inj hc
    exact Function.update_self ..
  · rw [List.range_succ]
    exact (List.Perm.cons i h.cells).trans (List.perm_append_singleton i _).symm

/-- A cell that is taken moves from the head of the unused list to that of the used one. -/
theorem touchMemCell_lists {c : ℕ} (h : PoolLists queueSize st used (c :: unused)) :
    touchMemCell st.bgt = ((touchMemCell st.bgt).1, some c) ∧
      PoolLists queueSize ⟨(touchMemCell st.bgt).1, c :: st.held⟩ (c :: used) unused := by
  obtain ⟨hhead, hunused⟩ := h.unused_next
  have hnodup := h.nodup
  have hcused : c ∉ used := fun hc => h.disjoint hc List.mem_cons_self
  have hcunused : c ∉ unused :=
    (List.nodup_cons.mp (List.nodup_append.mp hnodup).2.1).1
  have hnext : st.bgt.next c = unused.head? := hunused.head_eq
  have husedHead : st.bgt.usedHead = used.head? := h.used_next.head_eq
  have hunusedMem : ∀ d, unused.head? = some d → d ∈ unused := fun d hd => List.mem_of_mem_head? hd
  have husedMem : ∀ d, used.head? = some d → d ∈ used := fun d hd => List.mem_of_mem_head? hd
  have htouch : touchMemCell st.bgt =
      ({ st.bgt with
          next := Function.update st.bgt.next c st.bgt.usedHead
          prev := setBack (setBack st.bgt.prev (st.bgt.next c) none) st.bgt.usedHead (some c)
          unusedHead := st.bgt.next c
          usedHead := some c }, some c) := by
    rw [touchMemCell, hhead]
  rw [htouch]
  refine ⟨rfl, ⟨rfl, ?_⟩, ⟨?_, ?_⟩, ?_, ?_, ?_, h.held.cons c⟩
  · show Linked (Function.update st.bgt.next c st.bgt.usedHead)
      (Function.update st.bgt.next c st.bgt.usedHead c) used none
    rw [Function.update_self]
    exact (linked_update hcused).mpr h.used_next
  · -- the cell was the head of the unused list
    show setBack (setBack st.bgt.prev (st.bgt.next c) none) st.bgt.usedHead (some c) c = none
    rw [setBack_of_ne fun heq => hcused (husedMem c (husedHead.symm.trans heq)),
      setBack_of_ne fun heq => hcunused (hunusedMem c (hnext.symm.trans heq))]
    exact h.unused_prev c hhead
  · show Backed (setBack (setBack st.bgt.prev (st.bgt.next c) none) st.bgt.usedHead (some c))
      (some c) used
    have hback : Backed (setBack st.bgt.prev (st.bgt.next c) none) none used := by
      refine (backed_setBack fun d hd heq => ?_).mpr h.used_prev
      exact h.disjoint hd (List.mem_cons_of_mem c (hunusedMem d (hnext.symm.trans heq)))
    rw [husedHead]
    cases used with
    | nil => trivial
    | cons u used =>
      have hu : u ∉ used := (List.nodup_cons.mp (List.nodup_append.mp hnodup).1).1
      exact ⟨Function.update_self .., (backed_update hu).mpr hback.2⟩
  · exact (linked_update hcunused).mpr hunused
  · intro d hd
    show setBack (setBack st.bgt.prev (st.bgt.next c) none) st.bgt.usedHead (some c) d = none
    have hdmem : d ∈ c :: unused := List.mem_cons_of_mem c (hunusedMem d (hnext.symm.trans hd))
    rw [setBack_of_ne fun heq => h.disjoint (husedMem d (husedHead.symm.trans heq)) hdmem,
      show st.bgt.next c = some d from hd]
    exact Function.update_self ..
  · exact (List.perm_middle.symm).trans h.cells

/-- With no cell left, nothing is taken. -/
theorem touchMemCell_empty (h : PoolLists queueSize st used []) :
    touchMemCell st.bgt = (st.bgt, none) := by
  have hhead : st.bgt.unusedHead = none := h.unused_next
  rw [touchMemCell, hhead]

/-- The cell is taken out of the used list. -/
theorem unlinkUsed_lists {a b : List ℕ} {cell : ℕ}
    (h : PoolLists queueSize st (a ++ cell :: b) unused) :
    ∃ bgt', unlinkUsed st.bgt cell = some bgt' ∧
      bgt'.prev = st.bgt.prev ∧ bgt'.unusedHead = st.bgt.unusedHead ∧
      bgt'.data = st.bgt.data ∧ bgt'.length = st.bgt.length ∧
      bgt'.next cell = b.head? ∧ Linked bgt'.next bgt'.usedHead (a ++ b) none ∧
      Linked bgt'.next st.bgt.unusedHead unused none := by
  have hnodup := List.nodup_append.mp h.nodup
  have hused := h.used_next
  have hcellnext : st.bgt.next cell = b.head? := by
    obtain ⟨m, -, -, hb⟩ := linked_append.mp hused
    exact hb.head_eq
  -- The head of the list is taken off; for any other cell, its predecessor is relinked.
  rcases List.eq_nil_or_concat a with rfl | ⟨a, p, rfl⟩
  · rw [unlinkUsed, if_neg (not_not.mpr hused.1)]
    exact ⟨_, rfl, rfl, rfl, rfl, rfl, hcellnext, hused.2, h.unused_next⟩
  · rw [List.concat_eq_append] at *
    rw [List.append_assoc, List.singleton_append] at hused hnodup
    have hprev : st.bgt.prev cell = some p := by
      have hback := h.used_prev
      rw [List.append_assoc, List.singleton_append] at hback
      exact hback.prev_eq
    have hpmem : p ∈ a ++ p :: cell :: b := List.mem_append_right a List.mem_cons_self
    have hpcell : cell ≠ p := by
      rintro rfl
      exact (List.nodup_cons.mp (List.nodup_append.mp hnodup.1).2.1).1 List.mem_cons_self
    -- A cell that has a predecessor is not the head, as it is in the list once.
    have hhead : st.bgt.usedHead ≠ some cell := by
      rw [hused.head_eq]
      intro hcell
      cases a with
      | nil => exact hpcell (Option.some.inj hcell).symm
      | cons d a =>
        obtain rfl : d = cell := Option.some.inj hcell
        exact (List.nodup_cons.mp hnodup.1).1
          (List.mem_append_right a (List.mem_cons_of_mem p List.mem_cons_self))
    -- The predecessor is a used cell, so relinking it leaves the unused list alone.
    have hpunused : p ∉ unused := fun hp => hnodup.2.2 p hpmem p hp rfl
    rw [unlinkUsed, if_pos hhead, hprev]
    refine ⟨_, rfl, rfl, rfl, rfl, rfl, ?_, ?_, (linked_update hpunused).mpr h.unused_next⟩
    · exact (Function.update_of_ne hpcell ..).trans hcellnext
    · rw [List.append_assoc, List.singleton_append]
      exact hused.unlink hnodup.1

/-- A cell that is given back leaves the used list, wherever it is, and becomes the
head of the unused one. -/
theorem detouchMemCell_lists {a b : List ℕ} {cell : ℕ}
    (h : PoolLists queueSize st (a ++ cell :: b) unused) :
    ∃ bgt', detouchMemCell st.bgt cell = some bgt' ∧ bgt'.data = st.bgt.data ∧
      bgt'.length = st.bgt.length ∧
      PoolLists queueSize ⟨bgt', st.held.erase cell⟩ (a ++ b) (cell :: unused) := by
  obtain ⟨bgt₁, hfirst, hprev, hunusedHead, hdata, hlength, hnext, hused, hunused⟩ := unlinkUsed_lists h
  have hnodup := List.nodup_append.mp h.nodup
  have hcell : cell ∉ a ++ b := (List.nodup_middle.mp hnodup.1 |> List.nodup_cons.mp).1
  have hcellunused : cell ∉ unused :=
    h.disjoint (List.mem_append_right a List.mem_cons_self)
  have hb : ∀ d, b.head? = some d → d ∈ a ++ cell :: b := fun d hd =>
    List.mem_append_right a (List.mem_cons_of_mem cell (List.mem_of_mem_head? hd))
  have hheadmem : ∀ d, st.bgt.unusedHead = some d → d ∈ unused := fun d hd =>
    List.mem_of_mem_head? (h.unused_next.head_eq.symm.trans hd)
  -- The pointers that are set: back from the next cell, back from the old unused head, the cell's.
  have hdetouch : detouchMemCell st.bgt cell = some
      { bgt₁ with
        prev := Function.update (setBack (setBack st.bgt.prev b.head? (st.bgt.prev cell))
          st.bgt.unusedHead (some cell)) cell none
        next := Function.update bgt₁.next cell st.bgt.unusedHead
        unusedHead := some cell } := by
    rw [detouchMemCell, hfirst]
    simp only [Option.bind_eq_bind, Option.bind_some, hnext, hprev, hunusedHead]
    rfl
  refine ⟨_, hdetouch, hdata, hlength, ?_, ?_, ⟨rfl, ?_⟩, ?_, ?_, ?_⟩
  · exact (linked_update hcell).mpr hused
  -- The cell behind is relinked; the old head of the unused list is not in the used one.
  · refine (backed_update hcell).mpr ((backed_setBack fun d hd heq => ?_).mpr
      (h.used_prev.unlink hnodup.1))
    have hd' : d ∈ a ++ cell :: b := by
      rcases List.mem_append.mp hd with hd | hd
      · exact List.mem_append_left _ hd
      · exact List.mem_append_right a (List.mem_cons_of_mem cell hd)
    exact h.disjoint hd' (hheadmem d heq)
  · show Linked (Function.update bgt₁.next cell st.bgt.unusedHead)
      (Function.update bgt₁.next cell st.bgt.unusedHead cell) unused none
    rw [Function.update_self]
    exact (linked_update hcellunused).mpr hunused
  · intro d hd
    obtain rfl : cell = d := Option.some.inj hd
    exact Function.update_self ..
  · refine List.Perm.trans ?_ h.cells
    rw [List.append_assoc, List.append_assoc, List.cons_append]
    exact (List.perm_middle.trans (List.Perm.refl _)).append_left a
  · have herase : (a ++ cell :: b).erase cell = a ++ b := by
      rw [List.erase_append_right _ fun hmem => hcell (List.mem_append_left b hmem),
        List.erase_cons_head]
    rw [← herase]
    exact h.held.erase cell

end Lists

/-- A field that has its values in the cells below `n`, and gets its value in cell `n`. -/
theorem update_eq_of_lt_succ {α : Type} {f g : ℕ → α} {n : ℕ} (h : ∀ c < n, f c = g c) :
    ∀ c < n + 1, Function.update f n (g n) c = g c := by
  intro c hc
  by_cases hcn : c = n
  · rw [hcn, Function.update_self]
  · rw [Function.update_of_ne hcn]
    exact h c (by omega)

/-- The loop of `create_backend` has made the cells below `n`. -/
theorem createMemCells_inv (bg : MemPool) (n : ℕ) :
    PoolInv n ⟨createMemCells n bg, []⟩ ∧ (createMemCells n bg).usedHead = none ∧
      ∃ unused, PoolLists n ⟨createMemCells n bg, []⟩ [] unused := by
  induction n with
  | zero =>
    have hlists : PoolLists 0 ⟨createMemCells 0 bg, []⟩ [] [] :=
      ⟨rfl, trivial, rfl, fun c hc => (nomatch hc), List.Perm.refl _, List.Perm.refl _⟩
    exact ⟨⟨⟨[], [], hlists⟩, fun c hc => absurd hc (Nat.not_lt_zero c),
      fun c hc => absurd hc (Nat.not_lt_zero c)⟩, rfl, [], hlists⟩
  | succ n ih =>
    obtain ⟨hinv, hused, unused, hlists⟩ := ih
    have hstep : createMemCells (n + 1) bg = createMemCell (createMemCells n bg) n := by
      rw [createMemCells, List.range_succ, List.foldl_append]
      rfl
    rw [hstep]
    have hlists' := createMemCell_lists hlists
    exact ⟨⟨⟨[], n :: unused, hlists'⟩, update_eq_of_lt_succ hinv.data,
      update_eq_of_lt_succ hinv.length⟩, hused, n :: unused, hlists'⟩

/-! ### Every run -/

theorem PoolInv.touch {queueSize : ℕ} {st : PoolState} (h : PoolInv queueSize st) :
    PoolInv queueSize ⟨(touchMemCell st.bgt).1, (touchMemCell st.bgt).2.toList ++ st.held⟩ := by
  obtain ⟨used, unused, hlists⟩ := h.lists
  cases unused with
  | nil =>
    rw [touchMemCell_empty hlists]
    exact h
  | cons c unused =>
    obtain ⟨hres, hlists'⟩ := touchMemCell_lists hlists
    have hdata : (touchMemCell st.bgt).1.data = st.bgt.data ∧
        (touchMemCell st.bgt).1.length = st.bgt.length := by
      rw [touchMemCell]
      split <;> exact ⟨rfl, rfl⟩
    refine ⟨⟨c :: used, unused, ?_⟩, ?_, ?_⟩
    · rw [hres]
      exact hlists'
    · intro d hd
      rw [hdata.1]
      exact h.data d hd
    · intro d hd
      rw [hdata.2]
      exact h.length d hd

theorem PoolInv.detouch {queueSize : ℕ} {st : PoolState} (h : PoolInv queueSize st) {cell : ℕ}
    (hcell : cell ∈ st.held) :
    ∃ bgt', detouchMemCell st.bgt cell = some bgt' ∧
      PoolInv queueSize ⟨bgt', st.held.erase cell⟩ := by
  obtain ⟨used, unused, hlists⟩ := h.lists
  obtain ⟨a, b, rfl⟩ := List.append_of_mem (hlists.held.mem_iff.mpr hcell)
  obtain ⟨bgt', hres, hdata, hlength, hlists'⟩ := detouchMemCell_lists hlists
  refine ⟨bgt', hres, ⟨a ++ b, cell :: unused, hlists'⟩, ?_, ?_⟩
  · intro d hd
    show bgt'.data d = _
    rw [hdata]
    exact h.data d hd
  · intro d hd
    show bgt'.length d = _
    rw [hlength]
    exact h.length d hd

theorem inductive_poolInv (queueSize : ℕ) :
    (poolSystem queueSize).Inductive (PoolInv queueSize) := by
  constructor
  · rintro ⟨bgt, held⟩ ⟨hheld, bg, hbgt⟩
    obtain rfl : held = [] := hheld
    obtain ⟨-, hbgt⟩ := Option.ite_none_left_eq_some.mp hbgt
    obtain rfl := Option.some.inj hbgt
    exact (createMemCells_inv bg queueSize).1
  · intro st st' hinv hstep
    cases hstep with
    | touch => exact hinv.touch
    | detouch cell bgt hcell h =>
      obtain ⟨bgt', hres, hinv'⟩ := hinv.detouch hcell
      rw [h] at hres
      obtain rfl := Option.some.inj hres
      exact hinv'

/-- An `int` has the product. -/
theorem cellPlace_eq {i : ℕ} (h : p4BgMemCellSize * i < 2 ^ 31) :
    cellPlace i = p4BgMemCellSize * i := by
  refine wrap_of_inRange (by decide) (inRange_true.mpr ?_)
  omega

theorem msgBufferSize_eq {queueSize : ℕ} (h : p4BgMemCellSize * queueSize < 2 ^ 31) :
    msgBufferSize queueSize = p4BgMemCellSize * queueSize := by
  have hrange : InRange 64 false ((p4BgMemCellSize * queueSize : ℕ) : ℤ) := inRange_false.mpr (by omega)
  rw [msgBufferSize, cellPlace_eq h, ← Nat.cast_mul, wrap_of_inRange (by decide) hrange,
    Int.toNat_natCast]

theorem PoolInv.law {queueSize : ℕ} {st : PoolState} (h : PoolInv queueSize st)
    (hfits : p4BgMemCellSize * queueSize < 2 ^ 31) : PoolLaw queueSize st := by
  obtain ⟨used, unused, hlists⟩ := h.lists
  have hplace : ∀ c < queueSize, st.bgt.data c = p4BgMemCellSize * c := by
    intro c hc
    have hlt : p4BgMemCellSize * c < p4BgMemCellSize * queueSize :=
      Nat.mul_lt_mul_of_pos_left hc (by decide)
    rw [h.data c hc, cellPlace_eq (hlt.trans hfits)]
  refine ⟨h.lists, ?_, ?_, ?_, ?_, ?_, ?_⟩
  · intro c hc
    rw [hplace c hc, h.length c hc, msgBufferSize_eq hfits]
    unfold p4BgMemCellSize
    omega
  -- Two buffers lie `p4_bg_mem_cell_size` apart, and neither is longer than that.
  · intro c hc d hd hne
    rw [hplace c hc, hplace d hd, h.length c hc, h.length d hd]
    unfold p4BgMemCellSize
    omega
  · intro c hc
    cases unused with
    | nil =>
      rw [touchMemCell_empty hlists] at hc
      exact nomatch hc
    | cons d unused =>
      rw [(touchMemCell_lists hlists).1] at hc
      obtain rfl : d = c := Option.some.inj hc
      -- The head of the unused list is a cell of the pool, and nobody holds it.
      refine ⟨hlists.mem_iff.mp (.inr List.mem_cons_self), ?_⟩
      intro hheld
      exact hlists.disjoint (hlists.held.mem_iff.mpr hheld) List.mem_cons_self
  · cases unused with
    | nil =>
      rw [touchMemCell_empty hlists]
      refine ⟨fun _ c hc => hlists.held.mem_iff.mp ?_, fun _ => rfl⟩
      exact (hlists.mem_iff.mpr hc).resolve_right List.not_mem_nil
    | cons d unused =>
      rw [(touchMemCell_lists hlists).1]
      refine ⟨fun hnone => (nomatch hnone), ?_⟩
      intro hall
      have hd := hall d (hlists.mem_iff.mp (.inr List.mem_cons_self))
      exact absurd List.mem_cons_self (hlists.disjoint (hlists.held.mem_iff.mpr hd))
  · intro hnone
    cases unused with
    | nil => rw [touchMemCell_empty hlists]
    | cons d unused =>
      rw [(touchMemCell_lists hlists).1] at hnone
      exact nomatch hnone
  · intro c hc
    obtain ⟨bgt', hres, -⟩ := h.detouch hc
    rw [hres]
    rfl

/-- A pool of no cells. -/
def emptyPool : MemPool :=
  ⟨fun _ => 0, fun _ => 0, fun _ => none, fun _ => none, none, none⟩

/-- The pool is made, on any memory, and it is as it should be in every run. -/
def PoolMade (queueSize : ℕ) : Prop :=
  (∀ bg, (createBackend queueSize bg).isSome) ∧
    ∀ st, (poolSystem queueSize).Reachable st → PoolLaw queueSize st

/-- With more cells, the buffer of one lies in front of `msg_buffer`. -/
theorem not_poolMade {queueSize : ℕ} (h : 2 ^ 31 ≤ p4BgMemCellSize * queueSize) :
    ¬ PoolMade queueSize := by
  rintro ⟨hmade, hlaw⟩
  obtain ⟨bgt, hbgt⟩ := Option.isSome_iff_exists.mp (hmade emptyPool)
  have hinit : (poolSystem queueSize).Reachable ⟨bgt, []⟩ := .init ⟨rfl, emptyPool, hbgt⟩
  have hlast : 2 ^ 20 ≤ queueSize := by
    unfold p4BgMemCellSize at h
    omega
  rcases hlast.eq_or_lt with rfl | hlt
  · -- `malloc` is asked for the product, which is negative
    have hnone : createBackend (2 ^ 20) emptyPool = none := if_pos (.inr (by decide))
    rw [hnone] at hbgt
    exact nomatch hbgt
  · have hdata := ((inductive_poolInv queueSize).reachable hinit).data _ hlt
    have hinside := ((hlaw _ hinit).inside _ hlt).1
    rw [hdata] at hinside
    exact absurd hinside (by decide)

/-- **The pool is well formed in every run iff an `int` can count the bytes of its buffers.** -/
theorem poolLaw_iff {queueSize : ℕ} (hpos : 0 < queueSize) :
    PoolMade queueSize ↔ p4BgMemCellSize * queueSize < 2 ^ 31 := by
  constructor
  · intro h
    by_contra hle
    exact not_poolMade (not_lt.mp hle) h
  · intro hfits
    refine ⟨fun bg => ?_, fun st hst => ((inductive_poolInv queueSize).reachable hst).law hfits⟩
    have hsize : ¬ 2 ^ 63 ≤ msgBufferSize queueSize := by
      rw [msgBufferSize_eq hfits]
      omega
    rw [createBackend, if_neg (not_or.mpr ⟨hpos.ne', hsize⟩)]
    rfl

/-- Of two cells both are taken, and the first one is given back. -/
theorem poolLaw_two : ∃ bgt, detouchMemCell
      (touchMemCell (touchMemCell (createMemCells 2 emptyPool)).1).1 1 = some bgt ∧
    PoolLaw 2 ⟨bgt, [0]⟩ := by
  have hpool := (@poolLaw_iff 2 (by decide)).mpr (by decide)
  refine ⟨_, rfl, hpool.2 _ ?_⟩
  have hinit : (poolSystem 2).Reachable ⟨createMemCells 2 emptyPool, []⟩ :=
    .init ⟨rfl, emptyPool, rfl⟩
  have htouch := (hinit.step (.touch _)).step (.touch _)
  exact htouch.step (.detouch _ 1 _ (by decide) rfl)

/-- Of 2097153 cells, the first one and the last one have the same buffer. -/
theorem not_poolLaw : ¬ ∀ queueSize, 0 < queueSize → PoolMade queueSize := by
  intro h
  obtain ⟨hmade, hlaw⟩ := h 2097153 (by decide)
  obtain ⟨bgt, hbgt⟩ := Option.isSome_iff_exists.mp (hmade emptyPool)
  have hinit : (poolSystem 2097153).Reachable ⟨bgt, []⟩ := .init ⟨rfl, emptyPool, hbgt⟩
  have hinv := (inductive_poolInv 2097153).reachable hinit
  have hbuffers := (hlaw _ hinit).buffers 0 (by decide) 2097152 (by decide) (by decide)
  rw [hinv.data 0 (by decide), hinv.data 2097152 (by decide), hinv.length 0 (by decide),
    hinv.length 2097152 (by decide)] at hbuffers
  exact absurd hbuffers (by decide)

end T4P4S
