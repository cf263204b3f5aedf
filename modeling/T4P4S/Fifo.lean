/-
The message queues between the threads of the control plane.

`fifo_t` is a circular buffer.  `fifo_add_msg` puts an element behind the last one
if there is room, and returns the queue in any case; `fifo_remove_msg` takes the
first one, or returns `NULL`.  Both run under the queue's mutex, so that a run is
a sequence of them.

* **`fifoLaw_iff`** — a run answers like a bounded queue, and loses and duplicates
  nothing, iff no element is added while the queue is full.
-/
import Mathlib.Algebra.Order.Group.Int
import Mathlib.Logic.Function.Basic
import T4P4S.Lib.Queue

open Queue

namespace T4P4S

variable {α : Type*}

/-- `fifo_t`, with elements that are pointers; `none` is `NULL`. -/
structure Fifo (α : Type*) where
  queue : ℕ → Option α
  head : ℤ
  size : ℤ
  tail : ℤ

/-- `fifo_init`, in memory with the given contents. -/
def fifoInit (queue : ℕ → Option α) : Fifo α where
  queue := queue
  head := 0
  size := 0
  tail := -1

/-- `fifo_add_msg`; the flag says whether the pointer that it returns is not `NULL`. -/
def fifoAddMsg (queueSize : ℕ) (q : Fifo α) (element : α) : Fifo α × Bool :=
  let q := if q.size < queueSize then
      let tail := (q.tail + 1).tmod queueSize
      { q with
        tail := tail
        size := q.size + 1
        queue := Function.update q.queue tail.toNat (some element) }
    else q
  (q, true)

/-- `fifo_remove_msg` -/
def fifoRemoveMsg (queueSize : ℕ) (q : Fifo α) : Fifo α × Option α :=
  if 0 < q.size then
    ({ q with
        head := (q.head + 1).tmod queueSize
        size := q.size - 1 }, q.queue q.head.toNat)
  else
    (q, none)

/-- One operation on the queue and what its caller sees of it. -/
def fifoStep (queueSize : ℕ) (q : Fifo α) : Op α → Fifo α × Answer α
  | .add element =>
    let r := fifoAddMsg queueSize q element
    (r.1, .added r.2)
  | .remove =>
    let r := fifoRemoveMsg queueSize q
    (r.1, .removed r.2)

/-- What a run of operations on a new queue should be: the answers are those of a
bounded queue, and after as many removes as the queue has room for, exactly the
elements that were reported as added have been returned, once and in order. -/
structure FifoLaw (queueSize : ℕ) (queue : ℕ → Option α) (ops : List (Op α)) : Prop where
  answers : (run (fifoStep queueSize) (fifoInit queue) ops).2 = (run (step queueSize) [] ops).2
  lossless :
    let ops' := ops ++ List.replicate queueSize .remove
    accepted ops' (run (fifoStep queueSize) (fifoInit queue) ops').2 =
      returned (run (fifoStep queueSize) (fifoInit queue) ops').2

/-! ### The elements of the buffer -/

/-- The buffer holds the elements of the list, from `head` on, and `tail` is the place
in front of the next free one. -/
structure Fifo.Holds (queueSize : ℕ) (q : Fifo α) (elements : List α) : Prop where
  le : elements.length ≤ queueSize
  size : q.size = elements.length
  head : 0 ≤ q.head ∧ q.head < queueSize
  tail : -1 ≤ q.tail ∧ (q.tail + 1) % queueSize = (q.head + q.size) % queueSize
  items : ∀ i (hi : i < elements.length),
    q.queue ((q.head + i) % queueSize).toNat = some elements[i]

theorem holds_init {queueSize : ℕ} (hpos : 0 < queueSize) (queue : ℕ → Option α) :
    (fifoInit queue).Holds queueSize [] := by
  refine ⟨Nat.zero_le _, rfl, ⟨Int.le_refl 0, ?_⟩, ⟨Int.le_refl _, rfl⟩, fun i hi => ?_⟩
  · exact Int.natCast_pos.mpr hpos
  · exact absurd hi (Nat.not_lt_zero i)

/-- Places that are less than the capacity apart are different. -/
theorem emod_ne_of_lt {n : ℕ} {h : ℤ} {i j : ℕ} (hij : i < j) (hj : j < n) :
    ((h + i) % n).toNat ≠ ((h + j) % n).toNat := by
  have hn : (0 : ℤ) < n := by omega
  intro heq
  have hi := Int.emod_nonneg (h + i) hn.ne'
  have hj' := Int.emod_nonneg (h + j) hn.ne'
  have hmod : (h + i) % n = (h + j) % n := by omega
  have hsub : ((h + j) - (h + i)) % n = 0 := Int.emod_eq_emod_iff_emod_sub_eq_zero.mp hmod.symm
  rw [show (h + j) - (h + i) = (j : ℤ) - i by omega, Int.emod_eq_of_lt (by omega) (by omega)] at hsub
  omega

/-- An element that is added while there is room comes last. -/
theorem Fifo.Holds.add {queueSize : ℕ} {q : Fifo α} {elements : List α}
    (h : q.Holds queueSize elements) (hlt : elements.length < queueSize) (element : α) :
    (fifoAddMsg queueSize q element).1.Holds queueSize (elements ++ [element]) := by
  have hsize := h.size
  have hn : (0 : ℤ) < queueSize := by omega
  have htail : (q.tail + 1).tmod queueSize = (q.head + elements.length) % queueSize := by
    rw [Int.tmod_eq_emod_of_nonneg (by have := h.tail.1; omega), h.tail.2, hsize]
  rw [fifoAddMsg, if_pos (by omega), htail]
  refine ⟨?_, ?_, h.head, ⟨?_, ?_⟩, ?_⟩
  · rw [List.length_append]
    exact hlt
  · rw [List.length_append, List.length_singleton]
    show q.size + 1 = _
    omega
  · have := Int.emod_nonneg (q.head + elements.length) hn.ne'
    dsimp only
    omega
  · dsimp only
    rw [hsize, Int.emod_add_emod, Int.add_assoc]
  · intro i hi
    rw [List.length_append, List.length_singleton] at hi
    dsimp only
    by_cases hold : i < elements.length
    · rw [Function.update_of_ne (emod_ne_of_lt hold hlt), h.items i hold,
        List.getElem_append_left hold]
    · obtain rfl : i = elements.length := by omega
      rw [Function.update_self, List.getElem_concat_length rfl]

/-- The first element is the one that is removed. -/
theorem Fifo.Holds.remove {queueSize : ℕ} {q : Fifo α} {x : α} {elements : List α}
    (h : q.Holds queueSize (x :: elements)) :
    (fifoRemoveMsg queueSize q).1.Holds queueSize elements ∧
      (fifoRemoveMsg queueSize q).2 = some x := by
  have hle := h.le
  have hsize := h.size
  rw [List.length_cons] at hle hsize
  have hn : (0 : ℤ) < queueSize := by omega
  have hhead : (q.head + 1).tmod queueSize = (q.head + 1) % queueSize :=
    Int.tmod_eq_emod_of_nonneg (by have := h.head.1; omega)
  rw [fifoRemoveMsg, if_pos (by omega), hhead]
  refine ⟨⟨by omega, ?_, ⟨Int.emod_nonneg _ hn.ne', Int.emod_lt_of_pos _ hn⟩, ⟨h.tail.1, ?_⟩,
    ?_⟩, ?_⟩
  · dsimp only
    omega
  · dsimp only
    rw [Int.emod_add_emod, h.tail.2]
    congr 1
    omega
  · intro i hi
    have hitem := h.items (i + 1) (Nat.succ_lt_succ hi)
    dsimp only
    rw [Int.emod_add_emod, show q.head + 1 + i = q.head + (i + 1 : ℕ) by omega]
    exact hitem
  · have hitem := h.items 0 (Nat.zero_lt_succ _)
    rw [Int.natCast_zero, Int.add_zero, Int.emod_eq_of_lt h.head.1 h.head.2] at hitem
    exact hitem

/-- With no room left, an element that is added goes nowhere. -/
theorem fifoAddMsg_full {queueSize : ℕ} {q : Fifo α} (hfull : ¬ q.size < queueSize) (element : α) :
    fifoAddMsg queueSize q element = (q, true) := by
  rw [fifoAddMsg, if_neg hfull]

/-- The elements of the queue, as they stand in the buffer. -/
def Fifo.elements (queueSize : ℕ) (q : Fifo α) : List α :=
  ((List.range q.size.toNat).map fun i : ℕ =>
    q.queue ((q.head + i) % queueSize).toNat).filterMap id

theorem Fifo.Holds.elements_eq {queueSize : ℕ} {q : Fifo α} {elements : List α}
    (h : q.Holds queueSize elements) : q.elements queueSize = elements := by
  have hslots : ((List.range q.size.toNat).map fun i : ℕ =>
      q.queue ((q.head + i) % queueSize).toNat) = elements.map some := by
    have hsize : q.size.toNat = elements.length := by
      rw [h.size, Int.toNat_natCast]
    refine List.ext_getElem ?_ ?_
    · rw [List.length_map, List.length_map, List.length_range, hsize]
    · intro i hi _
      rw [List.length_map, List.length_range, hsize] at hi
      rw [List.getElem_map, List.getElem_map, List.getElem_range]
      exact h.items i hi
  rw [Fifo.elements, hslots, List.filterMap_map]
  exact List.filterMap_some

/-! ### Runs -/

/-- Whether a run meets no add when the queue is full. -/
def NoFullAdd (queueSize : ℕ) : Fifo α → List (Op α) → Prop
  | _, [] => True
  | q, .add element :: ops => q.size < queueSize ∧
      NoFullAdd queueSize (fifoAddMsg queueSize q element).1 ops
  | q, .remove :: ops => NoFullAdd queueSize (fifoRemoveMsg queueSize q).1 ops

/-- One operation, on a queue that is not full when it is an add. -/
theorem Fifo.Holds.answer {queueSize : ℕ} {q : Fifo α} {elements : List α}
    (h : q.Holds queueSize elements) {op : Op α}
    (hop : ∀ element, op = .add element → q.size < queueSize) :
    (fifoStep queueSize q op).1.Holds queueSize (Queue.step queueSize elements op).1 ∧
      (fifoStep queueSize q op).2 = (Queue.step queueSize elements op).2 := by
  have hsize := h.size
  cases op with
  | add element =>
    have hlt : elements.length < queueSize := by
      have := hop element rfl
      omega
    rw [Queue.step, if_pos hlt]
    exact ⟨h.add hlt element, rfl⟩
  | remove =>
    cases elements with
    | nil =>
      have hempty : fifoRemoveMsg queueSize q = (q, none) := if_neg (by simp [hsize])
      rw [fifoStep, hempty]
      exact ⟨h, rfl⟩
    | cons x elements =>
      obtain ⟨hrest, hfirst⟩ := h.remove
      exact ⟨hrest, congrArg Answer.removed hfirst⟩

theorem Fifo.Holds.answers {queueSize : ℕ} {q : Fifo α} {elements : List α}
    (h : q.Holds queueSize elements) {ops : List (Op α)} (hops : NoFullAdd queueSize q ops) :
    (run (fifoStep queueSize) q ops).1.Holds queueSize (run (step queueSize) elements ops).1 ∧
      (run (fifoStep queueSize) q ops).2 = (run (step queueSize) elements ops).2 := by
  induction ops generalizing q elements with
  | nil => exact ⟨h, rfl⟩
  | cons op ops ih =>
    have hop : ∀ element, op = .add element → q.size < queueSize := by
      rintro element rfl
      exact hops.1
    obtain ⟨hnext, hanswer⟩ := h.answer hop
    have hrest : NoFullAdd queueSize (fifoStep queueSize q op).1 ops := by
      cases op with
      | add element => exact hops.2
      | remove => exact hops
    obtain ⟨hholds, hanswers⟩ := ih hnext hrest
    exact ⟨hholds, congrArg₂ List.cons hanswer hanswers⟩

theorem noFullAdd_append {queueSize : ℕ} {q : Fifo α} {ops : List (Op α)}
    (h : NoFullAdd queueSize q ops) (n : ℕ) :
    NoFullAdd queueSize q (ops ++ List.replicate n .remove) := by
  induction ops generalizing q with
  | nil =>
    rw [List.nil_append]
    clear h
    induction n generalizing q with
    | zero => trivial
    | succ n ih => exact ih
  | cons op ops ih =>
    cases op with
    | add element => exact ⟨h.1, ih h.2⟩
    | remove => exact ih h

/-- The answer of a bounded queue to an add that it has no room for gives a full
queue away, which always answers with success. -/
theorem noFullAdd_of_answers {queueSize : ℕ} {q : Fifo α} {elements : List α}
    (h : q.Holds queueSize elements) {ops : List (Op α)}
    (hanswers : (run (fifoStep queueSize) q ops).2 = (run (step queueSize) elements ops).2) :
    NoFullAdd queueSize q ops := by
  induction ops generalizing q elements with
  | nil => trivial
  | cons op ops ih =>
    obtain ⟨hanswer, hrest⟩ := List.cons.inj hanswers
    have hop : ∀ element, op = .add element → q.size < queueSize := by
      rintro element rfl
      have hsize := h.size
      rw [Queue.step] at hanswer
      split_ifs at hanswer with hlt
      · omega
      · exact absurd hanswer (by simp [fifoStep, fifoAddMsg])
    have hops := ih (h.answer hop).1 hrest
    cases op with
    | add element => exact ⟨hop element rfl, hops⟩
    | remove => exact hops

/-- **A run of the queue answers like a bounded queue, and loses and duplicates
nothing, iff it meets no add when the queue is full.** -/
theorem fifoLaw_iff {queueSize : ℕ} (hpos : 0 < queueSize) (queue : ℕ → Option α)
    (ops : List (Op α)) :
    FifoLaw queueSize queue ops ↔ NoFullAdd queueSize (fifoInit queue) ops := by
  have hinit := holds_init hpos queue
  constructor
  · exact fun h => noFullAdd_of_answers hinit h.answers
  · intro h
    refine ⟨(hinit.answers h).2, ?_⟩
    have hall := (hinit.answers (noFullAdd_append h queueSize)).2
    dsimp only
    rw [hall]
    exact accepted_eq_returned_of_removes queueSize ops

/-- Two elements through a queue for two. -/
theorem fifoLaw_two : FifoLaw 2 (fun _ => none) [.add 'a', .add 'b', .remove] :=
  (fifoLaw_iff (by decide) _ _).mpr (by simp [NoFullAdd, fifoInit, fifoAddMsg])

/-- The third element is reported as added, and is lost. -/
theorem not_fifoLaw_two : ¬ FifoLaw 2 (fun _ => none) [.add 'a', .add 'b', .add 'c'] := by
  intro h
  have hanswers := h.answers
  revert hanswers
  decide

end T4P4S
