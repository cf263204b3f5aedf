/-
Doubly linked lists in a store of nodes, seen as lists of their nodes.

* **`Linked.unlink`**, **`Backed.unlink`** — what the two assignments that take a
  node out of a list do to its links and to its back links.
-/
import Mathlib.Data.List.Basic
import Mathlib.Data.List.Nodup
import Mathlib.Logic.Function.Basic

namespace LinkedList

variable {ι : Type*}

/-- From `head`, the links lead through the nodes of the list to `stop`. -/
def Linked (next : ι → Option ι) : Option ι → List ι → Option ι → Prop
  | head, [], stop => head = stop
  | head, c :: l, stop => head = some c ∧ Linked next (next c) l stop

/-- The back link of each node is the node in front of it, that of the first `front`. -/
def Backed (prev : ι → Option ι) : Option ι → List ι → Prop
  | _, [] => True
  | front, c :: l => prev c = front ∧ Backed prev (some c) l

theorem linked_append {next : ι → Option ι} {head stop : Option ι} {l l' : List ι} :
    Linked next head (l ++ l') stop ↔ ∃ m, Linked next head l m ∧ Linked next m l' stop := by
  induction l generalizing head with
  | nil =>
    constructor
    · exact fun h => ⟨head, rfl, h⟩
    · rintro ⟨m, rfl, h⟩
      exact h
  | cons c l ih =>
    constructor
    · rintro ⟨hc, h⟩
      obtain ⟨m, hl, hl'⟩ := ih.mp h
      exact ⟨m, ⟨hc, hl⟩, hl'⟩
    · rintro ⟨m, ⟨hc, hl⟩, hl'⟩
      exact ⟨hc, ih.mpr ⟨m, hl, hl'⟩⟩

theorem Linked.head_eq {next : ι → Option ι} {head : Option ι} {l : List ι}
    (h : Linked next head l none) : head = l.head? := by
  cases l with
  | nil => exact h
  | cons c l => exact h.1

/-- The links lead through one list only. -/
theorem Linked.unique {next : ι → Option ι} {head : Option ι} {l l' : List ι}
    (h : Linked next head l none) (h' : Linked next head l' none) : l = l' := by
  induction l generalizing head l' with
  | nil =>
    rw [show head = none from h] at h'
    cases l' with
    | nil => rfl
    | cons c l' => exact nomatch h'.1
  | cons c l ih =>
    obtain ⟨hc, hl⟩ := h
    cases l' with
    | nil => exact nomatch hc.symm.trans h'
    | cons d l' =>
      obtain rfl : c = d := Option.some.inj (hc.symm.trans h'.1)
      rw [ih hl h'.2]

/-- The back link of a node is the last one in front of it. -/
theorem Backed.prev_eq {prev : ι → Option ι} {front : Option ι} {a b : List ι} {p c : ι}
    (h : Backed prev front (a ++ p :: c :: b)) : prev c = some p := by
  induction a generalizing front with
  | nil => exact h.2.1
  | cons d a ih => exact ih h.2

variable [DecidableEq ι]

/-- A link of a node that is not in the list does not matter. -/
theorem linked_update {next : ι → Option ι} {head stop x : Option ι} {l : List ι} {c : ι}
    (hc : c ∉ l) : Linked (Function.update next c x) head l stop ↔ Linked next head l stop := by
  induction l generalizing head with
  | nil => exact Iff.rfl
  | cons d l ih =>
    rw [List.mem_cons, not_or] at hc
    rw [Linked, Linked, Function.update_of_ne (Ne.symm hc.1), ih hc.2]

theorem backed_update {prev : ι → Option ι} {front x : Option ι} {l : List ι} {c : ι}
    (hc : c ∉ l) : Backed (Function.update prev c x) front l ↔ Backed prev front l := by
  induction l generalizing front with
  | nil => exact Iff.rfl
  | cons d l ih =>
    rw [List.mem_cons, not_or] at hc
    rw [Backed, Backed, Function.update_of_ne (Ne.symm hc.1), ih hc.2]

/-- The link of the node in front is set to that of the node taken out. -/
theorem Linked.unlink {next : ι → Option ι} {head : Option ι} {a b : List ι} {p c : ι}
    (h : Linked next head (a ++ p :: c :: b) none) (hnodup : (a ++ p :: c :: b).Nodup) :
    Linked (Function.update next p (next c)) head (a ++ p :: b) none := by
  obtain ⟨m, ha, hp, -, hb⟩ := linked_append.mp h
  obtain ⟨-, hpcb, hdisjoint⟩ := List.nodup_append.mp hnodup
  have hpa : p ∉ a := fun hmem => hdisjoint p hmem p List.mem_cons_self rfl
  have hpb : p ∉ b := fun hmem => (List.nodup_cons.mp hpcb).1 (List.mem_cons_of_mem c hmem)
  refine linked_append.mpr ⟨m, (linked_update hpa).mpr ha, hp, ?_⟩
  rw [Function.update_self]
  exact (linked_update hpb).mpr hb

/-- A new node is linked behind the last one. -/
theorem Linked.concat {next : ι → Option ι} {head : Option ι} {a : List ι} {t c : ι}
    (h : Linked next head (a ++ [t]) none) (hnodup : (a ++ [t]).Nodup) (hc : c ∉ a ++ [t]) :
    Linked (Function.update (Function.update next c none) t (some c)) head (a ++ [t, c]) none := by
  obtain ⟨m, ha, ht, -⟩ := linked_append.mp h
  have hta : t ∉ a := fun hmem => (List.nodup_append.mp hnodup).2.2 t hmem t List.mem_cons_self rfl
  have hca : c ∉ a := fun hmem => hc (List.mem_append_left [t] hmem)
  have htc : c ≠ t := fun heq => hc (List.mem_append_right a (List.mem_singleton.mpr heq))
  refine linked_append.mpr ⟨m, (linked_update hta).mpr ((linked_update hca).mpr ha), ht, ?_, ?_⟩
  · exact Function.update_self ..
  · show Function.update (Function.update next c none) t (some c) c = none
    rw [Function.update_of_ne htc, Function.update_self]

/-- Assign to a back link, if there is a node. -/
def setBack (prev : ι → Option ι) (node x : Option ι) : ι → Option ι :=
  match node with
  | some c => Function.update prev c x
  | none => prev

theorem setBack_of_ne {prev : ι → Option ι} {node x : Option ι} {c : ι} (hc : node ≠ some c) :
    setBack prev node x c = prev c := by
  cases node with
  | none => rfl
  | some d => exact Function.update_of_ne (fun heq => hc (congrArg some heq.symm)) ..

theorem backed_setBack {prev : ι → Option ι} {node front x : Option ι} {l : List ι}
    (hl : ∀ c ∈ l, node ≠ some c) :
    Backed (setBack prev node x) front l ↔ Backed prev front l := by
  cases node with
  | none => exact Iff.rfl
  | some d => exact backed_update fun hd => hl d hd rfl

/-- The back link of the node behind is set to that of the node taken out. -/
theorem Backed.unlink {prev : ι → Option ι} {front : Option ι} {a b : List ι} {c : ι}
    (h : Backed prev front (a ++ c :: b)) (hnodup : (a ++ c :: b).Nodup) :
    Backed (setBack prev b.head? (prev c)) front (a ++ b) := by
  induction a generalizing front with
  | nil =>
    obtain ⟨hc, hb⟩ := h
    have hb' := (List.nodup_cons.mp hnodup).2
    cases b with
    | nil => trivial
    | cons n b =>
      refine ⟨?_, (backed_update (List.nodup_cons.mp hb').1).mpr hb.2⟩
      show Function.update prev n (prev c) n = front
      rw [Function.update_self, hc]
  | cons d a ih =>
    obtain ⟨hd, hrest⟩ := h
    obtain ⟨hnot, hnodup'⟩ := List.nodup_cons.mp hnodup
    refine ⟨?_, ih hrest hnodup'⟩
    rw [setBack_of_ne, hd]
    intro hhead
    have hmem : d ∈ b := List.mem_of_mem_head? hhead
    exact hnot (List.mem_append_right a (List.mem_cons_of_mem c hmem))

end LinkedList
