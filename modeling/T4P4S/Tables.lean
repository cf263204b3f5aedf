/-
The lookup tables: what the three kinds have in common.

A table is a fixed configuration and a state.  The state has the default entry,
the table behind `void* table`, and the memory that the entries live in.  An
entry is a block of this memory and is referred to by its address; a table holds
addresses and a lookup returns one.

-/
import Mathlib.Data.Vector.Basic
import T4P4S.Packet

namespace T4P4S

/-! ### How an operation can end -/

/-- An operation that does not return: `rte_exit` ended the process, or it did
what C leaves undefined. -/
inductive Halt
  | exited
  | undefined
  deriving DecidableEq, Repr

theorem bind_eq_ok {α β : Type} {x : Except Halt α} {f : α → Except Halt β} {b : β} :
    (x >>= f) = .ok b ↔ ∃ a, x = .ok a ∧ f a = .ok b := by
  cases x with
  | error e => simp [bind, Except.bind]
  | ok a => simp [bind, Except.bind]

/-- What each call keeps, a sequence of calls keeps. -/
theorem foldlM_inv {σ α : Type} {f : σ → α → Except Halt σ} {P : σ → Prop}
    (hstep : ∀ s a s', P s → f s a = .ok s' → P s') {l : List α} {s s' : σ} (hs : P s)
    (h : l.foldlM f s = .ok s') : P s' := by
  induction l generalizing s with
  | nil =>
    obtain rfl : s = s' := Except.ok.inj h
    exact hs
  | cons a l ih =>
    rw [List.foldlM_cons] at h
    obtain ⟨s₁, ha, hl⟩ := bind_eq_ok.mp h
    exact ih (hstep s a s₁ hs ha) hl

/-- What each turn keeps, a loop over the first numbers keeps. -/
theorem foldlM_range_inv {σ : Type} {f : σ → ℕ → Except Halt σ} {P : ℕ → σ → Prop} {n : ℕ}
    (hstep : ∀ k < n, ∀ s s', P k s → f s k = .ok s' → P (k + 1) s') {s s' : σ} (hs : P 0 s)
    (h : (List.range n).foldlM f s = .ok s') : P n s' := by
  induction n generalizing s' with
  | zero =>
    obtain rfl : s = s' := Except.ok.inj h
    exact hs
  | succ n ih =>
    rw [List.range_succ, List.foldlM_append] at h
    obtain ⟨s₁, hn, hlast⟩ := bind_eq_ok.mp h
    rw [List.foldlM_cons] at hlast
    obtain ⟨s₂, hs₂, hnil⟩ := bind_eq_ok.mp hlast
    obtain rfl : s₂ = s' := Except.ok.inj hnil
    exact hstep n (Nat.lt_succ_self n) s₁ s₂
      (ih (fun k hk => hstep k (Nat.lt_succ_of_lt hk)) hn) hs₂

/-! ### Configuration -/

/-- `enum lookup_t` -/
inductive LookupType
  | exact
  | lpm
  | ternary
  deriving DecidableEq, Repr

/-- The fields of `lookup_table_t` that stay as `table_config` has them.
`onErrorFail` says that the program is compiled with `T4P4S_ON_ERROR_fail`. -/
structure TableConfig where
  type : LookupType
  maxSize : ℕ
  keySize : ℕ
  actionSize : ℕ
  stateSize : ℕ := 0
  onErrorFail : Bool := false

/-- The bytes of a key that the table reads. -/
abbrev Key (c : TableConfig) := List.Vector Byte c.keySize

/-- `base_table_action_t`: the bytes of an action's id and parameters. -/
abbrev TableAction (c : TableConfig) := List.Vector Byte c.actionSize

/-! ### Memory of the entries -/

/-- The address of an entry. -/
abbrev EntryPtr := ℕ

/-- The memory that entries are allocated from.  Addresses are given out in
order; `freed` lists those that were given back, the last one first. -/
structure Heap where
  blocks : List (List Byte) := []
  freed : List EntryPtr := []

namespace Heap

/-- `rte_malloc_socket` of one entry that is then filled with `bytes`. -/
def malloc (h : Heap) (bytes : List Byte) : Heap × EntryPtr :=
  ({ h with blocks := h.blocks ++ [bytes] }, h.blocks.length)

/-- `rte_free`, undefined on what is not an allocated block. -/
def free (h : Heap) (p : EntryPtr) : Except Halt Heap :=
  if p < h.blocks.length ∧ p ∉ h.freed then
    .ok { h with freed := p :: h.freed }
  else
    .error .undefined

end Heap

/-! ### Tables -/

/-- `extended_table_t`.  A cell of `content` is `none` until it is written. -/
structure ExtendedTable (R : Type) where
  rteTable : R
  size : ℕ
  content : ℕ → Option EntryPtr

/-- A table of configuration `c` in a state, with `T` the type behind
`void* table`. -/
structure LookupTable (c : TableConfig) (T : Type) where
  defaultVal : Option EntryPtr
  table : Option T
  heap : Heap

variable {c : TableConfig} {T : Type}

/-- `fill_table_entry` -/
def fillTableEntry (action : TableAction c) : List Byte :=
  action.toList ++ List.replicate c.stateSize 0

/-- `make_table_entry` -/
def makeTableEntry (t : LookupTable c T) (action : TableAction c) :
    LookupTable c T × EntryPtr :=
  let (heap, entry) := t.heap.malloc (fillTableEntry action)
  ({ t with heap := heap }, entry)

/-- `create_ext_table` -/
def createExtTable {R : Type} (rteTable : R) : ExtendedTable R :=
  { rteTable := rteTable, size := 0, content := fun _ => none }

/-- `create_table`, with `create` the creation of this kind of table.  A table
without keys is a fake one and is not created. -/
def createTable (c : TableConfig) (create : T) : LookupTable c T :=
  { defaultVal := none
    table := if c.keySize = 0 then none else some create
    heap := {} }

/-- `table_set_default_action` -/
def tableSetDefaultAction (t : LookupTable c T) (entry : TableAction c) :
    Except Halt (LookupTable c T) := do
  let heap ← match t.defaultVal with
    | some p => t.heap.free p
    | none => pure t.heap
  let (t, p) := makeTableEntry { t with heap := heap } entry
  return { t with defaultVal := some p }

/-- A table as it is when the data plane starts: created, with a default
entry that has action `d`. -/
def freshTable (c : TableConfig) (create : T) (d : TableAction c) : LookupTable c T :=
  { defaultVal := some 0
    table := if c.keySize = 0 then none else some create
    heap := { blocks := [fillTableEntry d] } }

theorem tableSetDefaultAction_createTable (create : T) (d : TableAction c) :
    tableSetDefaultAction (createTable c create) d = .ok (freshTable c create d) := rfl

@[simp] theorem makeTableEntry_fst_blocks (t : LookupTable c T) (a : TableAction c) :
    (makeTableEntry t a).1.heap.blocks = t.heap.blocks ++ [fillTableEntry a] := rfl

/-- The bytes at an address. -/
def LookupTable.entry (t : LookupTable c T) (p : Option EntryPtr) : Option (List Byte) :=
  p.bind (t.heap.blocks[·]?)

/-- An entry stays what it is when another one is allocated. -/
theorem entry_makeTableEntry {t : LookupTable c T} {p : Option EntryPtr} {e : List Byte}
    (hp : t.entry p = some e) (a : TableAction c) :
    (makeTableEntry t a).1.entry p = some e := by
  obtain ⟨q, rfl, hq⟩ := Option.bind_eq_some_iff.mp hp
  have hlen : q < t.heap.blocks.length := (List.getElem?_eq_some_iff.mp hq).1
  rw [LookupTable.entry, Option.bind_some, makeTableEntry_fst_blocks,
    List.getElem?_append_left hlen]
  exact hq

end T4P4S
