/-
Indirect counters.

A call of `count` becomes one call of `extern_counter_count`, or two for a counter of
packets and bytes.  The functions of the architectures find the element, and
`do_counter_count` adds the amount to what the first element's `pob` says, which nothing
ever sets.

* **`counterLaw_iff`** — in a run of calls, the counter counts what its kind says iff in
  each call the index is the same after the byte swap, as far as there is one, and no
  bytes are to be counted; or neither index is in the array.
-/
import T4P4S.Lib.Bits
import T4P4S.Lib.Lockstep
import Mathlib.Algebra.Order.Group.Int
import Mathlib.Data.BitVec
import Mathlib.Logic.Function.Basic

open NetBits Lockstep

namespace T4P4S

/-- `packets_or_bytes_e` -/
inductive PacketsOrBytes
  | packets
  | bytes
  | packetsAndBytes
  deriving DecidableEq

/-- `smemtype_counter_t` -/
structure CounterCell where
  packets : BitVec 32
  bytes : BitVec 32
  pob : PacketsOrBytes

/-- An element in zeroed memory; `pob_packets` is 0. -/
def CounterCell.zero : CounterCell := ⟨0, 0, .packets⟩

/-- The functions that the generated call can be for: `extern_counter_count` of `v1model`
and of `psa`, and those for psa's `Counter<W, S>`, which only print. -/
inductive CounterCalls
  | v1model
  | psa
  | psaTyped

/-- An indirect counter.  Its size is a `bit<32>`. -/
structure Counter where
  amount : ℕ
  amount_lt : amount < 2 ^ 32
  kind : PacketsOrBytes
  calls : CounterCalls

/-! ### The functions -/

/-- `do_counter_count_pob32` on the packets of an element. -/
def addPackets (counter : ℕ → CounterCell) (i : ℕ) (value : BitVec 32) : ℕ → CounterCell :=
  Function.update counter i { counter i with packets := (counter i).packets + value }

/-- `do_counter_count_pob32` on the bytes of an element. -/
def addBytes (counter : ℕ → CounterCell) (i : ℕ) (value : BitVec 32) : ℕ → CounterCell :=
  Function.update counter i { counter i with bytes := (counter i).bytes + value }

/-- `do_counter_count`, undefined when it gets out of the array. -/
def doCounterCount (amount : ℕ) (counter : ℕ → CounterCell) (index : ℤ) (value : BitVec 32) :
    Option (ℕ → CounterCell) :=
  if 0 ≤ index ∧ index < amount then
    let pob := (counter 0).pob
    let counter := if pob = .packets ∨ pob = .packetsAndBytes then
      addPackets counter index.toNat value else counter
    some (if pob = .bytes ∨ pob = .packetsAndBytes then
      addBytes counter index.toNat value else counter)
  else
    none

/-- A call of `count`: the index and the size of the packet. -/
structure CountCall where
  index : BitVec 32
  packetSize : BitVec 32

variable (C : Counter)

/-- `extern_counter_count`.  The `int index` of `do_counter_count` is the index as a signed
number. -/
def externCounterCount (ct : PacketsOrBytes) (call : CountCall) (counter : ℕ → CounterCell) :
    Option (ℕ → CounterCell) :=
  let value := if ct = .packets then 1 else call.packetSize
  match C.calls with
  | .v1model =>
    let index := bswap32 call.index
    if index.toNat < C.amount then doCounterCount C.amount counter index.toInt value
    else some counter
  | .psa => doCounterCount C.amount counter call.index.toInt value
  | .psaTyped => some counter

/-- The generated code, `gen_fmt_methodcall_extern`. -/
def Counter.count (call : CountCall) (counter : ℕ → CounterCell) : Option (ℕ → CounterCell) :=
  match C.kind with
  | .packetsAndBytes =>
    (externCounterCount C .packets call counter).bind (externCounterCount C .bytes call)
  | kind => externCounterCount C kind call counter

/-! ### What should hold -/

section Totals

variable {α ι : Type} [DecidableEq ι] (element : α → Option ι) (size : α → BitVec 32)

/-- The number of calls for the element. -/
def packetCount (calls : List α) (i : ι) : ℕ := calls.countP fun c => element c = some i

/-- The sum of the packet sizes of the calls for the element. -/
def byteCount (calls : List α) (i : ι) : ℕ :=
  ((calls.filter fun c => element c = some i).map fun c => (size c).toNat).sum

/-- The cells of the elements in `dom` have what the kind says of the calls. -/
structure Totals (kind : PacketsOrBytes) (dom : ι → Prop) (calls : List α)
    (cell : ι → CounterCell) : Prop where
  packets : kind ≠ .bytes → ∀ i, dom i →
    (cell i).packets = BitVec.ofNat 32 (packetCount element calls i)
  bytes : kind ≠ .packets → ∀ i, dom i →
    (cell i).bytes = BitVec.ofNat 32 (byteCount element size calls i)

variable {element size} {calls : List α} {call : α} {kind : PacketsOrBytes} {dom : ι → Prop}
  {cell cell' : ι → CounterCell}

theorem packetCount_append (i : ι) : packetCount element (calls ++ [call]) i =
    packetCount element calls i + if element call = some i then 1 else 0 := by
  rw [packetCount, List.countP_append, List.countP_singleton]
  by_cases h : element call = some i <;> simp [packetCount, h]

theorem byteCount_append (i : ι) : byteCount element size (calls ++ [call]) i =
    byteCount element size calls i + if element call = some i then (size call).toNat else 0 := by
  rw [byteCount, List.filter_append, List.map_append, List.sum_append]
  by_cases h : element call = some i <;> simp [byteCount, h]

/-- What a further call should add to the elements. -/
theorem Totals.append_iff (h : Totals element size kind dom calls cell) :
    Totals element size kind dom (calls ++ [call]) cell' ↔
      (kind ≠ .bytes → ∀ i, dom i →
        (cell' i).packets = (cell i).packets + if element call = some i then 1 else 0) ∧
      (kind ≠ .packets → ∀ i, dom i →
        (cell' i).bytes = (cell i).bytes + if element call = some i then size call else 0) := by
  have hpackets : ∀ i, BitVec.ofNat 32 (packetCount element (calls ++ [call]) i) =
      BitVec.ofNat 32 (packetCount element calls i) + if element call = some i then 1 else 0 := by
    intro i
    rw [packetCount_append, BitVec.ofNat_add]
    split_ifs <;> rfl
  have hbytes : ∀ i, BitVec.ofNat 32 (byteCount element size (calls ++ [call]) i) =
      BitVec.ofNat 32 (byteCount element size calls i) +
        if element call = some i then size call else 0 := by
    intro i
    rw [byteCount_append, BitVec.ofNat_add]
    split_ifs
    · rw [BitVec.ofNat_toNat, BitVec.setWidth_eq]
    · rfl
  constructor
  · rintro ⟨hp, hb⟩
    refine ⟨fun hkind i hi => ?_, fun hkind i hi => ?_⟩
    · rw [hp hkind i hi, hpackets, h.packets hkind i hi]
    · rw [hb hkind i hi, hbytes, h.bytes hkind i hi]
  · rintro ⟨hp, hb⟩
    refine ⟨fun hkind i hi => ?_, fun hkind i hi => ?_⟩
    · rw [hp hkind i hi, hpackets, h.packets hkind i hi]
    · rw [hb hkind i hi, hbytes, h.bytes hkind i hi]

end Totals

/-- The counter has what its kind says of the calls. -/
def Counter.Counts (calls : List CountCall) (counter : ℕ → CounterCell) : Prop :=
  Totals (fun call => some call.index.toNat) CountCall.packetSize C.kind (· < C.amount) calls counter

/-- The elements, and the calls that were made. -/
structure CounterState where
  counter : ℕ → CounterCell
  calls : List CountCall

/-- The state after a call; that after an undefined one does not matter. -/
def CounterState.next (s : CounterState) (call : CountCall) : CounterState :=
  ⟨(C.count call s.counter).getD s.counter, s.calls ++ [call]⟩

/-- What a call should do: the totals are right, and no other element has changed. -/
def CounterState.Law (s : CounterState) (call : CountCall) : Prop :=
  ∃ counter, C.count call s.counter = some counter ∧ C.Counts (s.calls ++ [call]) counter ∧
    ∀ j < C.amount, j ≠ call.index.toNat → counter j = s.counter j

/-- The counter counts in the run. -/
def CounterLaw (calls : List CountCall) : Prop :=
  Along (CounterState.next C) (CounterState.Law C) calls ⟨fun _ => .zero, []⟩

/-! ### The condition -/

namespace Counter

/-- The index that `do_counter_count` gets, if it is called. -/
def target (index : BitVec 32) : Option ℕ :=
  match C.calls with
  | .v1model => if (bswap32 index).toNat < C.amount then some (bswap32 index).toNat else none
  | .psa => some index.toNat
  | .psaTyped => none

/-- What is added to the packets in a call. -/
def added (packetSize : BitVec 32) : BitVec 32 :=
  match C.kind with
  | .packets => 1
  | .bytes => packetSize
  | .packetsAndBytes => 1 + packetSize

/-- The condition for a call: the element that is counted in is the one of the index, and
there are no bytes to be counted; or nothing is to be counted, and nothing is. -/
def Ok (call : CountCall) : Prop :=
  match C.target call.index with
  | none => C.amount ≤ call.index.toNat ∨ C.kind = .bytes ∧ call.packetSize = 0
  | some j => j < C.amount ∧ j < 2 ^ 31 ∧
    if call.index.toNat < C.amount then
      (C.kind ≠ .bytes → j = call.index.toNat) ∧ (C.kind ≠ .packets → call.packetSize = 0)
    else C.added call.packetSize = 0

instance (call : CountCall) : Decidable (C.Ok call) := by
  unfold Ok
  split <;> infer_instance

end Counter

/-! ### What the functions do -/

variable {C} {counter counter' : ℕ → CounterCell} {calls : List CountCall} {call : CountCall}

@[simp] theorem addPackets_pob (i j : ℕ) (value : BitVec 32) :
    (addPackets counter i value j).pob = (counter j).pob := by
  rw [addPackets, Function.update_apply]
  split_ifs with h
  · rw [h]
  · rfl

@[simp] theorem addPackets_bytes (i j : ℕ) (value : BitVec 32) :
    (addPackets counter i value j).bytes = (counter j).bytes := by
  rw [addPackets, Function.update_apply]
  split_ifs with h
  · rw [h]
  · rfl

theorem addPackets_packets (i j : ℕ) (value : BitVec 32) :
    (addPackets counter i value j).packets =
      (counter j).packets + if j = i then value else 0 := by
  rw [addPackets, Function.update_apply]
  split_ifs with h
  · rw [h]
  · exact (add_zero _).symm

theorem addPackets_of_ne {i j : ℕ} (h : j ≠ i) (value : BitVec 32) :
    addPackets counter i value j = counter j := Function.update_of_ne h _ _

theorem addPackets_add (i : ℕ) (v w : BitVec 32) :
    addPackets (addPackets counter i v) i w = addPackets counter i (v + w) := by
  rw [addPackets, addPackets, addPackets, Function.update_idem, Function.update_self,
    add_assoc]

/-- With a `pob` that was never set, only packets are counted. -/
theorem doCounterCount_eq {amount : ℕ} (hpob : (counter 0).pob = .packets) (index : BitVec 32)
    (value : BitVec 32) : doCounterCount amount counter index.toInt value =
      if index.toNat < amount ∧ index.toNat < 2 ^ 31 then
        some (addPackets counter index.toNat value)
      else none := by
  rw [doCounterCount, hpob, BitVec.toInt_eq_toNat_cond]
  have hlt := index.isLt
  by_cases hin : index.toNat < amount ∧ index.toNat < 2 ^ 31
  · rw [if_pos (by omega : 2 * index.toNat < 2 ^ 32), if_pos hin, if_pos (by omega)]
    rfl
  · rw [if_neg hin, if_neg (by split_ifs <;> omega)]

theorem externCounterCount_eq (hpob : (counter 0).pob = .packets) (ct : PacketsOrBytes) :
    externCounterCount C ct call counter = match C.target call.index with
      | none => some counter
      | some j => if j < C.amount ∧ j < 2 ^ 31 then
          some (addPackets counter j (if ct = .packets then 1 else call.packetSize))
        else none := by
  rw [externCounterCount, Counter.target]
  cases C.calls with
  | v1model =>
    dsimp only
    rw [doCounterCount_eq hpob]
    by_cases hlt : (bswap32 call.index).toNat < C.amount
    · rw [if_pos hlt, if_pos hlt]
    · rw [if_neg hlt, if_neg hlt]
  | psa => exact doCounterCount_eq hpob _ _
  | psaTyped => rfl

/-- What a call of `count` does. -/
theorem Counter.count_eq (hpob : (counter 0).pob = .packets) :
    C.count call counter = match C.target call.index with
      | none => some counter
      | some j => if j < C.amount ∧ j < 2 ^ 31 then
          some (addPackets counter j (C.added call.packetSize)) else none := by
  rw [count, added]
  cases hkind : C.kind with
  | packets => exact externCounterCount_eq hpob _
  | bytes => exact externCounterCount_eq hpob _
  | packetsAndBytes =>
    dsimp only
    rw [externCounterCount_eq hpob]
    cases htarget : C.target call.index with
    | none =>
      dsimp only
      rw [Option.bind_some, externCounterCount_eq hpob, htarget]
    | some j =>
      dsimp only
      by_cases hin : j < C.amount ∧ j < 2 ^ 31
      · have hpob' : (addPackets counter j 1 0).pob = .packets :=
          (addPackets_pob _ _ _).trans hpob
        rw [if_pos hin, if_pos hin, if_pos rfl, Option.bind_some, externCounterCount_eq hpob',
          htarget]
        dsimp only
        rw [if_pos hin, if_neg (by decide), addPackets_add]
      · rw [if_neg hin, if_neg hin, Option.bind_none]

/-! ### Runs -/

/-- The totals of the calls so far, and a `pob` that was never set. -/
def CounterState.Inv (C : Counter) (s : CounterState) : Prop :=
  C.Counts s.calls s.counter ∧ (s.counter 0).pob = .packets

variable {s : CounterState}

/-- A call that does nothing. -/
theorem CounterState.law_none_iff (hinv : s.Inv C) (htarget : C.target call.index = none) :
    s.Law C call ↔ C.amount ≤ call.index.toNat ∨ C.kind = .bytes ∧ call.packetSize = 0 := by
  obtain ⟨hcounts, hpob⟩ := hinv
  rw [Law, Counter.count_eq hpob, htarget]
  constructor
  · rintro ⟨_, hsame, hcounts', -⟩
    obtain rfl := Option.some_inj.mp hsame
    obtain ⟨hp, hb⟩ := hcounts.append_iff.mp hcounts'
    by_contra hnot
    rw [not_or, Nat.not_le, not_and] at hnot
    obtain ⟨hlt, hsize⟩ := hnot
    -- A call that should count is missed, unless it has nothing to add to what is recorded.
    by_cases hkind : C.kind = .bytes
    · have hzero := hb (by rw [hkind]; decide) _ hlt
      rw [if_pos rfl, left_eq_add] at hzero
      exact hsize hkind hzero
    · have hone := hp hkind _ hlt
      rw [if_pos rfl, left_eq_add] at hone
      exact absurd hone (by decide)
  · intro hok
    have hne : ∀ i < C.amount, C.amount ≤ call.index.toNat → some call.index.toNat ≠ some i :=
      fun i hi hle h => by
        have := Option.some_inj.mp h
        omega
    refine ⟨_, rfl, hcounts.append_iff.mpr ⟨?_, ?_⟩, fun _ _ _ => rfl⟩
    · intro hkind i hi
      rcases hok with hle | ⟨hbytes, -⟩
      · rw [if_neg (hne i hi hle), add_zero]
      · exact absurd hbytes hkind
    · intro hkind i hi
      rcases hok with hle | ⟨-, hsize⟩
      · rw [if_neg (hne i hi hle), add_zero]
      · rw [hsize, ite_self, add_zero]

/-- A call that counts in the element `j`. -/
theorem CounterState.law_some_iff (hinv : s.Inv C) {j : ℕ} (htarget : C.target call.index = some j)
    (hlt : j < C.amount ∧ j < 2 ^ 31) :
    s.Law C call ↔ if call.index.toNat < C.amount then
        (C.kind ≠ .bytes → j = call.index.toNat) ∧ (C.kind ≠ .packets → call.packetSize = 0)
      else C.added call.packetSize = 0 := by
  obtain ⟨hcounts, hpob⟩ := hinv
  rw [Law, Counter.count_eq hpob, htarget]
  dsimp only
  rw [if_pos hlt]
  constructor
  · rintro ⟨_, hsome, hcounts', hframe⟩
    obtain rfl := Option.some_inj.mp hsome
    obtain ⟨hp, hb⟩ := hcounts.append_iff.mp hcounts'
    -- The packets tell which element was counted in, the bytes that there was nothing to add.
    split_ifs with hindex
    · refine ⟨?_, ?_⟩
      · intro hkind
        by_contra hne
        have hone := hp hkind _ hindex
        rw [addPackets_of_ne (Ne.symm hne), if_pos rfl, left_eq_add] at hone
        exact absurd hone (by decide)
      · intro hkind
        have hzero := hb hkind _ hindex
        rwa [addPackets_bytes, if_pos rfl, left_eq_add] at hzero
    -- The call is out of range, and yet the element `j` gets something.
    · have hsame := congrArg CounterCell.packets (hframe j hlt.1 (by omega))
      rwa [addPackets_packets, if_pos rfl, add_eq_left] at hsame
  · intro hok
    have hne : ∀ i < C.amount, ¬ call.index.toNat < C.amount → some call.index.toNat ≠ some i :=
      fun i hi hnot h => hnot (Option.some_inj.mp h ▸ hi)
    refine ⟨_, rfl, hcounts.append_iff.mpr ⟨?_, ?_⟩, ?_⟩
    · intro hkind i hi
      rw [addPackets_packets]
      split_ifs at hok with hindex
      · obtain rfl := hok.1 hkind
        rw [Counter.added]
        cases hkind' : C.kind with
        | packets => simp only [Option.some_inj, eq_comm]
        | bytes => exact absurd hkind' hkind
        | packetsAndBytes =>
          have hsize : call.packetSize = 0 := hok.2 (by rw [hkind']; decide)
          simp only [hsize, Option.some_inj, eq_comm, add_zero]
      · rw [hok, ite_self, if_neg (hne i hi hindex)]
    · intro hkind i hi
      rw [addPackets_bytes]
      split_ifs at hok with hindex
      · rw [hok.2 hkind, ite_self, add_zero]
      · rw [if_neg (hne i hi hindex), add_zero]
    · intro i hi hne
      split_ifs at hok with hindex
      · by_cases hbytes : C.kind = .bytes
        · have hsize : call.packetSize = 0 := hok.2 (by rw [hbytes]; decide)
          rw [Counter.added, hbytes, addPackets]
          dsimp only
          rw [hsize, add_zero]
          exact congrFun (Function.update_eq_self _ _) i
        · obtain rfl := hok.1 hbytes
          exact addPackets_of_ne hne _
      · rw [hok, addPackets, add_zero]
        exact congrFun (Function.update_eq_self _ _) i

theorem CounterState.law_iff (hinv : s.Inv C) : s.Law C call ↔ C.Ok call := by
  rw [Counter.Ok]
  cases htarget : C.target call.index with
  | none => exact law_none_iff hinv htarget
  | some j =>
    by_cases hlt : j < C.amount ∧ j < 2 ^ 31
    · rw [law_some_iff hinv htarget hlt]
      exact ⟨fun h => ⟨hlt.1, hlt.2, h⟩, fun h => h.2.2⟩
    · refine iff_of_false ?_ fun h => hlt ⟨h.1, h.2.1⟩
      rintro ⟨_, hsome, -⟩
      rw [Counter.count_eq hinv.2, htarget] at hsome
      dsimp only at hsome
      rw [if_neg hlt] at hsome
      cases hsome

/-- A call that counts as it should keeps the invariant. -/
theorem CounterState.Inv.next (hinv : s.Inv C) (hlaw : s.Law C call) : (s.next C call).Inv C := by
  obtain ⟨counter, hsome, hcounts, -⟩ := hlaw
  rw [CounterState.next, hsome, Option.getD_some]
  refine ⟨hcounts, ?_⟩
  rw [Counter.count_eq hinv.2] at hsome
  split at hsome
  · obtain rfl := Option.some_inj.mp hsome
    exact hinv.2
  · split_ifs at hsome
    obtain rfl := Option.some_inj.mp hsome
    exact (addPackets_pob _ _ _).trans hinv.2

/-- **A counter counts in a run iff each call meets the condition.** -/
theorem counterLaw_iff (C : Counter) (calls : List CountCall) :
    CounterLaw C calls ↔ ∀ call ∈ calls, C.Ok call := by
  have hinit : (⟨fun _ => .zero, []⟩ : CounterState).Inv C :=
    ⟨⟨fun _ _ _ => rfl, fun _ _ _ => rfl⟩, rfl⟩
  have hlaw : ∀ (s : CounterState) (call : CountCall), s.Inv C → (s.Law C call ↔ C.Ok call) :=
    fun _ _ hinv => CounterState.law_iff hinv
  exact (along_congr hlaw (fun _ _ hinv hlaw => hinv.next hlaw) hinit).trans along_const

/-- A packet of 100 bytes is counted as 100 packets and no bytes. -/
theorem bytes_not_counterLaw : ¬ ∀ (C : Counter) (calls : List CountCall), CounterLaw C calls := by
  intro hlaw
  obtain ⟨⟨counter, hsome, hcounts, -⟩, -⟩ := hlaw ⟨1, by decide, .bytes, .v1model⟩ [⟨0, 100⟩]
  have hbytes := hcounts.bytes (by decide) 0 Nat.zero_lt_one
  obtain rfl := Option.some_inj.mp hsome
  exact absurd hbytes (by decide)

end T4P4S
