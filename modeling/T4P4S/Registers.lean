/-
Registers, as arrays of values.

A generated call compares the index with the number of elements, which it casts to the
type of the index, and calls `extern_register_read` or `extern_register_write`, which
convert the index once more.

* **`registerLaw_of_ok`** — in a run in which each index that the register has passes
  the comparison and both conversions, and each other index fails the comparison, reads
  return what was written last, writes change one element and denied calls nothing;
* **`readLaw_iff`**, **`writeLaw_iff`** — for a single call behind such runs the condition is
  exact.
-/
import T4P4S.HdrFld
import T4P4S.Lib.CInt
import T4P4S.Lib.Lockstep
import T4P4S.Packet

open Lockstep

namespace T4P4S

/-- A register of `amount` elements of type `bit<size>` or `int<size>`, and the type
`bit<idxSize>` that its index expressions have. -/
structure Register where
  amount : ℕ
  size : ℕ
  isSigned : Bool
  idxSize : ℕ
  idxSize_le : idxSize ≤ 32

namespace Register

variable (R : Register)

/-- The width of the C type of an element. -/
def bits : ℕ := sizeup R.size false

/-- The width of the C type of an index. -/
def idxBits : ℕ := sizeup R.idxSize false

/-- `gen_extern_call_problem_type`: `(amount_type)(amount) < idx`. -/
def idxTooHigh (idx : ℕ) : Prop := R.amount % 2 ^ R.idxBits < idx

instance (idx : ℕ) : Decidable (R.idxTooHigh idx) := inferInstanceAs (Decidable (_ < _))

end Register

/-- The expression for the result of a read: a variable, or a field of a header. -/
inductive ResultExpr
  | path (x : ℕ)
  | member (h : HeaderLayout) (hd : HdrDesc) (fld : ℕ)

variable {R : Register}

/-- The elements, the variables of their type, the memory of the packet, and the values
that were written last. -/
structure RegState (R : Register) where
  value : ℕ → BitVec R.bits
  vars : ℕ → BitVec R.bits
  mem : ℕ → BitVec 8
  last : ℕ → BitVec R.bits

/-- The calls, and what other code does between them. -/
inductive RegOp (R : Register)
  | read (result : ResultExpr) (index : BitVec R.idxBits)
  | write (index : BitVec R.idxBits) (value : BitVec R.bits)
  | other (vars : ℕ → BitVec R.bits) (mem : ℕ → BitVec 8)

namespace RegState

/-- The value of the result expression, for a field in the variable `content`. -/
def load (s : RegState R) : ResultExpr → BitVec R.bits
  | .path x => s.vars x
  | .member h hd fld => (get32 h hd fld s.mem).setWidth R.bits

/-- `*value_result = v`, and then the `MODIFY` of a field with the variable. -/
def store (s : RegState R) (v : BitVec R.bits) : ResultExpr → RegState R
  | .path x => { s with vars := Function.update s.vars x v }
  | .member h hd fld =>
    let value32 := if R.isSigned then v.signExtend 32 else v.setWidth 32
    { s with mem := modify32 h hd fld value32 s.mem }

/-- `extern_register_read`: `idx` has the type of the elements. -/
def externRegisterRead (s : RegState R) (idx : ℕ) : Option (BitVec R.bits) :=
  let idx := CInt.wrap R.bits R.isSigned idx
  if 0 ≤ idx ∧ idx < R.amount then some (s.value idx.toNat) else none

/-- `extern_register_write`: `idx` is an `int`. -/
def externRegisterWrite (s : RegState R) (idx : ℕ) (value : BitVec R.bits) :
    Option (RegState R) :=
  let idx := CInt.wrap 32 true idx
  if 0 ≤ idx ∧ idx < R.amount then
    some { s with value := Function.update s.value idx.toNat value }
  else
    none

/-- A generated call, undefined when it gets out of the array.  There are no functions
for elements of more than 32 bits. -/
def step (s : RegState R) : RegOp R → Option (RegState R)
  | .read result index =>
    if 32 < R.size then none
    else
      -- the field is written back also if the call is denied
      if R.idxTooHigh index.toNat then some (s.store (s.load result) result)
      else (s.externRegisterRead index.toNat).map fun v => s.store v result
  | .write index value =>
    if 32 < R.size then none
    else if R.idxTooHigh index.toNat then some s
    else s.externRegisterWrite index.toNat value
  | .other vars mem => some { s with vars := vars, mem := mem }

/-- The values written last, after an operation. -/
def written (s : RegState R) : RegOp R → ℕ → BitVec R.bits
  | .write index value =>
    if index.toNat < R.amount then Function.update s.last index.toNat value else s.last
  | _ => s.last

/-- The state after an operation; that after an undefined one does not matter. -/
def next (s : RegState R) (op : RegOp R) : RegState R :=
  { (s.step op).getD s with last := s.written op }

/-- What an operation should do: with an index that the register has, a read returns the
value written last and a write sets the element; with another index the result of a read
stays.  No other element changes. -/
def Law (s : RegState R) (op : RegOp R) : Prop :=
  ∃ s', s.step op = some s' ∧ match op with
    | .read result index =>
      (∀ i < R.amount, s'.value i = s.value i) ∧
        s'.load result = if index.toNat < R.amount then s.last index.toNat else s.load result
    | .write index value =>
      ∀ i < R.amount, s'.value i = if i = index.toNat then value else s.value i
    | .other _ _ => True

/-- A register starts with zeros. -/
def init (vars : ℕ → BitVec R.bits) (mem : ℕ → BitVec 8) : RegState R where
  value _ := 0
  vars := vars
  mem := mem
  last _ := 0

end RegState

/-- The register behaves as an array in the run. -/
def RegisterLaw (R : Register) (vars : ℕ → BitVec R.bits) (mem : ℕ → BitVec 8)
    (ops : List (RegOp R)) : Prop :=
  Along RegState.next RegState.Law ops (.init vars mem)

/-! ### The condition -/

namespace Register

/-- A read with the index gets to its element, or is denied if there is none. -/
def ReadReaches (R : Register) (idx : ℕ) : Prop :=
  R.size ≤ 32 ∧ if idx < R.amount then
    idx ≤ R.amount % 2 ^ R.idxBits ∧ CInt.InRange R.bits R.isSigned idx
  else
    R.amount % 2 ^ R.idxBits < idx

/-- A write with the index gets to its element, or is denied if there is none. -/
def WriteReaches (R : Register) (idx : ℕ) : Prop :=
  R.size ≤ 32 ∧ if idx < R.amount then idx ≤ R.amount % 2 ^ R.idxBits ∧ idx < 2 ^ 31
  else R.amount % 2 ^ R.idxBits < idx

instance (idx : ℕ) : Decidable (R.ReadReaches idx) := inferInstanceAs (Decidable (_ ∧ _))

instance (idx : ℕ) : Decidable (R.WriteReaches idx) := inferInstanceAs (Decidable (_ ∧ _))

theorem idxTooHigh_iff {R : Register} {idx : ℕ} :
    R.idxTooHigh idx ↔ R.amount % 2 ^ R.idxBits < idx := Iff.rfl

theorem not_idxTooHigh {R : Register} {idx : ℕ} (h : idx ≤ R.amount % 2 ^ R.idxBits) :
    ¬ R.idxTooHigh idx := Nat.not_lt.mpr h

theorem bits_cases (R : Register) : R.bits = 8 ∨ R.bits = 16 ∨ R.bits = 32 := by
  simp only [bits, sizeup, Bool.false_eq_true, if_false]
  split_ifs <;> decide

theorem bits_pos (R : Register) : 0 < R.bits := by
  rcases R.bits_cases with h | h | h <;> rw [h] <;> decide

theorem idxBits_le (R : Register) : R.idxBits ≤ 32 := by
  simp only [idxBits, sizeup, Bool.false_eq_true, if_false]
  split_ifs <;> decide

end Register

/-- The condition for an operation: its index, and that the result of a read can hold the
value that it should have. -/
def RegState.Ok (s : RegState R) : RegOp R → Prop
  | .read result index =>
    R.ReadReaches index.toNat ∧
      let v := if index.toNat < R.amount then s.last index.toNat else s.load result
      (s.store v result).load result = v
  | .write index _ => R.WriteReaches index.toNat
  | .other _ _ => True

/-- The elements are the values written last. -/
def RegState.Inv (s : RegState R) : Prop := ∀ i < R.amount, s.value i = s.last i

/-! ### What the functions do -/

namespace RegState

variable {s : RegState R}

@[simp] theorem store_value (v : BitVec R.bits) (result : ResultExpr) :
    (s.store v result).value = s.value := by
  cases result <;> rfl

/-- An index that its conversion keeps. -/
theorem externRegisterRead_eq {idx : ℕ} (hlt : idx < R.amount)
    (hrange : CInt.InRange R.bits R.isSigned idx) :
    s.externRegisterRead idx = some (s.value idx) := by
  rw [externRegisterRead, CInt.wrap_of_inRange R.bits_pos hrange]
  exact if_pos ⟨Int.natCast_nonneg idx, Int.ofNat_lt.mpr hlt⟩

theorem externRegisterWrite_eq {idx : ℕ} (hlt : idx < R.amount) (h31 : idx < 2 ^ 31)
    (value : BitVec R.bits) : s.externRegisterWrite idx value =
      some { s with value := Function.update s.value idx value } := by
  have hrange : CInt.InRange 32 true idx := by
    rw [CInt.inRange_true]
    omega
  rw [externRegisterWrite, CInt.wrap_of_inRange (by decide) hrange]
  exact if_pos ⟨Int.natCast_nonneg idx, Int.ofNat_lt.mpr hlt⟩

theorem load_store_path (v : BitVec R.bits) (x : ℕ) : (s.store v (.path x)).load (.path x) = v :=
  Function.update_self _ _ _

/-- What a read can do. -/
theorem step_read {result : ResultExpr} {index : BitVec R.idxBits} {s' : RegState R}
    (h : s.step (.read result index) = some s') :
    R.size ≤ 32 ∧ ((R.idxTooHigh index.toNat ∧ s' = s.store (s.load result) result) ∨
      ¬ R.idxTooHigh index.toNat ∧ ∃ j < R.amount, CInt.wrap R.bits R.isSigned index.toNat = j ∧
        s' = s.store (s.value j) result) := by
  rw [step] at h
  split_ifs at h with hsize hhigh
  · obtain rfl := Option.some_inj.mp h
    exact ⟨Nat.not_lt.mp hsize, .inl ⟨hhigh, rfl⟩⟩
  · obtain ⟨v, hv, rfl⟩ := Option.map_eq_some_iff.mp h
    rw [externRegisterRead] at hv
    split_ifs at hv with hin
    obtain rfl := Option.some_inj.mp hv
    have hj : ((CInt.wrap R.bits R.isSigned index.toNat).toNat : ℤ) =
        CInt.wrap R.bits R.isSigned index.toNat := Int.toNat_of_nonneg hin.1
    exact ⟨Nat.not_lt.mp hsize, .inr ⟨hhigh, _, by omega, hj.symm, rfl⟩⟩

/-- What a write can do. -/
theorem step_write {index : BitVec R.idxBits} {value : BitVec R.bits} {s' : RegState R}
    (h : s.step (.write index value) = some s') :
    R.size ≤ 32 ∧ ((R.idxTooHigh index.toNat ∧ s' = s) ∨
      ¬ R.idxTooHigh index.toNat ∧ index.toNat < R.amount ∧ index.toNat < 2 ^ 31) := by
  rw [step] at h
  split_ifs at h with hsize hhigh
  · obtain rfl := Option.some_inj.mp h
    exact ⟨Nat.not_lt.mp hsize, .inl ⟨hhigh, rfl⟩⟩
  · rw [externRegisterWrite] at h
    split_ifs at h with hin
    have h32 : index.toNat < 2 ^ 32 :=
      index.isLt.trans_le (Nat.pow_le_pow_right Nat.two_pos R.idxBits_le)
    -- as an `int`, an index from `2 ^ 31` on is negative
    have hint : CInt.wrap 32 true index.toNat =
        if index.toNat < 2 ^ 31 then (index.toNat : ℤ) else index.toNat - 2 ^ 32 := by
      rw [CInt.wrap, if_pos rfl, Int.bmod]
      split_ifs <;> omega
    split_ifs at hint with h31
    · exact ⟨Nat.not_lt.mp hsize, .inr ⟨hhigh, by omega, h31⟩⟩
    · omega

/-- An operation under the condition does what it should. -/
theorem Inv.law (hinv : s.Inv) {op : RegOp R} (hok : s.Ok op) : s.Law op := by
  cases op with
  | read result index =>
    obtain ⟨⟨hsize, hidx⟩, hholds⟩ := hok
    rw [Law, step, if_neg (Nat.not_lt.mpr hsize)]
    by_cases hlt : index.toNat < R.amount
    · rw [if_pos hlt] at hidx
      rw [if_neg (Register.not_idxTooHigh hidx.1), externRegisterRead_eq hlt hidx.2, hinv _ hlt]
      simp only [if_pos hlt] at hholds ⊢
      exact ⟨_, rfl, fun i _ => congrFun (store_value _ _) i, hholds⟩
    · rw [if_neg hlt] at hidx
      rw [if_pos (Register.idxTooHigh_iff.mpr hidx)]
      simp only [if_neg hlt] at hholds ⊢
      exact ⟨_, rfl, fun i _ => congrFun (store_value _ _) i, hholds⟩
  | write index value =>
    obtain ⟨hsize, hidx⟩ := hok
    rw [Law, step, if_neg (Nat.not_lt.mpr hsize)]
    by_cases hlt : index.toNat < R.amount
    · rw [if_pos hlt] at hidx
      rw [if_neg (Register.not_idxTooHigh hidx.1), externRegisterWrite_eq hlt hidx.2]
      exact ⟨_, rfl, fun i _ => Function.update_apply _ _ _ _⟩
    · rw [if_neg hlt] at hidx
      rw [if_pos (Register.idxTooHigh_iff.mpr hidx)]
      refine ⟨_, rfl, ?_⟩
      intro i hi
      have hne : i ≠ index.toNat := fun h => hlt (h ▸ hi)
      rw [if_neg hne]
  | other vars mem => exact ⟨_, rfl, trivial⟩

/-- An operation that does what it should keeps the invariant. -/
theorem Inv.next (hinv : s.Inv) {op : RegOp R} (hlaw : s.Law op) : (s.next op).Inv := by
  obtain ⟨s', hs', hlaw⟩ := hlaw
  intro i hi
  rw [RegState.next, hs', Option.getD_some]
  cases op with
  | read result index => exact (hlaw.1 i hi).trans (hinv i hi)
  | write index value =>
    refine (hlaw i hi).trans ?_
    rw [written]
    by_cases hlt : index.toNat < R.amount
    · rw [if_pos hlt, hinv i hi]
      exact (Function.update_apply _ _ _ _).symm
    · have hne : i ≠ index.toNat := fun h => hlt (h ▸ hi)
      rw [if_neg hlt, if_neg hne]
      exact hinv i hi
  | other vars mem =>
    obtain rfl := Option.some_inj.mp hs'
    exact hinv i hi

theorem inv_init (vars : ℕ → BitVec R.bits) (mem : ℕ → BitVec 8) :
    (init vars mem : RegState R).Inv := fun _ _ => rfl

/-- A run under the condition, and the state that it ends in. -/
theorem law_of_along_ok {vars : ℕ → BitVec R.bits} {mem : ℕ → BitVec 8} {ops : List (RegOp R)}
    (hok : Along RegState.next RegState.Ok ops (init vars mem)) :
    RegisterLaw R vars mem ops ∧ (ops.foldl RegState.next (init vars mem)).Inv :=
  hok.imp (fun _ _ hinv => hinv.law) (fun _ _ hinv hop => hinv.next (hinv.law hop))
    (inv_init vars mem)

end RegState

/-! ### Runs -/

/-- **In a run whose calls all reach their element, or are denied where there is none, the
register is an array.** -/
theorem registerLaw_of_ok {R : Register} {vars : ℕ → BitVec R.bits} {mem : ℕ → BitVec 8}
    {ops : List (RegOp R)} (hok : Along RegState.next RegState.Ok ops (.init vars mem)) :
    RegisterLaw R vars mem ops :=
  (RegState.law_of_along_ok hok).1

/-- An index that the conversion to the type of the elements does not keep. -/
theorem Register.wrap_lt {idx j : ℕ} (hidx : idx < 2 ^ 32)
    (hout : ¬ CInt.InRange R.bits R.isSigned idx) (hj : CInt.wrap R.bits R.isSigned idx = j) :
    j < idx ∧ j < 2 ^ 31 := by
  rw [CInt.wrap] at hj
  rcases R.bits_cases with hbits | hbits | hbits <;> rw [hbits] at hj hout <;>
    cases hsigned : R.isSigned
  all_goals
    simp only [hsigned, CInt.inRange_true, CInt.inRange_false, Bool.false_eq_true, if_true,
      if_false, Int.bmod] at hj hout
    try split_ifs at hj
    all_goals omega

theorem one_ne_zero_bits : (1 : BitVec R.bits) ≠ 0 :=
  fun h => R.bits_pos.ne' (BitVec.one_eq_zero_iff.mp h)

/-- A call behind a run under the condition. -/
theorem registerLaw_append {vars : ℕ → BitVec R.bits} {mem : ℕ → BitVec 8}
    {ops : List (RegOp R)} {op : RegOp R} :
    RegisterLaw R vars mem (ops ++ [op]) ↔ RegisterLaw R vars mem ops ∧
      (ops.foldl RegState.next (.init vars mem)).Law op := by
  rw [RegisterLaw, along_append]
  exact and_congr_right fun _ => and_iff_left trivial

/-- **The condition is exact for a read**: behind all runs under the condition the read
returns what it should iff it is one that reaches its element or is denied. -/
theorem readLaw_iff {R : Register} {index : BitVec R.idxBits} (x : ℕ) :
    (∀ vars mem ops, Along RegState.next RegState.Ok ops (.init vars mem) →
      RegisterLaw R vars mem (ops ++ [.read (.path x) index])) ↔ R.ReadReaches index.toNat := by
  constructor
  · intro hlaw
    -- the variable is 1 before the read, all elements are 0
    obtain ⟨-, s', hs', -, hload⟩ :=
      registerLaw_append.mp (hlaw (fun _ => 1) (fun _ => 0) [] trivial)
    obtain ⟨hsize, ⟨hhigh, rfl⟩ | ⟨hhigh, j, hj, hwrap, rfl⟩⟩ := RegState.step_read hs'
    · rw [RegState.load_store_path] at hload
      refine ⟨hsize, ?_⟩
      split_ifs at hload ⊢ with hlt
      · exact absurd hload one_ne_zero_bits
      · exact hhigh
    · rw [RegState.load_store_path] at hload
      refine ⟨hsize, ?_⟩
      split_ifs at hload ⊢ with hlt
      · refine ⟨Nat.not_lt.mp hhigh, ?_⟩
        by_contra hout
        have h32 : index.toNat < 2 ^ 32 :=
          index.isLt.trans_le (Nat.pow_le_pow_right Nat.two_pos R.idxBits_le)
        obtain ⟨hjlt, hj31⟩ := Register.wrap_lt h32 hout hwrap
        -- so that a 1 which is written to the element `j` comes back
        have hjnat : (BitVec.ofNat R.idxBits j).toNat = j :=
          Nat.mod_eq_of_lt (hjlt.trans index.isLt)
        have hreach : R.WriteReaches (BitVec.ofNat R.idxBits j).toNat := by
          rw [hjnat]
          refine ⟨hsize, ?_⟩
          rw [if_pos hj]
          exact ⟨hjlt.le.trans (Nat.not_lt.mp hhigh), hj31⟩
        obtain ⟨⟨hwrite, -⟩, s₂, hs₂, -, hload₂⟩ := registerLaw_append.mp
          (hlaw (fun _ => 0) (fun _ => 0) [.write (BitVec.ofNat R.idxBits j) 1] ⟨hreach, trivial⟩)
        obtain ⟨-, ⟨hhigh₂, -⟩ | ⟨-, j₂, -, hwrap₂, rfl⟩⟩ := RegState.step_read hs₂
        · exact hhigh hhigh₂
        · obtain rfl : j₂ = j := Int.ofNat_inj.mp (hwrap₂.symm.trans hwrap)
          have hinv := (RegState.inv_init (R := R) (fun _ => 0) fun _ => 0).next hwrite
          rw [RegState.load_store_path, if_pos hlt, List.foldl_cons, List.foldl_nil,
            hinv j₂ hj] at hload₂
          simp only [RegState.next, RegState.written, hjnat, if_pos hj, Function.update_self,
            Function.update_of_ne hjlt.ne'] at hload₂
          exact one_ne_zero_bits hload₂
      · exact absurd hload.symm one_ne_zero_bits
  · intro hreach vars mem ops hok
    obtain ⟨hlaw, hinv⟩ := RegState.law_of_along_ok hok
    exact registerLaw_append.mpr ⟨hlaw, hinv.law ⟨hreach, RegState.load_store_path _ _⟩⟩

/-- **The condition is exact for a write.** -/
theorem writeLaw_iff {R : Register} {index : BitVec R.idxBits} :
    (∀ value vars mem ops, Along RegState.next RegState.Ok ops (.init vars mem) →
      RegisterLaw R vars mem (ops ++ [.write index value])) ↔ R.WriteReaches index.toNat := by
  constructor
  · intro hlaw
    obtain ⟨-, s', hs', hvalue⟩ :=
      registerLaw_append.mp (hlaw 1 (fun _ => 0) (fun _ => 0) [] trivial)
    obtain ⟨hsize, ⟨hhigh, rfl⟩ | ⟨hhigh, hlt, h31⟩⟩ := RegState.step_write hs'
    · refine ⟨hsize, ?_⟩
      split_ifs with hlt
      · have hzero := hvalue _ hlt
        rw [if_pos rfl] at hzero
        exact absurd hzero.symm one_ne_zero_bits
      · exact hhigh
    · refine ⟨hsize, ?_⟩
      rw [if_pos hlt]
      exact ⟨Nat.not_lt.mp hhigh, h31⟩
  · intro hreach value vars mem ops hok
    obtain ⟨hlaw, hinv⟩ := RegState.law_of_along_ok hok
    exact registerLaw_append.mpr ⟨hlaw, hinv.law hreach⟩

/-! ### A register of four bytes -/

/-- `register<bit<8>>(4)` -/
def fourBytes : Register := ⟨4, 8, false, 32, by decide⟩

theorem fourBytes_run : RegisterLaw fourBytes (fun _ => 0) (fun _ => 0)
    [.write 3 7, .read (.path 0) 3, .write 5 1] :=
  registerLaw_of_ok ⟨(by decide : fourBytes.WriteReaches 3),
    ⟨(by decide : fourBytes.ReadReaches 3), RegState.load_store_path _ _⟩,
    (by decide : fourBytes.WriteReaches 5), trivial⟩

/-- A write with the index 4 is not denied. -/
theorem fourBytes_not_registerLaw : ¬ ∀ (R : Register) (vars : ℕ → BitVec R.bits)
    (mem : ℕ → BitVec 8) (ops : List (RegOp R)), RegisterLaw R vars mem ops := by
  intro hlaw
  obtain ⟨⟨s', hs', -⟩, -⟩ := hlaw fourBytes (fun _ => 0) (fun _ => 0) [.write 4 1]
  obtain ⟨-, ⟨hhigh, -⟩ | ⟨-, hlt, -⟩⟩ := RegState.step_write hs'
  · exact absurd hhigh (by decide)
  · exact absurd hlt (by decide)

end T4P4S
