/-
The `select` of a parser state: what P4 says and what the generator makes of it.

A select compares its keys with the keysets of one case after the other and goes
to the state of the first case that matches.  The generated code is a chain of
conditions, in the same order.

* **`mask_correct_iff`** — the condition of a keyset `value &&& mask` is right for
  every key iff the value is `0`;
* **`genSelect_correct`** — the chain goes to the state that P4 says, if one of the
  cases matches and the masks of the cases up to there are judged right.
-/
import T4P4S.Lib.CInt
import T4P4S.Packet

open CInt

namespace T4P4S

variable {X : Type}

/-! ### The keys and the keysets -/

/-- A key, with its value in the state `x` in which the select is made. -/
structure SelectKey (X : Type) where
  size : ℕ
  isSigned : Bool
  value : X → ℤ
  inRange : ∀ x, InRange size isSigned (value x)

/-- A keyset.  In P4, `mask left right` is `left &&& right`: the value and the mask. -/
inductive Keyset
  | constant (value : ℤ)
  | range (left right : ℤ)
  | mask (left right : ℤ)
  | default
  deriving DecidableEq

/-- What follows `transition`, and a case of a select. -/
inductive Target
  | accept
  | reject
  | state (s : ℕ)
  deriving DecidableEq

/-- The keysets of a case, of a `ListExpression` or a single one. -/
structure SelectCase where
  keyset : List Keyset
  state : Target
  deriving DecidableEq

/-- A select, as the front end lets it through: the constants have the type of their
key, and a case has one keyset for each key, or is `default`. -/
structure SelectExpression (X : Type) where
  select : List (SelectKey X)
  selectCases : List SelectCase
  keyset_eq : ∀ c ∈ selectCases, c.keyset = [.default] ∨ c.keyset.length = select.length
  select_ne : select ≠ []

/-! ### What P4 says -/

/-- Does the key match the keyset? -/
def Keyset.matches (v : ℤ) : Keyset → Bool
  | .constant value => v == value
  | .range left right => decide (left ≤ v ∧ v ≤ right)
  | .mask left right => band v right == band left right
  | .default => true

/-- Does every key match its keyset?  A single `default` matches all keys. -/
def SelectCase.matches (c : SelectCase) (keys : List (SelectKey X)) (x : X) : Bool :=
  c.keyset == [.default] ||
    (c.keyset.length == keys.length && (keys.zip c.keyset).all fun p => p.2.matches (p.1.value x))

/-- The first case that matches decides; without one the packet is rejected. -/
def p4Select (e : SelectExpression X) (x : X) : Target :=
  match e.selectCases.find? fun c => c.matches e.select x with
  | some c => c.state
  | none => .reject

/-! ### What the generator makes of it -/

/-- The variable that holds a key, of the C type for its width. -/
def SelectKey.var (k : SelectKey X) (x : X) : ℤ :=
  wrap (sizeup k.size false) k.isSigned (k.value x)

/-- The condition that is generated for a keyset and the variable of its key. -/
def selectCond (var : ℤ) : Keyset → Bool
  | .constant value => var == value
  | .range left right => decide (left ≤ var) && decide (var ≤ right)
  | .mask left right => band left var == band right var
  | .default => true

/-- `get_select_conds`; `zip` leaves out the keys for which there is no keyset. -/
def getSelectConds (keys : List (SelectKey X)) (c : SelectCase) (x : X) : Bool :=
  (keys.zip c.keyset).all fun p => selectCond (p.1.var x) p.2

/-- `gen_fmt_SelectExpression`.  There is a program only for keys of at most 32 bits:
for a wider one the generator reports an error or declares an array of `size / 8`
elements, a fraction.  The program calls the function of a state, or of none. -/
def genSelect (e : SelectExpression X) : Option (X → Option Target) :=
  if ∀ k ∈ e.select, k.size ≤ 32 then
    some fun x => (e.selectCases.find? fun c => getSelectConds e.select c x).map SelectCase.state
  else
    none

/-! ### Where the two agree -/

/-- The C variable holds the value of the key. -/
theorem SelectKey.var_eq {k : SelectKey X} (hk : k.size ≤ 32) (x : X) : k.var x = k.value x := by
  have hsize : k.size ≤ sizeup k.size false ∧ 0 < sizeup k.size false := by
    simp only [sizeup, Bool.false_eq_true, if_false]
    split_ifs <;> omega
  exact wrap_of_inRange hsize.2 ((k.inRange x).mono hsize.1)

/-- The condition for a mask is right for the key `v`. -/
def maskAgrees (v left right : ℤ) : Prop :=
  selectCond v (.mask left right) = (Keyset.mask left right).matches v

/-- The keyset is judged right for the key `v`. -/
def Keyset.Judged (v : ℤ) : Keyset → Prop
  | .mask left right => maskAgrees v left right
  | _ => True

/-- The case is judged right: all its keysets are, or one of these does not match. -/
def SelectCase.Judged (keys : List (SelectKey X)) (x : X) (c : SelectCase) : Prop :=
  (∀ p ∈ keys.zip c.keyset, p.2.Judged (p.1.value x)) ∨
    ∃ p ∈ keys.zip c.keyset, p.2.Judged (p.1.value x) ∧ p.2.matches (p.1.value x) = false

/-- The cases are judged right up to the first one that matches, and there is one. -/
def CasesSafe (keys : List (SelectKey X)) (x : X) : List SelectCase → Prop
  | [] => False
  | c :: cs => c.Judged keys x ∧ (c.matches keys x = true ∨ CasesSafe keys x cs)

/-- **The condition for `value &&& mask` is right for every key of the width iff the
value is `0`.** -/
theorem mask_correct_iff {size : ℕ} {isSigned : Bool} {left right : ℤ} (hsize : size ≤ 32)
    (hleft : InRange size isSigned left) :
    (∀ v, InRange size isSigned v → maskAgrees v left right) ↔ left = 0 := by
  have hself : band left left = left := band_self (hleft.toSigned (by omega))
  have hzero : InRange size isSigned 0 := by
    unfold InRange
    split <;> simp
  constructor
  · intro h
    -- the value itself matches, so all its bits are in the mask
    have hvalue : band left left = band right left := by
      have := h left hleft
      rw [maskAgrees, selectCond, Keyset.matches, beq_self_eq_true, beq_iff_eq] at this
      exact this
    -- and `0` passes the condition, so none of them is
    have h0 : band 0 right = band left right := by
      have := (h 0 hzero).symm
      rw [selectCond, Keyset.matches, band_zero, band_zero, beq_self_eq_true,
        beq_iff_eq] at this
      exact this
    rw [← hself, hvalue, band_comm, ← h0, zero_band]
  · rintro rfl v -
    rw [maskAgrees, selectCond, Keyset.matches, zero_band, zero_band, band_comm, Bool.eq_iff_iff,
      beq_iff_eq, beq_iff_eq, eq_comm]

theorem selectCond_eq {v : ℤ} {ks : Keyset} (h : ks.Judged v) :
    selectCond v ks = ks.matches v := by
  cases ks with
  | constant value => rfl
  | range left right => simp [selectCond, Keyset.matches]
  | mask left right => exact h
  | default => rfl

/-- A case that is judged right is taken by the code iff it matches. -/
theorem getSelectConds_eq {keys : List (SelectKey X)} {c : SelectCase} {x : X}
    (hsize : ∀ k ∈ keys, k.size ≤ 32)
    (hkeyset : c.keyset = [.default] ∨ c.keyset.length = keys.length)
    (h : c.Judged keys x) :
    getSelectConds keys c x = c.matches keys x := by
  have hcond : ∀ p ∈ keys.zip c.keyset, p.2.Judged (p.1.value x) →
      selectCond (p.1.var x) p.2 = p.2.matches (p.1.value x) := by
    intro p hp hjudged
    rw [SelectKey.var_eq (hsize p.1 (List.of_mem_zip hp).1), selectCond_eq hjudged]
  have hconds : getSelectConds keys c x =
      (keys.zip c.keyset).all fun p => p.2.matches (p.1.value x) := by
    rw [getSelectConds]
    rcases h with hall | ⟨p, hp, hjudged, hno⟩
    · rw [Bool.eq_iff_iff, List.all_eq_true, List.all_eq_true]
      exact forall₂_congr fun p hp => by rw [hcond p hp (hall p hp)]
    · -- where one keyset does not match, neither takes the case
      rw [List.all_eq_false.mpr ⟨p, hp, by rw [hcond p hp hjudged, hno]; exact nofun⟩,
        List.all_eq_false.mpr ⟨p, hp, by rw [hno]; exact nofun⟩]
  rw [hconds, SelectCase.matches]
  by_cases hdefault : c.keyset = [.default]
  · rw [hdefault]
    cases keys with
    | nil => rfl
    | cons k keys => simp [Keyset.matches]
  · have hlength := hkeyset.resolve_left hdefault
    simp [hdefault, hlength]

theorem find?_casesSafe {keys : List (SelectKey X)} {x : X} {cs : List SelectCase}
    (hsize : ∀ k ∈ keys, k.size ≤ 32)
    (hkeyset : ∀ c ∈ cs, c.keyset = [.default] ∨ c.keyset.length = keys.length)
    (h : CasesSafe keys x cs) :
    ∃ c, (cs.find? fun c => getSelectConds keys c x) = some c ∧
      (cs.find? fun c => c.matches keys x) = some c := by
  induction cs with
  | nil => exact h.elim
  | cons c cs ih =>
    obtain ⟨hjudged, hmatch⟩ := h
    have heq := getSelectConds_eq hsize (hkeyset c List.mem_cons_self) hjudged
    cases hc : c.matches keys x with
    | true => exact ⟨c, by simp [List.find?, heq, hc], by simp [List.find?, hc]⟩
    | false =>
      have hrest := hmatch.resolve_left (ne_true_of_eq_false hc)
      obtain ⟨d, hcode, hp4⟩ := ih (fun c hc => hkeyset c (List.mem_cons_of_mem _ hc)) hrest
      exact ⟨d, by simp [List.find?, heq, hc, hcode], by simp [List.find?, hc, hp4]⟩

/-- **The generated select goes where P4 says, when a case matches and the masks up to
there are judged right.** -/
theorem genSelect_correct {e : SelectExpression X} {code : X → Option Target} {x : X}
    (hcode : genSelect e = some code) (h : CasesSafe e.select x e.selectCases) :
    code x = some (p4Select e x) := by
  obtain ⟨hsize, hcode⟩ := Option.ite_none_right_eq_some.mp hcode
  rw [Option.some_inj] at hcode
  subst hcode
  obtain ⟨c, hc, hp4⟩ := find?_casesSafe hsize e.keyset_eq h
  rw [p4Select, hp4]
  dsimp only
  rw [hc, Option.map_some]

end T4P4S
