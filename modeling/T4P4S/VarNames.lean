/-
The names of the variables in the generated code.

`generate_var_name` counts its calls.  A name ends in the counter's value, padded to four
digits, or it ends in the id that the caller chooses; if the latter is taken, the counter's
value is put behind it.  Only a name with a chosen id is looked up among the earlier ones.

* **`namesLaw_iff`** — the names are pairwise distinct iff no name that gets a number is one
  that an earlier caller has chosen.
* `namesLaw_of_ids` — so they are if no chosen name ends in a number.
-/
import Mathlib.Data.Finset.Insert

namespace T4P4S

namespace VarNames

abbrev Name := List Char

/-- The arguments of `generate_var_name`. -/
structure NameCall where
  varNamePart : Name
  varId : Option Name := none

/-- `var_name_counter` and `generated_var_names`. -/
structure NameState where
  counter : ℕ := 0
  generated : Finset Name := ∅

/-- `{number}` -/
def decimal (n : ℕ) : Name := Nat.toDigits 10 n

/-- `{number:04d}` -/
def decimal04 (n : ℕ) : Name :=
  List.replicate (4 - (decimal n).length) '0' ++ decimal n

/-- `generate_var_name` -/
def generateVarName (st : NameState) (c : NameCall) : NameState × Name :=
  let counter := st.counter + 1
  let varName :=
    match c.varId with
    | none => c.varNamePart ++ '_' :: decimal04 counter
    | some varId =>
      let simpler := c.varNamePart ++ '_' :: varId
      if simpler ∈ st.generated then simpler ++ '_' :: decimal counter else simpler
  (⟨counter, insert varName st.generated⟩, varName)

/-- The names that the calls return, one after the other. -/
def varNames (st : NameState) : List NameCall → List Name
  | [] => []
  | c :: cs => (generateVarName st c).2 :: varNames (generateVarName st c).1 cs

/-- No two of the names are equal. -/
def NamesLaw (calls : List NameCall) : Prop := (varNames {} calls).Nodup

/-! ### Chosen names and numbered ones -/

/-- The name that the caller chooses. -/
def NameCall.ownName (c : NameCall) : Option Name := c.varId.map (c.varNamePart ++ '_' :: ·)

/-- The name with the counter's value, of a call that does not get its own name. -/
def NameCall.numbered (st : NameState) (c : NameCall) : Option Name :=
  match c.ownName with
  | none => some (c.varNamePart ++ '_' :: decimal04 (st.counter + 1))
  | some own =>
    if own ∈ st.generated then some (own ++ '_' :: decimal (st.counter + 1)) else none

/-- The names that the calls have chosen. -/
def ownNames (calls : List NameCall) : List Name := calls.filterMap NameCall.ownName

/-- None of the names that the calls get with a number was chosen by a call before. -/
def NumbersClear (st : NameState) (earlier : List NameCall) : List NameCall → Prop
  | [] => True
  | c :: cs =>
    (∀ n ∈ c.numbered st, n ∉ ownNames earlier) ∧
      NumbersClear (generateVarName st c).1 (earlier ++ [c]) cs

/-! ### The number at the end of a name -/

/-- What is behind the last underscore. -/
def lastPart (n : Name) : Name := (n.reverse.takeWhile (· ≠ '_')).reverse

def nameNumber (n : Name) : ℕ := Nat.ofDigitChars 10 (lastPart n) 0

theorem lastPart_append {s : Name} (hs : '_' ∉ s) (a : Name) : lastPart (a ++ '_' :: s) = s := by
  have hrev : ∀ ch ∈ s.reverse, (decide (ch ≠ '_')) = true := fun ch hch =>
    decide_eq_true fun h => hs (h ▸ List.mem_reverse.mp hch)
  rw [lastPart, List.reverse_append, List.reverse_cons, List.append_assoc,
    List.takeWhile_append_of_pos hrev, List.singleton_append,
    List.takeWhile_cons_of_neg (by simp), List.append_nil, List.reverse_reverse]

theorem isDigit_of_mem_decimal {n : ℕ} {ch : Char} (h : ch ∈ decimal n) : ch.isDigit :=
  Nat.isDigit_of_mem_toDigits (by decide) (by decide) h

theorem isDigit_of_mem_decimal04 {n : ℕ} {ch : Char} (h : ch ∈ decimal04 n) : ch.isDigit := by
  rcases List.mem_append.mp h with hzero | hdigit
  · rw [List.eq_of_mem_replicate hzero]; rfl
  · exact isDigit_of_mem_decimal hdigit

theorem underscore_notMem {s : Name} (h : ∀ ch ∈ s, ch.isDigit) : '_' ∉ s :=
  fun hmem => absurd (h '_' hmem) (by decide)

theorem ofDigitChars_decimal04 (n : ℕ) : Nat.ofDigitChars 10 (decimal04 n) 0 = n := by
  rw [decimal04, Nat.ofDigitChars_append, Nat.ofDigitChars_replicate_zero, Nat.mul_zero]
  exact Nat.ofDigitChars_ten_toDigits

variable {st : NameState} {c : NameCall} {calls earlier : List NameCall} {n : Name}

/-- A numbered name ends in digits, and they are the number of the call. -/
theorem lastPart_numbered (h : n ∈ c.numbered st) :
    (∀ ch ∈ lastPart n, ch.isDigit) ∧ nameNumber n = st.counter + 1 := by
  rw [NameCall.numbered] at h
  cases hown : c.ownName with
  | none =>
    simp only [hown, Option.mem_some_iff] at h
    have hdigits : ∀ ch ∈ decimal04 (st.counter + 1), ch.isDigit := fun ch =>
      isDigit_of_mem_decimal04
    have hlast := lastPart_append (underscore_notMem hdigits) c.varNamePart
    rw [← h, nameNumber, hlast]
    exact ⟨hdigits, ofDigitChars_decimal04 _⟩
  | some own =>
    simp only [hown] at h
    split_ifs at h with hmem
    · rw [Option.mem_some_iff] at h
      have hdigits : ∀ ch ∈ decimal (st.counter + 1), ch.isDigit := fun ch =>
        isDigit_of_mem_decimal
      have hlast := lastPart_append (underscore_notMem hdigits) own
      rw [← h, nameNumber, hlast]
      exact ⟨hdigits, Nat.ofDigitChars_ten_toDigits⟩
    · exact absurd h (Option.not_mem_none n)

/-! ### One call -/

theorem generateVarName_generated :
    (generateVarName st c).1.generated = insert (generateVarName st c).2 st.generated := rfl

theorem generateVarName_counter : (generateVarName st c).1.counter = st.counter + 1 := rfl

/-- A call gets its numbered name, or its own one if that is new. -/
theorem generateVarName_cases (st : NameState) (c : NameCall) :
    c.numbered st = some (generateVarName st c).2 ∨
      (c.numbered st = none ∧ c.ownName = some (generateVarName st c).2 ∧
        (generateVarName st c).2 ∉ st.generated) := by
  obtain ⟨part, id⟩ := c
  cases id with
  | none => exact .inl rfl
  | some id =>
    by_cases hmem : part ++ '_' :: id ∈ st.generated
    · left
      simp [NameCall.numbered, NameCall.ownName, generateVarName, hmem]
    · right
      simp [NameCall.numbered, NameCall.ownName, generateVarName, hmem]

/-- What the set of names is after some calls: their chosen names are in it, and the other
names in it have a number that has been reached. -/
structure Generated (st : NameState) (earlier : List NameCall) : Prop where
  own_mem : ∀ n ∈ ownNames earlier, n ∈ st.generated
  own_or_number : ∀ n ∈ st.generated, n ∈ ownNames earlier ∨ nameNumber n ≤ st.counter

theorem Generated.nil : Generated {} [] :=
  ⟨fun _ h => absurd h List.not_mem_nil, fun _ h => absurd h (Finset.notMem_empty _)⟩

theorem mem_ownNames_append :
    n ∈ ownNames (earlier ++ [c]) ↔ n ∈ ownNames earlier ∨ c.ownName = some n := by
  rw [ownNames, List.filterMap_append, List.mem_append, List.mem_filterMap (l := [c])]
  simp [ownNames]

theorem Generated.step (h : Generated st earlier) (c : NameCall) :
    Generated (generateVarName st c).1 (earlier ++ [c]) where
  own_mem n hn := by
    rw [generateVarName_generated]
    rcases mem_ownNames_append.mp hn with hearlier | hown
    · exact Finset.mem_insert_of_mem (h.own_mem n hearlier)
    · rcases generateVarName_cases st c with hnum | ⟨-, hname, -⟩
      · -- its own name is not given to the call because it is there
        simp only [NameCall.numbered, hown] at hnum
        split_ifs at hnum with hmem
        exact Finset.mem_insert_of_mem hmem
      · rw [Option.some.inj (hown.symm.trans hname)]
        exact Finset.mem_insert_self _ _
  own_or_number n hn := by
    rw [generateVarName_counter, mem_ownNames_append]
    rcases Finset.mem_insert.mp hn with rfl | hold
    · rcases generateVarName_cases st c with hnum | ⟨-, hname, -⟩
      · exact .inr (lastPart_numbered hnum).2.le
      · exact .inl (.inr hname)
    · rcases h.own_or_number n hold with hearlier | hnum
      · exact .inl (.inl hearlier)
      · exact .inr (Nat.le_succ_of_le hnum)

/-- A name is new iff it is not a number put behind something that gives a chosen name. -/
theorem Generated.fresh_iff (h : Generated st earlier) (c : NameCall) :
    (generateVarName st c).2 ∉ st.generated ↔ ∀ n ∈ c.numbered st, n ∉ ownNames earlier := by
  rcases generateVarName_cases st c with hnum | ⟨hnone, -, hnew⟩
  · constructor
    · intro hnew n hn hown
      obtain rfl := Option.some.inj (hnum.symm.trans hn)
      exact hnew (h.own_mem _ hown)
    · intro hclear hmem
      rcases h.own_or_number _ hmem with hown | hle
      · exact hclear _ hnum hown
      · rw [(lastPart_numbered hnum).2] at hle
        exact absurd hle (Nat.not_succ_le_self _)
  · refine iff_of_true hnew fun n hn => ?_
    rw [hnone] at hn
    exact absurd hn (Option.not_mem_none n)

/-! ### All calls -/

theorem Generated.varNames_iff (h : Generated st earlier) (calls : List NameCall) :
    ((∀ n ∈ varNames st calls, n ∉ st.generated) ∧ (varNames st calls).Nodup) ↔
      NumbersClear st earlier calls := by
  induction calls generalizing st earlier with
  | nil => exact iff_of_true ⟨List.forall_mem_nil _, List.nodup_nil⟩ trivial
  | cons c cs ih =>
    rw [NumbersClear, ← h.fresh_iff c, ← ih (h.step c), generateVarName_generated, varNames,
      List.forall_mem_cons, List.nodup_cons]
    simp only [Finset.mem_insert, not_or]
    constructor
    · rintro ⟨⟨hnew, hcs⟩, hnotMem, hnodup⟩
      exact ⟨hnew, fun n hn => ⟨fun heq => hnotMem (heq ▸ hn), hcs n hn⟩, hnodup⟩
    · rintro ⟨hnew, hcs, hnodup⟩
      exact ⟨⟨hnew, fun n hn => (hcs n hn).2⟩, fun hmem => (hcs _ hmem).1 rfl, hnodup⟩

theorem namesLaw_iff (calls : List NameCall) : NamesLaw calls ↔ NumbersClear {} [] calls := by
  rw [← Generated.nil.varNames_iff calls]
  exact (and_iff_right fun n _ => Finset.notMem_empty n).symm

theorem numbersClear_of_ids
    (hcalls : ∀ n ∈ ownNames (earlier ++ calls), ∃ ch ∈ lastPart n, ¬ ch.isDigit) :
    NumbersClear st earlier calls := by
  induction calls generalizing st earlier with
  | nil => trivial
  | cons c cs ih =>
    refine ⟨fun n hnum hown => ?_, ih ?_⟩
    · have hmem : n ∈ ownNames (earlier ++ c :: cs) := by
        rw [ownNames, List.filterMap_append]
        exact List.mem_append_left _ hown
      obtain ⟨ch, hch, hdigit⟩ := hcalls n hmem
      exact hdigit ((lastPart_numbered hnum).1 ch hch)
    · rwa [List.append_assoc, List.singleton_append]

/-- Chosen names that do not end in a number are never met again. -/
theorem namesLaw_of_ids (hcalls : ∀ n ∈ ownNames calls, ∃ ch ∈ lastPart n, ¬ ch.isDigit) :
    NamesLaw calls :=
  ((Generated.nil.varNames_iff calls).mpr (numbersClear_of_ids hcalls)).2

/-! ### The const entries of a table -/

/-- A const entry: the name of its action, and the width and the name of each constant. -/
structure ConstEntry where
  actionId : Name
  consts : List (ℕ × Name)

/-- The calls in `init_table_const_entries` for an entry. -/
def constEntryCalls (table : Name) (e : ConstEntry) : List NameCall :=
  let varId := table ++ "__".toList ++ e.actionId
  ⟨"key".toList, some varId⟩ :: ⟨"entry".toList, some varId⟩ ::
    e.consts.map fun k => ⟨"const".toList ++ decimal k.1, some k.2⟩

/-- Three entries with an 8-bit key each, the second and the third with the same action. -/
def threeEntries : List ConstEntry :=
  [⟨"a_7".toList, [(8, "01".toList)]⟩, ⟨"a".toList, [(8, "02".toList)]⟩,
    ⟨"a".toList, [(8, "03".toList)]⟩]

/-- The keys are the names 1, 4 and 7. -/
theorem not_namesLaw :
    let names := varNames {} (threeEntries.flatMap (constEntryCalls "t".toList))
    names[0]? = some "key_t__a_7".toList ∧ names[6]? = some "key_t__a_7".toList ∧
      ¬ NamesLaw (threeEntries.flatMap (constEntryCalls "t".toList)) := by
  refine ⟨by decide, by decide, ?_⟩
  show ¬ List.Nodup _
  decide

end VarNames

end T4P4S
