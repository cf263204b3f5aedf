/-
The depths of longest-prefix entries.

`X_setup_key` computes the depth of an entry that a controller sends, and the
compiler that of a const entry; `lpm_add_promote` takes it as a `uint8_t`.

* **`depthsRight_iff`** — both are the number of leading bits of the key that have to
  match just if the key has as many bytes as it has bits in front of the lpm field,
  no field is behind that field, and the ones of the mask are at its front.
-/
import Mathlib.Data.List.TakeWhile
import Mathlib.Data.Nat.Bitwise
import T4P4S.Lpm
import T4P4S.TableKey

namespace T4P4S

/-! ### Masks -/

/-- The bits of a mask of `size` bits, the most significant one first. -/
def maskBits (size mask : ℕ) : List Bool :=
  ((List.range size).map mask.testBit).reverse

/-- The prefix length that a mask stands for. -/
def leadingOnes (size mask : ℕ) : ℕ := ((maskBits size mask).takeWhile id).length

/-- `f'{mask:b}'.count('1')` -/
def onesCount (mask : ℕ) : ℕ := mask.bits.count true

theorem length_maskBits (size mask : ℕ) : (maskBits size mask).length = size := by
  rw [maskBits, List.length_reverse, List.length_map, List.length_range]

theorem count_bits_div_two (n : ℕ) :
    n.bits.count true = (n / 2).bits.count true + (n.testBit 0).toNat := by
  by_cases hn : n = 0
  · subst hn
    rfl
  · obtain ⟨b, m, rfl⟩ : ∃ b m, n = Nat.bit b m := ⟨n.bodd, n.div2, (Nat.bit_bodd_div2 n).symm⟩
    have hb : m = 0 → b = true := by
      rintro rfl
      cases b with
      | false => exact absurd rfl hn
      | true => rfl
    rw [Nat.bits_append_bit m b hb, Nat.bit_div_two, Nat.testBit_bit_zero, List.count_cons]
    cases b with
    | false => rfl
    | true => rfl

/-- The ones of the binary notation are those of the mask's bits. -/
theorem onesCount_eq {size mask : ℕ} (hlt : mask < 2 ^ size) :
    onesCount mask = (maskBits size mask).count true := by
  rw [maskBits, List.count_reverse, onesCount]
  induction size generalizing mask with
  | zero =>
    obtain rfl : mask = 0 := Nat.lt_one_iff.mp hlt
    rfl
  | succ size ih =>
    have hhalf : mask / 2 < 2 ^ size := by
      rw [Nat.pow_succ] at hlt
      omega
    have hshift : (List.range size).map (fun i => mask.testBit (i + 1)) =
        (List.range size).map (mask / 2).testBit := by
      refine List.map_congr_left ?_
      intro i _
      exact Nat.testBit_succ mask i
    rw [count_bits_div_two, ih hhalf, List.range_succ_eq_map, List.map_cons, List.map_map,
      List.count_cons, show (mask.testBit ∘ Nat.succ) = fun i => mask.testBit (i + 1) from rfl,
      hshift]
    cases mask.testBit 0 with
    | false => rfl
    | true => rfl

theorem length_takeWhile_le_count (l : List Bool) : (l.takeWhile id).length ≤ l.count true := by
  induction l with
  | nil => exact Nat.le_refl 0
  | cons b l ih =>
    cases b with
    | false => exact Nat.zero_le _
    | true =>
      show (l.takeWhile id).length + 1 ≤ (true :: l).count true
      rw [List.count_cons_self]
      exact Nat.succ_le_succ ih

/-- A list of ones only. -/
theorem length_takeWhile_of_count {l : List Bool} (h : l.count true = l.length) :
    (l.takeWhile id).length = l.length := by
  have hall : ∀ b ∈ l, true = b := List.count_eq_length.mp h
  have hself : l.takeWhile id = l := List.takeWhile_eq_self_iff.mpr fun b hb => (hall b hb).symm
  rw [hself]

/-! ### The two paths -/

/-- The match kind of a key element, the lpm one with the entry's data for it. -/
inductive KeyMatch (α : Type)
  | exact
  | lpm (a : α)

def KeyMatch.isLpm {α : Type} : KeyMatch α → Bool
  | .exact => false
  | .lpm _ => true

/-- `X_setup_key` of an lpm table: the `prefix_length` that it returns, which is a
`uint8_t`.  The first loop adds the prefix length of the message, the second one
the width in bytes of each field, exact or lpm. -/
def setupKeyDepth (ks : List (KeyElement × KeyMatch ℕ)) : ℕ :=
  let ks := sortedByMatchOrder ks
  let prefixLength := ks.foldl (fun n k =>
    match k.2 with
    | .exact => n
    | .lpm len => (n + len) % 256) 0
  ks.foldl (fun n k => (n + k.1.keyByteWidth) % 256) prefixLength

/-- A component of a const entry: a value, or a value with a mask. -/
inductive ConstKey
  | value
  | mask (m : ℕ)

/-- The prefix length that the component stands for. -/
def ConstKey.prefixLength (size : ℕ) : ConstKey → ℕ
  | .value => size
  | .mask m => leadingOnes size m

/-- What `gen_add_const_entry` counts for a component. -/
def ConstKey.depth (size : ℕ) : ConstKey → ℕ
  | .value => size
  | .mask m => onesCount m

/-- `gen_add_const_entry` of an lpm table: the depth, as a `uint8_t`. -/
def constEntryDepth (ks : List (KeyElement × KeyMatch ConstKey)) : ℕ :=
  (ks.map fun k =>
    match k.2 with
    | .exact => k.1.size
    | .lpm c => c.depth k.1.size).sum % 256

/-! ### Keys with one lpm field -/

/-- The key of an lpm table, in the order of its declaration. -/
structure LpmKeyDecl where
  pre : List KeyElement
  lpm : KeyElement
  post : List KeyElement

namespace LpmKeyDecl

variable (K : LpmKeyDecl)

def elems : List KeyElement := K.pre ++ K.lpm :: K.post

/-- The key elements with their match kinds, and `a` for the lpm one. -/
def keyMatches {α : Type} (a : α) : List (KeyElement × KeyMatch α) :=
  K.pre.map (fun k => (k, .exact)) ++ (K.lpm, .lpm a) :: K.post.map fun k => (k, .exact)

/-- The fields in front of the lpm field in the table's key. -/
def before : List KeyElement :=
  ((sortedByMatchOrder (K.keyMatches ())).takeWhile fun k => !k.2.isLpm).map Prod.fst

/-- The fields behind the lpm field in the table's key. -/
def behind : List KeyElement :=
  ((sortedByMatchOrder (K.keyMatches ())).dropWhile fun k => !k.2.isLpm).tail.map Prod.fst

/-- The leading bits of the key that have to match. -/
def leadingBits (prefixLength : ℕ) : ℕ := keyBitSize K.before + prefixLength

/-- The depths of an entry with this component for the lpm field, on both paths. -/
structure DepthsRight (c : ConstKey) : Prop where
  setup : setupKeyDepth (K.keyMatches (c.prefixLength K.lpm.size)) =
    K.leadingBits (c.prefixLength K.lpm.size)
  const : constEntryDepth (K.keyMatches c) = K.leadingBits (c.prefixLength K.lpm.size)

end LpmKeyDecl

/-! ### The depths -/

theorem foldl_add_mod {α : Type} (f : α → ℕ) (l : List α) {n : ℕ} (hn : n < 256) :
    l.foldl (fun n a => (n + f a) % 256) n = (n + (l.map f).sum) % 256 := by
  induction l generalizing n with
  | nil => exact (Nat.mod_eq_of_lt hn).symm
  | cons a l ih =>
    rw [List.foldl_cons, ih (Nat.mod_lt _ (by decide)), List.map_cons, List.sum_cons,
      Nat.mod_add_mod, Nat.add_assoc]

theorem sum_map_sorted {α : Type} (f : KeyElement × α → ℕ) (ks : List (KeyElement × α)) :
    ((sortedByMatchOrder ks).map f).sum = (ks.map f).sum :=
  ((List.perm_insertionSort _ ks).map f).sum_eq

/-- What an entry's data adds to the prefix length in the first loop. -/
def KeyMatch.prefixLength : KeyMatch ℕ → ℕ
  | .exact => 0
  | .lpm len => len

theorem foldl_prefixLength (l : List (KeyElement × KeyMatch ℕ)) {n : ℕ} (hn : n < 256) :
    l.foldl (fun n k =>
      match k.2 with
      | .exact => n
      | .lpm len => (n + len) % 256) n = (n + (l.map fun k => k.2.prefixLength).sum) % 256 := by
  rw [← foldl_add_mod _ l hn]
  induction l generalizing n with
  | nil => rfl
  | cons k l ih =>
    obtain ⟨k, m⟩ := k
    cases m with
    | exact =>
      rw [List.foldl_cons, List.foldl_cons, KeyMatch.prefixLength, Nat.add_zero,
        Nat.mod_eq_of_lt hn]
      exact ih hn
    | lpm len => exact ih (Nat.mod_lt _ (by decide))

/-- The control plane's depth counts the bytes of all fields. -/
theorem setupKeyDepth_eq (K : LpmKeyDecl) (p : ℕ) :
    setupKeyDepth (K.keyMatches p) = (p + keyLengthBytes K.elems) % 256 := by
  have hp : ((K.keyMatches p).map fun k => k.2.prefixLength).sum = p := by
    simp [LpmKeyDecl.keyMatches, KeyMatch.prefixLength, Function.comp_def]
  have hbytes : ((K.keyMatches p).map fun k => k.1.keyByteWidth).sum = keyLengthBytes K.elems := by
    simp [LpmKeyDecl.keyMatches, LpmKeyDecl.elems, keyLengthBytes, Function.comp_def]
  rw [setupKeyDepth, foldl_prefixLength _ (by decide), foldl_add_mod _ _ (Nat.mod_lt _ (by decide)),
    sum_map_sorted, sum_map_sorted, hp, hbytes, Nat.mod_add_mod, Nat.zero_add]

/-- The compiler's depth counts the bits of all fields. -/
theorem constEntryDepth_eq (K : LpmKeyDecl) (c : ConstKey) :
    constEntryDepth (K.keyMatches c) =
      (keyBitSize K.pre + keyBitSize K.post + c.depth K.lpm.size) % 256 := by
  have hsum : ((K.keyMatches c).map fun k =>
      match k.2 with
      | .exact => k.1.size
      | .lpm c => c.depth k.1.size).sum =
        keyBitSize K.pre + (c.depth K.lpm.size + keyBitSize K.post) := by
    simp [LpmKeyDecl.keyMatches, keyBitSize, Function.comp_def]
  rw [constEntryDepth, hsum, Nat.add_left_comm, Nat.add_comm]

/-- The key's fields are those before the lpm field, this, and those behind it. -/
theorem keyBitSize_elems (K : LpmKeyDecl) :
    keyBitSize K.elems = keyBitSize K.before + K.lpm.size + keyBitSize K.behind := by
  have hsum : ((sortedByMatchOrder (K.keyMatches ())).map fun k => k.1.size).sum =
      keyBitSize K.elems := by
    rw [sum_map_sorted]
    simp [LpmKeyDecl.keyMatches, LpmKeyDecl.elems, keyBitSize, Function.comp_def]
  have hlpm : ∀ k ∈ sortedByMatchOrder (K.keyMatches ()), k.2.isLpm = true → k.1 = K.lpm := by
    intro k hk hisLpm
    have hmem := (List.perm_insertionSort _ _).mem_iff.mp hk
    simp only [LpmKeyDecl.keyMatches, List.mem_append, List.mem_cons, List.mem_map] at hmem
    rcases hmem with ⟨a, -, rfl⟩ | rfl | ⟨a, -, rfl⟩
    · cases hisLpm
    · rfl
    · cases hisLpm
  have hexists : (K.lpm, KeyMatch.lpm ()) ∈ sortedByMatchOrder (K.keyMatches ()) := by
    refine (List.perm_insertionSort _ _).mem_iff.mpr ?_
    simp [LpmKeyDecl.keyMatches]
  rw [← hsum, LpmKeyDecl.before, LpmKeyDecl.behind]
  generalize sortedByMatchOrder (K.keyMatches ()) = ks at hlpm hexists
  have hsplit := List.takeWhile_append_dropWhile (p := fun k => !k.2.isLpm) (l := ks)
  cases hdrop : ks.dropWhile fun k => !k.2.isLpm with
  | nil =>
    have hall := List.dropWhile_eq_nil_iff.mp hdrop _ hexists
    cases hall
  | cons k rest =>
    have hk : k.1 = K.lpm := by
      refine hlpm k ?_ ?_
      · rw [← hsplit, hdrop]
        simp
      · have hne : ks.dropWhile (fun k => !k.2.isLpm) ≠ [] := by
          rw [hdrop]
          exact List.cons_ne_nil _ _
        have hhead := List.head_dropWhile_not _ hne
        simpa [hdrop] using hhead
    conv_lhs => rw [← hsplit, hdrop]
    simp [keyBitSize, hk, Function.comp_def, Nat.add_assoc]

theorem keyBitSize_eq_zero {ks : List KeyElement} : keyBitSize ks = 0 ↔ ks = [] := by
  cases ks with
  | nil => exact ⟨fun _ => rfl, fun _ => rfl⟩
  | cons k ks =>
    have hpos : 0 < k.size := k.size_pos
    rw [keyBitSize_cons]
    constructor
    · intro h
      omega
    · intro h
      cases h

/-- The masks of a const entry are of the field's type. -/
def ConstKey.InType (size : ℕ) (c : ConstKey) : Prop := ∀ m, c = .mask m → m < 2 ^ size

theorem ConstKey.prefixLength_le_depth {size : ℕ} {c : ConstKey} (hc : c.InType size) :
    c.prefixLength size ≤ c.depth size := by
  cases c with
  | value => exact Nat.le_refl size
  | mask m =>
    show leadingOnes size m ≤ onesCount m
    rw [onesCount_eq (hc m rfl)]
    exact length_takeWhile_le_count _

theorem ConstKey.depth_le {size : ℕ} {c : ConstKey} (hc : c.InType size) :
    c.depth size ≤ size := by
  cases c with
  | value => exact Nat.le_refl size
  | mask m =>
    show onesCount m ≤ size
    rw [onesCount_eq (hc m rfl)]
    exact List.count_le_length.trans_eq (length_maskBits size m)

/-- If all bits of a mask are ones then all are leading ones. -/
theorem ConstKey.prefixLength_of_depth {size : ℕ} {c : ConstKey} (hc : c.InType size)
    (hd : c.depth size = size) : c.prefixLength size = size := by
  cases c with
  | value => rfl
  | mask m =>
    have hcount : (maskBits size m).count true = (maskBits size m).length := by
      rw [← onesCount_eq (hc m rfl), length_maskBits]
      exact hd
    show ((maskBits size m).takeWhile id).length = size
    rw [length_takeWhile_of_count hcount, length_maskBits]

/-- **Both depths are right just if the key has as many bytes as bits in front of the
lpm field, no field is behind that one, and the ones of the mask are its leading
ones.** -/
theorem depthsRight_iff (K : LpmKeyDecl) (hsize : keyLengthBytes K.elems ≤ lpm6ByteSizeLimit)
    {c : ConstKey} (hc : c.InType K.lpm.size) :
    K.DepthsRight c ↔
      K.leadingBits (c.prefixLength K.lpm.size) < 256 ∧
        keyLengthBytes K.elems = keyBitSize K.before ∧ K.behind = [] ∧
          c.depth K.lpm.size = c.prefixLength K.lpm.size := by
  have hpos : 0 < K.lpm.size := K.lpm.size_pos
  have htotal := keyBitSize_elems K
  have hbytes := keyBitSize_le K.elems
  have hparts : keyBitSize K.elems = keyBitSize K.pre + K.lpm.size + keyBitSize K.post := by
    simp [LpmKeyDecl.elems, keyBitSize, Nat.add_assoc]
  have hle := ConstKey.prefixLength_le_depth hc
  have hdepth := ConstKey.depth_le hc
  have hfull := ConstKey.prefixLength_of_depth hc
  rw [lpm6ByteSizeLimit] at hsize
  rw [← keyBitSize_eq_zero, LpmKeyDecl.leadingBits]
  constructor
  · rintro ⟨hsetup, hconst⟩
    rw [setupKeyDepth_eq, LpmKeyDecl.leadingBits] at hsetup
    rw [constEntryDepth_eq, LpmKeyDecl.leadingBits] at hconst
    -- the sum of the compiler is too small to wrap, but for a whole key of 256 bits
    omega
  · rintro ⟨hlt, hsame, hbehind, hones⟩
    refine ⟨?_, ?_⟩
    · rw [setupKeyDepth_eq, LpmKeyDecl.leadingBits]
      omega
    · rw [constEntryDepth_eq, LpmKeyDecl.leadingBits]
      omega

/-! ### Two keys -/

/-- Fields of 8, 56 and 32 bits. -/
def depthFields : HeaderLayout where
  fields := [{ offset := 0, size := 8 }, { offset := 8, size := 56 }, { offset := 64, size := 32 }]

/-- An exact field of 8 bits and an lpm field of 56. -/
def byteAndPrefix : LpmKeyDecl where
  pre := [⟨depthFields, 0, 0, by decide, rfl⟩]
  lpm := ⟨depthFields, 1, 1, by decide, rfl⟩
  post := []

/-- An lpm field of 32 bits. -/
def addressPrefix : LpmKeyDecl where
  pre := []
  lpm := ⟨depthFields, 2, 0, by decide, rfl⟩
  post := []

theorem depthsRight_iff_keys :
    byteAndPrefix.DepthsRight (.mask 0xffffff00000000) ∧
      ¬ addressPrefix.DepthsRight (.mask 0xffffff00) := by
  refine ⟨?_, ?_⟩
  · rw [depthsRight_iff byteAndPrefix (by decide)]
    · decide
    · rintro m hm
      cases hm
      decide
  · rw [depthsRight_iff addressPrefix (by decide)]
    · decide
    · rintro m hm
      cases hm
      decide

/-- With a prefix of 24 bits the controller's entry gets a depth of 28. -/
theorem not_depthsRight : ¬ ∀ (K : LpmKeyDecl) (c : ConstKey),
    keyLengthBytes K.elems ≤ lpm6ByteSizeLimit → c.InType K.lpm.size → K.DepthsRight c := by
  intro hright
  have hmask : (ConstKey.mask 0xffffff00).InType addressPrefix.lpm.size := by
    rintro m hm
    cases hm
    decide
  have hsetup := (hright addressPrefix (.mask 0xffffff00) (by decide) hmask).setup
  revert hsetup
  decide

end T4P4S
