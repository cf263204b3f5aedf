/-
Strings of bytes: numbers in host and in network order, and strings that are
written into a buffer one after the other.

* **`slice_run_pack`** — strings written into consecutive slots give the slots'
  contents one after the other, whatever the buffer held and even when a string
  is longer than its slot;
* **`getMsbD_netBytes`** — the bits of a number in network order.

The host is little-endian.
-/
import Mathlib.Algebra.Order.Group.Nat
import Mathlib.Data.Nat.ModEq
import Mathlib.Data.List.GetD
import Mathlib.Tactic.Common

namespace ByteString

/-! ### Numbers -/

/-- The `n` low bytes of a number, the least significant one first. -/
def hostBytes : ℕ → ℕ → List (BitVec 8)
  | 0, _ => []
  | n + 1, v => BitVec.ofNat 8 v :: hostBytes n (v / 256)

/-- The same bytes, the most significant one first. -/
def netBytes (n v : ℕ) : List (BitVec 8) := (hostBytes n v).reverse

/-- The number with the given bytes, the least significant one first. -/
def hostNat : List (BitVec 8) → ℕ
  | [] => 0
  | b :: bs => b.toNat + 256 * hostNat bs

@[simp] theorem length_hostBytes (n v : ℕ) : (hostBytes n v).length = n := by
  induction n generalizing v with
  | zero => rfl
  | succ n ih => rw [hostBytes, List.length_cons, ih]

@[simp] theorem length_netBytes (n v : ℕ) : (netBytes n v).length = n := by
  rw [netBytes, List.length_reverse, length_hostBytes]

theorem getElem_hostBytes {n i : ℕ} (v : ℕ) (hi : i < (hostBytes n v).length) :
    (hostBytes n v)[i] = BitVec.ofNat 8 (v / 256 ^ i) := by
  induction n generalizing v i with
  | zero => exact absurd hi (Nat.not_lt_zero i)
  | succ n ih =>
    cases i with
    | zero => simp [hostBytes]
    | succ i =>
      simp only [hostBytes, List.getElem_cons_succ]
      rw [ih, Nat.div_div_eq_div_mul, pow_succ']

theorem getElem_netBytes {n i : ℕ} (v : ℕ) (hi : i < (netBytes n v).length) :
    (netBytes n v)[i] = BitVec.ofNat 8 (v / 256 ^ (n - 1 - i)) := by
  simp only [netBytes, List.getElem_reverse, getElem_hostBytes, length_hostBytes]

theorem hostBytes_zero (n : ℕ) : hostBytes n 0 = List.replicate n 0 := by
  induction n with
  | zero => rfl
  | succ n ih =>
    rw [hostBytes, Nat.zero_div, ih, List.replicate_succ]
    rfl

theorem netBytes_zero (n : ℕ) : netBytes n 0 = List.replicate n 0 := by
  rw [netBytes, hostBytes_zero, List.reverse_replicate]

theorem hostNat_replicate (n : ℕ) : hostNat (List.replicate n 0) = 0 := by
  induction n with
  | zero => rfl
  | succ n ih =>
    rw [List.replicate_succ, hostNat, ih]
    rfl

/-- The bytes of a number are a number again, cut to their width. -/
theorem hostNat_hostBytes (n v : ℕ) : hostNat (hostBytes n v) = v % 256 ^ n := by
  induction n generalizing v with
  | zero => rw [hostBytes, hostNat, pow_zero, Nat.mod_one]
  | succ n ih =>
    have hdiv : v % (256 * 256 ^ n) = v % 256 + 256 * (v / 256 % 256 ^ n) := Nat.mod_mul
    rw [hostBytes, hostNat, ih, BitVec.toNat_ofNat, pow_succ' 256 n, hdiv]

theorem hostBytes_hostNat (bs : List (BitVec 8)) : hostBytes bs.length (hostNat bs) = bs := by
  induction bs with
  | nil => rfl
  | cons b bs ih =>
    have hb : b.toNat < 256 := b.isLt
    have hdiv : (b.toNat + 256 * hostNat bs) / 256 = hostNat bs := by omega
    have hmod : BitVec.ofNat 8 (b.toNat + 256 * hostNat bs) = b := by
      apply BitVec.eq_of_toNat_eq
      rw [BitVec.toNat_ofNat]
      omega
    rw [List.length_cons, hostNat, hostBytes, hdiv, hmod, ih]

theorem hostNat_lt (bs : List (BitVec 8)) : hostNat bs < 256 ^ bs.length := by
  rw [← hostBytes_hostNat bs, hostNat_hostBytes, hostBytes_hostNat]
  exact Nat.mod_lt _ (Nat.pow_pos (by decide))

/-- A number of `n` bytes with its bytes in the opposite order: `htons`, `htonl`. -/
def byteSwap (n v : ℕ) : ℕ := hostNat (netBytes n v)

theorem byteSwap_hostNat (bs : List (BitVec 8)) :
    byteSwap bs.length (hostNat bs) = hostNat bs.reverse := by
  rw [byteSwap, netBytes, hostBytes_hostNat]

@[simp] theorem hostBytes_byteSwap (n v : ℕ) : hostBytes n (byteSwap n v) = netBytes n v := by
  have h := hostBytes_hostNat (netBytes n v)
  rwa [length_netBytes] at h

theorem hostNat_append (a b : List (BitVec 8)) :
    hostNat (a ++ b) = hostNat a + 256 ^ a.length * hostNat b := by
  induction a with
  | nil => rw [List.nil_append, hostNat, List.length_nil, pow_zero, Nat.one_mul, Nat.zero_add]
  | cons x a ih =>
    rw [List.cons_append, hostNat, hostNat, ih, List.length_cons, pow_succ', Nat.mul_add,
      Nat.add_assoc, Nat.mul_assoc]

theorem take_hostBytes {k n : ℕ} (h : k ≤ n) (v : ℕ) :
    (hostBytes n v).take k = hostBytes k v := by
  refine List.ext_getElem ?_ fun i hi hi' => ?_
  · rw [List.length_take, length_hostBytes, length_hostBytes, Nat.min_eq_left h]
  · rw [List.getElem_take, getElem_hostBytes, getElem_hostBytes]

theorem hostBytes_mod (n v : ℕ) : hostBytes n (v % 256 ^ n) = hostBytes n v := by
  have h := hostBytes_hostNat (hostBytes n v)
  rwa [length_hostBytes, hostNat_hostBytes] at h

theorem hostBytes_eq_iff {n a b : ℕ} : hostBytes n a = hostBytes n b ↔ a ≡ b [MOD 256 ^ n] := by
  constructor
  · intro h
    have hnat := congrArg hostNat h
    rwa [hostNat_hostBytes, hostNat_hostBytes] at hnat
  · intro h
    rw [← hostBytes_mod, h, hostBytes_mod]

theorem byteSwap_congr {n a b : ℕ} (h : a ≡ b [MOD 256 ^ n]) : byteSwap n a = byteSwap n b := by
  rw [byteSwap, byteSwap, netBytes, netBytes, hostBytes_eq_iff.mpr h]

theorem byteSwap_one (v : ℕ) : byteSwap 1 v = v % 256 := by
  rw [byteSwap, netBytes, hostBytes, hostBytes, List.reverse_singleton, hostNat, hostNat,
    BitVec.toNat_ofNat, Nat.add_zero]

/-- Bit `j` from the top of byte `i`, in network order. -/
theorem getMsbD_netBytes {n i j : ℕ} (v : ℕ) (hi : i < (netBytes n v).length) (hj : j < 8) :
    (netBytes n v)[i].getMsbD j = v.testBit (8 * n - 1 - (8 * i + j)) := by
  have hin : i < n := by rwa [length_netBytes] at hi
  rw [getElem_netBytes, BitVec.getMsbD_eq_getLsbD, decide_eq_true hj, Bool.true_and,
    BitVec.getLsbD_ofNat, decide_eq_true (by omega), Bool.true_and,
    show 256 ^ (n - 1 - i) = 2 ^ (8 * (n - 1 - i)) from (pow_mul 2 8 _).symm,
    Nat.testBit_div_two_pow]
  congr 1
  omega

/-! ### Writing into a buffer -/

variable {β : Type*}

/-- A string that is written at an offset. -/
structure Write (β : Type*) where
  off : ℕ
  data : List β

/-- The buffer after the write. -/
def Write.run (m : ℕ → β) (w : Write β) : ℕ → β :=
  fun i => if w.off ≤ i then w.data.getD (i - w.off) (m i) else m i

def run (ws : List (Write β)) (m : ℕ → β) : ℕ → β := ws.foldl Write.run m

/-- The writes stay below `n`. -/
def InBounds (ws : List (Write β)) (n : ℕ) : Prop := ∀ w ∈ ws, w.off + w.data.length ≤ n

/-- `n` items of the buffer, from `off` on. -/
def slice (m : ℕ → β) (off n : ℕ) : List β := (List.range n).map fun i => m (off + i)

@[simp] theorem run_nil (m : ℕ → β) : run [] m = m := rfl

@[simp] theorem run_cons (w : Write β) (ws : List (Write β)) (m : ℕ → β) :
    run (w :: ws) m = run ws (w.run m) := rfl

theorem Write.run_of_notMem {w : Write β} {i : ℕ} (m : ℕ → β)
    (hi : i < w.off ∨ w.off + w.data.length ≤ i) : w.run m i = m i := by
  unfold Write.run
  split_ifs with hle
  · exact List.getD_eq_default _ _ (by omega)
  · rfl

theorem Write.run_of_lt {w : Write β} {i : ℕ} (m : ℕ → β) (hi : i < w.data.length) :
    w.run m (w.off + i) = w.data[i] := by
  unfold Write.run
  rw [if_pos (Nat.le_add_right ..)]
  simp only [Nat.add_sub_cancel_left]
  exact List.getD_eq_getElem _ _ hi

/-- A string that is written in two parts. -/
theorem Write.run_append (m : ℕ → β) (off : ℕ) (a b : List β) :
    Write.run (Write.run m ⟨off, a⟩) ⟨off + a.length, b⟩ = Write.run m ⟨off, a ++ b⟩ := by
  funext i
  unfold Write.run
  dsimp only
  by_cases hi : off ≤ i
  · by_cases hb : off + a.length ≤ i
    · rw [if_pos hb, if_pos hi, if_pos hi, List.getD_append_right _ _ _ _ (by omega),
        List.getD_eq_default a _ (by omega), Nat.sub_sub]
    · rw [if_neg hb, if_pos hi, if_pos hi, List.getD_append _ _ _ _ (by omega)]
  · rw [if_neg (by omega), if_neg hi, if_neg hi]

@[simp] theorem Write.run_nil (m : ℕ → β) (off : ℕ) : Write.run m ⟨off, []⟩ = m := by
  funext i
  exact Write.run_of_notMem m (Nat.lt_or_ge i off)

/-- An item after the writes depends on the same item before them only. -/
theorem run_congr {m m' : ℕ → β} {i : ℕ} (h : m i = m' i) (ws : List (Write β)) :
    run ws m i = run ws m' i := by
  induction ws generalizing m m' with
  | nil => exact h
  | cons w ws ih =>
    refine ih ?_
    unfold Write.run
    rw [h]

theorem run_of_notMem {ws : List (Write β)} {i : ℕ} (m : ℕ → β)
    (h : ∀ w ∈ ws, i < w.off ∨ w.off + w.data.length ≤ i) : run ws m i = m i := by
  induction ws generalizing m with
  | nil => rfl
  | cons w ws ih =>
    rw [List.forall_mem_cons] at h
    rw [run_cons, ih _ h.2, Write.run_of_notMem m h.1]

@[simp] theorem length_slice (m : ℕ → β) (off n : ℕ) : (slice m off n).length = n := by
  simp [slice]

theorem slice_add (m : ℕ → β) (off a b : ℕ) :
    slice m off (a + b) = slice m off a ++ slice m (off + a) b := by
  simp [slice, List.range_add, Function.comp_def, Nat.add_assoc]

theorem slice_part (m : ℕ → β) {off i k n : ℕ} (h : i + k ≤ n) :
    ((slice m off n).drop i).take k = slice m (off + i) k := by
  obtain ⟨d, rfl⟩ := Nat.exists_eq_add_of_le h
  rw [Nat.add_assoc, slice_add, List.drop_left' (length_slice ..), slice_add,
    List.take_left' (length_slice ..)]

theorem slice_congr {m m' : ℕ → β} {off n : ℕ} (h : ∀ i < n, m (off + i) = m' (off + i)) :
    slice m off n = slice m' off n := by
  refine List.map_congr_left fun i hi => h i (List.mem_range.mp hi)

/-- A part of the string that was written. -/
theorem slice_run_part (m : ℕ → β) (w : Write β) {i n : ℕ} (h : i + n ≤ w.data.length) :
    slice (w.run m) (w.off + i) n = (w.data.drop i).take n := by
  refine List.ext_getElem ?_ ?_
  · rw [length_slice, List.length_take, List.length_drop]
    omega
  · intro j hj hj'
    rw [length_slice] at hj
    simp only [slice, List.getElem_map, List.getElem_range, List.getElem_take, List.getElem_drop]
    rw [Nat.add_assoc]
    exact Write.run_of_lt m (by omega)

/-- The string that was written. -/
theorem slice_run (m : ℕ → β) (w : Write β) : slice (w.run m) w.off w.data.length = w.data := by
  have h := slice_run_part m w (i := 0) (n := w.data.length) (by omega)
  rwa [Nat.add_zero, List.drop_zero, List.take_length] at h

theorem slice_run_of_disjoint (m : ℕ → β) {w : Write β} {off n : ℕ}
    (h : off + n ≤ w.off ∨ w.off + w.data.length ≤ off) :
    slice (w.run m) off n = slice m off n :=
  slice_congr fun i hi => Write.run_of_notMem m (by omega)

theorem getElem?_slice {m : ℕ → β} {off n i : ℕ} (hi : i < n) :
    (slice m off n)[i]? = some (m (off + i)) := by
  simp [slice, hi]

/-! ### Strings at their places -/

/-- The strings are in the buffer, at their offsets from `p`. -/
def Holds (m : ℕ → β) (p : ℕ) (ws : List (Write β)) : Prop :=
  ∀ w ∈ ws, slice m (p + w.off) w.data.length = w.data

theorem Holds.congr {m m' : ℕ → β} {p n : ℕ} {ws : List (Write β)} (h : Holds m p ws)
    (hws : InBounds ws n) (hm : ∀ i, p ≤ i → i < p + n → m' i = m i) : Holds m' p ws := by
  intro w hw
  have hle := hws w hw
  exact (slice_congr fun i hi => hm _ (by omega) (by omega)).trans (h w hw)

/-- A string that no later write touches. -/
theorem slice_run_of_disjoints {m : ℕ → β} {ws : List (Write β)} {off n : ℕ}
    (h : ∀ w ∈ ws, off + n ≤ w.off ∨ w.off + w.data.length ≤ off) :
    slice (run ws m) off n = slice m off n := by
  refine slice_congr fun i hi => run_of_notMem m ?_
  intro w hw
  have hw' := h w hw
  omega

/-- No two of the writes meet. -/
def Disjoint (ws : List (Write β)) : Prop :=
  ws.Pairwise fun w w' => w.off + w.data.length ≤ w'.off ∨ w'.off + w'.data.length ≤ w.off

/-- Strings that are written apart from each other are all there. -/
theorem slice_run_of_mem {m : ℕ → β} {ws : List (Write β)} (hws : Disjoint ws)
    {w : Write β} (hw : w ∈ ws) : slice (run ws m) w.off w.data.length = w.data := by
  induction ws generalizing m with
  | nil => exact absurd hw List.not_mem_nil
  | cons w' ws ih =>
    obtain ⟨hhead, hrest⟩ := List.pairwise_cons.mp hws
    rcases List.mem_cons.mp hw with rfl | hw
    · rw [run_cons, slice_run_of_disjoints hhead, slice_run]
    · exact ih hrest hw

/-- The same writes, `p` further on. -/
def shift (p : ℕ) (ws : List (Write β)) : List (Write β) := ws.map fun w => ⟨p + w.off, w.data⟩

theorem holds_run_shift (m : ℕ → β) (p : ℕ) {ws : List (Write β)} (hws : Disjoint ws) :
    Holds (run (shift p ws) m) p ws := by
  have hshift : Disjoint (shift p ws) := List.pairwise_map.mpr (hws.imp fun h => by
    dsimp only
    omega)
  intro w hw
  exact slice_run_of_mem hshift (List.mem_map_of_mem hw)

/-- A string that nothing is written over afterwards. -/
theorem slice_run_of_last (m : ℕ → β) (ws : List (Write β)) (w : Write β) {ws' : List (Write β)}
    (h : ∀ w' ∈ ws', w.off + w.data.length ≤ w'.off ∨ w'.off + w'.data.length ≤ w.off) :
    slice (run (ws ++ w :: ws') m) w.off w.data.length = w.data := by
  rw [run, List.foldl_append, List.foldl_cons]
  exact (slice_run_of_disjoints h).trans (slice_run _ w)

theorem run_append (ws ws' : List (Write β)) (m : ℕ → β) :
    run (ws ++ ws') m = run ws' (run ws m) := List.foldl_append

@[simp] theorem holds_nil (m : ℕ → β) (p : ℕ) : Holds m p [] :=
  fun _ hw => absurd hw List.not_mem_nil

theorem holds_cons {m : ℕ → β} {p : ℕ} {w : Write β} {ws : List (Write β)} :
    Holds m p (w :: ws) ↔ slice m (p + w.off) w.data.length = w.data ∧ Holds m p ws :=
  List.forall_mem_cons

theorem holds_append {m : ℕ → β} {p : ℕ} {ws ws' : List (Write β)} :
    Holds m p (ws ++ ws') ↔ Holds m p ws ∧ Holds m p ws' := List.forall_mem_append

theorem holds_shift {m : ℕ → β} {p q : ℕ} {ws : List (Write β)} :
    Holds m p (shift q ws) ↔ Holds m (p + q) ws := by
  simp only [Holds, shift, List.forall_mem_map, Nat.add_assoc]

theorem holds_run_of_disjoint {m : ℕ → β} {p : ℕ} {ws : List (Write β)} (h : Holds m p ws)
    {w' : Write β}
    (hw' : ∀ w ∈ ws, p + w.off + w.data.length ≤ w'.off ∨ w'.off + w'.data.length ≤ p + w.off) :
    Holds (w'.run m) p ws :=
  fun w hw => (slice_run_of_disjoint m (hw' w hw)).trans (h w hw)

/-! ### Slots -/

/-- Write strings into slots of given widths, which follow one another from `off` on. -/
def pack (off : ℕ) : List (ℕ × List β) → List (Write β)
  | [] => []
  | (width, data) :: slots => ⟨off, data⟩ :: pack (off + width) slots

def widths (slots : List (ℕ × List β)) : ℕ := (slots.map Prod.fst).sum

/-- What fits into the slots. -/
def contents (slots : List (ℕ × List β)) : List β := slots.flatMap fun s => s.2.take s.1

theorem le_of_mem_pack {off : ℕ} {slots : List (ℕ × List β)} {w : Write β}
    (hw : w ∈ pack off slots) : off ≤ w.off := by
  induction slots generalizing off with
  | nil => exact absurd hw List.not_mem_nil
  | cons s slots ih =>
    rcases List.mem_cons.mp hw with rfl | hw
    · exact Nat.le_refl _
    · exact (Nat.le_add_right ..).trans (ih hw)

/-- Records of strings, each of them in a slot of a given width. -/
def HoldsAll (m : ℕ → β) : ℕ → List (ℕ × List (Write β)) → Prop
  | _, [] => True
  | p, (width, ws) :: rs => Holds m p ws ∧ HoldsAll m (p + width) rs

/-- Where the slots begin, the first one at `p`. -/
def places : ℕ → List (ℕ × List β) → List ℕ
  | _, [] => []
  | p, (width, _) :: slots => p :: places (p + width) slots

@[simp] theorem widths_nil : widths ([] : List (ℕ × List β)) = 0 := rfl

@[simp] theorem widths_cons (s : ℕ × List β) (slots : List (ℕ × List β)) :
    widths (s :: slots) = s.1 + widths slots := List.sum_cons

theorem holdsAll_append {m : ℕ → β} {p : ℕ} {rs rs' : List (ℕ × List (Write β))} :
    HoldsAll m p (rs ++ rs') ↔ HoldsAll m p rs ∧ HoldsAll m (p + widths rs) rs' := by
  induction rs generalizing p with
  | nil => simp [HoldsAll]
  | cons r rs ih => simp [HoldsAll, ih, and_assoc, Nat.add_assoc]

theorem HoldsAll.congr {m m' : ℕ → β} {p : ℕ} {rs : List (ℕ × List (Write β))}
    (h : HoldsAll m p rs) (hrs : ∀ r ∈ rs, InBounds r.2 r.1)
    (hm : ∀ i, p ≤ i → i < p + widths rs → m' i = m i) : HoldsAll m' p rs := by
  induction rs generalizing p with
  | nil => trivial
  | cons r rs ih =>
    rw [List.forall_mem_cons] at hrs
    rw [widths_cons] at hm
    refine ⟨h.1.congr hrs.1 fun i hlo hhi => hm i hlo (by omega), ih h.2 hrs.2 ?_⟩
    intro i hlo hhi
    exact hm i (by omega) (by omega)

/-- **The slots hold what was written into them.** -/
theorem slice_run_pack {slots : List (ℕ × List β)} (h : ∀ s ∈ slots, s.1 ≤ s.2.length) (off : ℕ)
    (m : ℕ → β) : slice (run (pack off slots) m) off (widths slots) = contents slots := by
  induction slots generalizing off m with
  | nil => rfl
  | cons s slots ih =>
    obtain ⟨width, data⟩ := s
    rw [List.forall_mem_cons] at h
    obtain ⟨hlen, hrest⟩ := h
    have hwidths : widths ((width, data) :: slots) = width + widths slots := List.sum_cons
    rw [hwidths, slice_add, pack, run_cons, ih hrest]
    show _ = data.take width ++ contents slots
    congr 1
    refine List.ext_getElem? ?_
    intro i
    by_cases hi : i < width
    · -- the later slots begin behind this one
      rw [getElem?_slice hi, run_of_notMem _ fun w hw => .inl ?_]
      · have hi' : i < data.length := hi.trans_le hlen
        rw [Write.run_of_lt (w := ⟨off, data⟩) m hi', List.getElem?_take_of_lt hi,
          List.getElem?_eq_getElem hi']
      · have hle := le_of_mem_pack hw
        omega
    · rw [List.getElem?_eq_none (by rw [length_slice]; omega),
        List.getElem?_eq_none (by rw [List.length_take]; omega)]

theorem inBounds_pack {slots : List (ℕ × List β)} (h : ∀ s ∈ slots, s.2.length = s.1) (off : ℕ) :
    InBounds (pack off slots) (off + widths slots) := by
  induction slots generalizing off with
  | nil => exact fun w hw => absurd hw List.not_mem_nil
  | cons s slots ih =>
    obtain ⟨width, data⟩ := s
    rw [List.forall_mem_cons] at h
    have hwidths : widths ((width, data) :: slots) = width + widths slots := List.sum_cons
    intro w hw
    rcases List.mem_cons.mp hw with rfl | hw
    · have hlen : data.length = width := h.1
      show off + data.length ≤ _
      omega
    · have hle := ih h.2 _ w hw
      omega

end ByteString
