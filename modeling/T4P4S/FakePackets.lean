/-
The texts of fake packets, which tests send and expect.

A text has bytes in hexadecimal, and parts `<a|b>` whose first half is for the packet that
comes in and whose second half is for the one that goes out.  `skip_chars` leaves the other
half out.  A position in a text is the text from there on; `none` is a read outside of it, and
a loop has fuel.

* **`fakePacketLaw_iff`** — the three scanners end, read only inside the texts and agree, for
  accepted texts, iff in each text every `|` is followed by a `>` and every `<` by a `|`, and
  the scanners meet no `>` and no `|` elsewhere.
* `scanText_iff` — where a scanner ends, and with what.
* `reads_items` — both halves of a text of the documented grammar.
-/
import T4P4S.Lib.CText
import T4P4S.Packet

open CText

namespace T4P4S

namespace FakePackets

/-! ### The scanners -/

/-- The characters with a meaning for `skip_chars`: the part from `start` to `stop` is left out,
and so is `skip1`. -/
structure Marks where
  start : Char
  stop : Char
  skip1 : Char

def marks (isIn : Bool) : Marks := if isIn then ⟨'|', '>', '<'⟩ else ⟨'<', '|', '>'⟩

/-- `skip_chars` -/
def skipChars (text : Text) (isIn : Bool) : Option Text :=
  let m := marks isIn
  let ptr := if text.head? = some m.skip1 then text.tail else text
  if ptr.head? = some m.start then (strchr ptr m.stop).map List.tail else some ptr

def isFmtChar (c : Char) : Bool := c = '<' || c = '|' || c = '>'

/-- `starts_with_fmt_char`, which the end of the text does, too. -/
def startsWithFmtChar (text : Text) : Bool := text.head?.all isFmtChar

/-- `text += 2` -/
def moveOn : Text → Option Text
  | _ :: _ :: text => some text
  | _ => none

/-- `sscanf` with `%2hhx`, which writes nothing if there is no digit.  The texts have neither
spaces nor signs. -/
def sscanf2hhx (text : Text) : Option Byte :=
  let ds := (text.take 2).takeWhile (isDigit 16)
  if ds = [] then none else some (BitVec.ofNat 8 (number 16 ds))

/-- The loop over a text in `packet_len` and `wrong_bytes_info`, with `step` what is done for a
byte.  The latter leaves the loop at the end of the text, where the former goes on and then
leaves it, too. -/
def scanText {σ : Type} (isIn : Bool) (step : σ → Text → Option σ) : ℕ → Text → σ → Option σ
  | 0, _, _ => none
  | fuel + 1, text, st =>
    if text = [] then some st
    else do
      let text ← skipChars text isIn
      if startsWithFmtChar text then scanText isIn step fuel text st
      else do
        let st ← step st text
        let text ← moveOn text
        scanText isIn step fuel text st

/-- The sections before the final one, which is an empty text or `NULL`. -/
def sections (texts : List Text) : List Text := texts.takeWhile (· ≠ [])

/-- `packet_len` -/
def packetLen (fuel : ℕ) (texts : List Text) (isIn : Bool) : Option ℕ :=
  (sections texts).foldlM (fun n text => scanText isIn (fun n _ => some (n + 1)) fuel text n) 0

/-- `str2bytes`: the bytes that are passed in `dst`, `none` where nothing is written. -/
def str2bytes : ℕ → Text → List (Option Byte) → Option (List (Option Byte))
  | 0, _, _ => none
  | fuel + 1, pos, dst =>
    if pos = [] then some dst
    else do
      let next ← skipChars pos true
      if next ≠ pos then str2bytes fuel next dst
      else do
        let next ← moveOn pos
        str2bytes fuel next (dst ++ [sscanf2hhx pos])

/-- `fake_packet`: the bytes of the packet. -/
def fakePacket (fuel : ℕ) (texts : List Text) : Option (List (Option Byte)) :=
  (sections texts).foldlM (fun dst text => str2bytes fuel text dst) []

/-- The bytes that `wrong_bytes_info` has compared, and how many are wrong. -/
structure Compared where
  expected : List Byte := []
  wrong : ℕ := 0

/-- A byte of the text is compared with the one of the packet. -/
def compareByte (data : ℕ → Byte) (st : Compared) (expected : Byte) : Compared :=
  ⟨st.expected ++ [expected],
    if expected ≠ data st.expected.length then st.wrong + 1 else st.wrong⟩

/-- `wrong_bytes_info`, for a packet with `data`.  A byte that is not read is not initialised. -/
def wrongBytesInfo (fuel : ℕ) (texts : List Text) (data : ℕ → Byte) : Option Compared :=
  (sections texts).foldlM (fun st text => scanText false
    (fun st text => (sscanf2hhx text).map (compareByte data st)) fuel text st) {}

/-! ### Accepted texts -/

/-- `check_nybble` -/
def checkNybble (nybble : Char) : Bool := nybble ∈ "0123456789abcdefABCDEF".toList

/-- `is_valid_fake_packet_segment` -/
def isValidSegment : Text → Bool
  | [] => true
  | c :: text =>
    if isFmtChar c then isValidSegment text
    else if !checkNybble c then false
    else
      match text with
      | [] => false
      | d :: text => if !checkNybble d then false else isValidSegment text

/-- `is_valid_fake_packet` -/
def isValidFakePacket (texts : List Text) : Bool := (sections texts).all isValidSegment

/-- Two digits. -/
structure HexPair where
  hi : Char
  lo : Char
  hi_ok : checkNybble hi = true
  lo_ok : checkNybble lo = true

def byteOf (hi lo : Char) : Byte := BitVec.ofNat 8 (number 16 [hi, lo])

def HexPair.text (p : HexPair) : Text := [p.hi, p.lo]

def HexPair.value (p : HexPair) : Byte := byteOf p.hi p.lo

/-- A part of a text of the documented grammar. -/
inductive Item
  | byte (p : HexPair)
  | alt (a b : List HexPair)

def Item.text : Item → Text
  | byte p => p.text
  | alt a b => '<' :: (a.flatMap HexPair.text ++ '|' :: (b.flatMap HexPair.text ++ ['>']))

/-- The bytes of the part in the packet that comes in, or goes out. -/
def Item.chosen (isIn : Bool) : Item → List Byte
  | byte p => [p.value]
  | alt a b => if isIn then a.map HexPair.value else b.map HexPair.value

/-- The scanners end inside the texts and agree on the lengths, and texts of the grammar have
the bytes that are meant. -/
def FakePacketLaw (texts : List Text) : Prop :=
  ∃ inLen outLen written expected,
    (∃ fuel, packetLen fuel texts true = some inLen) ∧
    (∃ fuel, packetLen fuel texts false = some outLen) ∧
    (∃ fuel, fakePacket fuel texts = some written) ∧
    (∀ data, ∃ fuel wrong, wrongBytesInfo fuel texts data = some ⟨expected, wrong⟩) ∧
    written.length = inLen ∧ expected.length = outLen ∧
    ∀ items : List (List Item), (∀ l ∈ items, l ≠ []) →
      texts = items.map (fun l => l.flatMap Item.text) →
      written = (items.flatten.flatMap (Item.chosen true)).map some ∧
        expected = items.flatten.flatMap (Item.chosen false)

/-- A text that the scanner reads up to its end, and its bytes. -/
inductive Reads (isIn : Bool) : Text → List Byte → Prop
  | nil : Reads isIn [] []
  | byte {c d : Char} {s : Text} {bs : List Byte} : checkNybble c = true → checkNybble d = true →
      Reads isIn s bs → Reads isIn (c :: d :: s) (byteOf c d :: bs)
  | skip1 {s : Text} {bs : List Byte} :
      Reads isIn s bs → Reads isIn ((marks isIn).skip1 :: s) bs
  | part {junk s : Text} {bs : List Byte} : (marks isIn).stop ∉ junk →
      Reads isIn s bs → Reads isIn ((marks isIn).start :: (junk ++ (marks isIn).stop :: s)) bs

/-! ### Format characters and digits -/

variable {isIn : Bool}

theorem isFmtChar_iff (isIn : Bool) (c : Char) :
    isFmtChar c = true ↔
      c = (marks isIn).start ∨ c = (marks isIn).stop ∨ c = (marks isIn).skip1 := by
  simp only [isFmtChar, Bool.or_eq_true, decide_eq_true_eq]
  cases isIn <;> simp only [marks, if_true, Bool.false_eq_true, if_false] <;> tauto

theorem marks_ne (isIn : Bool) : (marks isIn).start ≠ (marks isIn).skip1 ∧
    (marks isIn).stop ≠ (marks isIn).skip1 ∧ (marks isIn).stop ≠ (marks isIn).start := by
  cases isIn <;> decide

theorem isFmtChar_of_nybble {c : Char} (hc : checkNybble c = true) : isFmtChar c = false := by
  have hall : "0123456789abcdefABCDEF".toList.all (fun c => !isFmtChar c) = true := by decide
  exact Bool.not_eq_true' _ ▸ List.all_eq_true.mp hall c (of_decide_eq_true hc)

theorem isDigit_of_nybble {c : Char} (hc : checkNybble c = true) : isDigit 16 c = true := by
  have hall : "0123456789abcdefABCDEF".toList.all (isDigit 16) = true := by decide
  exact List.all_eq_true.mp hall c (of_decide_eq_true hc)

theorem nybble_ne_of_fmt {c d : Char} (hc : checkNybble c = true) (hd : isFmtChar d = true) :
    c ≠ d := by
  rintro rfl
  exact Bool.false_ne_true ((isFmtChar_of_nybble hc).symm.trans hd)

theorem isFmtChar_marks (isIn : Bool) : isFmtChar (marks isIn).start = true ∧
    isFmtChar (marks isIn).stop = true ∧ isFmtChar (marks isIn).skip1 = true := by
  cases isIn <;> decide

theorem sscanf2hhx_byte {c d : Char} (hc : checkNybble c = true) (hd : checkNybble d = true)
    (s : Text) : sscanf2hhx (c :: d :: s) = some (byteOf c d) := by
  have htake : ((c :: d :: s).take 2).takeWhile (isDigit 16) = [c, d] := by
    refine List.takeWhile_eq_self_iff.mpr ?_
    exact List.forall_mem_cons.mpr ⟨isDigit_of_nybble hc, List.forall_mem_singleton.mpr
      (isDigit_of_nybble hd)⟩
  rw [sscanf2hhx, htake, if_neg (List.cons_ne_nil _ _), byteOf]

/-! ### `skip_chars` -/

/-- What `skip_chars` does when a skipped character is behind it. -/
def skipPart (isIn : Bool) (ptr : Text) : Option Text :=
  if ptr.head? = some (marks isIn).start then (strchr ptr (marks isIn).stop).map List.tail
  else some ptr

theorem skipChars_skip1 (s : Text) :
    skipChars ((marks isIn).skip1 :: s) isIn = skipPart isIn s := by
  simp [skipChars, skipPart]

theorem skipChars_of_ne {s : Text} (h : s.head? ≠ some (marks isIn).skip1) :
    skipChars s isIn = skipPart isIn s := by
  simp only [skipChars, skipPart, if_neg h]

theorem skipPart_of_ne {s : Text} (h : s.head? ≠ some (marks isIn).start) :
    skipPart isIn s = some s :=
  if_neg h

theorem skipPart_start {junk : Text} (hjunk : (marks isIn).stop ∉ junk) (s : Text) :
    skipPart isIn ((marks isIn).start :: (junk ++ (marks isIn).stop :: s)) = some s := by
  have hnot : (marks isIn).stop ∉ (marks isIn).start :: junk :=
    List.not_mem_cons_of_ne_of_not_mem (marks_ne isIn).2.2 hjunk
  rw [skipPart, if_pos List.head?_cons, ← List.cons_append, strchr_append hnot]
  rfl

theorem skipPart_open {s : Text} (hs : (marks isIn).stop ∉ s) :
    skipPart isIn ((marks isIn).start :: s) = none := by
  have hnot : (marks isIn).stop ∉ (marks isIn).start :: s :=
    List.not_mem_cons_of_ne_of_not_mem (marks_ne isIn).2.2 hs
  rw [skipPart, if_pos List.head?_cons, strchr_eq_none_iff.mpr hnot]
  rfl

theorem skipChars_start (s : Text) :
    skipChars ((marks isIn).start :: s) isIn = skipPart isIn ((marks isIn).start :: s) := by
  have hne : ((marks isIn).start :: s).head? ≠ some (marks isIn).skip1 := fun h =>
    (marks_ne isIn).1 (Option.some.inj h)
  exact skipChars_of_ne hne

theorem skipChars_stop (s : Text) :
    skipChars ((marks isIn).stop :: s) isIn = some ((marks isIn).stop :: s) := by
  have hne : ∀ c, (marks isIn).stop ≠ c → ((marks isIn).stop :: s).head? ≠ some c :=
    fun c hc h => hc (Option.some.inj h)
  rw [skipChars_of_ne (hne _ (marks_ne isIn).2.1), skipPart_of_ne (hne _ (marks_ne isIn).2.2)]

theorem skipChars_nybble {c : Char} (hc : checkNybble c = true) (s : Text) :
    skipChars (c :: s) isIn = some (c :: s) := by
  have hne : ∀ d, isFmtChar d = true → (c :: s).head? ≠ some d := fun d hd heq =>
    nybble_ne_of_fmt hc hd (Option.some.inj heq)
  rw [skipChars_of_ne (hne _ (isFmtChar_marks isIn).2.2),
    skipPart_of_ne (hne _ (isFmtChar_marks isIn).1)]

/-! ### The loop over a text -/

section Scan

variable {σ : Type} {step : σ → Text → Option σ} {st r : σ}

/-- The loop ends, with the result `r`. -/
def Ends (isIn : Bool) (step : σ → Text → Option σ) (text : Text) (st r : σ) : Prop :=
  ∃ fuel, scanText isIn step fuel text st = some r

theorem scanText_mono {fuel : ℕ} {text : Text} (h : scanText isIn step fuel text st = some r) :
    scanText isIn step (fuel + 1) text st = some r := by
  induction fuel generalizing text st with
  | zero => exact nomatch h
  | succ fuel ih =>
    rw [scanText] at h ⊢
    split at h
    · next hnil => rwa [if_pos hnil]
    · next hne =>
      rw [if_neg hne]
      obtain ⟨text', hskip, h⟩ := Option.bind_eq_some_iff.mp h
      refine Option.bind_eq_some_iff.mpr ⟨text', hskip, ?_⟩
      split at h
      · next hfmt =>
        rw [if_pos hfmt]
        exact ih h
      · next hfmt =>
        rw [if_neg hfmt]
        obtain ⟨st', hst, h⟩ := Option.bind_eq_some_iff.mp h
        obtain ⟨text'', hmove, h⟩ := Option.bind_eq_some_iff.mp h
        refine Option.bind_eq_some_iff.mpr ⟨st', hst, ?_⟩
        exact Option.bind_eq_some_iff.mpr ⟨text'', hmove, ih h⟩

theorem scanText_le {fuel fuel' : ℕ} (hle : fuel ≤ fuel') {text : Text}
    (h : scanText isIn step fuel text st = some r) :
    scanText isIn step fuel' text st = some r := by
  induction fuel', hle using Nat.le_induction with
  | base => exact h
  | succ fuel' _ ih => exact scanText_mono ih

theorem Ends.unique {text : Text} {r' : σ} (h : Ends isIn step text st r)
    (h' : Ends isIn step text st r') : r = r' := by
  obtain ⟨fuel, h⟩ := h
  obtain ⟨fuel', h'⟩ := h'
  have heq := scanText_le (le_max_left fuel fuel') h
  rw [scanText_le (le_max_right fuel fuel') h'] at heq
  exact (Option.some.inj heq).symm

theorem ends_nil : Ends isIn step [] st r ↔ r = st := by
  constructor
  · rintro ⟨fuel, h⟩
    cases fuel with
    | zero => exact nomatch h
    | succ fuel =>
      rw [scanText, if_pos rfl] at h
      exact (Option.some.inj h).symm
  · rintro rfl
    exact ⟨1, rfl⟩

/-- A turn that leaves something out. -/
theorem ends_of_skip {text text' : Text} (hne : text ≠ [])
    (hskip : skipChars text isIn = some text')
    (hsame : ¬ startsWithFmtChar text' → skipChars text' isIn = some text') :
    Ends isIn step text st r ↔ Ends isIn step text' st r := by
  constructor
  · rintro ⟨fuel, h⟩
    cases fuel with
    | zero => exact nomatch h
    | succ fuel =>
      rw [scanText, if_neg hne, hskip] at h
      by_cases hfmt : startsWithFmtChar text'
      · exact ⟨fuel, by rwa [Option.bind_eq_bind, Option.bind_some, if_pos hfmt] at h⟩
      · have hne' : text' ≠ [] := fun hnil => hfmt (hnil ▸ rfl)
        refine ⟨fuel + 1, ?_⟩
        rw [scanText, if_neg hne', hsame hfmt]
        exact h
  · rintro ⟨fuel, h⟩
    refine ⟨fuel + 1, ?_⟩
    rw [scanText, if_neg hne, hskip]
    by_cases hfmt : startsWithFmtChar text'
    · rwa [Option.bind_eq_bind, Option.bind_some, if_pos hfmt]
    · cases fuel with
      | zero => exact nomatch h
      | succ fuel =>
        have hne' : text' ≠ [] := fun hnil => hfmt (hnil ▸ rfl)
        have h' := scanText_mono h
        rwa [scanText, if_neg hne', hsame hfmt] at h'

/-- A turn that reads a byte, with `g` what `step` does with it. -/
theorem ends_byte {g : σ → Byte → σ} {c d : Char} (hc : checkNybble c = true) {s : Text}
    (hstep : step st (c :: d :: s) = some (g st (byteOf c d))) :
    Ends isIn step (c :: d :: s) st r ↔ Ends isIn step s (g st (byteOf c d)) r := by
  have hfmt : ¬ startsWithFmtChar (c :: d :: s) = true := by
    show ¬ isFmtChar c = true
    rw [isFmtChar_of_nybble hc]
    exact Bool.false_ne_true
  have hturn : ∀ fuel, scanText isIn step (fuel + 1) (c :: d :: s) st =
      scanText isIn step fuel s (g st (byteOf c d)) := by
    intro fuel
    rw [scanText, if_neg (List.cons_ne_nil _ _), skipChars_nybble hc, Option.bind_eq_bind,
      Option.bind_some, if_neg hfmt, hstep]
    rfl
  constructor
  · rintro ⟨fuel, h⟩
    cases fuel with
    | zero => exact nomatch h
    | succ fuel => exact ⟨fuel, hturn fuel ▸ h⟩
  · rintro ⟨fuel, h⟩
    exact ⟨fuel + 1, (hturn fuel).trans h⟩

/-- The scanner does not get past the end of a part that it has not entered. -/
theorem not_ends_stop (s : Text) : ¬ Ends isIn step ((marks isIn).stop :: s) st r := by
  rintro ⟨fuel, h⟩
  have hfmt : startsWithFmtChar ((marks isIn).stop :: s) = true := (isFmtChar_marks isIn).2.1
  induction fuel with
  | zero => exact nomatch h
  | succ fuel ih =>
    rw [scanText, if_neg (List.cons_ne_nil _ _), skipChars_stop, Option.bind_eq_bind,
      Option.bind_some, if_pos hfmt] at h
    exact ih h

/-- A text that begins with none of the characters that are left out. -/
theorem skipChars_of_not_fmt {s : Text} (h : ¬ startsWithFmtChar s) :
    skipChars s isIn = some s := by
  have hne : ∀ d, isFmtChar d = true → s.head? ≠ some d := by
    intro d hd heq
    rw [startsWithFmtChar, heq] at h
    exact h hd
  rw [skipChars_of_ne (hne _ (isFmtChar_marks isIn).2.2),
    skipPart_of_ne (hne _ (isFmtChar_marks isIn).1)]

theorem ends_start {junk : Text} (hjunk : (marks isIn).stop ∉ junk) (s : Text) :
    Ends isIn step ((marks isIn).start :: (junk ++ (marks isIn).stop :: s)) st r ↔
      Ends isIn step s st r := by
  refine ends_of_skip (List.cons_ne_nil _ _) ?_ skipChars_of_not_fmt
  rw [skipChars_start, skipPart_start hjunk]

theorem not_ends_open {s : Text} (hs : (marks isIn).stop ∉ s) :
    ¬ Ends isIn step ((marks isIn).start :: s) st r := by
  rintro ⟨fuel, h⟩
  cases fuel with
  | zero => exact nomatch h
  | succ fuel =>
    rw [scanText, if_neg (List.cons_ne_nil _ _), skipChars_start, skipPart_open hs] at h
    exact nomatch h

theorem ends_skip1 (s : Text) :
    Ends isIn step ((marks isIn).skip1 :: s) st r ↔ Ends isIn step s st r := by
  by_cases hstart : s.head? = some (marks isIn).start
  · obtain ⟨s, rfl⟩ : ∃ s', s = (marks isIn).start :: s' :=
      ⟨s.tail, List.eq_cons_of_mem_head? hstart⟩
    by_cases hstop : (marks isIn).stop ∈ s
    · -- the part behind the character is left out in the same turn
      obtain ⟨junk, s, rfl, hjunk⟩ := List.eq_append_cons_of_mem hstop
      rw [ends_start hjunk]
      refine ends_of_skip (List.cons_ne_nil _ _) ?_ skipChars_of_not_fmt
      rw [skipChars_skip1, skipPart_start hjunk]
    · refine iff_of_false ?_ (not_ends_open hstop)
      rintro ⟨fuel, h⟩
      cases fuel with
      | zero => exact nomatch h
      | succ fuel =>
        rw [scanText, if_neg (List.cons_ne_nil _ _), skipChars_skip1, skipPart_open hstop] at h
        exact nomatch h
  · refine ends_of_skip (List.cons_ne_nil _ _) ?_ skipChars_of_not_fmt
    rw [skipChars_skip1, skipPart_of_ne hstart]

/-! ### Where it ends -/

theorem isValidSegment_cons {c : Char} (hc : isFmtChar c = true) (s : Text) :
    isValidSegment (c :: s) = isValidSegment s := by
  rw [isValidSegment.eq_def]
  exact if_pos hc

theorem isValidSegment_byte {c : Char} {s : Text} (hc : isFmtChar c = false)
    (h : isValidSegment (c :: s) = true) :
    ∃ d s', s = d :: s' ∧ checkNybble c = true ∧ checkNybble d = true ∧
      isValidSegment s' = true := by
  rw [isValidSegment.eq_def] at h
  simp only [hc, Bool.false_eq_true, if_false] at h
  split at h
  · exact nomatch h
  · next hnyb =>
    cases s with
    | nil => exact nomatch h
    | cons d s =>
      simp only at h
      split at h
      · exact nomatch h
      · next hnyb' => exact ⟨d, s, rfl, by simpa using hnyb, by simpa using hnyb', h⟩

/-- What is behind a format character is accepted if the whole text is. -/
theorem isValidSegment_of_append {c : Char} (hc : isFmtChar c = true) {s : Text} :
    ∀ junk : Text, isValidSegment (junk ++ c :: s) = true → isValidSegment s = true
  | [], h => by rwa [List.nil_append, isValidSegment_cons hc] at h
  | x :: junk, h => by
    by_cases hx : isFmtChar x = true
    · rw [List.cons_append, isValidSegment_cons hx] at h
      exact isValidSegment_of_append hc junk h
    · obtain ⟨d, s', hs, -, hd, hvalid⟩ := isValidSegment_byte (Bool.not_eq_true _ ▸ hx) h
      cases junk with
      | nil =>
        obtain ⟨rfl, -⟩ := List.cons.inj hs
        exact absurd hc (Bool.not_eq_true _ ▸ isFmtChar_of_nybble hd)
      | cons y junk =>
        obtain ⟨rfl, rfl⟩ := List.cons.inj hs
        exact isValidSegment_of_append hc junk hvalid

variable {g : σ → Byte → σ}

/-- What is done for two digits. -/
def StepsBy (step : σ → Text → Option σ) (g : σ → Byte → σ) : Prop :=
  ∀ st c d s, checkNybble c = true → checkNybble d = true →
    step st (c :: d :: s) = some (g st (byteOf c d))

theorem ends_of_reads (hstep : StepsBy step g) (st : σ) {s : Text} {bs : List Byte}
    (h : Reads isIn s bs) : Ends isIn step s st (bs.foldl g st) := by
  induction h generalizing st with
  | nil => exact ends_nil.mpr rfl
  | byte hc hd _ ih => exact (ends_byte hc (hstep _ _ _ _ hc hd)).mpr (ih _)
  | skip1 _ ih => exact (ends_skip1 _).mpr (ih _)
  | part hjunk _ ih => exact (ends_start hjunk _).mpr (ih _)

theorem reads_of_ends (hstep : StepsBy step g) (s : Text) (hvalid : isValidSegment s = true)
    (h : Ends isIn step s st r) : ∃ bs, Reads isIn s bs ∧ r = bs.foldl g st := by
  induction hn : s.length using Nat.strong_induction_on generalizing s st with
  | _ n ih =>
    cases s with
    | nil => exact ⟨[], .nil, ends_nil.mp h⟩
    | cons c s =>
      rw [List.length_cons] at hn
      by_cases hfmt : isFmtChar c = true
      · have hvalid' : isValidSegment s = true := (isValidSegment_cons hfmt s).symm.trans hvalid
        rcases (isFmtChar_iff isIn c).mp hfmt with rfl | rfl | rfl
        · by_cases hstop : (marks isIn).stop ∈ s
          · obtain ⟨junk, s, rfl, hjunk⟩ := List.eq_append_cons_of_mem hstop
            have hrest := isValidSegment_of_append (isFmtChar_marks isIn).2.1 junk hvalid'
            have hlen : s.length < n := by
              simp only [List.length_append, List.length_cons] at hn
              omega
            obtain ⟨bs, hbs, hr⟩ := ih _ hlen s hrest ((ends_start hjunk s).mp h) rfl
            exact ⟨bs, .part hjunk hbs, hr⟩
          · exact absurd h (not_ends_open hstop)
        · exact absurd h (not_ends_stop s)
        · obtain ⟨bs, hbs, hr⟩ := ih _ (by omega) s hvalid' ((ends_skip1 s).mp h) rfl
          exact ⟨bs, .skip1 hbs, hr⟩
      · obtain ⟨d, s, rfl, hc, hd, hrest⟩ := isValidSegment_byte (Bool.not_eq_true _ ▸ hfmt) hvalid
        have hends := (ends_byte hc (hstep _ _ _ _ hc hd)).mp h
        rw [List.length_cons] at hn
        obtain ⟨bs, hbs, hr⟩ := ih _ (by omega) s hrest hends rfl
        exact ⟨byteOf c d :: bs, .byte hc hd hbs, hr⟩

/-- The loop over an accepted text ends iff the text can be read. -/
theorem scanText_iff (hstep : StepsBy step g) {s : Text} (hvalid : isValidSegment s = true) :
    Ends isIn step s st r ↔ ∃ bs, Reads isIn s bs ∧ r = bs.foldl g st := by
  refine ⟨reads_of_ends hstep s hvalid, ?_⟩
  rintro ⟨bs, hbs, rfl⟩
  exact ends_of_reads hstep _ hbs

end Scan

theorem stepsBy_collect : StepsBy (fun bs text => (sscanf2hhx text).map fun b => bs ++ [b])
    (fun bs b => bs ++ [b]) := by
  intro bs c d s hc hd
  simp only [sscanf2hhx_byte hc hd, Option.map_some]

theorem foldl_append_singleton {α : Type} (l init : List α) :
    l.foldl (fun l a => l ++ [a]) init = init ++ l := by
  induction l generalizing init with
  | nil => exact (List.append_nil init).symm
  | cons a l ih => rw [List.foldl_cons, ih, List.append_assoc, List.singleton_append]

/-- A text is read in one way only. -/
theorem Reads.unique {s : Text} {bs bs' : List Byte} (h : Reads isIn s bs)
    (h' : Reads isIn s bs') : bs = bs' := by
  have heq := (ends_of_reads stepsBy_collect [] h).unique (ends_of_reads stepsBy_collect [] h')
  rwa [foldl_append_singleton, foldl_append_singleton] at heq

/-! ### `str2bytes` -/

theorem str2bytes_mono {fuel : ℕ} {pos : Text} {dst r : List (Option Byte)}
    (h : str2bytes fuel pos dst = some r) : str2bytes (fuel + 1) pos dst = some r := by
  induction fuel generalizing pos dst with
  | zero => exact nomatch h
  | succ fuel ih =>
    rw [str2bytes] at h ⊢
    split at h
    · next hnil => rwa [if_pos hnil]
    · next hne =>
      rw [if_neg hne]
      obtain ⟨next, hskip, h⟩ := Option.bind_eq_some_iff.mp h
      refine Option.bind_eq_some_iff.mpr ⟨next, hskip, ?_⟩
      split at h
      · next hmoved =>
        rw [if_pos hmoved]
        exact ih h
      · next hsame =>
        rw [if_neg hsame]
        obtain ⟨next', hmove, h⟩ := Option.bind_eq_some_iff.mp h
        exact Option.bind_eq_some_iff.mpr ⟨next', hmove, ih h⟩

theorem str2bytes_skip {fuel : ℕ} {pos next : Text} (hne : pos ≠ [])
    (hskip : skipChars pos true = some next) (hmoved : next ≠ pos) (dst : List (Option Byte)) :
    str2bytes (fuel + 1) pos dst = str2bytes fuel next dst := by
  rw [str2bytes, if_neg hne, hskip, Option.bind_eq_bind, Option.bind_some, if_pos hmoved]

theorem ne_of_length_lt {s s' : Text} (h : s.length < s'.length) : s ≠ s' :=
  fun heq => absurd (congrArg List.length heq) h.ne

/-- It writes the bytes that the scanner finds. -/
theorem str2bytes_of_reads {s : Text} {bs : List Byte} (h : Reads true s bs)
    (dst : List (Option Byte)) : ∃ fuel, str2bytes fuel s dst = some (dst ++ bs.map some) := by
  induction h generalizing dst with
  | nil => exact ⟨1, by rw [str2bytes, if_pos rfl, List.map_nil, List.append_nil]⟩
  | @byte c d s bs hc hd _ ih =>
    obtain ⟨fuel, hfuel⟩ := ih (dst ++ [some (byteOf c d)])
    refine ⟨fuel + 1, ?_⟩
    rw [str2bytes, if_neg (List.cons_ne_nil _ _), skipChars_nybble hc, Option.bind_eq_bind,
      Option.bind_some, if_neg (not_not.mpr rfl), sscanf2hhx_byte hc hd]
    rw [List.append_assoc, List.singleton_append] at hfuel
    exact hfuel
  | @skip1 s bs h ih =>
    obtain ⟨fuel, hfuel⟩ := ih dst
    by_cases hstart : s.head? = some (marks true).start
    · -- the part behind the character is left out in the same turn
      cases fuel with
      | zero => exact nomatch hfuel
      | succ fuel =>
        have hs : s ≠ [] := fun hnil => nomatch hnil ▸ hstart
        have hfirst : s.head? ≠ some (marks true).skip1 := fun heq =>
          (marks_ne true).1 (Option.some.inj (hstart.symm.trans heq))
        cases hskip : skipPart true s with
        | none =>
          rw [str2bytes, if_neg hs, skipChars_of_ne hfirst, hskip] at hfuel
          exact nomatch hfuel
        | some next =>
          have hlt : next.length < s.length := by
            rw [skipPart, if_pos hstart, Option.map_eq_some_iff] at hskip
            obtain ⟨found, hfound, rfl⟩ := hskip
            obtain ⟨pre, rest, rfl, rfl, -⟩ := exists_of_strchr hfound
            simp only [List.tail_cons, List.length_append, List.length_cons]
            omega
          have hmoved : skipChars s true = some next := (skipChars_of_ne hfirst).trans hskip
          rw [str2bytes_skip hs hmoved (ne_of_length_lt hlt)] at hfuel
          refine ⟨fuel + 1, ?_⟩
          rw [str2bytes_skip (List.cons_ne_nil _ _) ((skipChars_skip1 s).trans hskip)
            (ne_of_length_lt (hlt.trans (Nat.lt_succ_self _)))]
          exact hfuel
    · refine ⟨fuel + 1, ?_⟩
      have hskip : skipChars ((marks true).skip1 :: s) true = some s :=
        (skipChars_skip1 s).trans (skipPart_of_ne hstart)
      rw [str2bytes_skip (List.cons_ne_nil _ _) hskip (ne_of_length_lt (Nat.lt_succ_self _))]
      exact hfuel
  | @part junk s bs hjunk _ ih =>
    obtain ⟨fuel, hfuel⟩ := ih dst
    refine ⟨fuel + 1, ?_⟩
    have hlt : s.length < ((marks true).start :: (junk ++ (marks true).stop :: s)).length := by
      simp only [List.length_append, List.length_cons]
      omega
    rw [str2bytes_skip (List.cons_ne_nil _ _) ((skipChars_start _).trans (skipPart_start hjunk s))
      (ne_of_length_lt hlt)]
    exact hfuel

/-! ### All sections -/

/-- A loop whose turns have fuel ends iff its turns do. -/
theorem foldlM_fuel_cons {α σ : Type} {F : ℕ → σ → α → Option σ}
    (hmono : ∀ fuel fuel', fuel ≤ fuel' → ∀ st a st', F fuel st a = some st' →
      F fuel' st a = some st') {a : α} {l : List α} {st r : σ} :
    (∃ fuel, (a :: l).foldlM (F fuel) st = some r) ↔
      ∃ st', (∃ fuel, F fuel st a = some st') ∧ ∃ fuel, l.foldlM (F fuel) st' = some r := by
  have hlist : ∀ fuel fuel', fuel ≤ fuel' → ∀ (l : List α) (st : σ),
      l.foldlM (F fuel) st = some r → l.foldlM (F fuel') st = some r := by
    intro fuel fuel' hle l
    induction l with
    | nil => exact fun st h => h
    | cons a l ih =>
      intro st h
      rw [List.foldlM_cons] at h ⊢
      obtain ⟨st', hst, h⟩ := Option.bind_eq_some_iff.mp h
      exact Option.bind_eq_some_iff.mpr ⟨st', hmono fuel fuel' hle _ _ _ hst, ih st' h⟩
  constructor
  · rintro ⟨fuel, h⟩
    rw [List.foldlM_cons] at h
    obtain ⟨st', hst, h⟩ := Option.bind_eq_some_iff.mp h
    exact ⟨st', ⟨fuel, hst⟩, fuel, h⟩
  · rintro ⟨st', ⟨fuel, hst⟩, fuel', h⟩
    refine ⟨max fuel fuel', ?_⟩
    rw [List.foldlM_cons]
    exact Option.bind_eq_some_iff.mpr ⟨st', hmono fuel _ (le_max_left _ _) _ _ _ hst,
      hlist fuel' _ (le_max_right _ _) _ _ h⟩

theorem scanSections_iff {σ : Type} {step : σ → Text → Option σ} {g : σ → Byte → σ}
    (hstep : StepsBy step g) {secs : List Text} (hvalid : ∀ s ∈ secs, isValidSegment s = true)
    {st r : σ} :
    (∃ fuel, secs.foldlM (fun st text => scanText isIn step fuel text st) st = some r) ↔
      ∃ bss, List.Forall₂ (Reads isIn) secs bss ∧ r = bss.flatten.foldl g st := by
  induction secs generalizing st with
  | nil =>
    constructor
    · rintro ⟨_, h⟩
      exact ⟨[], .nil, (Option.some.inj h).symm⟩
    · rintro ⟨bss, hbss, rfl⟩
      cases hbss
      exact ⟨0, rfl⟩
  | cons s secs ih =>
    obtain ⟨hs, hsecs⟩ := List.forall_mem_cons.mp hvalid
    rw [foldlM_fuel_cons (F := fun fuel st text => scanText isIn step fuel text st)
      fun _ _ hle _ _ _ h => scanText_le hle h]
    constructor
    · rintro ⟨st', hst, hrest⟩
      obtain ⟨bs, hbs, rfl⟩ := (scanText_iff hstep hs).mp hst
      obtain ⟨bss, hbss, rfl⟩ := (ih hsecs).mp hrest
      exact ⟨bs :: bss, .cons hbs hbss, by rw [List.flatten_cons, List.foldl_append]⟩
    · rintro ⟨_, hbss, rfl⟩
      cases hbss with
      | @cons _ bs _ bss hbs hbss =>
        refine ⟨bs.foldl g st, (scanText_iff hstep hs).mpr ⟨bs, hbs, rfl⟩, ?_⟩
        exact (ih hsecs).mpr ⟨bss, hbss, by rw [List.flatten_cons, List.foldl_append]⟩

theorem str2bytes_le {fuel fuel' : ℕ} (hle : fuel ≤ fuel') {pos : Text}
    {dst r : List (Option Byte)} (h : str2bytes fuel pos dst = some r) :
    str2bytes fuel' pos dst = some r := by
  induction fuel', hle using Nat.le_induction with
  | base => exact h
  | succ fuel' _ ih => exact str2bytes_mono ih

theorem fakePacket_of_reads {secs : List Text} {bss : List (List Byte)}
    (h : List.Forall₂ (Reads true) secs bss) (dst : List (Option Byte)) :
    ∃ fuel, secs.foldlM (fun dst text => str2bytes fuel text dst) dst =
      some (dst ++ bss.flatten.map some) := by
  induction h generalizing dst with
  | nil => exact ⟨0, by rw [List.flatten_nil, List.map_nil, List.append_nil]; rfl⟩
  | @cons s bs secs bss hs _ ih =>
    rw [foldlM_fuel_cons (F := fun fuel dst text => str2bytes fuel text dst)
      fun _ _ hle _ _ _ h => str2bytes_le hle h]
    refine ⟨_, str2bytes_of_reads hs dst, ?_⟩
    rw [List.flatten_cons, List.map_append, ← List.append_assoc]
    exact ih _

/-! ### The documented grammar -/

theorem reads_pairs {s : Text} {bs : List Byte} (h : Reads isIn s bs) (ps : List HexPair) :
    Reads isIn (ps.flatMap HexPair.text ++ s) (ps.map HexPair.value ++ bs) := by
  induction ps with
  | nil => exact h
  | cons p ps ih => exact .byte p.hi_ok p.lo_ok ih

theorem notMem_pairs {c : Char} (hc : isFmtChar c = true) (ps : List HexPair) :
    c ∉ ps.flatMap HexPair.text := by
  rw [List.mem_flatMap]
  rintro ⟨p, -, hmem⟩
  rcases List.mem_cons.mp hmem with rfl | hmem
  · exact nybble_ne_of_fmt p.hi_ok hc rfl
  · obtain rfl := List.mem_singleton.mp hmem
    exact nybble_ne_of_fmt p.lo_ok hc rfl

/-- Of a text of the grammar the scanner reads the half that is asked for. -/
theorem reads_items (isIn : Bool) (l : List Item) :
    Reads isIn (l.flatMap Item.text) (l.flatMap (Item.chosen isIn)) := by
  induction l with
  | nil => exact .nil
  | cons item l ih =>
    rw [List.flatMap_cons, List.flatMap_cons]
    cases item with
    | byte p => exact .byte p.hi_ok p.lo_ok ih
    | alt a b =>
      have htext : (Item.alt a b).text ++ l.flatMap Item.text =
          '<' :: (a.flatMap HexPair.text ++ '|' :: (b.flatMap HexPair.text ++
            '>' :: l.flatMap Item.text)) := by
        simp only [Item.text, List.cons_append, List.append_assoc, List.nil_append]
      rw [htext]
      cases isIn with
      | true => exact .skip1 (reads_pairs (.part (notMem_pairs rfl b) ih) a)
      | false => exact .part (notMem_pairs rfl a) (reads_pairs (.skip1 ih) b)

theorem sections_eq_self {texts : List Text} (h : ∀ s ∈ texts, s ≠ []) : sections texts = texts :=
  List.takeWhile_eq_self_iff.mpr fun s hs => decide_eq_true (h s hs)

theorem text_ne_nil (item : Item) : item.text ≠ [] := by
  cases item <;> exact List.cons_ne_nil _ _

theorem sections_items {items : List (List Item)} (hne : ∀ l ∈ items, l ≠ []) :
    sections (items.map fun l => l.flatMap Item.text) = items.map fun l => l.flatMap Item.text := by
  refine sections_eq_self (List.forall_mem_map.mpr fun l hl => ?_)
  obtain ⟨item, l', rfl⟩ := List.exists_cons_of_ne_nil (hne l hl)
  rw [List.flatMap_cons]
  exact List.append_ne_nil_of_left_ne_nil (text_ne_nil item) _

theorem forall₂_items (isIn : Bool) (items : List (List Item)) :
    List.Forall₂ (Reads isIn) (items.map fun l => l.flatMap Item.text)
      (items.map fun l => l.flatMap (Item.chosen isIn)) := by
  rw [List.forall₂_map_left_iff, List.forall₂_map_right_iff, List.forall₂_same]
  exact fun l _ => reads_items isIn l

theorem forall₂_unique {secs : List Text} {bss bss' : List (List Byte)}
    (h : List.Forall₂ (Reads isIn) secs bss) (h' : List.Forall₂ (Reads isIn) secs bss') :
    bss = bss' := by
  induction h generalizing bss' with
  | nil =>
    cases h'
    rfl
  | cons hbs _ ih =>
    cases h' with
    | cons hbs' hbss' => rw [hbs.unique hbs', ih hbss']

/-- The bytes of a text of the grammar are those of the halves. -/
theorem flatten_of_items {items : List (List Item)} {bss : List (List Byte)}
    (hne : ∀ l ∈ items, l ≠ [])
    (h : List.Forall₂ (Reads isIn) (sections (items.map fun l => l.flatMap Item.text)) bss) :
    bss.flatten = items.flatten.flatMap (Item.chosen isIn) := by
  rw [sections_items hne] at h
  rw [forall₂_unique h (forall₂_items isIn items), ← List.flatMap_def, ← List.flatMap_id,
    List.flatMap_assoc]
  rfl

/-! ### The law -/

/-- Each section can be read for both directions. -/
def Readable (texts : List Text) : Prop :=
  ∀ s ∈ sections texts, (∃ bs, Reads true s bs) ∧ ∃ bs, Reads false s bs

theorem exists_forall₂_iff {secs : List Text} :
    (∃ bss, List.Forall₂ (Reads isIn) secs bss) ↔ ∀ s ∈ secs, ∃ bs, Reads isIn s bs := by
  induction secs with
  | nil => exact iff_of_true ⟨[], .nil⟩ (List.forall_mem_nil _)
  | cons s secs ih =>
    rw [List.forall_mem_cons, ← ih]
    constructor
    · rintro ⟨_, hbss⟩
      cases hbss with
      | cons hbs hbss => exact ⟨⟨_, hbs⟩, _, hbss⟩
    · rintro ⟨⟨bs, hbs⟩, bss, hbss⟩
      exact ⟨bs :: bss, .cons hbs hbss⟩

theorem stepsBy_count : StepsBy (fun n _ => some (n + 1)) fun n _ => n + 1 :=
  fun _ _ _ _ _ _ => rfl

theorem stepsBy_compare (data : ℕ → Byte) :
    StepsBy (fun st text => (sscanf2hhx text).map (compareByte data st)) (compareByte data) := by
  intro st c d s hc hd
  simp only [sscanf2hhx_byte hc hd, Option.map_some]

theorem foldl_count (bs : List Byte) (n : ℕ) : bs.foldl (fun n _ => n + 1) n = n + bs.length := by
  induction bs generalizing n with
  | nil => rfl
  | cons b bs ih => rw [List.foldl_cons, ih, List.length_cons, Nat.add_right_comm, Nat.add_assoc]

theorem foldl_compareByte (data : ℕ → Byte) (bs : List Byte) (st : Compared) :
    (bs.foldl (compareByte data) st).expected = st.expected ++ bs := by
  induction bs generalizing st with
  | nil => exact (List.append_nil _).symm
  | cons b bs ih =>
    rw [List.foldl_cons, ih]
    exact List.append_assoc st.expected [b] bs

theorem packetLen_iff {texts : List Text} (hvalid : isValidFakePacket texts = true) {n : ℕ} :
    (∃ fuel, packetLen fuel texts isIn = some n) ↔
      ∃ bss, List.Forall₂ (Reads isIn) (sections texts) bss ∧ n = bss.flatten.length := by
  have hall : ∀ s ∈ sections texts, isValidSegment s = true := List.all_eq_true.mp hvalid
  refine (scanSections_iff stepsBy_count hall).trans ?_
  simp only [foldl_count, Nat.zero_add]

/-- Where `packet_len` comes to an end, the sections can be read. -/
theorem FakePacketLaw.readable {texts : List Text} (hvalid : isValidFakePacket texts = true)
    (h : FakePacketLaw texts) : Readable texts := by
  obtain ⟨inLen, outLen, written, expected, hin, hout, -⟩ := h
  obtain ⟨bss, hbss, -⟩ := (packetLen_iff hvalid).mp hin
  obtain ⟨bss', hbss', -⟩ := (packetLen_iff hvalid).mp hout
  exact fun s hs => ⟨exists_forall₂_iff.mp ⟨bss, hbss⟩ s hs,
    exists_forall₂_iff.mp ⟨bss', hbss'⟩ s hs⟩

theorem fakePacketLaw_iff {texts : List Text} (hvalid : isValidFakePacket texts = true) :
    FakePacketLaw texts ↔ Readable texts := by
  have hall : ∀ s ∈ sections texts, isValidSegment s = true := List.all_eq_true.mp hvalid
  constructor
  · exact FakePacketLaw.readable hvalid
  · intro h
    obtain ⟨bss, hbss⟩ := exists_forall₂_iff.mpr fun s hs => (h s hs).1
    obtain ⟨bss', hbss'⟩ := exists_forall₂_iff.mpr fun s hs => (h s hs).2
    refine ⟨bss.flatten.length, bss'.flatten.length, bss.flatten.map some, bss'.flatten,
      (packetLen_iff hvalid).mpr ⟨bss, hbss, rfl⟩, (packetLen_iff hvalid).mpr ⟨bss', hbss', rfl⟩,
      fakePacket_of_reads hbss [], fun data => ?_, List.length_map _, rfl, ?_⟩
    · obtain ⟨fuel, hfuel⟩ := (scanSections_iff (stepsBy_compare data) hall).mpr ⟨bss', hbss', rfl⟩
      have hexpected := foldl_compareByte data bss'.flatten {}
      rw [List.nil_append] at hexpected
      exact ⟨fuel, _, hfuel.trans (congrArg (fun e => some (Compared.mk e _)) hexpected)⟩
    · rintro items hne rfl
      rw [flatten_of_items hne hbss, flatten_of_items hne hbss']
      exact ⟨rfl, rfl⟩

/-- Texts of the grammar can always be read. -/
theorem readable_items {items : List (List Item)} (hne : ∀ l ∈ items, l ≠ []) :
    Readable (items.map fun l => l.flatMap Item.text) := by
  rw [Readable, sections_items hne]
  exact List.forall_mem_map.mpr fun l _ => ⟨⟨_, reads_items true l⟩, _, reads_items false l⟩

/-- A text of the grammar: `aa<01|02>`. -/
def altItems : List (List Item) :=
  [[.byte ⟨'a', 'a', rfl, rfl⟩, .alt [⟨'0', '1', rfl, rfl⟩] [⟨'0', '2', rfl, rfl⟩]]]

theorem altItems_law : FakePacketLaw (altItems.map fun l => l.flatMap Item.text) :=
  (fakePacketLaw_iff (by decide)).mpr (readable_items (by decide))

/-- At a `>` that ends no part `packet_len` stays for ever. -/
theorem not_fakePacketLaw :
    isValidFakePacket [">".toList] = true ∧ ¬ FakePacketLaw [">".toList] := by
  refine ⟨by decide, fun h => ?_⟩
  have hread := FakePacketLaw.readable (by decide) h ">".toList (by decide)
  obtain ⟨bs, hbs⟩ := hread.1
  exact not_ends_stop [] (ends_of_reads stepsBy_count 0 hbs)

end FakePackets

end T4P4S
