/-
The arguments of the program: the port mask and the queues of the lcores.

`parse_portmask` returns the mask or -1 through an `int`, and `parse_args` refuses 0 only.
`parse_lcore_params` looks for pairs of parentheses and reads three numbers from what is
between them; what it does not look at is left out.

* **`portLaw_iff`** — the option is accepted for the documented texts only, and with their
  values: of a port mask, iff it is a number from 1 to `2 ^ 32 - 1` or a multiple of `2 ^ 32`
  other than 0; of the queues, iff the list is a documented one whose numbers `strtoul` reads
  as decimal, or there are no triples in it that the scanner takes.
* `parseLoop_iff_loose` — which texts the scanner takes.
* `Triple.plain_of_head` — numbers without zeros in front are read as decimal.
-/
import T4P4S.Lib.CText
import T4P4S.NicInit

open CText

namespace T4P4S

namespace ParseArgs

/-! ### `rte_strsplit` -/

/-- The text split at `delim`, at most `maxTokens - 1` times. -/
def splitMax (delim : Char) : ℕ → Text → List Text
  | 0, _ => []
  | 1, s => [s]
  | n + 2, s =>
    match s.dropWhile (· ≠ delim) with
    | [] => [s]
    | _ :: rest => s.takeWhile (· ≠ delim) :: splitMax delim (n + 1) rest

/-- `rte_strsplit` of DPDK: up to `maxTokens` tokens.  If the last one is empty it may be
missing, and if it begins with the delimiter it may end there. -/
structure RteStrsplit where
  split : Text → ℕ → Char → List Text
  documented : ∀ s n delim, split s n delim = splitMax delim n s ∨
    ∃ tokens last, splitMax delim n s = tokens ++ [last] ∧
      (last = [] ∧ split s n delim = tokens ∨
        last.head? = some delim ∧ split s n delim = tokens ++ [[]])

/-! ### The parsers -/

/-- `parse_portmask` -/
def parsePortmask (portmask : Text) : ℤ :=
  let pm := strtoul portmask 16
  if portmask = [] ∨ pm.rest ≠ [] then -1
  else if pm.value = 0 then -1
  else (pm.value : ℤ).bmod (2 ^ 32)

/-- `MAX_LCORE_PARAMS` -/
def maxLcoreParams : ℕ := 1024

/-- A field of a triple. -/
def parseField (strFld : Text) : Option ℕ :=
  let fld := strtoul strFld 0
  if fld.erange ∨ fld.rest = strFld ∨ 255 < fld.value then none else some fld.value

variable (S : RteStrsplit)

/-- What is between two parentheses. -/
def parseFields (s : Text) : Option LcoreParams :=
  match S.split s 3 ',' with
  | [port, queue, lcore] => do
    let portId ← parseField port
    let queueId ← parseField queue
    let lcoreId ← parseField lcore
    return ⟨portId, queueId, lcoreId⟩
  | _ => none

/-- The loop of `parse_lcore_params`, at `p0` and with what is in `lcore_params` so far.
`none` is the result -1. -/
def parseLoop (p0 : Text) (params : List LcoreParams) : Option (List LcoreParams) :=
  match _ : strchr p0 '(' with
  | none => some params
  | some paren =>
    let p := paren.tail
    match _ : strchr p ')' with
    | none => none
    | some p0 =>
      let size := p.length - p0.length
      if 256 ≤ size then none
      else
        match parseFields S (p.take size) with
        | none => none
        | some t =>
          if maxLcoreParams ≤ params.length then none
          else parseLoop p0 (params ++ [t])
termination_by p0.length
decreasing_by
  rename_i hopen hclose _ _
  obtain ⟨pre, rest, rfl, rfl, -⟩ := exists_of_strchr hopen
  obtain ⟨pre', rest', hrest, rfl, -⟩ := exists_of_strchr hclose
  have hrest' : rest = pre' ++ ')' :: rest' := hrest
  rw [hrest']
  simp only [List.length_append, List.length_cons]
  omega

/-- `parse_lcore_params` -/
def parseLcoreParams (qArg : Text) : Option (List LcoreParams) := parseLoop S qArg []

/-! ### The options -/

/-- What the options set. -/
structure Args where
  enabledPortMask : ℕ := 0
  lcoreParams : List LcoreParams := []
  numaOn : Bool := true

/-- An option as `getopt_long` returns it, with its argument. -/
inductive CmdOption
  | portmask (optarg : Text)
  | promiscuous
  | config (optarg : Text)
  | noNuma
  | hashEntryNum (optarg : Text)
  | unknown

/-- A turn of the loop in `parse_args`; `none` is the result -1. -/
def parseOption (a : Args) : CmdOption → Option Args
  | .portmask optarg =>
    let mask := (parsePortmask optarg % 2 ^ 32).toNat
    if mask = 0 then none else some { a with enabledPortMask := mask }
  | .promiscuous => some a
  | .config optarg =>
    (parseLcoreParams S optarg).map fun params => { a with lcoreParams := params }
  | .noNuma => some { a with numaOn := false }
  | .hashEntryNum _ => some a
  | .unknown => none

/-- `parse_args`, with the options in the order in which `getopt_long` returns them. -/
def parseArgs (a : Args) (opts : List CmdOption) : Option Args := opts.foldlM (parseOption S) a

/-! ### The documented texts -/

/-- A number from 0 to 255. -/
structure Numeral where
  text : Text
  ne : text ≠ []
  digits : ∀ d ∈ text, isDigit 10 d
  le : number 10 text ≤ 255

/-- A triple `(port,queue,lcore)`. -/
structure Triple where
  port : Numeral
  queue : Numeral
  lcore : Numeral

namespace Triple

variable (t : Triple)

/-- The text between the parentheses. -/
def body : Text := t.port.text ++ ',' :: (t.queue.text ++ ',' :: t.lcore.text)

def text : Text := '(' :: (t.body ++ [')'])

def value : LcoreParams :=
  ⟨number 10 t.port.text, number 10 t.queue.text, number 10 t.lcore.text⟩

end Triple

/-- The triples behind the first one, each with its comma. -/
def tailText : List Triple → Text
  | [] => []
  | t :: ts => ',' :: (t.text ++ tailText ts)

/-- The list that the usage text describes. -/
def ConfigText (s : Text) (ts : List Triple) : Prop :=
  ts.length ≤ maxLcoreParams ∧ ∃ t ts', ts = t :: ts' ∧ s = t.text ++ tailText ts'

/-- A hexadecimal number from 1 to `2 ^ 32 - 1`. -/
def MaskText (s : Text) (v : ℕ) : Prop :=
  (∃ ds, HexText s ds ∧ v = number 16 ds) ∧ 1 ≤ v ∧ v < 2 ^ 32

/-- The two options with a text to parse. -/
inductive PortOption
  | portmask (s : Text)
  | config (s : Text)

def PortOption.option : PortOption → CmdOption
  | portmask s => .portmask s
  | config s => .config s

/-- What the option has to set, if its text is a documented one. -/
def PortOption.Means : PortOption → (Args → Args) → Prop
  | portmask s, f => ∃ v, MaskText s v ∧ f = fun a => { a with enabledPortMask := v }
  | config s, f =>
    ∃ ts, ConfigText s ts ∧ f = fun a => { a with lcoreParams := ts.map Triple.value }

/-- A documented text is accepted with what it means, and with any other one `parse_args`
fails, whatever the other options are. -/
def PortLaw (o : PortOption) : Prop :=
  (∀ f, o.Means f → ∀ a, parseOption S a o.option = some (f a)) ∧
    ((¬ ∃ f, o.Means f) → ∀ a pre post, parseArgs S a (pre ++ o.option :: post) = none)

/-! ### What the scanner takes -/

/-- A field that begins with a number for `strtoul`. -/
def Reads (f : Text) (v : ℕ) : Prop :=
  (strtoul f 0).value = v ∧ (strtoul f 0).erange = false ∧ (strtoul f 0).rest ≠ f ∧ v ≤ 255

/-- Three fields; commas behind the second one are part of the third. -/
def FieldsText (s : Text) (t : LcoreParams) : Prop :=
  ∃ port queue lcore, s = port ++ ',' :: (queue ++ ',' :: lcore) ∧ ',' ∉ port ∧ ',' ∉ queue ∧
    Reads port t.portId ∧ Reads queue t.queueId ∧ Reads lcore t.lcoreId

/-- A text that the scanner takes with `n` triples before: anything without an opening
parenthesis may stand before, between and behind the triples. -/
inductive Loose : ℕ → Text → List LcoreParams → Prop
  | done {n : ℕ} {junk : Text} : '(' ∉ junk → Loose n junk []
  | triple {n : ℕ} {junk s rest : Text} {t : LcoreParams} {ts : List LcoreParams} :
      '(' ∉ junk → ')' ∉ s → s.length < 256 → FieldsText s t → n < maxLcoreParams →
      Loose (n + 1) (')' :: rest) ts → Loose n (junk ++ '(' :: (s ++ ')' :: rest)) (t :: ts)

/-- The text fits into the buffer and its numbers are read as they are meant. -/
def Triple.Plain (t : Triple) : Prop :=
  t.body.length < 256 ∧ Reads t.port.text (number 10 t.port.text) ∧
    Reads t.queue.text (number 10 t.queue.text) ∧ Reads t.lcore.text (number 10 t.lcore.text)

/-- The texts with which the option does what it should. -/
def PortOption.Ok : PortOption → Prop
  | portmask s => (∃ v, MaskText s v) ∨
      ((strtoul s 16).rest = [] ∧ (strtoul s 16).value ≠ 0 ∧ 2 ^ 32 ∣ (strtoul s 16).value)
  | config s => ((∃ ts, ConfigText s ts) ∧ ∀ ts, ConfigText s ts → ∀ t ∈ ts, t.Plain) ∨
      ((¬ ∃ ts, ConfigText s ts) ∧ ¬ ∃ ts, Loose 0 s ts)

/-! ### Splitting -/

variable {S}

theorem splitMax_length_le (delim : Char) (n : ℕ) (s : Text) :
    (splitMax delim n s).length ≤ n := by
  induction n using Nat.twoStepInduction generalizing s with
  | zero => exact le_rfl
  | one => exact le_rfl
  | more n _ ih =>
    rw [splitMax]
    split
    · exact Nat.le_add_left 1 (n + 1)
    · exact Nat.succ_le_succ (ih _)

theorem splitMax_append {delim : Char} {pre : Text} (hpre : delim ∉ pre) (n : ℕ) (s : Text) :
    splitMax delim (n + 2) (pre ++ delim :: s) = pre :: splitMax delim (n + 1) s := by
  have hne : ∀ c ∈ pre, decide (c ≠ delim) = true := fun c hc =>
    decide_eq_true fun heq => hpre (heq ▸ hc)
  have htake : (pre ++ delim :: s).takeWhile (· ≠ delim) = pre := by
    rw [List.takeWhile_append_of_pos hne, List.takeWhile_cons_of_neg (by simp), List.append_nil]
  have hdrop : (pre ++ delim :: s).dropWhile (· ≠ delim) = delim :: s := by
    rw [List.dropWhile_append_of_pos hne, List.dropWhile_cons_of_neg (by simp)]
  rw [splitMax, hdrop, htake]

theorem splitMax_of_notMem {delim : Char} {s : Text} (hs : delim ∉ s) (n : ℕ) :
    splitMax delim (n + 2) s = [s] := by
  have hdrop : s.dropWhile (· ≠ delim) = [] :=
    List.dropWhile_eq_nil_iff.mpr fun c hc => decide_eq_true fun heq => hs (heq ▸ hc)
  rw [splitMax, hdrop]

theorem splitMax_three {s a b c : Text} (h : splitMax ',' 3 s = [a, b, c]) :
    s = a ++ ',' :: (b ++ ',' :: c) ∧ ',' ∉ a ∧ ',' ∉ b := by
  by_cases hs : ',' ∈ s
  · obtain ⟨pre, rest, rfl, hpre⟩ := List.eq_append_cons_of_mem hs
    rw [splitMax_append hpre] at h
    obtain ⟨rfl, hsecond⟩ := List.cons.inj h
    by_cases hrest : ',' ∈ rest
    · obtain ⟨pre', rest', rfl, hpre'⟩ := List.eq_append_cons_of_mem hrest
      rw [splitMax_append hpre', splitMax] at hsecond
      obtain ⟨rfl, hthird⟩ := List.cons.inj hsecond
      obtain ⟨rfl, -⟩ := List.cons.inj hthird
      exact ⟨rfl, hpre, hpre'⟩
    · rw [splitMax_of_notMem hrest] at hsecond
      exact nomatch hsecond
  · rw [splitMax_of_notMem hs] at h
    exact nomatch h

/-- The tokens that are three are known, if the last one is not empty. -/
theorem split_three_iff {s a b c : Text} (hc : c ≠ []) (hcomma : c.head? ≠ some ',') :
    S.split s 3 ',' = [a, b, c] ↔ s = a ++ ',' :: (b ++ ',' :: c) ∧ ',' ∉ a ∧ ',' ∉ b := by
  constructor
  · intro h
    obtain heq | ⟨tokens, last, hmax, ⟨-, hmissing⟩ | ⟨-, hcut⟩⟩ := S.documented s 3 ','
    · exact splitMax_three (heq.symm.trans h)
    · -- a token behind the third one would be a fourth
      have hle := splitMax_length_le ',' 3 s
      rw [hmax, ← hmissing, h, List.length_append] at hle
      exact absurd hle (Nat.not_succ_le_self 3)
    · have hlast := congrArg List.getLast? (h.symm.trans hcut)
      rw [List.getLast?_concat] at hlast
      exact absurd (Option.some.inj hlast) hc
  · rintro ⟨rfl, ha, hb⟩
    have hthree : splitMax ',' 3 (a ++ ',' :: (b ++ ',' :: c)) = [a, b, c] := by
      rw [splitMax_append ha, splitMax_append hb, splitMax]
    obtain heq | ⟨tokens, last, hmax, hlast⟩ :=
      S.documented (a ++ ',' :: (b ++ ',' :: c)) 3 ','
    · exact heq.trans hthree
    · have hc' := congrArg List.getLast? (hthree.symm.trans hmax)
      rw [List.getLast?_concat] at hc'
      obtain rfl : c = last := Option.some.inj hc'
      obtain ⟨hnil, -⟩ | ⟨hhead, -⟩ := hlast
      · exact absurd hnil hc
      · exact absurd hhead hcomma

/-! ### One triple -/

theorem parseField_eq_some_iff {f : Text} {v : ℕ} : parseField f = some v ↔ Reads f v := by
  rw [parseField, Reads]
  split
  · next h =>
    refine iff_of_false (fun h => nomatch h) ?_
    rintro ⟨rfl, herange, hrest, hle⟩
    rcases h with h | h | h
    · exact absurd (h.symm.trans herange) (by decide)
    · exact hrest h
    · omega
  · next h =>
    rw [not_or, not_or, Bool.not_eq_true] at h
    constructor
    · intro heq
      obtain rfl := Option.some.inj heq
      exact ⟨rfl, h.1, h.2.1, not_lt.mp h.2.2⟩
    · rintro ⟨rfl, -⟩
      rfl

theorem reads_ne_nil {f : Text} {v : ℕ} (h : Reads f v) : f ≠ [] := by
  rintro rfl
  exact h.2.2.1 (by decide)

/-- A comma is no number. -/
theorem reads_head_ne {f : Text} {v : ℕ} (h : Reads f v) : f.head? ≠ some ',' := by
  intro hhead
  obtain ⟨f', rfl⟩ := List.head?_eq_some_iff.mp hhead
  have hread : strtoul (',' :: f') 0 = ⟨0, ',' :: f', false⟩ := rfl
  exact h.2.2.1 (congrArg Strtoul.rest hread)

theorem parseFields_eq_some_iff {s : Text} {t : LcoreParams} :
    parseFields S s = some t ↔ FieldsText s t := by
  constructor
  · intro h
    rw [parseFields] at h
    split at h
    · next port queue lcore hsplit =>
      obtain ⟨portId, hport, h⟩ := Option.bind_eq_some_iff.mp h
      obtain ⟨queueId, hqueue, h⟩ := Option.bind_eq_some_iff.mp h
      obtain ⟨lcoreId, hlcore, h⟩ := Option.bind_eq_some_iff.mp h
      obtain rfl := Option.some.inj h
      have hreads := parseField_eq_some_iff.mp hlcore
      obtain ⟨hs, hcomma, hcomma'⟩ :=
        (split_three_iff (reads_ne_nil hreads) (reads_head_ne hreads)).mp hsplit
      exact ⟨port, queue, lcore, hs, hcomma, hcomma', parseField_eq_some_iff.mp hport,
        parseField_eq_some_iff.mp hqueue, hreads⟩
    · exact nomatch h
  · rintro ⟨port, queue, lcore, hs, hcomma, hcomma', hport, hqueue, hlcore⟩
    have hsplit : S.split s 3 ',' = [port, queue, lcore] :=
      (split_three_iff (reads_ne_nil hlcore) (reads_head_ne hlcore)).mpr ⟨hs, hcomma, hcomma'⟩
    rw [parseFields, hsplit]
    simp only [parseField_eq_some_iff.mpr hport, parseField_eq_some_iff.mpr hqueue,
      parseField_eq_some_iff.mpr hlcore]
    rfl

/-! ### The loop -/

theorem parseLoop_done {p0 : Text} (h : '(' ∉ p0) (params : List LcoreParams) :
    parseLoop S p0 params = some params := by
  rw [parseLoop]
  split
  · rfl
  · next hopen =>
    rw [strchr_eq_none_iff.mpr h] at hopen
    exact nomatch hopen

/-- What the loop does at the next opening parenthesis. -/
theorem parseLoop_open {junk p : Text} (hjunk : '(' ∉ junk) (params : List LcoreParams) :
    parseLoop S (junk ++ '(' :: p) params =
      match strchr p ')' with
      | none => none
      | some p0 =>
        if 256 ≤ p.length - p0.length then none
        else
          match parseFields S (p.take (p.length - p0.length)) with
          | none => none
          | some t =>
            if maxLcoreParams ≤ params.length then none else parseLoop S p0 (params ++ [t]) := by
  rw [parseLoop]
  split
  · next hopen =>
    rw [strchr_append hjunk] at hopen
    exact nomatch hopen
  · next hopen =>
    rw [strchr_append hjunk] at hopen
    obtain rfl := Option.some.inj hopen
    dsimp only [List.tail_cons]
    split
    · next hclose => rw [hclose]
    · next hclose => rw [hclose]

theorem parseLoop_unclosed {junk p : Text} (hjunk : '(' ∉ junk) (hp : ')' ∉ p)
    (params : List LcoreParams) : parseLoop S (junk ++ '(' :: p) params = none := by
  rw [parseLoop_open hjunk, strchr_eq_none_iff.mpr hp]

/-- What the loop does with the text between the next parentheses. -/
theorem parseLoop_triple {junk s rest : Text} (hjunk : '(' ∉ junk) (hs : ')' ∉ s)
    (params : List LcoreParams) :
    parseLoop S (junk ++ '(' :: (s ++ ')' :: rest)) params =
      if 256 ≤ s.length then none
      else (parseFields S s).bind fun t =>
        if maxLcoreParams ≤ params.length then none
        else parseLoop S (')' :: rest) (params ++ [t]) := by
  have hsize : (s ++ ')' :: rest).length - (')' :: rest).length = s.length := by
    rw [List.length_append, Nat.add_sub_cancel]
  rw [parseLoop_open hjunk, strchr_append hs]
  dsimp only
  rw [hsize, List.take_left]
  split
  · rfl
  · cases parseFields S s <;> rfl

theorem parseLoop_of_loose {s : Text} {params ts : List LcoreParams}
    (h : Loose params.length s ts) : parseLoop S s params = some (params ++ ts) := by
  generalize hn : params.length = n at h
  induction h generalizing params with
  | done hjunk => rw [parseLoop_done hjunk, List.append_nil]
  | @triple n junk s rest t ts hjunk hs hlen hfields hlt _ ih =>
    have hnext : (params ++ [t]).length = n + 1 := by rw [List.length_append, hn]; rfl
    rw [parseLoop_triple hjunk hs, if_neg (not_le.mpr hlen), parseFields_eq_some_iff.mpr hfields,
      Option.bind_some, if_neg (not_le.mpr (hn ▸ hlt)), ih hnext, List.append_assoc,
      List.singleton_append]

theorem loose_of_parseLoop (s : Text) {params out : List LcoreParams}
    (h : parseLoop S s params = some out) :
    ∃ ts, out = params ++ ts ∧ Loose params.length s ts := by
  induction hn : s.length using Nat.strong_induction_on generalizing s params with
  | _ n ih =>
    by_cases hopen : '(' ∈ s
    · obtain ⟨junk, p, rfl, hjunk⟩ := List.eq_append_cons_of_mem hopen
      by_cases hclose : ')' ∈ p
      · obtain ⟨body, rest, rfl, hbody⟩ := List.eq_append_cons_of_mem hclose
        rw [parseLoop_triple hjunk hbody] at h
        split at h
        · exact nomatch h
        · next hlen =>
          obtain ⟨t, ht, h⟩ := Option.bind_eq_some_iff.mp h
          split at h
          · exact nomatch h
          · next hmax =>
            have hshort : (')' :: rest).length < n := by
              rw [← hn]
              simp only [List.length_append, List.length_cons]
              omega
            obtain ⟨ts, hout, hloose⟩ := ih _ hshort (')' :: rest) h rfl
            rw [List.length_append] at hloose
            refine ⟨t :: ts, by rw [hout, List.append_assoc, List.singleton_append], ?_⟩
            exact .triple hjunk hbody (not_le.mp hlen) (parseFields_eq_some_iff.mp ht)
              (not_le.mp hmax) hloose
      · rw [parseLoop_unclosed hjunk hclose] at h
        exact nomatch h
    · rw [parseLoop_done hopen] at h
      exact ⟨[], by rw [List.append_nil]; exact (Option.some.inj h).symm, .done hopen⟩

theorem parseLoop_iff_loose {s : Text} {ts : List LcoreParams} :
    parseLcoreParams S s = some ts ↔ Loose 0 s ts := by
  constructor
  · intro h
    obtain ⟨ts', rfl, hloose⟩ := loose_of_parseLoop s h
    exact hloose
  · intro h
    have hloop : parseLoop S s [] = some ([] ++ ts) := parseLoop_of_loose h
    exact hloop

/-! ### Documented lists -/

theorem notMem_of_digits {s : Text} (hs : ∀ d ∈ s, isDigit 10 d) {c : Char}
    (hc : isDigit 10 c = false) : c ∉ s :=
  fun hmem => Bool.false_ne_true (hc.symm.trans (hs c hmem))

theorem Triple.close_notMem (t : Triple) : ')' ∉ t.body := by
  have hnot : ∀ n : Numeral, ')' ∉ n.text := fun n => notMem_of_digits n.digits rfl
  rw [body, List.mem_append, List.mem_cons, List.mem_append, List.mem_cons]
  rintro (h | h | h | h | h)
  · exact hnot _ h
  · exact absurd h (by decide)
  · exact hnot _ h
  · exact absurd h (by decide)
  · exact hnot _ h

theorem Numeral.comma_notMem (n : Numeral) : ',' ∉ n.text := notMem_of_digits n.digits rfl

/-- The commas of a triple separate its numbers. -/
theorem Triple.texts_eq {t : Triple} {port queue lcore : Text} (hport : ',' ∉ port)
    (hqueue : ',' ∉ queue) (h : t.body = port ++ ',' :: (queue ++ ',' :: lcore)) :
    t.port.text = port ∧ t.queue.text = queue ∧ t.lcore.text = lcore := by
  have hsplit := congrArg (splitMax ',' 3) h
  rw [body, splitMax_append t.port.comma_notMem, splitMax_append t.queue.comma_notMem, splitMax,
    splitMax_append hport, splitMax_append hqueue, splitMax] at hsplit
  obtain ⟨hfirst, hrest⟩ := List.cons.inj hsplit
  obtain ⟨hsecond, hrest⟩ := List.cons.inj hrest
  exact ⟨hfirst, hsecond, (List.cons.inj hrest).1⟩

/-- The fields of a documented triple are its numbers. -/
theorem Triple.fieldsText_iff (t : Triple) (p : LcoreParams) :
    FieldsText t.body p ↔ Reads t.port.text p.portId ∧ Reads t.queue.text p.queueId ∧
      Reads t.lcore.text p.lcoreId := by
  constructor
  · rintro ⟨port, queue, lcore, heq, hcomma, hcomma', hreads⟩
    obtain ⟨hport, hqueue, hlcore⟩ := texts_eq hcomma hcomma' heq
    rwa [hport, hqueue, hlcore]
  · exact fun hreads => ⟨_, _, _, rfl, t.port.comma_notMem, t.queue.comma_notMem, hreads⟩

theorem parseLoop_triple_text {junk : Text} (hjunk : '(' ∉ junk) (t : Triple)
    (ts : List Triple) (rest : Text) (params : List LcoreParams) :
    parseLoop S (junk ++ (t.text ++ rest)) params =
        some (params ++ (t :: ts).map Triple.value) ↔
      t.Plain ∧ params.length < maxLcoreParams ∧ parseLoop S (')' :: rest) (params ++ [t.value]) =
        some (params ++ [t.value] ++ ts.map Triple.value) := by
  have htext : t.text ++ rest = '(' :: (t.body ++ ')' :: rest) := by
    rw [Triple.text, List.cons_append, List.append_assoc, List.singleton_append]
  have hout : params ++ (t :: ts).map Triple.value =
      params ++ [t.value] ++ ts.map Triple.value := by
    rw [List.map_cons, List.append_assoc, List.singleton_append]
  rw [htext, parseLoop_triple hjunk t.close_notMem, hout]
  constructor
  · intro h
    split at h
    · exact nomatch h
    · next hlen =>
      obtain ⟨p, hp, h⟩ := Option.bind_eq_some_iff.mp h
      split at h
      · exact nomatch h
      · next hmax =>
        obtain ⟨ps, hps, -⟩ := loose_of_parseLoop _ h
        have hvalue : t.value = p := by
          rw [List.append_assoc, List.append_assoc, List.append_cancel_left_eq] at hps
          exact (List.cons.inj hps).1
        obtain rfl := hvalue
        have hreads := (t.fieldsText_iff t.value).mp (parseFields_eq_some_iff.mp hp)
        exact ⟨⟨not_le.mp hlen, hreads⟩, not_le.mp hmax, h⟩
  · rintro ⟨⟨hlen, hreads⟩, hmax, h⟩
    have hp : parseFields S t.body = some t.value :=
      parseFields_eq_some_iff.mpr ((t.fieldsText_iff t.value).mpr hreads)
    rw [if_neg (not_le.mpr hlen), hp, Option.bind_some, if_neg (not_le.mpr hmax)]
    exact h

theorem parseLoop_tailText (ts : List Triple) {params : List LcoreParams}
    (hlen : params.length + ts.length ≤ maxLcoreParams) :
    parseLoop S (')' :: tailText ts) params = some (params ++ ts.map Triple.value) ↔
      ∀ t ∈ ts, t.Plain := by
  induction ts generalizing params with
  | nil =>
    refine iff_of_true ?_ (List.forall_mem_nil _)
    rw [tailText, parseLoop_done (by decide), List.map_nil, List.append_nil]
  | cons t ts ih =>
    rw [List.length_cons] at hlen
    have hjunk : '(' ∉ [')', ','] := by decide
    refine (parseLoop_triple_text hjunk t ts (tailText ts) params).trans ?_
    rw [List.forall_mem_cons, ih (by rw [List.length_append]; simp; omega)]
    exact and_congr_right fun _ => and_iff_right (by omega)

/-- A documented list is taken as it is meant iff its triples are plain. -/
theorem parseLcoreParams_config {s : Text} {ts : List Triple} (h : ConfigText s ts) :
    parseLcoreParams S s = some (ts.map Triple.value) ↔ ∀ t ∈ ts, t.Plain := by
  obtain ⟨hlen, t, ts, rfl, rfl⟩ := h
  rw [List.length_cons] at hlen
  have hjunk : '(' ∉ [] := List.not_mem_nil
  refine (parseLoop_triple_text hjunk t ts (tailText ts) []).trans ?_
  rw [List.forall_mem_cons, parseLoop_tailText ts (by simp; omega)]
  exact and_congr_right fun _ => and_iff_right (by decide)

/-- Numbers without zeros in front are read as they are meant. -/
theorem Numeral.reads (n : Numeral) (h : n.text = ['0'] ∨ n.text.head? ≠ some '0') :
    Reads n.text (number 10 n.text) := by
  have hread := strtoul_decimal n.ne n.digits h (lt_of_le_of_lt n.le (by decide))
  rw [Reads, hread]
  exact ⟨rfl, rfl, n.ne.symm, n.le⟩

theorem Triple.plain_of_head {t : Triple} (hlen : t.body.length < 256)
    (h : ∀ n ∈ [t.port, t.queue, t.lcore], n.text = ['0'] ∨ n.text.head? ≠ some '0') :
    t.Plain :=
  ⟨hlen, t.port.reads (h _ (by simp)), t.queue.reads (h _ (by simp)),
    t.lcore.reads (h _ (by simp))⟩

/-! ### The law -/

/-- The mask that gets into `enabled_port_mask`: an error is the mask of all ports. -/
theorem parsePortmask_mod (s : Text) :
    (parsePortmask s % 2 ^ 32).toNat =
      if s ≠ [] ∧ (strtoul s 16).rest = [] ∧ (strtoul s 16).value ≠ 0 then
        (strtoul s 16).value % 2 ^ 32
      else 2 ^ 32 - 1 := by
  have hfail : ((-1 : ℤ) % 2 ^ 32).toNat = 2 ^ 32 - 1 := by decide
  simp only [parsePortmask]
  by_cases hread : s = [] ∨ (strtoul s 16).rest ≠ []
  · rw [if_pos hread, hfail, if_neg]
    rintro ⟨hne, hrest, -⟩
    exact hread.elim hne fun h => h hrest
  · obtain ⟨hne, hrest⟩ := not_or.mp hread
    rw [if_neg hread]
    by_cases hzero : (strtoul s 16).value = 0
    · rw [if_pos hzero, hfail, if_neg fun h => h.2.2 hzero]
    · rw [if_neg hzero, if_pos ⟨hne, not_not.mp hrest, hzero⟩,
        show ((2 : ℤ) ^ 32) = ((2 ^ 32 : ℕ) : ℤ) from rfl]
      have hmod := Int.bmod_emod (x := ((strtoul s 16).value : ℤ)) (m := 2 ^ 32)
      rw [hmod]
      exact Int.toNat_natCast _

theorem parseOption_portmask (a : Args) (s : Text) :
    parseOption S a (.portmask s) =
      if (parsePortmask s % 2 ^ 32).toNat = 0 then none
      else some { a with enabledPortMask := (parsePortmask s % 2 ^ 32).toNat } := rfl

theorem parseOption_portmask_eq_none_iff (a : Args) (s : Text) :
    parseOption S a (.portmask s) = none ↔ (strtoul s 16).rest = [] ∧
      (strtoul s 16).value ≠ 0 ∧ 2 ^ 32 ∣ (strtoul s 16).value := by
  have hnone : parseOption S a (.portmask s) = none ↔ (parsePortmask s % 2 ^ 32).toNat = 0 := by
    rw [parseOption_portmask]
    split
    · next h => exact iff_of_true rfl h
    · next h => exact iff_of_false (fun h => nomatch h) h
  rw [hnone, parsePortmask_mod, Nat.dvd_iff_mod_eq_zero]
  split
  · next h => exact ⟨fun hmod => ⟨h.2.1, h.2.2, hmod⟩, fun hmod => hmod.2.2⟩
  · next h =>
    refine iff_of_false (by decide) ?_
    rintro ⟨hrest, hne, -⟩
    refine h ⟨?_, hrest, hne⟩
    rintro rfl
    exact hne (by decide)

theorem parseOption_mask {s : Text} {v : ℕ} (h : MaskText s v) (a : Args) :
    parseOption S a (.portmask s) = some { a with enabledPortMask := v } := by
  obtain ⟨⟨ds, hds, rfl⟩, hpos, hlt⟩ := h
  have hread := strtoul_hex hds (hlt.trans (by decide))
  have hnil : s ≠ [] := by
    rintro rfl
    rcases hds.1 with h | h | h
    · exact hds.2.1 h.symm
    · exact nomatch h
    · exact nomatch h
  have hmod : number 16 ds % 2 ^ 32 = number 16 ds := Nat.mod_eq_of_lt hlt
  have hne : number 16 ds ≠ 0 := Nat.one_le_iff_ne_zero.mp hpos
  have hmask : (parsePortmask s % 2 ^ 32).toNat = number 16 ds := by
    rw [parsePortmask_mod, hread, if_pos ⟨hnil, rfl, hne⟩]
    exact hmod
  rw [parseOption_portmask, hmask, if_neg hne]

theorem parseOption_config {a : Args} {s : Text} {params : List LcoreParams} :
    parseOption S a (.config s) = some { a with lcoreParams := params } ↔
      parseLcoreParams S s = some params := by
  rw [parseOption, Option.map_eq_some_iff]
  constructor
  · rintro ⟨params', h, heq⟩
    exact h.trans (congrArg (fun a => some a.lcoreParams) heq)
  · exact fun h => ⟨params, h, rfl⟩

/-- `parse_args` fails whatever the other options are iff the option fails by itself. -/
theorem parseArgs_eq_none_iff (o : CmdOption) :
    (∀ a pre post, parseArgs S a (pre ++ o :: post) = none) ↔ ∀ a, parseOption S a o = none := by
  constructor
  · intro h a
    have hat : (parseOption S a o).bind some = none := h a [] []
    rwa [Option.bind_fun_some] at hat
  · intro h a pre post
    rw [parseArgs, List.foldlM_append]
    cases hpre : pre.foldlM (parseOption S) a with
    | none => rfl
    | some a' =>
      show ((o :: post).foldlM (parseOption S) a' : Option Args) = none
      rw [List.foldlM_cons, h a']
      rfl

theorem portLaw_iff (S : RteStrsplit) (o : PortOption) : PortLaw S o ↔ o.Ok := by
  rw [PortLaw, parseArgs_eq_none_iff]
  cases o with
  | portmask s =>
    by_cases hmask : ∃ v, MaskText s v
    · refine iff_of_true ⟨?_, fun h => ?_⟩ (.inl hmask)
      · rintro f ⟨v, hv, rfl⟩ a
        exact parseOption_mask hv a
      · obtain ⟨v, hv⟩ := hmask
        exact absurd ⟨_, v, hv, rfl⟩ h
    · have hmeans : ∀ f, ¬ (PortOption.portmask s).Means f := fun f ⟨v, hv, _⟩ => hmask ⟨v, hv⟩
      constructor
      · rintro ⟨-, h⟩
        have hnone := h (fun ⟨f, hf⟩ => hmeans f hf) {}
        exact .inr ((parseOption_portmask_eq_none_iff {} s).mp hnone)
      · rintro (h | h)
        · exact absurd h hmask
        · exact ⟨fun f hf => absurd hf (hmeans f),
            fun _ a => (parseOption_portmask_eq_none_iff a s).mpr h⟩
  | config s =>
    by_cases hconfig : ∃ ts, ConfigText s ts
    · constructor
      · rintro ⟨h, -⟩
        refine .inl ⟨hconfig, fun ts hts => ?_⟩
        have hopt := h _ ⟨ts, hts, rfl⟩ {}
        exact (parseLcoreParams_config hts).mp (parseOption_config.mp hopt)
      · rintro (⟨-, h⟩ | ⟨hnone, -⟩)
        · refine ⟨?_, fun hmeans => ?_⟩
          · rintro f ⟨ts, hts, rfl⟩ a
            exact parseOption_config.mpr ((parseLcoreParams_config hts).mpr (h ts hts))
          · obtain ⟨ts, hts⟩ := hconfig
            exact absurd ⟨_, ts, hts, rfl⟩ hmeans
        · exact absurd hconfig hnone
    · have hmeans : ∀ f, ¬ (PortOption.config s).Means f := fun f ⟨ts, hts, _⟩ => hconfig ⟨ts, hts⟩
      have hloose : (∀ a, parseOption S a (.config s) = none) ↔ ¬ ∃ ts, Loose 0 s ts := by
        simp only [← parseLoop_iff_loose (S := S), parseOption, Option.map_eq_none_iff]
        rw [← Option.isSome_iff_exists, Option.not_isSome_iff_eq_none]
        exact ⟨fun h => h {}, fun h _ => h⟩
      constructor
      · rintro ⟨-, h⟩
        exact .inr ⟨hconfig, hloose.mp (h fun ⟨f, hf⟩ => hmeans f hf)⟩
      · rintro (⟨h, -⟩ | ⟨-, h⟩)
        · exact absurd h hconfig
        · exact ⟨fun f hf => absurd hf (hmeans f), fun _ => hloose.mpr h⟩

/-- The tokens of DPDK's function: no token is begun at the end of the text, and a delimiter at
the start of a token is overwritten, also in the last one. -/
def dpdkTokens (s : Text) (n : ℕ) (delim : Char) : List Text :=
  let tokens := splitMax delim n s
  match tokens.getLast? with
  | some [] => tokens.dropLast
  | some (c :: _) => if c = delim then tokens.dropLast ++ [[]] else tokens
  | none => tokens

theorem dpdkTokens_documented (s : Text) (n : ℕ) (delim : Char) :
    dpdkTokens s n delim = splitMax delim n s ∨
      ∃ tokens last, splitMax delim n s = tokens ++ [last] ∧
        (last = [] ∧ dpdkTokens s n delim = tokens ∨
          last.head? = some delim ∧ dpdkTokens s n delim = tokens ++ [[]]) := by
  rw [dpdkTokens]
  split
  · next h => exact .inr ⟨_, [], (List.dropLast_append_getLast? _ h).symm, .inl ⟨rfl, rfl⟩⟩
  · next c rest h =>
    split
    · next heq =>
      refine .inr ⟨_, c :: rest, (List.dropLast_append_getLast? _ h).symm, .inr ⟨?_, rfl⟩⟩
      exact congrArg some heq
    · exact .inl rfl
  · exact .inl rfl

def dpdkStrsplit : RteStrsplit := ⟨dpdkTokens, dpdkTokens_documented⟩

theorem numeral_digit {c : Char} (h : isDigit 10 c) : ∀ d ∈ [c], isDigit 10 d :=
  List.forall_mem_singleton.mpr h

/-- `(0,1,2)` -/
def zeroOneTwo : Triple where
  port := ⟨['0'], List.cons_ne_nil _ _, numeral_digit rfl, by decide⟩
  queue := ⟨['1'], List.cons_ne_nil _ _, numeral_digit rfl, by decide⟩
  lcore := ⟨['2'], List.cons_ne_nil _ _, numeral_digit rfl, by decide⟩

/-- The ports 0 and 1, and the queue 1 of port 0 for the lcore 2. -/
theorem options_portLaw : PortLaw dpdkStrsplit (.portmask "0x3".toList) ∧
    PortLaw dpdkStrsplit (.config "(0,1,2)".toList) := by
  have hhex : HexText "0x3".toList ['3'] :=
    ⟨.inr (.inl rfl), by decide, List.forall_mem_singleton.mpr (by decide)⟩
  refine ⟨(portLaw_iff dpdkStrsplit _).mpr (.inl ⟨3, ⟨['3'], hhex, rfl⟩, by decide, by decide⟩),
    (portLaw_iff dpdkStrsplit _).mpr (.inl ⟨⟨[zeroOneTwo], by decide, _, [], rfl, rfl⟩, ?_⟩)⟩
  rintro _ ⟨-, t, ts, rfl, htext⟩
  have hparen : ['0', ',', '1', ',', '2'] ++ ')' :: [] = t.body ++ ')' :: tailText ts := by
    have hcons : ['(', '0', ',', '1', ',', '2', ')'] = '(' :: (t.body ++ [')'] ++ tailText ts) :=
      htext
    refine (List.cons.inj hcons).2.trans ?_
    rw [List.append_assoc, List.singleton_append]
  obtain ⟨hbody, -, htail⟩ :=
    (List.append_cons_inj_of_notMem (by decide) List.not_mem_nil).mp hparen
  obtain rfl : ts = [] := by
    cases ts with
    | nil => rfl
    | cons t' ts => exact absurd htail.symm (List.cons_ne_nil _ _)
  obtain ⟨hport, hqueue, hlcore⟩ :=
    @Triple.texts_eq t ['0'] ['1'] ['2'] (by decide) (by decide) hbody.symm
  refine List.forall_mem_singleton.mpr (Triple.plain_of_head (by rw [← hbody]; decide) ?_)
  simp [hport, hqueue, hlcore]

/-- A list without parentheses is accepted, and there are no queues. -/
theorem not_portLaw :
    parseLcoreParams dpdkStrsplit "0,0,0".toList = some [] ∧
      ¬ PortLaw dpdkStrsplit (.config "0,0,0".toList) := by
  have hloose : Loose 0 "0,0,0".toList [] := .done (by decide)
  have hparse := (parseLoop_iff_loose (S := dpdkStrsplit)).mpr hloose
  refine ⟨hparse, fun h => ?_⟩
  have hmeans : ¬ ∃ f, (PortOption.config "0,0,0".toList).Means f := by
    rintro ⟨f, ts, ⟨-, t, ts', -, htext⟩, -⟩
    have hhead : some '0' = some '(' := congrArg List.head? htext
    exact absurd hhead (by decide)
  have hnone := (parseArgs_eq_none_iff _).mp (h.2 hmeans) {}
  rw [PortOption.option, parseOption_config.mpr hparse] at hnone
  exact nomatch hnone

end ParseArgs

end T4P4S
