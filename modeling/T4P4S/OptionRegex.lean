/-
The regular expression for the options of `t4p4s.sh`.

The parse helper matches the text of an option with one regular expression that is put together
from named patterns.  `letop` is optional in it, so that a value may follow a name at once, and a
condition cannot begin with `^`.

* **`find_plain`**, **`find_prefixed`** — how a name is read, with its prefix, operator and value.
* **`find_defined`**, **`find_equals`** — how a condition in front of it is read.
* `find_caret_cond` — a text `^cond->…` is the prefix `^` and the name `cond-`.
-/
import Mathlib.Data.List.DropRight
import Mathlib.Data.List.Infix
import T4P4S.Lib.CText
import T4P4S.Lib.Regex

open CText Regex

namespace T4P4S

namespace Options

/-! ### The regular expression -/

/-- The named patterns of `PYTHON_PARSE_HELPER`. -/
inductive Group
  | cond | pfx | condvar | condval | condsep | letop | letval | var | comment
  deriving DecidableEq

abbrev Pattern := Re Char Group

/-- `[a-zA-Z0-9_\-.]` -/
def nameChar (c : Char) : Bool :=
  ('a' ≤ c && c ≤ 'z') || ('A' ≤ c && c ≤ 'Z') || ('0' ≤ c && c ≤ '9') || c == '_' || c == '-' ||
    c == '.'

/-- `\s` of Python -/
def isSpace (c : Char) : Bool :=
  let n := c.toNat
  (0x09 ≤ n && n ≤ 0x0d) || (0x1c ≤ n && n ≤ 0x20) || n == 0x85 || n == 0xa0 || n == 0x1680 ||
    (0x2000 ≤ n && n ≤ 0x200a) || n == 0x2028 || n == 0x2029 || n == 0x202f || n == 0x205f ||
    n == 0x3000

/-- `\s*` -/
def spaces : Pattern := .many isSpace

/-- `[^\s].*` -/
def valueText : Pattern := .seq (.char fun c => !isSpace c) (.many (· != '\n'))

def condvarRe : Pattern := .group .condvar (.plus nameChar)

def condvalRe : Pattern := .group .condval valueText

def condsepRe : Pattern := .group .condsep (.seq spaces (.seq (.lit ['-', '>']) spaces))

def condRe : Pattern :=
  .group .cond (.seq condvarRe (.seq (.opt (.seq (.lit ['=']) condvalRe)) condsepRe))

def pfxRe : Pattern :=
  .group .pfx (.alt (.lit ['^']) (.alt (.lit [':']) (.alt (.lit [':', ':'])
    (.alt (.lit ['%']) (.alt (.lit ['%', '%']) (.lit ['@']))))))

def letopRe : Pattern :=
  .group .letop (.seq (.opt (.seq (.lit ['+']) (.opt (.lit ['+']))))
    (.seq (.opt (.lit ['?'])) (.lit ['='])))

def letvalRe : Pattern := .group .letval valueText

/-- The group `let`; the operator in it is optional. -/
def letRe : Pattern := .seq spaces (.seq (.opt letopRe) (.seq spaces letvalRe))

def varRe : Pattern := .group .var (.plus nameChar)

def commentRe : Pattern :=
  .group .comment (.seq spaces (.opt (.seq (.lit [';']) (.many (· != '\n')))))

/-- `$` -/
def lineEnd : Pattern := .ahead fun s => s == [] || s == ['\n']

/-- What comes behind the prefix or the condition. -/
def bodyRe : Pattern := .seq varRe (.seq (.opt letRe) (.seq commentRe lineEnd))

/-- `rexp` -/
def rexp : Pattern := .seq (.opt (.alt pfxRe (.opt condRe))) bodyRe

/-- What the parse helper sends: nothing if it ends, and else `ok` with the groups. -/
inductive Reply
  | ended
  | no
  | yes (groups : Group → Text)

/-- What `read` leaves of a group: no spaces around it. -/
def readWord (s : Text) : Text := (s.dropWhile (· = ' ')).rdropWhile (· = ' ')

/-- The loop of the parse helper. -/
def parseHelper (line : Text) : Reply :=
  if "exit_parse_helper".toList <+: line then .ended
  else
    match find? rexp line with
    | none => .no
    | some m => .yes fun g => readWord (m.group g)

/-! ### Names, operators and values -/

/-- Option names. -/
def IsName (n : Text) : Prop := n ≠ [] ∧ ∀ c ∈ n, nameChar c

/-- Values: on one line, with no whitespace around them and no comment in them. -/
structure IsValue (v : Text) : Prop where
  ne : v ≠ []
  oneLine : '\n' ∉ v
  head : ∀ c ∈ v.head?, ¬ isSpace c
  last : ∀ c ∈ v.getLast?, ¬ isSpace c
  noComment : ∀ pre post, v = pre ++ ';' :: post → ∃ d ∈ pre.getLast?, d.isDigit

inductive LetOp
  | assign | append | appendLine
  deriving DecidableEq

def LetOp.text : LetOp → Text
  | assign => ['=']
  | append => ['+', '=']
  | appendLine => ['+', '+', '=']

/-- What may follow a name: an operator and a value. -/
def tailText : Option (LetOp × Text) → Text
  | none => []
  | some (op, v) => op.text ++ v

/-- What `letop` and `letval` take of it. -/
def tailCaps : Option (LetOp × Text) → List (Group × Text)
  | none => []
  | some (op, v) => [(.letop, op.text), (.letval, v)]

/-- Behind an arrow in the text a name may follow. -/
def ArrowTail (s : Text) : Prop :=
  ∃ pre ws c post, s = pre ++ '-' :: '>' :: (ws ++ c :: post) ∧ (∀ d ∈ ws, isSpace d) ∧ nameChar c

theorem nameChar_iff {c : Char} : nameChar c ↔
    (48 ≤ c.toNat ∧ c.toNat ≤ 57) ∨ (65 ≤ c.toNat ∧ c.toNat ≤ 90) ∨
      (97 ≤ c.toNat ∧ c.toNat ≤ 122) ∨ c = '_' ∨ c = '-' ∨ c = '.' := by
  simp only [nameChar, Bool.or_eq_true, Bool.and_eq_true, decide_eq_true_eq, beq_iff_eq,
    Char.le_def, UInt32.le_iff_toNat_le, Char.toNat]
  grind

theorem not_isSpace_of_nameChar {c : Char} (h : nameChar c) : ¬ isSpace c := by
  simp only [isSpace, Bool.or_eq_true, Bool.and_eq_true, decide_eq_true_eq, beq_iff_eq]
  rcases nameChar_iff.mp h with h | h | h | rfl | rfl | rfl
  · omega
  · omega
  · omega
  all_goals decide

theorem not_nameChar_gt : ¬ nameChar '>' := by decide

theorem notMem_of_isName {n : Text} (hn : IsName n) {c : Char} (hc : ¬ nameChar c) : c ∉ n :=
  fun hmem => hc (hn.2 c hmem)

theorem isName_minus {n : Text} (hn : IsName n) : IsName (n ++ ['-']) := by
  refine ⟨List.append_ne_nil_of_left_ne_nil hn.1 _, fun c hc => ?_⟩
  rcases List.mem_append.mp hc with hc | hc
  · exact hn.2 c hc
  · obtain rfl := List.mem_singleton.mp hc
    decide

/-! ### The body -/

variable {P : Match Char Group → Prop}

theorem picks_valueText {c : Char} {u : Text} (hc : ¬ isSpace c) (hu : '\n' ∉ u) :
    Picks valueText (c :: (u ++ ['\n'])) P ⟨[], c :: u, ['\n']⟩ := by
  have hc : (!isSpace c) = true := by simpa using hc
  refine Picks.seq (Picks.char (p := fun c => !isSpace c) hc (u ++ ['\n']))
    (Picks.many_all (fun d hd => ?_) fun d hd => ?_)
  · exact bne_iff_ne.mpr fun heq => hu (heq ▸ hd)
  · obtain rfl := Option.some.inj hd
    decide

theorem picks_isValue {v : Text} (hv : IsValue v) :
    Picks valueText (v ++ ['\n']) P ⟨[], v, ['\n']⟩ := by
  obtain ⟨c, u, rfl⟩ := List.exists_cons_of_ne_nil hv.ne
  obtain ⟨-, hline⟩ := List.ne_and_not_mem_of_not_mem_cons hv.oneLine
  exact picks_valueText (hv.head c rfl) hline

theorem picks_spaces_nil {s : Text} (hs : ∀ c ∈ s.head?, ¬ isSpace c) :
    Picks spaces s P ⟨[], [], s⟩ :=
  Picks.many_all (u := []) (fun _ hc => absurd hc List.not_mem_nil) hs

theorem picks_letop (op : LetOp) (s : Text) :
    Picks letopRe (op.text ++ s) P ⟨[(.letop, op.text)], op.text, s⟩ := by
  refine Picks.group (m := ⟨[], op.text, s⟩) ?_
  have hassign : ∀ {Q : Match Char Group → Prop}, Picks (.seq (.opt (.lit ['?'])) (.lit ['=']))
      ('=' :: s) Q ⟨[], ['='], s⟩ := fun {Q} =>
    Picks.seq (m := ⟨[], [], '=' :: s⟩)
      (Picks.opt_none fun x hx => absurd hx (by rw [run_lit_nil (by simp)]; exact List.not_mem_nil))
      (Picks.lit ['='] s)
  have hno : ∀ {Q : Match Char Group → Prop} {r : Pattern}, Picks (.opt (.seq (.lit ['+']) r))
      ('=' :: s) Q ⟨[], [], '=' :: s⟩ := fun {Q r} =>
    Picks.opt_none fun x hx => absurd hx
      (by rw [run_seq_nil (run_lit_nil (by simp) [])]; exact List.not_mem_nil)
  have hno' : ∀ {Q : Match Char Group → Prop}, Picks (.opt (.lit ['+']))
      ('=' :: s) Q ⟨[], [], '=' :: s⟩ := fun {Q} =>
    Picks.opt_none fun x hx => absurd hx (by rw [run_lit_nil (by simp)]; exact List.not_mem_nil)
  cases op with
  | assign => exact Picks.seq hno hassign
  | append =>
    exact Picks.seq (Picks.opt_some (Picks.seq (Picks.lit ['+'] ('=' :: s)) hno')) hassign
  | appendLine =>
    exact Picks.seq (Picks.opt_some (Picks.seq (Picks.lit ['+'] ('+' :: '=' :: s))
      (Picks.opt_some (Picks.lit ['+'] ('=' :: s))))) hassign

theorem picks_let (op : LetOp) {v : Text} (hv : IsValue v) :
    Picks letRe (op.text ++ (v ++ ['\n'])) P
      ⟨[(.letop, op.text), (.letval, v)], op.text ++ v, ['\n']⟩ := by
  have hop : ∀ c ∈ (op.text ++ (v ++ ['\n'])).head?, ¬ isSpace c := by
    cases op <;> (intro c hc; obtain rfl := Option.some.inj hc; decide)
  have hhead : ∀ c ∈ (v ++ ['\n']).head?, ¬ isSpace c := by
    rw [List.head?_append_of_ne_nil _ hv.ne]
    exact hv.head
  exact Picks.seq (picks_spaces_nil hop) (Picks.seq (Picks.opt_some (picks_letop op _))
    (Picks.seq (picks_spaces_nil hhead) (Picks.group (picks_isValue hv))))

theorem picks_end : Picks (.seq commentRe lineEnd) ['\n'] P ⟨[(.comment, ['\n'])], ['\n'], []⟩ := by
  have hspaces : ∀ {Q : Match Char Group → Prop}, Picks spaces ['\n'] Q ⟨[], ['\n'], []⟩ :=
    fun {Q} => Picks.many_all (u := ['\n']) (s := [])
      (fun c hc => by obtain rfl := List.mem_singleton.mp hc; decide) fun c hc => nomatch hc
  refine Picks.seq (Picks.group (Picks.seq hspaces (Picks.opt_none (s := []) ?_)))
    (Picks.ahead (s := []) rfl)
  exact fun x hx => absurd hx List.not_mem_nil

theorem head_tailText (t : Option (LetOp × Text)) :
    ∃ c ∈ (tailText t ++ ['\n']).head?, c = '\n' ∨ c = '=' ∨ c = '+' := by
  rcases t with _ | ⟨_ | _ | _, v⟩
  · exact ⟨_, rfl, Or.inl rfl⟩
  · exact ⟨_, rfl, Or.inr (Or.inl rfl)⟩
  · exact ⟨_, rfl, Or.inr (Or.inr rfl)⟩
  · exact ⟨_, rfl, Or.inr (Or.inr rfl)⟩

/-- A name and what follows it are read as they are written. -/
theorem picks_body {n : Text} (hn : IsName n) {t : Option (LetOp × Text)}
    (ht : ∀ p ∈ t, IsValue p.2) :
    Picks bodyRe (n ++ (tailText t ++ ['\n'])) P
      ⟨(.var, n) :: (tailCaps t ++ [(.comment, ['\n'])]), n ++ (tailText t ++ ['\n']), []⟩ := by
  have hvar : ∀ {Q : Match Char Group → Prop}, Picks varRe (n ++ (tailText t ++ ['\n'])) Q
      ⟨[(.var, n)], n, tailText t ++ ['\n']⟩ := fun {Q} => by
    refine Picks.group (m := ⟨[], n, tailText t ++ ['\n']⟩) (Picks.plus hn.1 hn.2 ?_)
    intro v w hv heq hall
    -- what follows the name is no part of a name
    obtain ⟨c, hc, hcases⟩ := head_tailText t
    rw [heq, List.head?_append_of_ne_nil _ hv] at hc
    have hname := hall c (List.mem_of_mem_head? hc)
    rcases hcases with rfl | rfl | rfl <;> exact absurd hname (by decide)
  cases t with
  | none =>
    have hnone : ∀ {Q : Match Char Group → Prop}, Picks (.opt letRe) ['\n'] Q
        ⟨[], [], ['\n']⟩ := fun {Q} => Picks.opt_none fun x hx => absurd hx List.not_mem_nil
    exact Picks.seq hvar (Picks.seq hnone picks_end)
  | some p =>
    obtain ⟨op, v⟩ := p
    have htail : tailText (some (op, v)) ++ ['\n'] = op.text ++ (v ++ ['\n']) :=
      List.append_assoc _ _ _
    have hlet : ∀ {Q : Match Char Group → Prop},
        Picks (.opt letRe) (tailText (some (op, v)) ++ ['\n']) Q
          ⟨[(.letop, op.text), (.letval, v)], op.text ++ v, ['\n']⟩ := fun {Q} => by
      rw [htail]
      exact Picks.opt_some (picks_let op (ht _ rfl))
    exact Picks.seq hvar (Picks.seq hlet picks_end)

/-- The body begins with a name. -/
theorem head_of_mem_run_body {s : Text} {m : Match Char Group} (h : m ∈ run bodyRe s) :
    ∃ c ∈ s.head?, nameChar c := by
  obtain ⟨x, hx, -⟩ := mem_run_seq.mp h
  obtain ⟨x, hx, -⟩ := mem_run_group.mp hx
  obtain ⟨x, hx, -⟩ := mem_run_seq.mp hx
  obtain ⟨c, hc, rfl, -⟩ := mem_run_char.mp hx
  exact ⟨c, rfl, hc⟩

/-! ### Conditions -/

theorem of_mem_run_condsep {s : Text} {m : Match Char Group} (h : m ∈ run condsepRe s) :
    ∃ ws ws', s = ws ++ '-' :: '>' :: (ws' ++ m.rest) ∧ (∀ c ∈ ws, isSpace c) ∧
      ∀ c ∈ ws', isSpace c := by
  obtain ⟨x, hx, rfl⟩ := mem_run_group.mp h
  obtain ⟨y₁, hy₁, y, hy, rfl⟩ := mem_run_seq.mp hx
  obtain ⟨y₂, hy₂, y₃, hy₃, rfl⟩ := mem_run_seq.mp hy
  obtain ⟨hws, hspaces, -⟩ := mem_run_many hy₁
  obtain ⟨hws', hspaces', -⟩ := mem_run_many hy₃
  refine ⟨y₁.taken, y₃.taken, ?_, hspaces, hspaces'⟩
  rw [hws, mem_run_lit hy₂, hws']
  rfl

/-- What a condition has taken. -/
theorem of_mem_run_cond {s : Text} {m : Match Char Group} (h : m ∈ run condRe s) :
    ∃ cv ev ws ws', s = cv ++ (ev ++ (ws ++ '-' :: '>' :: (ws' ++ m.rest))) ∧ IsName cv ∧
      (ev = [] ∨ ∃ v, v ≠ [] ∧ ev = '=' :: v) ∧ (∀ c ∈ ws, isSpace c) ∧ ∀ c ∈ ws', isSpace c := by
  obtain ⟨x, hx, rfl⟩ := mem_run_group.mp h
  obtain ⟨x₁, hx₁, y, hy, rfl⟩ := mem_run_seq.mp hx
  obtain ⟨a, ha, rfl⟩ := mem_run_group.mp hx₁
  obtain ⟨rfl, hne, hall⟩ := mem_run_plus ha
  obtain ⟨b, hb, z, hz, rfl⟩ := mem_run_seq.mp hy
  obtain ⟨ws, ws', hsep, hspaces, hspaces'⟩ := of_mem_run_condsep hz
  rcases mem_run_alt.mp hb with hb | hb
  · obtain ⟨b₁, hb₁, b₂, hb₂, rfl⟩ := mem_run_seq.mp hb
    obtain ⟨b₀, hb₀, rfl⟩ := mem_run_group.mp hb₂
    obtain ⟨b₃, hb₃, b₄, hb₄, rfl⟩ := mem_run_seq.mp hb₀
    obtain ⟨d, -, hd, -⟩ := mem_run_char.mp hb₃
    obtain ⟨hv, -⟩ := mem_run_many hb₄
    refine ⟨a.taken, '=' :: d :: b₄.taken, ws, ws', ?_, ⟨hne, hall⟩,
      Or.inr ⟨_, List.cons_ne_nil _ _, rfl⟩, hspaces, hspaces'⟩
    have hrest : a.rest = '=' :: d :: (b₄.taken ++ b₄.rest) := by
      rw [← hv, ← hd]
      exact mem_run_lit hb₁
    rw [hrest, List.cons_append, List.cons_append]
    exact congrArg (fun s => a.taken ++ '=' :: d :: (b₄.taken ++ s)) hsep
  · obtain rfl := List.mem_singleton.mp hb
    refine ⟨a.taken, [], ws, ws', ?_, ⟨hne, hall⟩, Or.inl rfl, hspaces, hspaces'⟩
    exact congrArg (a.taken ++ ·) hsep

/-- An arrow is not in a text without `>`, and does not begin at its end. -/
theorem arrow_in_right {pre z a b : Text} (h : pre ++ '-' :: '>' :: z = a ++ b) (ha : '>' ∉ a)
    (hlast : a.getLast? ≠ some '-') : ∃ pre', pre = a ++ pre' ∧ b = pre' ++ '-' :: '>' :: z := by
  rcases List.append_eq_append_iff.mp h with ⟨a', rfl, hb⟩ | ⟨pre', rfl, hb⟩
  · match a', hb with
    | [], hb => exact ⟨[], by rw [List.append_nil, List.append_nil], hb.symm⟩
    | [c], hb =>
      obtain ⟨rfl, -⟩ := List.cons.inj hb
      exact absurd List.getLast?_concat hlast
    | c :: d :: a', hb =>
      obtain ⟨-, hb⟩ := List.cons.inj hb
      obtain ⟨rfl, -⟩ := List.cons.inj hb
      exact absurd (by simp) ha
  · exact ⟨pre', rfl, hb⟩

theorem ArrowTail.of_newline {s : Text} (h : ArrowTail (s ++ ['\n'])) : ArrowTail s := by
  obtain ⟨pre, ws, c, post, heq, hws, hc⟩ := h
  rcases List.eq_nil_or_concat post with rfl | ⟨post, d, rfl⟩
  · -- the newline is no part of a name
    have hlast : (s ++ ['\n']).getLast? = some c := by
      rw [heq]
      simp [List.getLast?_append, List.getLast?_cons]
    rw [List.getLast?_concat] at hlast
    obtain rfl := Option.some.inj hlast
    exact absurd hc (by decide)
  · refine ⟨pre, ws, c, post, ?_, hws, hc⟩
    have hsplit : pre ++ '-' :: '>' :: (ws ++ c :: (post ++ [d])) =
        (pre ++ '-' :: '>' :: (ws ++ c :: post)) ++ [d] := by simp
    rw [List.concat_eq_append, hsplit] at heq
    exact (List.append_inj' heq rfl).1

theorem LetOp.getLast_text (op : LetOp) (n : Text) : (n ++ op.text).getLast? = some '=' := by
  cases op <;> simp [LetOp.text, List.getLast?_append]

theorem LetOp.notMem_text (op : LetOp) : '>' ∉ op.text := by
  cases op <;> decide

/-- Behind a name, an arrow is in the value. -/
theorem arrow_in_value {pre z n : Text} (hn : IsName n) {t : Option (LetOp × Text)}
    (h : n ++ (tailText t ++ ['\n']) = pre ++ '-' :: '>' :: z) :
    ∃ op v pre', t = some (op, v) ∧ pre = n ++ op.text ++ pre' ∧
      v ++ ['\n'] = pre' ++ '-' :: '>' :: z := by
  have hgt := notMem_of_isName hn not_nameChar_gt
  cases t with
  | none =>
    have hmem : '>' ∈ n ++ (tailText none ++ ['\n']) := by rw [h]; simp
    rcases List.mem_append.mp hmem with hmem | hmem
    · exact absurd hmem hgt
    · exact absurd hmem (by decide)
  | some p =>
    obtain ⟨op, v⟩ := p
    have heq : pre ++ '-' :: '>' :: z = (n ++ op.text) ++ (v ++ ['\n']) := by
      rw [← h, tailText]
      simp only [List.append_assoc]
    obtain ⟨pre', hpre, hv⟩ := arrow_in_right heq
      (fun hmem => (List.mem_append.mp hmem).elim hgt op.notMem_text)
      (by rw [op.getLast_text]; decide)
    exact ⟨op, v, pre', rfl, hpre, hv⟩

theorem ArrowTail.in_value {n : Text} (hn : IsName n) {t : Option (LetOp × Text)}
    (h : ArrowTail ('>' :: (n ++ (tailText t ++ ['\n'])))) : ∃ p ∈ t, ArrowTail p.2 := by
  obtain ⟨pre, ws, c, post, heq, hws, hc⟩ := h
  cases pre with
  | nil => exact absurd (List.cons.inj heq).1 (by decide)
  | cons d pre =>
    obtain ⟨op, v, pre', rfl, -, hv⟩ := arrow_in_value hn (List.cons.inj heq).2
    exact ⟨_, rfl, ArrowTail.of_newline ⟨pre', ws, c, post, hv, hws, hc⟩⟩

/-- The name in front of a text is the one up to the first other character. -/
theorem name_unique {n n' s s' : Text} {c c' : Char} (hn : ∀ d ∈ n, nameChar d)
    (hn' : ∀ d ∈ n', nameChar d) (hc : ¬ nameChar c) (hc' : ¬ nameChar c')
    (h : n ++ c :: s = n' ++ c' :: s') : n = n' ∧ c :: s = c' :: s' := by
  have htake : ∀ {m u : Text} {d : Char}, (∀ e ∈ m, nameChar e) → ¬ nameChar d →
      (m ++ d :: u).takeWhile nameChar = m := fun {m u d} hm hd => by
    rw [List.takeWhile_append_of_pos hm, List.takeWhile_cons_of_neg hd, List.append_nil]
  have heq : n = n' := by rw [← htake hn hc, h, htake hn' hc']
  subst heq
  exact ⟨rfl, List.append_cancel_left h⟩

/-- A text that begins with a name is read without a condition, if there is no arrow in a value
that is assigned. -/
theorem dead_cond {n : Text} (hn : IsName n) {t : Option (LetOp × Text)}
    (ht : ∀ v, t = some (.assign, v) → ¬ ArrowTail v.tail) {x : Match Char Group}
    (hx : x ∈ run condRe (n ++ (tailText t ++ ['\n']))) : run bodyRe x.rest = [] := by
  by_contra hne
  obtain ⟨y, hy⟩ := List.exists_mem_of_ne_nil _ hne
  obtain ⟨c, hc, hname⟩ := head_of_mem_run_body hy
  obtain ⟨post, hpost⟩ := List.head?_eq_some_iff.mp hc
  obtain ⟨cv, ev, ws, ws', heq, hcv, hev, hws, hws'⟩ := of_mem_run_cond hx
  rw [hpost] at heq
  have hassoc : n ++ (tailText t ++ ['\n']) =
      (cv ++ ev ++ ws) ++ '-' :: '>' :: (ws' ++ c :: post) := by
    rw [heq]
    simp only [List.append_assoc]
  obtain ⟨op, v, pre', rfl, hpre, hv⟩ := arrow_in_value hn hassoc
  have heqsign : ¬ nameChar '=' := by decide
  rcases hev with rfl | ⟨v', hv', rfl⟩
  · -- without a value, nothing in front of the arrow is an operator
    have hmem : '=' ∈ cv ++ [] ++ ws := by
      rw [hpre]
      cases op <;> simp [LetOp.text]
    rcases List.mem_append.mp hmem with hmem | hmem
    · rw [List.append_nil] at hmem
      exact absurd (hcv.2 _ hmem) heqsign
    · exact absurd (hws _ hmem) (by decide)
  · have hsplit : ∀ {o : Char} {os : Text}, op.text = o :: os → ¬ nameChar o →
        '=' :: (v' ++ ws) = o :: (os ++ pre') := fun {o os} hop ho => by
      refine (name_unique hcv.2 hn.2 heqsign ho ?_).2
      rw [hop] at hpre
      simpa only [List.append_assoc, List.cons_append] using hpre
    cases op with
    | assign =>
      obtain ⟨-, rfl⟩ := List.cons.inj (hsplit rfl heqsign)
      refine absurd ?_ (ht v rfl)
      obtain ⟨d, v', rfl⟩ := List.exists_cons_of_ne_nil hv'
      cases v with
      | nil =>
        have hlen := congrArg List.length hv
        simp only [List.nil_append, List.length_append, List.length_cons, List.length_nil] at hlen
        omega
      | cons e v =>
        refine ArrowTail.of_newline ⟨v' ++ ws, ws', c, post, ?_, hws', hname⟩
        exact (List.cons.inj hv).2
    | append => exact absurd (List.cons.inj (hsplit rfl (by decide))).1 (by decide)
    | appendLine => exact absurd (List.cons.inj (hsplit rfl (by decide))).1 (by decide)

theorem picks_condsep {s : Text} (hs : ∀ c ∈ s.head?, ¬ isSpace c) :
    Picks condsepRe ('-' :: '>' :: s) P ⟨[(.condsep, ['-', '>'])], ['-', '>'], s⟩ := by
  have hminus : ∀ c ∈ ('-' :: '>' :: s).head?, ¬ isSpace c := fun c hc => by
    obtain rfl := Option.some.inj hc
    decide
  exact Picks.group (Picks.seq (picks_spaces_nil hminus)
    (Picks.seq (Picks.lit ['-', '>'] s) (picks_spaces_nil hs)))

/-- A part of a name at an arrow is its `-`. -/
theorem eq_of_arrow {v w s : Text} (hv : v ≠ []) (h : '-' :: '>' :: s = v ++ w)
    (hall : ∀ c ∈ v, nameChar c) : w = '>' :: s := by
  match v, hv, h, hall with
  | [_], _, h, _ => exact (List.cons.inj h).2.symm
  | _ :: e :: v, _, h, hall =>
    obtain rfl := (List.cons.inj (List.cons.inj h).2).1
    exact absurd (hall '>' (by simp)) not_nameChar_gt

/-- `cond->` -/
theorem picks_defined {c s : Text} (hc : IsName c) (hs : ∀ d ∈ s.head?, ¬ isSpace d) :
    Picks condRe (c ++ '-' :: '>' :: s) P
      ⟨[(.cond, c ++ ['-', '>']), (.condvar, c), (.condsep, ['-', '>'])], c ++ ['-', '>'], s⟩ := by
  have hval : ∀ {Q : Match Char Group → Prop}, Picks (.opt (.seq (.lit ['=']) condvalRe))
      ('-' :: '>' :: s) Q ⟨[], [], '-' :: '>' :: s⟩ := fun {Q} =>
    Picks.opt_none fun x hx => absurd hx List.not_mem_nil
  refine Picks.group (m := ⟨[(Group.condvar, c), (Group.condsep, ['-', '>'])], c ++ ['-', '>'], s⟩)
    (Picks.seq (Picks.group (Picks.plus hc.1 hc.2 ?_)) (Picks.seq hval (picks_condsep hs)))
  -- a longer name ends behind the `-` of the arrow
  intro v w hv heq hall y hy
  obtain rfl := eq_of_arrow hv heq hall
  exact absurd hy List.not_mem_nil

/-- `cond=value->`; earlier matches end at a later arrow. -/
theorem picks_equals {c v s : Text} (hc : IsName c) (hv : IsValue v)
    (hs : ∀ d ∈ s.head?, ¬ isSpace d)
    (hP : ∀ (x : Match Char Group) pre ws, '>' :: s = pre ++ '-' :: '>' :: (ws ++ x.rest) →
      (∀ d ∈ ws, isSpace d) → P x) :
    Picks condRe (c ++ '=' :: (v ++ '-' :: '>' :: s)) P
      ⟨[(.cond, c ++ ('=' :: v ++ ['-', '>'])), (.condvar, c), (.condval, v),
        (.condsep, ['-', '>'])], c ++ ('=' :: v ++ ['-', '>']), s⟩ := by
  obtain ⟨d, u, rfl⟩ := List.exists_cons_of_ne_nil hv.ne
  obtain ⟨-, hline⟩ := List.ne_and_not_mem_of_not_mem_cons hv.oneLine
  have hd : (!isSpace d) = true := by simpa using hv.head d rfl
  refine Picks.group (m := ⟨[(Group.condvar, c), (Group.condval, d :: u),
    (Group.condsep, ['-', '>'])], c ++ ('=' :: (d :: u) ++ ['-', '>']), s⟩)
    (Picks.seq (Picks.group (Picks.plus hc.1 hc.2 ?_))
      (Picks.seq (Picks.opt_some (Picks.seq (Picks.lit ['='] (d :: u ++ '-' :: '>' :: s))
        (Picks.group (Picks.seq (Picks.char (p := fun c => !isSpace c) hd _)
          (Picks.many (u := u) (fun e he => ?_) ?_))))) (picks_condsep hs)))
  · intro v w hv heq hall
    obtain ⟨e, v, rfl⟩ := List.exists_cons_of_ne_nil hv
    obtain rfl := (List.cons.inj heq).1
    exact absurd (hall '=' List.mem_cons_self) (by decide)
  · exact bne_iff_ne.mpr fun heq => hline (heq ▸ he)
  · intro v w hv heq _ y hy
    obtain ⟨e, v, rfl⟩ := List.exists_cons_of_ne_nil hv
    obtain ⟨ws, ws', hw, -, hws'⟩ := of_mem_run_condsep hy
    refine hP _ (v ++ ws) ws' ?_ hws'
    rw [(List.cons.inj heq).2, List.append_assoc]
    exact congrArg (v ++ ·) hw

/-! ### Prefixes -/

def pfxTexts : List Text := [['^'], [':'], [':', ':'], ['%'], ['%', '%'], ['@']]

theorem head_of_mem_run_pfx {s : Text} {m : Match Char Group} (h : m ∈ run pfxRe s) :
    ∃ c ∈ s.head?, ¬ nameChar c := by
  obtain ⟨x, hx, -⟩ := mem_run_group.mp h
  simp only [mem_run_alt] at hx
  rcases hx with hx | hx | hx | hx | hx | hx <;>
    (rw [mem_run_lit hx]; exact ⟨_, rfl, by decide⟩)

/-- Behind the match no body follows. -/
def Dead (x : Match Char Group) : Prop := ∀ y ∈ run bodyRe x.rest, False

theorem dead_of_head {x : Match Char Group} (h : ∀ c ∈ x.rest.head?, ¬ nameChar c) : Dead x := by
  intro y hy
  obtain ⟨c, hc, hname⟩ := head_of_mem_run_body hy
  exact h c hc hname

/-- A prefix is read as the longest one, as no body begins with the rest of it. -/
theorem picks_pfx {p s : Text} (hp : p ∈ pfxTexts) (hs : ∀ c ∈ s.head?, nameChar c) :
    Picks pfxRe (p ++ s) Dead ⟨[(.pfx, p)], p, s⟩ := by
  have hno : ∀ {q u : Text} {c : Char}, u.head? ≠ some c →
      ∀ x ∈ run (.lit (c :: q) : Pattern) u, Dead (x.capture .pfx) := fun {q u c} hu x hx => by
    rw [run_lit_nil hu] at hx
    exact absurd hx List.not_mem_nil
  have hshort : ∀ {c : Char}, ¬ nameChar c →
      ∀ x ∈ run (.lit [c] : Pattern) (c :: c :: s), Dead (x.capture .pfx) := fun {c} hc x hx => by
    have hrest : c :: s = x.rest := (List.cons.inj (mem_run_lit hx)).2
    refine dead_of_head fun d hd => ?_
    rw [Match.capture_rest, ← hrest] at hd
    obtain rfl := Option.some.inj hd
    exact hc
  have hlong : ∀ {c : Char}, ¬ nameChar c →
      ∀ x ∈ run (.lit [c, c] : Pattern) (c :: s), Dead (x.capture .pfx) := fun {c} hc x hx => by
    have hrest : s = c :: x.rest := (List.cons.inj (mem_run_lit hx)).2
    exact absurd (hs c (by rw [hrest]; rfl)) hc
  refine Picks.group (m := ⟨[], p, s⟩) ?_
  simp only [pfxTexts, List.mem_cons, List.not_mem_nil, or_false] at hp
  rcases hp with rfl | rfl | rfl | rfl | rfl | rfl
  · exact Picks.alt_left (Picks.lit _ _) _
  · exact Picks.alt_right (hno (by simp)) (Picks.alt_left (Picks.lit _ _) _)
  · exact Picks.alt_right (hno (by simp)) (Picks.alt_right (hshort (by decide))
      (Picks.alt_left (Picks.lit _ _) _))
  · exact Picks.alt_right (hno (by simp)) (Picks.alt_right (hno (by simp))
      (Picks.alt_right (hno (by simp)) (Picks.alt_left (Picks.lit _ _) _)))
  · exact Picks.alt_right (hno (by simp)) (Picks.alt_right (hno (by simp))
      (Picks.alt_right (hno (by simp)) (Picks.alt_right (hshort (by decide))
        (Picks.alt_left (Picks.lit _ _) _))))
  · exact Picks.alt_right (hno (by simp)) (Picks.alt_right (hno (by simp))
      (Picks.alt_right (hno (by simp)) (Picks.alt_right (hno (by simp))
        (Picks.alt_right (hno (by simp)) (Picks.lit _ _)))))

/-! ### The whole expression -/

/-- What the groups of the body have taken. -/
def bodyCaps (n : Text) (t : Option (LetOp × Text)) : List (Group × Text) :=
  (.var, n) :: (tailCaps t ++ [(.comment, ['\n'])])

section

variable {n : Text} {t : Option (LetOp × Text)}

theorem find_of_picks {s : Text} {m : Match Char Group} (hn : IsName n)
    (ht : ∀ p ∈ t, IsValue p.2) (hrest : m.rest = n ++ (tailText t ++ ['\n']))
    (h : Picks (.opt (.alt pfxRe (.opt condRe))) s Dead m) :
    ∃ x, find? rexp s = some x ∧ x.caps = m.caps ++ bodyCaps n t := by
  have hbody := picks_body (P := fun y => False) hn ht
  rw [← hrest] at hbody
  exact ⟨_, find?_of_picks (Picks.seq h hbody), rfl⟩

theorem head_name (hn : IsName n) (s : Text) : ∀ c ∈ (n ++ s).head?, nameChar c := by
  intro c hc
  rw [List.head?_append_of_ne_nil _ hn.1] at hc
  exact hn.2 c (List.mem_of_mem_head? hc)

theorem no_pfx (hn : IsName n) (s : Text) : ∀ x ∈ run pfxRe (n ++ s), Dead x := by
  intro x hx
  obtain ⟨c, hc, hno⟩ := head_of_mem_run_pfx hx
  exact absurd (head_name hn s c hc) hno

theorem find_plain (hn : IsName n) (ht : ∀ p ∈ t, IsValue p.2)
    (harrow : ∀ v, t = some (.assign, v) → ¬ ArrowTail v.tail) :
    ∃ x, find? rexp (n ++ (tailText t ++ ['\n'])) = some x ∧ x.caps = bodyCaps n t := by
  refine find_of_picks (m := ⟨[], [], n ++ (tailText t ++ ['\n'])⟩) hn ht rfl
    (Picks.opt_some (Picks.alt_right (no_pfx hn _) (Picks.opt_none fun x hx y hy => ?_)))
  rw [dead_cond hn harrow hx] at hy
  exact absurd hy List.not_mem_nil

theorem find_prefixed {p : Text} (hp : p ∈ pfxTexts) (hn : IsName n) (ht : ∀ p ∈ t, IsValue p.2) :
    ∃ x, find? rexp (p ++ (n ++ (tailText t ++ ['\n']))) = some x ∧
      x.caps = (.pfx, p) :: bodyCaps n t :=
  find_of_picks (m := ⟨[(.pfx, p)], p, n ++ (tailText t ++ ['\n'])⟩) hn ht rfl
    (Picks.opt_some (Picks.alt_left (picks_pfx hp (head_name hn _)) _))

theorem find_defined {c : Text} (hc : IsName c) (hn : IsName n) (ht : ∀ p ∈ t, IsValue p.2) :
    ∃ x, find? rexp (c ++ '-' :: '>' :: (n ++ (tailText t ++ ['\n']))) = some x ∧
      x.caps =
        [(.cond, c ++ ['-', '>']), (.condvar, c), (.condsep, ['-', '>'])] ++ bodyCaps n t := by
  refine find_of_picks (m := ⟨_, c ++ ['-', '>'], n ++ (tailText t ++ ['\n'])⟩) hn ht rfl
    (Picks.opt_some (Picks.alt_right (no_pfx hc _) (Picks.opt_some (picks_defined hc ?_))))
  exact fun d hd => not_isSpace_of_nameChar (head_name hn _ d hd)

theorem find_equals {c v : Text} (hc : IsName c) (hv : IsValue v) (hn : IsName n)
    (ht : ∀ p ∈ t, IsValue p.2) (harrow : ∀ p ∈ t, ¬ ArrowTail p.2) :
    ∃ x, find? rexp (c ++ '=' :: (v ++ '-' :: '>' :: (n ++ (tailText t ++ ['\n'])))) = some x ∧
      x.caps = [(.cond, c ++ ('=' :: v ++ ['-', '>'])), (.condvar, c), (.condval, v),
        (.condsep, ['-', '>'])] ++ bodyCaps n t := by
  refine find_of_picks (m := ⟨_, c ++ ('=' :: v ++ ['-', '>']), n ++ (tailText t ++ ['\n'])⟩) hn ht
    rfl (Picks.opt_some (Picks.alt_right (no_pfx hc _) (Picks.opt_some (picks_equals hc hv ?_ ?_))))
  · exact fun d hd => not_isSpace_of_nameChar (head_name hn _ d hd)
  · intro x pre ws heq hws y hy
    obtain ⟨d, hd, hname⟩ := head_of_mem_run_body hy
    obtain ⟨post, hpost⟩ := List.head?_eq_some_iff.mp hd
    rw [hpost] at heq
    obtain ⟨p, hp, htail⟩ := ArrowTail.in_value hn ⟨pre, ws, d, post, heq, hws, hname⟩
    exact harrow p hp htail

/-- A condition with `^` in front is none: the arrow is a part of the name and of the value. -/
theorem find_caret_cond {c x : Text} (hc : IsName c) (hx : '\n' ∉ x) :
    ∃ m, find? rexp ('^' :: (c ++ '-' :: '>' :: (x ++ ['\n']))) = some m ∧
      m.caps = [(.pfx, ['^']), (.var, c ++ ['-']), (.letval, '>' :: x), (.comment, ['\n'])] := by
  have hname := isName_minus hc
  have hgt : ∀ c ∈ ('>' :: (x ++ ['\n'])).head?, ¬ isSpace c := fun c hc => by
    obtain rfl := Option.some.inj hc
    decide
  have hvar : ∀ {Q : Match Char Group → Prop},
      Picks varRe (c ++ ['-'] ++ '>' :: (x ++ ['\n'])) Q
        ⟨[(.var, c ++ ['-'])], c ++ ['-'], '>' :: (x ++ ['\n'])⟩ := fun {Q} => by
    refine Picks.group (m := ⟨[], c ++ ['-'], '>' :: (x ++ ['\n'])⟩)
      (Picks.plus hname.1 hname.2 fun v w hv heq hall => ?_)
    obtain ⟨e, v, rfl⟩ := List.exists_cons_of_ne_nil hv
    obtain rfl := (List.cons.inj heq).1
    exact absurd (hall '>' List.mem_cons_self) not_nameChar_gt
  have hlet : ∀ {Q : Match Char Group → Prop}, Picks (.opt letRe) ('>' :: (x ++ ['\n'])) Q
      ⟨[(.letval, '>' :: x)], '>' :: x, ['\n']⟩ := fun {Q} =>
    Picks.opt_some (Picks.seq (picks_spaces_nil hgt) (Picks.seq
      (Picks.opt_none fun y hy => absurd hy List.not_mem_nil)
      (Picks.seq (picks_spaces_nil hgt) (Picks.group (picks_valueText (by decide) hx)))))
  have hpfx : Picks (.opt (.alt pfxRe (.opt condRe))) ('^' :: (c ++ ['-'] ++ '>' :: (x ++ ['\n'])))
      Dead ⟨[(.pfx, ['^'])], ['^'], c ++ ['-'] ++ '>' :: (x ++ ['\n'])⟩ :=
    Picks.opt_some (Picks.alt_left
      (picks_pfx (p := ['^']) List.mem_cons_self (head_name hname _)) _)
  have htext : '^' :: (c ++ '-' :: '>' :: (x ++ ['\n'])) =
      '^' :: (c ++ ['-'] ++ '>' :: (x ++ ['\n'])) := by simp
  rw [htext]
  exact ⟨_, find?_of_picks (Picks.seq hpfx (Picks.seq hvar (Picks.seq hlet picks_end))), rfl⟩

end

end Options

end T4P4S
