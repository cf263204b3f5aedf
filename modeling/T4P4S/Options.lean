/-
The options of `t4p4s.sh`: the loop that processes them, and what the README says they mean.

A condition is checked with `[`, for which some values are operators, and a conditional value
passes through `echo` and `sed`; some options have a meaning of their own that the README does not
mention.  Conditions and names with `^` in a conditional option, and the abbreviation `@`, never
work.

* **`optionLaw_of_stepsOk`** — every list of options whose steps are free of that is accepted, and
  the state is the README's, option by option from left to right.
* `turn_eq_of_ok` — the step of it: what one option does.
* `processOptions_append` — a list is processed from left to right.
* `turn_caretCond` — what `^cond->…` does instead.
-/
import Mathlib.Data.List.Forall2
import Mathlib.Logic.Function.Basic
import T4P4S.OptionRegex

open CText Regex

namespace T4P4S

namespace Options

/-! ### The shell -/

/-- The words in front of the others that `echo` takes as its options. -/
def echoFlag : Text → Bool
  | '-' :: c :: cs => (c :: cs).all fun d => d == 'n' || d == 'e' || d == 'E'
  | _ => false

/-- The number of bytes of a text in UTF-8. -/
def byteLength (s : Text) : ℕ := s.foldr (fun c n => c.utf8Size + n) 0

/-- `s` without the newlines at its end, as a command substitution gives it. -/
def captured (s : Text) : Text := s.rdropWhile (· = '\n')

/-- `line` has a reference `${name}` for `sed`, to which a dot in the name is any character. -/
def Refers (name line : Text) : Prop :=
  ∃ pre l ref r post, line = pre ++ '$' :: l :: (ref ++ r :: post) ∧ (l = '{' ∨ l = '\\') ∧
    (r = '}' ∨ r = '\\') ∧ List.Forall₂ (fun p c => p = '.' ∨ p = c) name ref

/-- What the script gets from outside of it. -/
structure Env where
  /-- `[ -f file ]` -/
  isFile : Text → Bool
  /-- The name of a P4 file without directories and extension. -/
  baseName : Text → Text
  candidateCount : Text → ℕ
  /-- The file that `find` gives for an example. -/
  srcFile : Text → Text
  /-- What a word is expanded to by the names of files. -/
  glob : Text → List Text
  /-- The escapes that `echo -e` knows. -/
  escapes : Text → Text
  escapes_nil : escapes [] = []
  /-- `conn.recv(1024)` for a line sent to the parse helper. -/
  recv : Text → Text
  recv_short : ∀ line, byteLength line ≤ 1024 → recv line = line
  /-- `sed -e "s/[$][\{]name[\}]/value/g"` -/
  sed : Text → Text → Text → Text
  /-- A line without a reference stays, if the value does not end the command. -/
  sed_plain : ∀ name, IsName name → ∀ value line, '/' ∉ value → '\\' ∉ value → '\n' ∉ value →
    '\n' ∉ line → ¬ Refers name line → sed name value (line ++ ['\n']) = line ++ ['\n']
  /-- Of an empty line nothing is made by one command, whatever its flags are. -/
  sed_blank : ∀ name, IsName name → ∀ value, ('/' ∉ value ∨ ';' ∉ value ∧ '}' ∉ value) →
    '\n' ∉ value → sed name value ['\n'] = ['\n'] ∨ sed name value ['\n'] = []

/-- `echo` -/
def echo (E : Env) (args : List Text) : Text :=
  let flags := (args.takeWhile echoFlag).flatten
  let text := [' '].intercalate (args.dropWhile echoFlag)
  let text := if (flags.filter fun c => c = 'e' ∨ c = 'E').getLast? = some 'e' then E.escapes text
    else text
  if 'n' ∈ flags then text else text ++ ['\n']

/-- A word that `[` takes as an operator where it has more than four arguments. -/
def testOperator (s : Text) : Bool := s == ['!'] || s == ['(']

/-! ### The options -/

/-- The arrays `OPTS` and `IGNORE_OPTS`; what is not set is empty. -/
structure State where
  opts : Text → Text
  ignoreOpts : Text → Text

def on : Text := "on".toList

def off : Text := "off".toList

def light : Text := "light".toList

def cfgfiles : Text := "cfgfiles".toList

def exampleOpt : Text := "example".toList

def source : Text := "source".toList

def dbg : Text := "dbg".toList

def testcase : Text := "testcase".toList

def variant : Text := "variant".toList

def verbose : Text := "verbose".toList

def suite : Text := "suite".toList

def test : Text := "test".toList

namespace State

def assign (name value : Text) (st : State) : State :=
  { st with opts := Function.update st.opts name value }

/-- `setopt` -/
def setopt (name value : Text) (st : State) : State :=
  if st.opts name = off then st else st.assign name value

/-- `addopt` -/
def addopt (name value sep : Text) (st : State) : State :=
  st.assign name (if st.opts name = [] then value else st.opts name ++ sep ++ value)

def ignore (name : Text) (st : State) : State :=
  { st with ignoreOpts := Function.update st.ignoreOpts name on }

end State

/-- `$(optvalue name)` -/
def optvalue (E : Env) (st : State) (name : Text) : Text :=
  if st.ignoreOpts name ≠ [] then off
  else if st.opts name = [] then off
  else captured (echo E [st.opts name])

/-! ### The loop -/

/-- How a turn ends: with a new state, with "Cannot parse option", or with the end of the loop. -/
inductive Turn
  | next (st : State)
  | unparsed
  | stopped

variable (E : Env)

/-- Both tests of the condition; `[` fails on an operator. -/
def condFails (st : State) (condvar expected : Text) : Bool :=
  (!testOperator expected && optvalue E st condvar = off && expected ≠ off) ||
    (!testOperator expected && !testOperator (st.opts condvar) && expected ≠ [] &&
      st.opts condvar ≠ expected)

/-- The value after the pipe of `echo` and `sed`. -/
def replaceRefs (st : State) (condvar letval : Text) : Text :=
  let words := (letval.splitOn ' ').filter (· ≠ [])
  captured (E.sed condvar (optvalue E st condvar) (echo E (words.flatMap E.glob)))

/-- What the prefixes for examples set besides the example. -/
def exampleOptions (pfx var value : Text) (st : State) : State :=
  let st := st.setopt exampleOpt var
  if pfx = [':'] then st
  else if pfx = [':', ':'] then st.setopt dbg on
  else if pfx = ['%'] then
    (st.setopt testcase (if value = on then test else value)).setopt variant test
  else if value = on then ((st.setopt suite on).setopt dbg on).setopt variant test
  else ((st.setopt testcase value).setopt dbg on).setopt variant test

/-- The rest of the turn, behind the condition. -/
def process (st : State) (groups : Group → Text) (letval : Text) : Turn :=
  let var := groups .var
  let pfx := groups .pfx
  let value := if letval = [] then on else letval
  -- `KNOWN_COLOURS` has no element without a name
  if var = "COLOUR_".toList then .stopped
  else if var = light then .next (st.assign light value)
  else if var = cfgfiles ∧ ¬ E.isFile value then .next st
  else if pfx ∈ [[':'], [':', ':'], ['%'], ['%', '%']] then
    if E.candidateCount var ≠ 1 then .stopped
    else
      let st := (st.setopt exampleOpt var).setopt source (E.srcFile var)
      .next (exampleOptions pfx var value st)
  else if pfx = ['^'] then .next (st.ignore var)
  else if groups .letop = ['+', '='] then .next (st.addopt var value [' '])
  -- `"\n"` are two characters
  else if groups .letop = ['+', '+', '='] then .next (st.addopt var value ['\\', 'n'])
  else if groups .letop = ['?', '='] then
    .next (if optvalue E st var = off then st.setopt var value else st)
  else .next (st.setopt var value)

/-- A turn of the loop over `NEWOPTS`. -/
def turn (st : State) (opt : Text) : Turn :=
  if ".p4".toList <:+: opt ∧ E.isFile opt then
    .next ((st.setopt exampleOpt (E.baseName opt)).setopt source opt)
  else
    match parseHelper (E.recv (echo E [opt])) with
    -- without an answer, all groups are empty, and so is the name that is set
    | .ended => .stopped
    | .no => .unparsed
    | .yes groups =>
      if groups .cond = [] then process E st groups (groups .letval)
      else if condFails E st (groups .condvar) (groups .condval) then .next st
      else process E st groups (replaceRefs E st (groups .condvar) (groups .letval))

/-- The loop over `NEWOPTS`; `none` if it is left. -/
def processOptions (st : State) : List Text → Option State
  | [] => some st
  | opt :: opts =>
    match turn E st opt with
    | .next st => processOptions st opts
    | .unparsed => processOptions st opts
    | .stopped => none

/-- The option is accepted by the parser. -/
def Accepts (opt : Text) : Prop := ∃ groups, parseHelper (E.recv (echo E [opt])) = .yes groups

/-! ### The documented options -/

abbrev Name := { n : Text // IsName n }

abbrev Value := { v : Text // IsValue v }

/-- What follows the name, as texts. -/
def tailOf (t : Option (LetOp × Value)) : Option (LetOp × Text) := t.map fun p => (p.1, p.2.1)

/-- `name`, `name=value`, `name+=value` and `name++=value`; and `^name`. -/
inductive Action
  | define (n : Name) (t : Option (LetOp × Value))
  | ignore (n : Name)

/-- `cond->`, `^cond->` and `cond=value->`. -/
inductive Cond
  | defined (c : Name)
  | notDefined (c : Name)
  | equals (c : Name) (v : Value)

/-- The last six are `@v`, `:e`, `::e`, `%e`, `%e=t` and `%%e=t`. -/
inductive Form
  | action (a : Action)
  | conditional (c : Cond) (a : Action)
  | variant (v : Name)
  | run (e : Name)
  | debug (e : Name)
  | test (e : Name)
  | testcase (e : Name) (t : Value)
  | verboseTestcase (e : Name) (t : Value)

def Action.text : Action → Text
  | define n t => n ++ tailText (tailOf t)
  | ignore n => '^' :: n

def Cond.text : Cond → Text
  | defined c => c ++ ['-', '>']
  | notDefined c => '^' :: (c ++ ['-', '>'])
  | equals c v => c ++ '=' :: (v ++ ['-', '>'])

def Form.text : Form → Text
  | action a => a.text
  | conditional c a => c.text ++ a.text
  | variant v => '@' :: v
  | run e => ':' :: e
  | debug e => ':' :: ':' :: e
  | test e => '%' :: e
  | testcase e t => '%' :: (e ++ '=' :: t)
  | verboseTestcase e t => '%' :: '%' :: (e ++ '=' :: t)

/-! ### What the README says -/

/-- The value that is given, by default `on`. -/
def valueOf : Option (LetOp × Value) → Text
  | none => on
  | some (_, v) => v

/-- `value` behind what is there. -/
def State.append (name value sep : Text) (st : State) : State :=
  st.assign name (if st.opts name = [] then value else st.opts name ++ sep ++ value)

def Action.apply (st : State) : Action → State
  | define n none => st.assign n on
  | define n (some (.assign, v)) => st.assign n v
  | define n (some (.append, v)) => st.append n v [' ']
  | define n (some (.appendLine, v)) => st.append n v ['\n']
  | ignore n => st.ignore n

/-- An option that is ignored is considered not to be defined. -/
def State.Defined (st : State) (name : Text) : Prop := st.opts name ≠ [] ∧ st.ignoreOpts name = []

instance (st : State) (name : Text) : Decidable (st.Defined name) :=
  inferInstanceAs (Decidable (_ ∧ _))

/-- The condition holds at this time. -/
def Cond.Holds (st : State) : Cond → Prop
  | defined c => st.Defined c
  | notDefined c => ¬ st.Defined c
  | equals c v => st.Defined c ∧ st.opts c = v

instance (st : State) (c : Cond) : Decidable (c.Holds st) :=
  match c with
  | .defined _ => inferInstanceAs (Decidable (State.Defined _ _))
  | .notDefined _ => inferInstanceAs (Decidable (¬ State.Defined _ _))
  | .equals _ _ => inferInstanceAs (Decidable (State.Defined _ _ ∧ _))

/-- The example `e`; the program finds its source file. -/
def State.example (st : State) (e : Name) : State :=
  (st.assign exampleOpt e).assign source (E.srcFile e)

def Form.apply (st : State) : Form → State
  | action a => a.apply st
  | conditional c a => if c.Holds st then a.apply st else st
  | variant v => st.assign Options.variant v
  | run e => st.example E e
  | debug e => (st.example E e).assign dbg on
  | test e => ((st.example E e).assign Options.variant Options.test).assign Options.testcase
      Options.test
  | testcase e t => ((st.example E e).assign Options.variant Options.test).assign Options.testcase t
  | verboseTestcase e t =>
    let st := ((st.example E e).assign Options.variant Options.test).assign verbose on
    (st.assign dbg on).assign Options.testcase t

/-- A text that is the name of a P4 program is no option. -/
def Form.IsOption (f : Form) : Prop := ¬ (".p4".toList <:+: f.text ∧ E.isFile f.text)

/-- The options are accepted, and the state is what one after the other means. -/
def OptionLaw (st : State) (fs : List Form) : Prop :=
  (∀ f ∈ fs, Accepts E f.text) ∧
    processOptions E st (fs.map Form.text) = some (fs.foldl (Form.apply E) st)

/-! ### When the script does what it says -/

/-- `setopt` leaves an option that is `off` as it is. -/
def State.Settable (st : State) (name value : Text) : Prop := st.opts name = off → value = off

/-- The text reaches the parse helper, which reads 1024 bytes. -/
structure Sent (text : Text) : Prop where
  noFlag : echoFlag text = false
  noExit : ¬ "exit_parse_helper".toList <+: text
  short : byteLength (text ++ ['\n']) ≤ 1024

/-- The names with a meaning of their own. -/
def NameOk (name value : Text) : Prop :=
  name ≠ "COLOUR_".toList ∧ (name = cfgfiles → E.isFile value)

/-- `light` is set whatever the operator is, and the newline of `++=` is not one. -/
def LetOk (st : State) (n : Name) : Option (LetOp × Value) → Prop
  | none => n = light ∨ st.Settable n on
  | some (.assign, v) => n = light ∨ st.Settable n v
  | some (.append, _) => n = light → st.opts n = []
  | some (.appendLine, _) => st.opts n = []

def Action.Ok (st : State) : Action → Prop
  | define n t => NameOk E n (valueOf t) ∧ LetOk st n t
  | ignore n => NameOk E n on ∧ n.1 ≠ light

/-- An arrow in a value ends no condition. -/
def Action.Readable : Action → Prop
  | define _ t => ∀ v, tailOf t = some (.assign, v) → ¬ ArrowTail v.tail
  | ignore _ => True

def Cond.Readable (t : Option (LetOp × Value)) : Cond → Prop
  | equals _ _ => ∀ p ∈ tailOf t, ¬ ArrowTail p.2
  | _ => True

def Cond.name : Cond → Name
  | defined c => c
  | notDefined c => c
  | equals c _ => c

/-- The value `off` counts as not defined, and no operator of `[` is compared. -/
def Cond.Ok (st : State) : Cond → Prop
  | defined c => st.Defined c → optvalue E st c ≠ off
  | notDefined _ => False
  | equals c v => (equals c v).Holds st ∨ (¬ testOperator v ∧
      ((optvalue E st c = off ∧ v.1 ≠ off) ∨ (¬ testOperator (st.opts c) ∧ st.opts c ≠ v)))

/-- The value comes out of `echo` and `sed` as it is: no space is doubled, no word is a name of
files or an option of `echo`, and there is no reference to the option of the condition, whose
value does not end the command of `sed` or does not begin another one. -/
def Kept (st : State) (c : Text) : Option (LetOp × Value) → Prop
  | none => ('/' ∉ optvalue E st c ∨ ';' ∉ optvalue E st c ∧ '}' ∉ optvalue E st c) ∧
    '\n' ∉ optvalue E st c
  | some (_, v) =>
    ('/' ∉ optvalue E st c ∧ '\\' ∉ optvalue E st c ∧ '\n' ∉ optvalue E st c) ∧ ¬ Refers c v ∧
      (∀ w ∈ v.1.splitOn ' ', w ≠ [] ∧ E.glob w = [w]) ∧
      ∀ w ∈ (v.1.splitOn ' ').head?, echoFlag w = false

/-- There is one P4 file for the example. -/
structure ExampleOk (st : State) (e : Name) (value : Text) : Prop where
  name : NameOk E e value
  notLight : e.1 ≠ light
  unique : E.candidateCount e = 1
  settable : st.Settable exampleOpt e
  settableSource : st.Settable source (E.srcFile e)

def Form.Ok (st : State) : Form → Prop
  | action a => a.Readable ∧ a.Ok E st
  | conditional c (.define n t) => c.Readable t ∧ c.Ok E st ∧
      (c.Holds st → Kept E st c.name t ∧ (Action.define n t).Ok E st)
  | conditional _ (.ignore _) => False
  | variant _ => False
  | run e => ExampleOk E st e on
  | debug e => ExampleOk E st e on ∧ st.Settable dbg on
  | test e => ExampleOk E st e on ∧ st.Settable Options.testcase Options.test ∧
      st.Settable Options.variant Options.test
  | testcase e t => ExampleOk E st e t ∧ t.1 ≠ on ∧ st.Settable Options.testcase t ∧
      st.Settable Options.variant Options.test
  | verboseTestcase e t => ExampleOk E st e t ∧ t.1 ≠ on ∧ st.Settable Options.testcase t ∧
      st.Settable dbg on ∧ st.Settable Options.variant Options.test ∧ st.opts verbose = on

/-- Every option of the list is free of the cases above in the state that those before it give. -/
def StepsOk : State → List Form → Prop
  | _, [] => True
  | st, f :: fs => (f.IsOption E ∧ Sent f.text ∧ f.Ok E st) ∧ StepsOk (f.apply E st) fs

/-! ### Setting options -/

namespace State

variable {st : State} {a b x y : Text}

@[simp] theorem assign_opts_self : (st.assign a x).opts a = x := Function.update_self ..

@[simp] theorem assign_opts_of_ne (h : b ≠ a) : (st.assign a x).opts b = st.opts b :=
  Function.update_of_ne h ..

theorem assign_self (h : st.opts a = x) : st.assign a x = st := by
  rw [assign, ← h, Function.update_eq_self]

theorem assign_comm (h : a ≠ b) : (st.assign a x).assign b y = (st.assign b y).assign a x := by
  simp only [assign, Function.update_comm h]

theorem setopt_eq_assign (h : st.Settable a x) : st.setopt a x = st.assign a x := by
  rw [setopt]
  split
  · next hoff => exact (assign_self (hoff.trans (h hoff).symm)).symm
  · rfl

theorem setopt_self (h : st.opts a = x) : st.setopt a x = st := by
  rw [setopt_eq_assign fun hoff => h.symm.trans hoff, assign_self h]

theorem append_of_nil {sep : Text} (h : st.opts a = []) : st.append a x sep = st.assign a x := by
  rw [append, if_pos h]

theorem Settable.of_assign (h : st.Settable b y) (hne : b ≠ a) : (st.assign a x).Settable b y := by
  rwa [Settable, assign_opts_of_ne hne]

end State

/-! ### The turn behind the condition -/

variable {E : Env} {st : State} {groups : Group → Text}

theorem notMem_example_nil : [] ∉ [[':'], [':', ':'], ['%'], ['%', '%']] := by decide

/-- A name that has no meaning of its own gets as far as the prefixes. -/
theorem process_name {n v : Text} (hvar : groups .var = n) (hok : NameOk E n v) (hlight : n ≠ light)
    {letval : Text} (hv : (if letval = [] then on else letval) = v) :
    process E st groups letval =
      if groups .pfx ∈ [[':'], [':', ':'], ['%'], ['%', '%']] then
        if E.candidateCount n ≠ 1 then .stopped
        else .next (exampleOptions (groups .pfx) n v
          ((st.setopt exampleOpt n).setopt source (E.srcFile n)))
      else if groups .pfx = ['^'] then .next (st.ignore n)
      else if groups .letop = ['+', '='] then .next (st.addopt n v [' '])
      else if groups .letop = ['+', '+', '='] then .next (st.addopt n v ['\\', 'n'])
      else if groups .letop = ['?', '='] then
        .next (if optvalue E st n = off then st.setopt n v else st)
      else .next (st.setopt n v) := by
  rw [process]
  simp only [hvar, hv]
  rw [if_neg hok.1, if_neg hlight, if_neg fun h => h.2 (hok.2 h.1)]

/-- The value that `letval` has. -/
def letvalOf (t : Option (LetOp × Value)) : Text := (t.map fun p => p.2.1).getD []

theorem valueOf_eq (t : Option (LetOp × Value)) :
    (if letvalOf t = [] then on else letvalOf t) = valueOf t := by
  rcases t with _ | ⟨op, v⟩
  · rfl
  · exact if_neg v.2.ne

theorem process_define {n : Name} {t : Option (LetOp × Value)} (hvar : groups .var = n)
    (hpfx : groups .pfx = []) (hop : groups .letop = (t.map fun p => p.1.text).getD [])
    (hok : (Action.define n t).Ok E st) :
    process E st groups (letvalOf t) = .next ((Action.define n t).apply st) := by
  obtain ⟨hname, hlet⟩ := hok
  by_cases hlight : n.1 = light
  · have hprocess : process E st groups (letvalOf t) = .next (st.assign light (valueOf t)) := by
      rw [process]
      simp only [hvar, valueOf_eq]
      rw [if_neg hname.1, if_pos hlight]
    rw [hprocess, ← hlight]
    rcases t with _ | ⟨_ | _ | _, v⟩
    · rfl
    · rfl
    · exact congrArg Turn.next (State.append_of_nil (hlet hlight)).symm
    · exact congrArg Turn.next (State.append_of_nil hlet).symm
  · have hset : ∀ {v : Text}, n.1 = light ∨ st.Settable n v → st.setopt n v = st.assign n v :=
      fun h => State.setopt_eq_assign (h.resolve_left hlight)
    rw [process_name hvar hname hlight (valueOf_eq t), hpfx, if_neg notMem_example_nil,
      if_neg (by decide), hop]
    rcases t with _ | ⟨_ | _ | _, v⟩
    · exact congrArg Turn.next (hset hlet)
    · exact congrArg Turn.next (hset hlet)
    · rfl
    · have heq : st.addopt n v ['\\', 'n'] = st.append n v ['\n'] :=
        (State.append_of_nil hlet).trans (State.append_of_nil hlet).symm
      exact congrArg Turn.next heq

theorem process_ignore {n : Name} (hvar : groups .var = n) (hpfx : groups .pfx = ['^'])
    (hok : (Action.ignore n).Ok E st) :
    process E st groups [] = .next ((Action.ignore n).apply st) := by
  rw [process_name hvar hok.1 hok.2 (if_pos rfl), hpfx]
  rfl

theorem process_example {e : Name} {v letval : Text} {p : Text}
    (hp : p ∈ [[':'], [':', ':'], ['%'], ['%', '%']]) (hvar : groups .var = e)
    (hpfx : groups .pfx = p) (hv : (if letval = [] then on else letval) = v)
    (hok : ExampleOk E st e v) :
    process E st groups letval = .next (exampleOptions p e v (st.example E e)) := by
  rw [process_name hvar hok.name hok.notLight hv, hpfx, if_pos hp, if_neg (not_not.mpr hok.unique),
    State.setopt_eq_assign hok.settable,
    State.setopt_eq_assign (hok.settableSource.of_assign (by decide))]
  rfl

/-! ### The options for examples -/

section

variable {e : Name}

@[simp] theorem State.example_opts (E : Env) (st : State) (e : Name) :
    (st.example E e).opts exampleOpt = e.1 := by
  rw [State.example, State.assign_opts_of_ne (by decide), State.assign_opts_self]

/-- The other options are settable as before. -/
theorem State.Settable.of_example {a v : Text} (h : st.Settable a v) (hne : a ≠ exampleOpt)
    (hne' : a ≠ source) : (st.example E e).Settable a v :=
  (h.of_assign hne).of_assign hne'

theorem exampleOptions_run (v : Text) :
    exampleOptions [':'] e v (st.example E e) = st.example E e := by
  rw [exampleOptions, if_pos rfl]
  exact State.setopt_self (State.example_opts E st e)

theorem exampleOptions_debug (v : Text) (hdbg : st.Settable dbg on) :
    exampleOptions [':', ':'] e v (st.example E e) = (st.example E e).assign dbg on := by
  rw [exampleOptions, if_neg (by decide), if_pos rfl, State.setopt_self (State.example_opts E st e)]
  exact State.setopt_eq_assign (hdbg.of_example (by decide) (by decide))

theorem exampleOptions_test {v t : Text} (ht : (if v = on then Options.test else v) = t)
    (htest : st.Settable testcase t) (hvariant : st.Settable variant test) :
    exampleOptions ['%'] e v (st.example E e) =
      ((st.example E e).assign variant test).assign testcase t := by
  rw [exampleOptions, if_neg (by decide), if_neg (by decide), if_pos rfl, ht,
    State.setopt_self (State.example_opts E st e),
    State.setopt_eq_assign (htest.of_example (by decide) (by decide)),
    State.setopt_eq_assign ((hvariant.of_example (by decide) (by decide)).of_assign (by decide)),
    State.assign_comm (by decide)]

theorem exampleOptions_verbose {v : Text} (hv : v ≠ on) (htest : st.Settable testcase v)
    (hdbg : st.Settable dbg on) (hvariant : st.Settable variant test)
    (hverbose : st.opts verbose = on) :
    exampleOptions ['%', '%'] e v (st.example E e) =
      ((((st.example E e).assign variant test).assign verbose on).assign dbg on).assign
        testcase v := by
  have hself : ((st.example E e).assign variant test).assign verbose on =
      (st.example E e).assign variant test := by
    refine State.assign_self ?_
    rw [State.assign_opts_of_ne (by decide), State.example, State.assign_opts_of_ne (by decide),
      State.assign_opts_of_ne (by decide), hverbose]
  rw [exampleOptions, if_neg (by decide), if_neg (by decide), if_neg (by decide), if_neg hv,
    State.setopt_self (State.example_opts E st e),
    State.setopt_eq_assign (htest.of_example (by decide) (by decide)),
    State.setopt_eq_assign ((hdbg.of_example (by decide) (by decide)).of_assign (by decide)),
    State.setopt_eq_assign (((hvariant.of_example (by decide) (by decide)).of_assign
      (by decide)).of_assign (by decide)), hself]
  calc (((st.example E e).assign testcase v).assign dbg on).assign variant test
      = (((st.example E e).assign testcase v).assign variant test).assign dbg on :=
        State.assign_comm (by decide)
    _ = (((st.example E e).assign variant test).assign testcase v).assign dbg on := by
        exact congrArg (State.assign dbg on) (State.assign_comm (by decide))
    _ = (((st.example E e).assign variant test).assign dbg on).assign testcase v :=
        State.assign_comm (by decide)

end

/-! ### `echo` and `sed` -/

theorem echo_words {w : Text} (hw : echoFlag w = false) (ws : List Text) :
    echo E (w :: ws) = [' '].intercalate (w :: ws) ++ ['\n'] := by
  have htake : (w :: ws).takeWhile echoFlag = [] := List.takeWhile_cons_of_neg (by simp [hw])
  have hdrop : (w :: ws).dropWhile echoFlag = w :: ws := List.dropWhile_cons_of_neg (by simp [hw])
  simp only [echo, htake, hdrop]
  rfl

theorem captured_line {s : Text} (hs : '\n' ∉ s) : captured (s ++ ['\n']) = s := by
  rw [captured, List.rdropWhile_concat_pos _ _ _ (by decide), List.rdropWhile_eq_self_iff]
  intro hne heq
  exact hs (of_decide_eq_true heq ▸ List.getLast_mem hne)

/-- A text that is an option of `echo` is not printed. -/
theorem captured_echo {v : Text} (hv : '\n' ∉ v) :
    captured (echo E [v]) = if echoFlag v then [] else v := by
  split
  · next hflag =>
    have htake : [v].takeWhile echoFlag = [v] := List.takeWhile_cons_of_pos hflag
    have hdrop : [v].dropWhile echoFlag = [] := List.dropWhile_cons_of_pos hflag
    simp only [echo, htake, hdrop, List.intercalate_nil, E.escapes_nil, ite_self]
    split <;> rfl
  · next hflag =>
    rw [echo_words (Bool.not_eq_true _ ▸ hflag) [], List.intercalate_singleton]
    exact captured_line hv

theorem flatMap_glob {ws : List Text} (h : ∀ w ∈ ws, E.glob w = [w]) : ws.flatMap E.glob = ws := by
  induction ws with
  | nil => rfl
  | cons w ws ih =>
    obtain ⟨hw, hws⟩ := List.forall_mem_cons.mp h
    rw [List.flatMap_cons, hw, ih hws]
    rfl

/-! ### The condition -/

theorem condFails_iff {c v : Text} : condFails E st c v ↔ ¬ testOperator v ∧
    ((optvalue E st c = off ∧ v ≠ off) ∨
      (¬ testOperator (st.opts c) ∧ v ≠ [] ∧ st.opts c ≠ v)) := by
  rw [condFails]
  simp only [Bool.or_eq_true, Bool.and_eq_true, Bool.not_eq_true', decide_eq_true_eq,
    Bool.not_eq_true]
  tauto

theorem optvalue_of_not_defined {c : Text} (h : ¬ st.Defined c) : optvalue E st c = off := by
  rw [optvalue]
  split
  · rfl
  · next hignored =>
    split
    · rfl
    · next hne => exact absurd ⟨hne, not_not.mp hignored⟩ h

theorem condFails_defined {c : Name} (hok : (Cond.defined c).Ok E st) :
    condFails E st c [] ↔ ¬ (Cond.defined c).Holds st := by
  rw [condFails_iff]
  constructor
  · rintro ⟨-, ⟨hoff, -⟩ | ⟨-, hne, -⟩⟩ hholds
    · exact hok hholds hoff
    · exact hne rfl
  · exact fun h => ⟨by decide, Or.inl ⟨optvalue_of_not_defined h, by decide⟩⟩

/-- Where the condition holds, its option is `off` for the script only if that is the value. -/
theorem optvalue_of_equals {c : Name} {v : Value} (h : (Cond.equals c v).Holds st)
    (hoff : optvalue E st c = off) : v.1 = off := by
  obtain ⟨⟨hne, hignored⟩, hval⟩ := h
  rw [optvalue, if_neg (not_not.mpr hignored), if_neg hne, hval, captured_echo v.2.oneLine] at hoff
  split at hoff
  · exact absurd hoff (by decide)
  · exact hoff

theorem condFails_equals {c : Name} {v : Value} (hok : (Cond.equals c v).Ok E st) :
    condFails E st c v ↔ ¬ (Cond.equals c v).Holds st := by
  rw [condFails_iff]
  constructor
  · rintro ⟨-, ⟨hoff, hne⟩ | ⟨-, -, hne⟩⟩ hholds
    · exact hne (optvalue_of_equals hholds hoff)
    · exact hne hholds.2
  · intro h
    obtain ⟨hop, hcases⟩ := hok.resolve_left h
    exact ⟨hop, hcases.imp_right fun hcases => ⟨hcases.1, v.2.ne, hcases.2⟩⟩

theorem replaceRefs_eq {c : Name} {t : Option (LetOp × Value)} (hok : Kept E st c t) :
    replaceRefs E st c (letvalOf t) = letvalOf t := by
  rcases t with _ | ⟨op, v⟩
  · obtain ⟨hcommand, hline⟩ := hok
    have hsed := E.sed_blank c c.2 _ hcommand hline
    have hecho : echo E ((([] : Text).splitOn ' ').filter (· ≠ []) |>.flatMap E.glob) = ['\n'] := by
      rw [List.splitOn_nil]
      rfl
    rw [replaceRefs]
    show captured (E.sed c _ (echo E ((([] : Text).splitOn ' ').filter (· ≠ []) |>.flatMap E.glob)))
      = []
    rw [hecho]
    rcases hsed with h | h <;> (rw [h]; rfl)
  · obtain ⟨⟨hslash, hback, hline⟩, hrefs, hwords, hflag⟩ := hok
    have hfilter : (v.1.splitOn ' ').filter (· ≠ []) = v.1.splitOn ' ' :=
      List.filter_eq_self.mpr fun w hw => decide_eq_true (hwords w hw).1
    have hglob : (v.1.splitOn ' ').flatMap E.glob = v.1.splitOn ' ' :=
      flatMap_glob fun w hw => (hwords w hw).2
    have hecho : echo E (v.1.splitOn ' ') = v ++ ['\n'] := by
      obtain ⟨w, ws, hsplit⟩ := List.exists_cons_of_ne_nil (List.splitOn_ne_nil ' ' v.1)
      rw [hsplit] at hflag ⊢
      rw [echo_words (hflag w rfl), ← hsplit, List.intercalate_splitOn]
    rw [replaceRefs]
    show captured (E.sed c _ (echo E (((v.1.splitOn ' ').filter (· ≠ [])).flatMap E.glob))) = v
    rw [hfilter, hglob, hecho, E.sed_plain c c.2 _ _ hslash hback hline v.2.oneLine hrefs,
      captured_line v.2.oneLine]

/-! ### What the parse helper answers -/

/-- The groups of a match, as `read` gets them. -/
def groupsOf (caps : List (Group × Text)) (g : Group) : Text := readWord ((caps.lookup g).getD [])

theorem readWord_eq {s : Text} (hhead : ∀ c ∈ s.head?, c ≠ ' ')
    (hlast : ∀ c ∈ s.getLast?, c ≠ ' ') : readWord s = s := by
  have hdrop : s.dropWhile (· = ' ') = s := by
    cases s with
    | nil => rfl
    | cons c s => exact List.dropWhile_cons_of_neg (by simpa using hhead c rfl)
  rw [readWord, hdrop, List.rdropWhile_eq_self_iff]
  intro hne heq
  exact hlast _ (List.getLast?_eq_some_getLast hne) (of_decide_eq_true heq)

theorem readWord_name (n : Name) : readWord n = n := by
  have hne : ∀ c ∈ n.1, c ≠ ' ' := fun c hc heq =>
    absurd (n.2.2 c hc) (by rw [heq]; decide)
  exact readWord_eq (fun c hc => hne c (List.mem_of_mem_head? hc))
    fun c hc => hne c (List.mem_of_mem_getLast? hc)

theorem readWord_value (v : Value) : readWord v = v := by
  refine readWord_eq (fun c hc heq => v.2.head c hc ?_) fun c hc heq => v.2.last c hc ?_
  · rw [heq]; decide
  · rw [heq]; decide

theorem readWord_text (op : LetOp) : readWord op.text = op.text := by
  cases op <;> rfl

/-- The text of a condition is not empty. -/
theorem readWord_cond {c : Name} (s : Text) : readWord (c ++ (s ++ ['>'])) ≠ [] := by
  have hne : ∀ d ∈ c.1, d ≠ ' ' := fun d hd heq => absurd (c.2.2 d hd) (by rw [heq]; decide)
  rw [readWord_eq (fun d hd => ?_) fun d hd => ?_]
  · exact List.append_ne_nil_of_left_ne_nil c.2.1 _
  · rw [List.head?_append_of_ne_nil _ c.2.1] at hd
    exact hne d (List.mem_of_mem_head? hd)
  · rw [← List.append_assoc, List.getLast?_concat] at hd
    obtain rfl := Option.some.inj hd
    decide

theorem recv_echo {text : Text} (h : Sent text) : E.recv (echo E [text]) = text ++ ['\n'] := by
  rw [echo_words h.noFlag [], List.intercalate_singleton, E.recv_short _ h.short]

theorem parseHelper_eq {text : Text} {caps : List (Group × Text)} (h : Sent text)
    (hfind : ∃ x, find? rexp (text ++ ['\n']) = some x ∧ x.caps = caps) :
    parseHelper (E.recv (echo E [text])) = .yes (groupsOf caps) := by
  obtain ⟨x, hx, rfl⟩ := hfind
  have hno : ¬ "exit_parse_helper".toList <+: text ++ ['\n'] := by
    rw [List.prefix_concat_iff]
    rintro (heq | hpre)
    · have hlast := congrArg List.getLast? heq
      rw [List.getLast?_concat] at hlast
      exact absurd hlast (by decide)
    · exact h.noExit hpre
  rw [recv_echo h, parseHelper, if_neg hno, hx]
  rfl

/-- The turn of an option that is accepted. -/
theorem turn_eq {f : Form} {caps : List (Group × Text)} (hoption : f.IsOption E)
    (h : Sent f.text) (hfind : ∃ x, find? rexp (f.text ++ ['\n']) = some x ∧ x.caps = caps) :
    turn E st f.text =
      if groupsOf caps .cond = [] then process E st (groupsOf caps) (groupsOf caps .letval)
      else if condFails E st (groupsOf caps .condvar) (groupsOf caps .condval) then .next st
      else process E st (groupsOf caps)
        (replaceRefs E st (groupsOf caps .condvar) (groupsOf caps .letval)) := by
  rw [turn, if_neg hoption, parseHelper_eq h hfind]

/-! ### One option -/

theorem bodyCaps_var (n : Name) (t : Option (LetOp × Text)) : groupsOf (bodyCaps n t) .var = n :=
  readWord_name n

theorem bodyCaps_letop (n : Text) (t : Option (LetOp × Value)) :
    groupsOf (bodyCaps n (tailOf t)) .letop = (t.map fun p => p.1.text).getD [] := by
  rcases t with _ | ⟨op, v⟩
  · rfl
  · exact readWord_text op

theorem bodyCaps_letval (n : Text) (t : Option (LetOp × Value)) :
    groupsOf (bodyCaps n (tailOf t)) .letval = letvalOf t := by
  rcases t with _ | ⟨op, v⟩
  · rfl
  · exact readWord_value v

theorem bodyCaps_cond (n : Text) (t : Option (LetOp × Value)) :
    groupsOf (bodyCaps n (tailOf t)) .cond = [] := by
  rcases t with _ | ⟨op, v⟩ <;> rfl

theorem bodyCaps_pfx (n : Text) (t : Option (LetOp × Value)) :
    groupsOf (bodyCaps n (tailOf t)) .pfx = [] := by
  rcases t with _ | ⟨op, v⟩ <;> rfl

theorem isValue_tailOf (t : Option (LetOp × Value)) : ∀ p ∈ tailOf t, IsValue p.2 := by
  intro p hp
  obtain ⟨q, -, rfl⟩ := Option.map_eq_some_iff.mp hp
  exact q.2.2

theorem turn_define {n : Name} {t : Option (LetOp × Value)}
    (hoption : (Form.action (.define n t)).IsOption E) (h : Sent (Form.action (.define n t)).text)
    (hok : (Form.action (.define n t)).Ok E st) :
    turn E st (Form.action (.define n t)).text = .next ((Action.define n t).apply st) ∧
      Accepts E (Form.action (.define n t)).text := by
  have hfind : ∃ x, find? rexp ((Form.action (.define n t)).text ++ ['\n']) = some x ∧
      x.caps = bodyCaps n (tailOf t) := by
    rw [Form.text, Action.text, List.append_assoc]
    exact find_plain n.2 (isValue_tailOf t) hok.1
  refine ⟨?_, _, parseHelper_eq h hfind⟩
  rw [turn_eq hoption h hfind, if_pos (bodyCaps_cond n t), bodyCaps_letval]
  exact process_define (bodyCaps_var n _) (bodyCaps_pfx n t) (bodyCaps_letop n t) hok.2

/-- A text with a prefix has no condition. -/
theorem turn_prefixed (st : State) {f : Form} {p : Text} {n : Name} {t : Option (LetOp × Value)}
    (hp : p ∈ pfxTexts) (htext : f.text = p ++ (n ++ tailText (tailOf t)))
    (hoption : f.IsOption E) (h : Sent f.text) :
    ∃ groups, groups .var = n.1 ∧ groups .pfx = p ∧
      turn E st f.text = process E st groups (letvalOf t) ∧ Accepts E f.text := by
  have hfind : ∃ x, find? rexp (f.text ++ ['\n']) = some x ∧
      x.caps = (.pfx, p) :: bodyCaps n (tailOf t) := by
    rw [htext, List.append_assoc, List.append_assoc]
    exact find_prefixed hp n.2 (isValue_tailOf t)
  have hpfx : readWord p = p := by
    simp only [pfxTexts, List.mem_cons, List.not_mem_nil, or_false] at hp
    rcases hp with rfl | rfl | rfl | rfl | rfl | rfl <;> rfl
  have hcond : groupsOf ((.pfx, p) :: bodyCaps n (tailOf t)) .cond = [] := bodyCaps_cond n t
  have hletval : groupsOf ((.pfx, p) :: bodyCaps n (tailOf t)) .letval = letvalOf t :=
    bodyCaps_letval n t
  refine ⟨groupsOf ((.pfx, p) :: bodyCaps n (tailOf t)), bodyCaps_var n (tailOf t), hpfx, ?_,
    _, parseHelper_eq h hfind⟩
  rw [turn_eq hoption h hfind, if_pos hcond, hletval]

/-- The turn of an option with a condition, for the groups of the condition. -/
theorem turn_of_cond {f : Form} {pre : List (Group × Text)} {c n : Name} {v : Text}
    {t : Option (LetOp × Value)} {H : Prop} [Decidable H] (hoption : f.IsOption E)
    (h : Sent f.text)
    (hfind : ∃ x, find? rexp (f.text ++ ['\n']) = some x ∧ x.caps = pre ++ bodyCaps n (tailOf t))
    (hcond : groupsOf (pre ++ bodyCaps n (tailOf t)) .cond ≠ [])
    (hcondvar : groupsOf (pre ++ bodyCaps n (tailOf t)) .condvar = c)
    (hcondval : groupsOf (pre ++ bodyCaps n (tailOf t)) .condval = v)
    (hrest : ∀ g ∈ [Group.var, .pfx, .letop, .letval],
      groupsOf (pre ++ bodyCaps n (tailOf t)) g = groupsOf (bodyCaps n (tailOf t)) g)
    (hfails : condFails E st c v ↔ ¬ H)
    (hok : H → Kept E st c t ∧ (Action.define n t).Ok E st) :
    turn E st f.text = .next (if H then (Action.define n t).apply st else st) := by
  rw [turn_eq hoption h hfind, if_neg hcond, hcondvar, hcondval, hrest .letval (by simp),
    bodyCaps_letval]
  by_cases hH : H
  · obtain ⟨hkept, haction⟩ := hok hH
    rw [if_neg (mt hfails.mp (not_not.mpr hH)), if_pos hH, replaceRefs_eq hkept]
    exact process_define ((hrest .var (by simp)).trans (bodyCaps_var n _))
      ((hrest .pfx (by simp)).trans (bodyCaps_pfx n t))
      ((hrest .letop (by simp)).trans (bodyCaps_letop n t)) haction
  · rw [if_pos (hfails.mpr hH), if_neg hH]

theorem turn_conditional {c : Cond} {n : Name} {t : Option (LetOp × Value)}
    (hoption : (Form.conditional c (.define n t)).IsOption E)
    (h : Sent (Form.conditional c (.define n t)).text)
    (hok : (Form.conditional c (.define n t)).Ok E st) :
    turn E st (Form.conditional c (.define n t)).text =
        .next ((Form.conditional c (.define n t)).apply E st) ∧
      Accepts E (Form.conditional c (.define n t)).text := by
  obtain ⟨hread, hcond, hholds⟩ := hok
  cases c with
  | defined c =>
    have hfind : ∃ x, find? rexp ((Form.conditional (.defined c) (.define n t)).text ++ ['\n']) =
        some x ∧ x.caps = [(.cond, c ++ ['-', '>']), (.condvar, c.1), (.condsep, ['-', '>'])] ++
          bodyCaps n (tailOf t) := by
      have htext : (Form.conditional (.defined c) (.define n t)).text ++ ['\n'] =
          c ++ '-' :: '>' :: (n ++ (tailText (tailOf t) ++ ['\n'])) := by
        simp [Form.text, Cond.text, Action.text]
      rw [htext]
      exact find_defined c.2 n.2 (isValue_tailOf t)
    refine ⟨?_, _, parseHelper_eq h hfind⟩
    refine turn_of_cond hoption h hfind (readWord_cond ['-']) (readWord_name c) ?_ ?_
      (condFails_defined hcond) hholds
    · rcases t with _ | ⟨op, v⟩ <;> rfl
    · simp only [List.forall_mem_cons]
      exact ⟨rfl, rfl, rfl, rfl, fun g hg => absurd hg List.not_mem_nil⟩
  | notDefined c => exact hcond.elim
  | equals c v =>
    have hfind : ∃ x, find? rexp ((Form.conditional (.equals c v) (.define n t)).text ++ ['\n']) =
        some x ∧ x.caps = [(.cond, c ++ ('=' :: v ++ ['-', '>'])), (.condvar, c.1), (.condval, v.1),
          (.condsep, ['-', '>'])] ++ bodyCaps n (tailOf t) := by
      have htext : (Form.conditional (.equals c v) (.define n t)).text ++ ['\n'] =
          c ++ '=' :: (v ++ '-' :: '>' :: (n ++ (tailText (tailOf t) ++ ['\n']))) := by
        simp [Form.text, Cond.text, Action.text]
      rw [htext]
      exact find_equals c.2 v.2 n.2 (isValue_tailOf t) hread
    refine ⟨?_, _, parseHelper_eq h hfind⟩
    refine turn_of_cond hoption h hfind ?_ (readWord_name c) (readWord_value v) ?_
      (condFails_equals hcond) hholds
    · have hne := readWord_cond (c := c) ('=' :: v ++ ['-'])
      rwa [List.append_assoc] at hne
    · simp only [List.forall_mem_cons]
      exact ⟨rfl, rfl, rfl, rfl, fun g hg => absurd hg List.not_mem_nil⟩

theorem turn_example {f : Form} {p : Text} {e : Name} {t : Option (LetOp × Value)} {st' : State}
    (hp : p ∈ pfxTexts) (hpexample : p ∈ [[':'], [':', ':'], ['%'], ['%', '%']])
    (htext : f.text = p ++ (e ++ tailText (tailOf t))) (hoption : f.IsOption E) (h : Sent f.text)
    (hok : ExampleOk E st e (valueOf t))
    (hst : exampleOptions p e (valueOf t) (st.example E e) = st') :
    turn E st f.text = .next st' ∧ Accepts E f.text := by
  obtain ⟨groups, hvar, hpfx, hturn, haccepts⟩ := turn_prefixed st hp htext hoption h
  refine ⟨?_, haccepts⟩
  rw [hturn, process_example hpexample hvar hpfx (valueOf_eq t) hok, hst]

/-- What one option does. -/
theorem turn_eq_of_ok {f : Form} (hoption : f.IsOption E) (h : Sent f.text) (hok : f.Ok E st) :
    turn E st f.text = .next (f.apply E st) ∧ Accepts E f.text := by
  match f, hoption, h, hok with
  | .action (.define n t), hoption, h, hok => exact turn_define hoption h hok
  | .action (.ignore n), hoption, h, hok =>
    obtain ⟨groups, hvar, hpfx, hturn, haccepts⟩ :=
      turn_prefixed st (p := ['^']) (n := n) (t := none) (by decide)
        (by simp [Form.text, Action.text, tailOf, tailText]) hoption h
    exact ⟨hturn.trans (process_ignore hvar hpfx hok.2), haccepts⟩
  | .conditional c (.define n t), hoption, h, hok => exact turn_conditional hoption h hok
  | .run e, hoption, h, hok =>
    exact turn_example (p := [':']) (t := none) (by decide) (by decide)
      (by simp [Form.text, tailOf, tailText]) hoption h hok (exampleOptions_run on)
  | .debug e, hoption, h, hok =>
    exact turn_example (p := [':', ':']) (t := none) (by decide) (by decide)
      (by simp [Form.text, tailOf, tailText]) hoption h hok.1 (exampleOptions_debug on hok.2)
  | .test e, hoption, h, hok =>
    exact turn_example (p := ['%']) (t := none) (by decide) (by decide)
      (by simp [Form.text, tailOf, tailText]) hoption h hok.1
      (exampleOptions_test (if_pos rfl) hok.2.1 hok.2.2)
  | .testcase e t, hoption, h, ⟨hexample, hne, htest, hvariant⟩ =>
    exact turn_example (p := ['%']) (t := some (.assign, t)) (by decide) (by decide)
      (by simp [Form.text, tailOf, tailText, LetOp.text]) hoption h hexample
      (exampleOptions_test (if_neg hne) htest hvariant)
  | .verboseTestcase e t, hoption, h, ⟨hexample, hne, htest, hdbg, hvariant, hverbose⟩ =>
    exact turn_example (p := ['%', '%']) (t := some (.assign, t)) (by decide) (by decide)
      (by simp [Form.text, tailOf, tailText, LetOp.text]) hoption h hexample
      (exampleOptions_verbose hne htest hdbg hvariant hverbose)

/-! ### Lists of options -/

/-- A list of options is processed from left to right. -/
theorem processOptions_append (st : State) (opts opts' : List Text) :
    processOptions E st (opts ++ opts') =
      (processOptions E st opts).bind fun st => processOptions E st opts' := by
  induction opts generalizing st with
  | nil => rfl
  | cons opt opts ih =>
    rw [List.cons_append, processOptions, processOptions]
    cases turn E st opt with
    | next st => exact ih st
    | unparsed => exact ih st
    | stopped => rfl

/-- A list of options means what the README says, if each is free of the cases above when its turn
comes. -/
theorem optionLaw_of_stepsOk {fs : List Form} (h : StepsOk E st fs) : OptionLaw E st fs := by
  induction fs generalizing st with
  | nil => exact ⟨fun f hf => absurd hf List.not_mem_nil, rfl⟩
  | cons f fs ih =>
    obtain ⟨⟨hoption, hsent, hok⟩, hsteps⟩ := h
    obtain ⟨hturn, haccepts⟩ := turn_eq_of_ok hoption hsent hok
    obtain ⟨hall, hprocess⟩ := ih hsteps
    refine ⟨List.forall_mem_cons.mpr ⟨haccepts, hall⟩, ?_⟩
    rw [List.map_cons, processOptions, hturn]
    exact hprocess

/-! ### Conditions with `^` -/

theorem notMem_action (a : Action) : '\n' ∉ a.text := by
  have hname : ∀ n : Name, '\n' ∉ n.1 := fun n => notMem_of_isName n.2 (by decide)
  cases a with
  | ignore n => exact List.not_mem_cons_of_ne_of_not_mem (by decide) (hname n)
  | define n t =>
    rcases t with _ | ⟨op, v⟩
    · rw [Action.text, tailOf, Option.map_none, tailText, List.append_nil]
      exact hname n
    · have hop : '\n' ∉ op.text := by cases op <;> decide
      simp only [Action.text, tailOf, Option.map_some, tailText, List.mem_append, not_or]
      exact ⟨hname n, hop, v.2.oneLine⟩

/-- Whatever is behind it, a condition `^cond->` makes the script ignore an option `cond-`. -/
theorem turn_caretCond {c : Name} {a : Action}
    (hoption : (Form.conditional (.notDefined c) a).IsOption E)
    (h : Sent (Form.conditional (.notDefined c) a).text) :
    turn E st (Form.conditional (.notDefined c) a).text = .next (st.ignore (c ++ ['-'])) := by
  have hfind : ∃ x, find? rexp ((Form.conditional (.notDefined c) a).text ++ ['\n']) = some x ∧
      x.caps = [(.pfx, ['^']), (.var, c ++ ['-']), (.letval, '>' :: a.text),
        (.comment, ['\n'])] := by
    have htext : (Form.conditional (.notDefined c) a).text ++ ['\n'] =
        '^' :: (c ++ '-' :: '>' :: (a.text ++ ['\n'])) := by
      simp [Form.text, Cond.text]
    rw [htext]
    exact find_caret_cond c.2 (notMem_action a)
  have hcond : groupsOf [(.pfx, ['^']), (.var, c ++ ['-']), (.letval, '>' :: a.text),
      (.comment, ['\n'])] .cond = [] := rfl
  -- the names that the script knows do not end so
  have hne : ∀ s : Text, s.getLast? ≠ some '-' → c ++ ['-'] ≠ s := fun s hs heq =>
    hs (by rw [← heq, List.getLast?_concat])
  have hok : ∀ v, NameOk E (c ++ ['-']) v := fun v =>
    ⟨hne _ (by decide), fun heq => absurd heq (hne _ (by decide))⟩
  rw [turn_eq hoption h hfind, if_pos hcond,
    process_name (readWord_name ⟨c ++ ['-'], isName_minus c.2⟩) (hok _) (hne _ (by decide)) rfl]
  rfl

/-! ### Examples of lists -/

theorem not_refers {name s : Text} (h : '$' ∉ s) : ¬ Refers name s := by
  rintro ⟨pre, l, ref, r, post, rfl, -⟩
  exact h (by simp)

/-- Nothing is a file, but each example has one. -/
def bareEnv : Env where
  isFile _ := false
  baseName := id
  candidateCount _ := 1
  srcFile e := "./examples/".toList ++ e ++ ".p4".toList
  glob w := [w]
  escapes := id
  escapes_nil := rfl
  recv := id
  recv_short _ _ := rfl
  sed _ _ line := line
  sed_plain _ _ _ _ _ _ _ _ _ := rfl
  sed_blank _ _ _ _ _ := Or.inl rfl

def unset : State := ⟨fun _ => [], fun _ => []⟩

def nameA : Name := ⟨['a'], by decide, List.forall_mem_singleton.mpr (by decide)⟩

def nameB : Name := ⟨['b'], by decide, List.forall_mem_singleton.mpr (by decide)⟩

/-- `^a->b` -/
def caretForm : Form := .conditional (.notDefined nameA) (.define nameB none)

/-- `b` is not set, although `a` is not defined. -/
theorem not_optionLaw : caretForm.IsOption bareEnv ∧ ¬ OptionLaw bareEnv unset [caretForm] := by
  have hoption : caretForm.IsOption bareEnv := by
    rintro ⟨-, hfile⟩
    exact absurd hfile (by decide)
  refine ⟨hoption, fun ⟨_, hlaw⟩ => ?_⟩
  have hturn : turn bareEnv unset caretForm.text = .next (unset.ignore ['a', '-']) :=
    turn_caretCond hoption ⟨by decide, by decide, by decide⟩
  rw [List.map_cons, List.map_nil, processOptions, hturn] at hlaw
  have hb := congrArg (fun st => st.map fun st => st.opts ['b']) hlaw
  exact absurd hb (by decide)

theorem isValue_one : IsValue ['1'] where
  ne := by decide
  oneLine := by decide
  head c hc := Option.some.inj hc ▸ (by decide)
  last c hc := Option.some.inj hc ▸ (by decide)
  noComment pre post h := absurd (h ▸ (by simp : ';' ∈ pre ++ ';' :: post)) (by decide)

/-- `a`, `a->b+=1` and `^a`. -/
def threeForms : List Form :=
  [.action (.define nameA none),
    .conditional (.defined nameA) (.define nameB (some (.append, ⟨['1'], isValue_one⟩))),
    .action (.ignore nameA)]

theorem threeForms_law : OptionLaw bareEnv unset threeForms := by
  have hname : ∀ {n : Name} {v : Text}, n.1.length = 1 → NameOk bareEnv n v := fun {n v} hlen =>
    ⟨fun heq => absurd (heq ▸ hlen) (by decide), fun heq => absurd (heq ▸ hlen) (by decide)⟩
  have hoption : ∀ f : Form, f.IsOption bareEnv := fun f ⟨_, hfile⟩ => Bool.false_ne_true hfile
  have hsplit : ['1'].splitOn ' ' = [['1']] := by decide
  refine optionLaw_of_stepsOk ⟨⟨hoption _, ⟨by decide, by decide, by decide⟩, ?_, hname rfl, ?_⟩,
    ⟨hoption _, ⟨by decide, by decide, by decide⟩, trivial, ?_, fun _ => ⟨?_, hname rfl, ?_⟩⟩,
    ⟨hoption _, ⟨by decide, by decide, by decide⟩, trivial, hname rfl, by decide⟩, trivial⟩
  · exact fun v hv => nomatch hv
  · exact Or.inr fun hoff => absurd hoff (by decide)
  · exact fun _ => by decide
  · refine ⟨by decide, not_refers (by decide), ?_, ?_⟩
    · rw [hsplit]
      exact fun w hw => ⟨by rintro rfl; exact absurd hw (by decide), rfl⟩
    · rw [hsplit]
      exact fun w hw => Option.some.inj hw ▸ rfl
  · exact fun heq => absurd heq (by decide)

end Options

end T4P4S
