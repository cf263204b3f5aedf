/-
The template lines of the code generator, and the Python expressions that they are
translated to.

A line's text is cut at its inserts.  The texts between them are escaped for
`str.format`, the inserts become fields, and the whole is put into a string literal.

* **`splitInserts_append`** — the pieces that a line is cut into are its text;
* **`readLine_renderLine`** — a line with the documented markers is read as the
  texts and what the markers mean.
-/
import Mathlib.Data.List.DropRight
import Mathlib.Data.List.TakeWhile
import T4P4S.Lib.PyText

open PyText

namespace T4P4S

/-! ### Regular expressions -/

/-- `\s`: the characters of `str.isspace` -/
def isSpace (c : Char) : Bool :=
  (9 ≤ c.toNat ∧ c.toNat ≤ 13) ∨ (28 ≤ c.toNat ∧ c.toNat ≤ 32) ∨ (8192 ≤ c.toNat ∧ c.toNat ≤ 8202) ∨
    c.toNat ∈ [133, 160, 5760, 8232, 8233, 8239, 8287, 12288]

/-- `[a-zA-Z_]` -/
def isIdentStart (c : Char) : Bool := c.isAlpha ∨ c = '_'

/-- `[a-zA-Z_0-9]` -/
def isIdentRest (c : Char) : Bool := c.isAlphanum ∨ c = '_'

/-- `\[([^\]]*)\]` or `\{([^\}]*)\}`: the text between the brackets, and what is behind them. -/
def matchGroup (left right : Char) : Text → Option (Text × Text)
  | [] => none
  | c :: s =>
    if c = left ∧ right ∈ s then
      some (s.takeWhile (· ≠ right), (s.dropWhile (· ≠ right)).tail)
    else
      none

theorem matchGroup_append {left right : Char} {s body rest : Text}
    (h : matchGroup left right s = some (body, rest)) : left :: body ++ right :: rest = s := by
  cases s with
  | nil => cases h
  | cons c s =>
    rw [matchGroup] at h
    split_ifs at h with hc
    obtain ⟨rfl, hmem⟩ := hc
    obtain ⟨rfl, rfl⟩ := Prod.mk.inj (Option.some.inj h)
    have hne : s.dropWhile (· ≠ right) ≠ [] := by
      intro hnil
      have hall := List.dropWhile_eq_nil_iff.mp hnil right hmem
      exact of_decide_eq_true hall rfl
    have hhead : (s.dropWhile (· ≠ right)).head hne = right := by
      have hnot := List.head_dropWhile_not (· ≠ right) hne
      exact not_not.mp (of_decide_eq_false hnot)
    have htail := List.cons_head_tail hne
    rw [hhead] at htail
    rw [List.cons_append, htail, List.takeWhile_append_dropWhile]

/-- `(?:\[[^\]]*\])*` or `(?:\{[^\}]*\})*`: what is matched, and what is behind it. -/
def matchGroups (left right : Char) (s : Text) : Text × Text :=
  match _h : matchGroup left right s with
  | none => ([], s)
  | some (body, rest) =>
    (left :: body ++ right :: (matchGroups left right rest).1, (matchGroups left right rest).2)
termination_by s.length
decreasing_by all_goals
  rw [← matchGroup_append _h]
  simp only [List.cons_append, List.length_cons, List.length_append]
  omega

/-- The pattern of `split_and_translate` at the beginning of a text: what is matched, and what
is behind it. -/
def insertPattern (s : Text) : Option (Text × Text) :=
  let dollars := s.takeWhile (· = '$')
  let rest := s.dropWhile (· = '$')
  if dollars = [] then
    none
  else if (rest.head?.map isIdentStart).getD false then
    some (dollars ++ rest.takeWhile isIdentRest, rest.dropWhile isIdentRest)
  else
    let brackets := matchGroups '[' ']' rest
    let braces := matchGroups '{' '}' brackets.2
    if braces.1 = [] then none else some (dollars ++ brackets.1 ++ braces.1, braces.2)

theorem matchGroups_append (left right : Char) (s : Text) :
    (matchGroups left right s).1 ++ (matchGroups left right s).2 = s := by
  induction s using matchGroups.induct left right with
  | case1 s h =>
    rw [matchGroups]
    split
    · rfl
    · rename_i h'
      rw [h] at h'
      cases h'
  | case2 s body rest h ih =>
    rw [matchGroups]
    split
    · rename_i h'
      rw [h] at h'
      cases h'
    · rename_i body' rest' h'
      rw [h] at h'
      obtain ⟨rfl, rfl⟩ := Prod.mk.inj (Option.some.inj h')
      dsimp only
      rw [List.append_assoc, List.cons_append, List.cons_append, ih]
      exact matchGroup_append h

theorem insertPattern_append {s insert rest : Text} (h : insertPattern s = some (insert, rest)) :
    insert ++ rest = s ∧ insert ≠ [] := by
  rw [insertPattern] at h
  dsimp only at h
  split_ifs at h with hdollars hident
  · obtain ⟨rfl, rfl⟩ := Prod.mk.inj (Option.some.inj h)
    rw [List.append_assoc, List.takeWhile_append_dropWhile, List.takeWhile_append_dropWhile]
    exact ⟨rfl, List.append_ne_nil_of_left_ne_nil hdollars _⟩
  · obtain ⟨rfl, rfl⟩ := Prod.mk.inj (Option.some.inj h)
    rw [List.append_assoc, matchGroups_append, List.append_assoc, matchGroups_append,
      List.takeWhile_append_dropWhile, List.append_assoc]
    exact ⟨rfl, List.append_ne_nil_of_left_ne_nil hdollars _⟩

/-- `re.split` at the inserts: the text up to the first, and each insert with the text
behind it. -/
def splitInserts (s : Text) : Text × List (Text × Text) :=
  match s with
  | [] => ([], [])
  | c :: s =>
    match _h : insertPattern (c :: s) with
    | some (insert, rest) => ([], (insert, (splitInserts rest).1) :: (splitInserts rest).2)
    | none => (c :: (splitInserts s).1, (splitInserts s).2)
termination_by s.length
decreasing_by
  all_goals first
    | exact Nat.lt_succ_self _
    | obtain ⟨happend, hne⟩ := insertPattern_append _h
      have hlength := congrArg List.length happend
      have hpos := List.length_pos_iff.mpr hne
      rw [List.length_append] at hlength
      omega

theorem splitInserts_of_none {c : Char} {s : Text} (h : insertPattern (c :: s) = none) :
    splitInserts (c :: s) = (c :: (splitInserts s).1, (splitInserts s).2) := by
  rw [splitInserts]
  split
  · rename_i insert rest h'
    rw [h] at h'
    cases h'
  · rfl

theorem splitInserts_of_some {s insert rest : Text} (h : insertPattern s = some (insert, rest)) :
    splitInserts s = ([], (insert, (splitInserts rest).1) :: (splitInserts rest).2) := by
  cases s with
  | nil => cases h
  | cons c s =>
    rw [splitInserts]
    split
    · rename_i insert' rest' h'
      rw [h] at h'
      obtain ⟨rfl, rfl⟩ := Prod.mk.inj (Option.some.inj h')
      rfl
    · rename_i h'
      rw [h] at h'
      cases h'

/-- The pieces are the text. -/
theorem splitInserts_append (s : Text) :
    (splitInserts s).1 ++ (splitInserts s).2.flatMap (fun p => p.1 ++ p.2) = s := by
  induction s using splitInserts.induct with
  | case1 =>
    rw [splitInserts]
    rfl
  | case2 c s insert rest h ih =>
    rw [splitInserts_of_some h]
    dsimp only
    rw [List.flatMap_cons, List.nil_append, List.append_assoc, ih]
    exact (insertPattern_append h).1
  | case3 c s h ih =>
    rw [splitInserts_of_none h]
    dsimp only
    rw [List.cons_append, ih]

/-! ### Inserts -/

/-- `escape_slash` -/
def escapeSlash (s : Text) : Text :=
  s.flatMap fun c => if c = '\\' ∨ c = '"' then ['\\', c] else [c]

/-- `escape_brace` -/
def escapeBrace (s : Text) : Text :=
  s.flatMap fun c => if c = '{' ∨ c = '}' then [c, c] else [c]

/-- `(\[([^\]]+)\])?` or `({([^}]+)})?`: the text between the brackets, and what is behind
them. -/
def matchOptGroup (left right : Char) (s : Text) : Option Text × Text :=
  match matchGroup left right s with
  | some (c :: body, rest) => (some (c :: body), rest)
  | _ => (none, s)

/-- A match of `replace_insert2`: the text it is looked for in, its groups, and what is not
matched at the end. -/
structure InsertMatch where
  insert : Text
  highlighted : Bool
  light : Option Text
  text1 : Option Text
  expr : Text
  text2 : Option Text
  rest : Text
  deriving DecidableEq

/-- `\$\$?` -/
def matchDollars : Text → Option (Bool × Text)
  | '$' :: '$' :: s => some (true, s)
  | '$' :: s => some (false, s)
  | _ => none

/-- `re.match` of `replace_insert2` -/
def matchInsert (insert : Text) : Option InsertMatch :=
  (matchDollars insert).bind fun dollars =>
    let light := matchOptGroup '[' ']' dollars.2
    let text1 := matchOptGroup '[' ']' light.2
    (matchGroup '{' '}' text1.2).map fun expr =>
      let text2 := matchOptGroup '{' '}' expr.2
      { insert
        highlighted := dollars.1
        light := light.1
        text1 := text1.1
        expr := expr.1.dropWhile isSpace
        text2 := text2.1
        rest := text2.2 }

/-- `^\$([a-zA-Z_][a-zA-Z_0-9]*)$` -/
def matchSimple : Text → Option Text
  | '$' :: c :: name =>
    if isIdentStart c ∧ name.all isIdentRest then some (c :: name) else none
  | _ => none

def t4litOpen : Text := "\" T4LIT(".toList

def t4litClose : Text := ") \"".toList

namespace InsertMatch

/-- The colour as `T4LIT`'s second parameter. -/
def lightParam (m : InsertMatch) : Text :=
  match m.light with
  | some light => ',' :: light
  | none => []

/-- The format that `replace_insert2` makes of a match. -/
def fmt (m : InsertMatch) : Text :=
  let body := escapeBrace (m.text1.getD []) ++ ['{', '}'] ++ escapeBrace (m.text2.getD [])
  if m.highlighted then t4litOpen ++ body ++ m.lightParam ++ t4litClose else body

end InsertMatch

/-- `replace_insert2`; `none` where there is no match, which is an error of the generator. -/
def replaceInsert2 (insert : Text) : Option (Text × Text) :=
  match matchSimple insert with
  | some name => some (['{', '}'], name)
  | none => (matchInsert insert).map fun m => (m.fmt, m.expr)

/-! ### Lines -/

/-- `re.sub` of `{}` by the empty text -/
def dropHoles : Text → Text
  | '{' :: '}' :: s => dropHoles s
  | c :: s => c :: dropHoles s
  | [] => []

/-- `re.sub` of `\"` by `"` -/
def unescapeQuotes : Text → Text
  | '\\' :: '"' :: s => '"' :: unescapeQuotes s
  | c :: s => c :: unescapeQuotes s
  | [] => []

/-- `str.strip` -/
def strip (s : Text) : Text := (s.dropWhile isSpace).rdropWhile isSpace

/-- The choice of the quotes in `translate_line_main_content2`. -/
def chooseQuote (allFmt : Text) : Char × Text :=
  if '\'' ∉ allFmt then ('\'', unescapeQuotes allFmt) else ('"', allFmt)

/-- `translate_line_main_content2`, of the text up to the first insert and the inserts with the
texts behind them -/
def translateLineMainContent2 (first : Text) (inserts : List (Text × Text)) (extraContent : Text)
    (noQuoteAllowed : Bool) : Option (Bool × Text) :=
  if inserts = [] then
    if noQuoteAllowed ∧ '\\' ∉ first ∧ '"' ∉ first then
      some (false, first)
    else
      some (true, '"' :: escapeSlash first ++ ['"'])
  else do
    let matchWithRests ← inserts.mapM fun p => (replaceInsert2 p.1).map fun q => (q, p.2)
    let fmts := matchWithRests.flatMap fun ((fmt, expr), txt) =>
      (if expr = [] then dropHoles fmt else fmt) ++ escapeBrace txt
    let allFmt := escapeSlash (escapeBrace first ++ fmts) ++ extraContent
    let (quote, allFmt) := chooseQuote allFmt
    let exprs := (matchWithRests.map fun ((_, expr), _) => expr).filter (· ≠ [])
    let allEscapes := ", ".toList.intercalate (exprs.map escapeBrace)
    if allEscapes = [] then
      if noQuoteAllowed then
        some (false, strip allFmt)
      else
        some (true, quote :: allFmt ++ [quote])
    else
      some (true, quote :: allFmt ++ quote :: ".format(".toList ++ allEscapes ++ [')'])

/-- `split_and_translate` -/
def splitAndTranslate (content extraContent : Text) (noQuoteAllowed : Bool) :
    Option (Bool × Text) :=
  translateLineMainContent2 (splitInserts content).1 (splitInserts content).2 extraContent
    noQuoteAllowed

/-- The markers whose lines go in front of or behind a statement. -/
inductive MaybePre
  | pre
  | aft

/-- What is known of a line besides its text.  File names are plain. -/
structure LineInfo where
  noHint : Bool
  maybePre : Option MaybePre
  filePrefix : Text
  plain : ∀ c ∈ filePrefix, c ∉ "'\"\\".toList ∧ c ≠ '{' ∧ c ≠ '}'
  lineIdx : ℕ

/-- The `extra_content` of `translate_line_with_insert`: the hint of a `#pre` or `#aft` line -/
def LineInfo.extraContent (line : LineInfo) : Text :=
  match line.maybePre with
  | none => []
  | some maybePre =>
    if line.noHint then
      []
    else
      " // [".toList ++ (match maybePre with | .pre => "pre".toList | .aft => "aft".toList) ++
        "] ".toList ++ line.filePrefix ++ Nat.toDigits 10 line.lineIdx

/-! ### The law -/

/-- The arguments of a call: `single` is what can stand between two commas, which is any
expression but a tuple without parentheses. -/
structure ArgGrammar where
  single : Text → Prop
  join_injective : ∀ {es fs : List Text}, es ≠ [] → fs ≠ [] → (∀ e ∈ es, single e) →
    (∀ f ∈ fs, single f) → ", ".toList.intercalate es = ", ".toList.intercalate fs → es = fs
  single_escapeBrace : ∀ {e : Text}, single e → single (escapeBrace e)

variable {G : ArgGrammar}

/-- The values, as texts, of the expressions, and of the arguments of a call. -/
structure PyEnv (G : ArgGrammar) where
  value : Text → Option Text
  arguments : Text → Option (List Text)
  arguments_join : ∀ {es : List Text}, es ≠ [] → (∀ e ∈ es, G.single e) →
    arguments (", ".toList.intercalate es) = es.mapM value

/-- The value of a string literal, or of a call of its `format`. -/
def evaluate (env : PyEnv G) : Text → Option Text
  | [] => none
  | quote :: code =>
    if quote = '\'' ∨ quote = '"' then do
      let (text, rest) ← stringLiteral quote code
      if rest = [] then
        return text
      else if ".format(".toList <+: rest ∧ [')'] <:+ rest then
        strFormat text (← env.arguments (rest.drop 8).dropLast)
      else
        none
    else
      none

/-- An insert, by its parts. -/
structure Insert where
  highlighted : Bool
  light : Option Text
  text1 : Text
  expr : Text
  text2 : Text

/-- What a line is made of. -/
inductive LinePiece
  | chars (s : Text)
  | insert (i : Insert)

/-- A group with its braces. -/
def braced (body : Text) : Text := '{' :: body ++ ['}']

namespace InsertMatch

/-- What is left behind the second pair of braces, which may have no text between them. -/
def behind (m : InsertMatch) : Text :=
  match m.text2, m.rest with
  | none, '{' :: '}' :: rest => rest
  | _, rest => rest

/-- `$${expr}` with its optional parts, or `${expr}`. -/
def read (m : InsertMatch) : List LinePiece :=
  if m.highlighted then
    [.insert ⟨true, m.light, m.text1.getD [], m.expr, m.text2.getD []⟩, .chars m.behind]
  else if m.light = none then
    [.insert ⟨false, none, [], m.expr, []⟩, .chars ((m.text2.elim [] braced) ++ m.rest)]
  else
    [.chars m.insert]

end InsertMatch

/-- The match of an insert, with a name as its expression where it has no braces. -/
def insertMatch (insert : Text) : Option InsertMatch :=
  match matchSimple insert with
  | some name => some ⟨insert, false, none, none, name, none, []⟩
  | none => matchInsert insert

/-- Dollars that are not part of an insert are literal. -/
def readInsert : Text → List LinePiece
  | [] => []
  | c :: s =>
    match insertMatch (c :: s) with
    | some m => m.read
    | none => .chars [c] :: readInsert s

/-- The literal texts and the inserts of a line. -/
def readLine (content : Text) : List LinePiece :=
  .chars (splitInserts content).1 ::
    (splitInserts content).2.flatMap fun p => readInsert p.1 ++ [.chars p.2]

/-- The text that an insert stands for, if its expression has the value. -/
def Insert.wrap (i : Insert) (value : Text) : Text :=
  if i.highlighted then
    t4litOpen ++ i.text1 ++ value ++ i.text2 ++ (i.light.elim [] (',' :: ·)) ++ t4litClose
  else
    i.text1 ++ value ++ i.text2

/-- An insert without an expression stands for its texts alone. -/
def LinePiece.value (env : PyEnv G) : LinePiece → Option Text
  | chars s => some s
  | insert i => (if i.expr = [] then some [] else env.value i.expr).map i.wrap

/-- The text of a line, with the inserts replaced. -/
def lineText (env : PyEnv G) : List LinePiece → Option Text
  | [] => some []
  | p :: ps => do
    let s ← p.value env
    let t ← lineText env ps
    return s ++ t

/-- A line without inserts has no hint. -/
def hintText (line : LineInfo) (content : Text) : Text :=
  if (splitInserts content).2 = [] then [] else line.extraContent

/-- What should hold of a line's text. -/
def DesugarLaw (G : ArgGrammar) (content : Text) : Prop :=
  ∀ (line : LineInfo) (env : PyEnv G) (text : Text), lineText env (readLine content) = some text →
    ∃ code, splitAndTranslate content line.extraContent false = some (true, code) ∧
      evaluate env code = some (text ++ hintText line content)

theorem readInsert_of_match {insert : Text} {m : InsertMatch} (h : insertMatch insert = some m) :
    readInsert insert = m.read := by
  cases insert with
  | nil => cases h
  | cons c s =>
    rw [readInsert]
    split
    · rename_i m' hm'
      rw [h] at hm'
      rw [Option.some.inj hm']
    · rename_i hnone
      rw [h] at hnone
      cases hnone

/-! ### The documented forms -/

/-- The special markers with an insert: `$name`, `${expr}`, `$${expr}`, `$$[colour]{expr}`,
`$$[colour]{expr}{text}` and `$$[colour][text1]{expr}{text}`. -/
inductive SpecialMarker
  | name (name : Text)
  | expr (expr : Text)
  | highlight (expr : Text)
  | colour (colour expr : Text)
  | text (colour expr text : Text)
  | texts (colour text1 expr text : Text)

/-- A colour or a text in its brackets. -/
def bracketed (body : Text) : Text := '[' :: body ++ [']']

namespace SpecialMarker

def render : SpecialMarker → Text
  | .name n => '$' :: n
  | .expr e => '$' :: braced e
  | .highlight e => '$' :: '$' :: braced e
  | .colour c e => '$' :: '$' :: (bracketed c ++ braced e)
  | .text c e t => '$' :: '$' :: (bracketed c ++ (braced e ++ braced t))
  | .texts c t1 e t => '$' :: '$' :: (bracketed c ++ (bracketed t1 ++ (braced e ++ braced t)))

def meaning : SpecialMarker → Insert
  | .name n => ⟨false, none, [], n, []⟩
  | .expr e => ⟨false, none, [], e, []⟩
  | .highlight e => ⟨true, none, [], e, []⟩
  | .colour c e => ⟨true, some c, [], e, []⟩
  | .text c e t => ⟨true, some c, [], e, t⟩
  | .texts c t1 e t => ⟨true, some c, t1, e, t⟩

end SpecialMarker

/-- A text that may stand in brackets. -/
def InBrackets (s : Text) : Prop := s ≠ [] ∧ ']' ∉ s

/-- A text that may stand in braces behind the expression. -/
def InBraces (s : Text) : Prop := s ≠ [] ∧ '}' ∉ s

/-- An expression that may stand in braces. -/
def ExprInBraces (s : Text) : Prop := '}' ∉ s ∧ s.dropWhile isSpace = s

/-- A marker whose parts end where they should. -/
def SpecialMarker.WellFormed : SpecialMarker → Prop
  | .name n => ∃ c s, n = c :: s ∧ isIdentStart c ∧ s.all isIdentRest
  | .expr e | .highlight e => ExprInBraces e
  | .colour c e => InBrackets c ∧ ExprInBraces e
  | .text c e t => InBrackets c ∧ ExprInBraces e ∧ InBraces t
  | .texts c t1 e t => InBrackets c ∧ InBrackets t1 ∧ ExprInBraces e ∧ InBraces t

theorem matchGroup_of {left right : Char} {body : Text} (h : right ∉ body) (rest : Text) :
    matchGroup left right (left :: (body ++ right :: rest)) = some (body, rest) := by
  have hbody : ∀ c ∈ body, decide (c ≠ right) = true := by
    intro c hc
    refine decide_eq_true ?_
    rintro rfl
    exact h hc
  have htake : (body ++ right :: rest).takeWhile (· ≠ right) = body := by
    rw [List.takeWhile_append_of_pos hbody, List.takeWhile_cons_of_neg (by simp), List.append_nil]
  have hdrop : (body ++ right :: rest).dropWhile (· ≠ right) = right :: rest := by
    rw [List.dropWhile_append_of_pos hbody, List.dropWhile_cons_of_neg (by simp)]
  rw [matchGroup, if_pos ⟨rfl, List.mem_append_right _ List.mem_cons_self⟩, htake, hdrop,
    List.tail_cons]

theorem matchGroup_of_head {left right : Char} {s : Text} (h : s.head? ≠ some left) :
    matchGroup left right s = none := by
  cases s with
  | nil => rfl
  | cons c s => exact if_neg fun hc => h (congrArg some hc.1)

theorem matchGroups_of {left right : Char} {body : Text} (h : right ∉ body) (rest : Text) :
    matchGroups left right (left :: (body ++ right :: rest)) =
      (left :: (body ++ right :: (matchGroups left right rest).1),
        (matchGroups left right rest).2) := by
  rw [matchGroups]
  split
  · rename_i hnone
    rw [matchGroup_of h] at hnone
    cases hnone
  · rename_i body' rest' hsome
    rw [matchGroup_of h] at hsome
    obtain ⟨rfl, rfl⟩ := Prod.mk.inj (Option.some.inj hsome)
    rfl

theorem matchGroups_of_head {left right : Char} {s : Text} (h : s.head? ≠ some left) :
    matchGroups left right s = ([], s) := by
  rw [matchGroups]
  split
  · rfl
  · rename_i body rest hsome
    rw [matchGroup_of_head h] at hsome
    cases hsome

/-- Dollars and what does not begin with one. -/
theorem insertPattern_dollars {dollars s : Text} (hdollars : ∀ c ∈ dollars, c = '$')
    (hne : dollars ≠ []) (hs : s.head? ≠ some '$') :
    insertPattern (dollars ++ s) =
      let brackets := matchGroups '[' ']' s
      let braces := matchGroups '{' '}' brackets.2
      if (s.head?.map isIdentStart).getD false then
        some (dollars ++ s.takeWhile isIdentRest, s.dropWhile isIdentRest)
      else if braces.1 = [] then
        none
      else
        some (dollars ++ brackets.1 ++ braces.1, braces.2) := by
  have hhead : ∀ c ∈ dollars, decide (c = '$') = true :=
    fun c hc => decide_eq_true (hdollars c hc)
  have hstop : s.takeWhile (· = '$') = [] ∧ s.dropWhile (· = '$') = s := by
    cases s with
    | nil => exact ⟨rfl, rfl⟩
    | cons c s =>
      have hc : ¬ decide (c = '$') = true := fun hc => hs (congrArg some (of_decide_eq_true hc))
      exact ⟨List.takeWhile_cons_of_neg hc, List.dropWhile_cons_of_neg hc⟩
  rw [insertPattern, List.takeWhile_append_of_pos hhead, List.dropWhile_append_of_pos hhead,
    hstop.1, hstop.2, List.append_nil]
  dsimp only
  rw [if_neg hne]

theorem insertPattern_groups {dollars s s' brackets braces rest : Text}
    (hdollars : ∀ c ∈ dollars, c = '$') (hne : dollars ≠ [])
    (hs : s.head? = some '[' ∨ s.head? = some '{')
    (hbrackets : matchGroups '[' ']' s = (brackets, s'))
    (hbraces : matchGroups '{' '}' s' = (braces, rest)) (hsome : braces ≠ []) :
    insertPattern (dollars ++ s) = some (dollars ++ brackets ++ braces, rest) := by
  have hhead : s.head? ≠ some '$' ∧ ¬ (s.head?.map isIdentStart).getD false = true := by
    rcases hs with hs | hs
    · rw [hs]
      exact ⟨by decide, by decide⟩
    · rw [hs]
      exact ⟨by decide, by decide⟩
  rw [insertPattern_dollars hdollars hne hhead.1, if_neg hhead.2, hbrackets]
  dsimp only
  rw [hbraces, if_neg hsome]

theorem matchOptGroup_of {left right : Char} {body : Text} (hne : body ≠ []) (h : right ∉ body)
    (rest : Text) :
    matchOptGroup left right (left :: (body ++ right :: rest)) = (some body, rest) := by
  obtain ⟨c, s, rfl⟩ := List.exists_cons_of_ne_nil hne
  rw [matchOptGroup, matchGroup_of h]

theorem matchOptGroup_of_head {left right : Char} {s : Text} (h : s.head? ≠ some left) :
    matchOptGroup left right s = (none, s) := by
  rw [matchOptGroup, matchGroup_of_head h]

theorem matchInsert_of (insert : Text) {s₀ s₁ s₂ s₃ expr rest : Text} {highlighted : Bool}
    {light text1 text2 : Option Text} (hdollars : matchDollars insert = some (highlighted, s₀))
    (hlight : matchOptGroup '[' ']' s₀ = (light, s₁))
    (htext1 : matchOptGroup '[' ']' s₁ = (text1, s₂))
    (hexpr : matchGroup '{' '}' s₂ = some (expr, s₃))
    (htext2 : matchOptGroup '{' '}' s₃ = (text2, rest)) :
    matchInsert insert =
      some ⟨insert, highlighted, light, text1, expr.dropWhile isSpace, text2, rest⟩ := by
  rw [matchInsert, hdollars, Option.bind_some]
  dsimp only
  rw [hlight]
  dsimp only
  rw [htext1]
  dsimp only
  rw [hexpr, Option.map_some, htext2]

theorem braced_append (body rest : Text) :
    braced body ++ rest = '{' :: (body ++ '}' :: rest) := by
  rw [braced, List.cons_append, List.cons_append, List.append_assoc, List.singleton_append]

theorem bracketed_append (body rest : Text) :
    bracketed body ++ rest = '[' :: (body ++ ']' :: rest) := by
  rw [bracketed, List.cons_append, List.cons_append, List.append_assoc, List.singleton_append]

theorem matchGroups_braced {body : Text} (h : '}' ∉ body) (rest : Text) :
    matchGroups '{' '}' (braced body ++ rest) =
      (braced body ++ (matchGroups '{' '}' rest).1, (matchGroups '{' '}' rest).2) := by
  rw [braced_append, matchGroups_of h, braced_append]

theorem matchGroups_bracketed {body : Text} (h : ']' ∉ body) (rest : Text) :
    matchGroups '[' ']' (bracketed body ++ rest) =
      (bracketed body ++ (matchGroups '[' ']' rest).1, (matchGroups '[' ']' rest).2) := by
  rw [bracketed_append, matchGroups_of h, bracketed_append]

/-- Braces are no brackets. -/
theorem matchGroups_bracket_braced (body rest : Text) :
    matchGroups '[' ']' (braced body ++ rest) = ([], braced body ++ rest) :=
  matchGroups_of_head fun h => absurd (Option.some.inj h) (by decide)

namespace SpecialMarker

/-- What follows does not belong to the marker. -/
def EndsBefore (m : SpecialMarker) (rest : Text) : Prop :=
  match m with
  | .name _ => ∀ c, rest.head? = some c → isIdentRest c = false
  | _ => rest.head? ≠ some '{'

variable {m : SpecialMarker}

theorem isIdentRest_of_start {c : Char} (h : isIdentStart c = true) : isIdentRest c = true := by
  rw [isIdentStart, decide_eq_true_eq] at h
  rw [isIdentRest, decide_eq_true_eq]
  refine h.imp_left fun halpha => ?_
  rw [Char.isAlphanum, halpha, Bool.true_or]

theorem insertPattern_render (hm : m.WellFormed) {rest : Text} (hrest : m.EndsBefore rest) :
    insertPattern (m.render ++ rest) = some (m.render, rest) := by
  have hone : ∀ c ∈ ['$'], c = '$' := fun c hc => List.mem_singleton.mp hc
  have htwo : ∀ c ∈ ['$', '$'], c = '$' := by
    intro c hc
    simpa using hc
  cases m with
  | name n =>
    obtain ⟨c, s, rfl, hc, hs⟩ := hm
    have hall : ∀ d ∈ c :: s, isIdentRest d = true :=
      List.forall_mem_cons.mpr ⟨isIdentRest_of_start hc, List.all_eq_true.mp hs⟩
    have hdollar : ((c :: s) ++ rest).head? ≠ some '$' := by
      intro h
      rw [Option.some.inj h] at hc
      revert hc
      decide
    have hpattern := insertPattern_dollars hone (List.cons_ne_nil _ _) hdollar
    have hstop : rest.takeWhile isIdentRest = [] ∧ rest.dropWhile isIdentRest = rest := by
      cases rest with
      | nil => exact ⟨rfl, rfl⟩
      | cons d rest =>
        have hd : ¬ isIdentRest d = true := ne_true_of_eq_false (hrest d rfl)
        exact ⟨List.takeWhile_cons_of_neg hd, List.dropWhile_cons_of_neg hd⟩
    rw [List.takeWhile_append_of_pos hall, List.dropWhile_append_of_pos hall, hstop.1, hstop.2,
      List.append_nil] at hpattern
    refine hpattern.trans (if_pos ?_)
    exact hc
  | expr e =>
    have hbraces := matchGroups_braced hm.1 rest
    rw [matchGroups_of_head hrest, List.append_nil] at hbraces
    have hpattern := insertPattern_groups hone (List.cons_ne_nil _ _) (.inr rfl)
      (matchGroups_bracket_braced e rest) hbraces (List.cons_ne_nil _ _)
    simpa only [render, List.append_assoc, List.cons_append, List.nil_append] using hpattern
  | highlight e =>
    have hbraces := matchGroups_braced hm.1 rest
    rw [matchGroups_of_head hrest, List.append_nil] at hbraces
    have hpattern := insertPattern_groups htwo (List.cons_ne_nil _ _) (.inr rfl)
      (matchGroups_bracket_braced e rest) hbraces (List.cons_ne_nil _ _)
    simpa only [render, List.append_assoc, List.cons_append, List.nil_append] using hpattern
  | colour c e =>
    have hbrackets := matchGroups_bracketed hm.1.2 (braced e ++ rest)
    have hbraces := matchGroups_braced hm.2.1 rest
    rw [matchGroups_bracket_braced, List.append_nil] at hbrackets
    rw [matchGroups_of_head hrest, List.append_nil] at hbraces
    have hpattern := insertPattern_groups htwo (List.cons_ne_nil _ _) (.inl rfl) hbrackets hbraces
      (List.cons_ne_nil _ _)
    simpa only [render, List.append_assoc, List.cons_append, List.nil_append] using hpattern
  | text c e t =>
    have hbrackets := matchGroups_bracketed hm.1.2 (braced e ++ (braced t ++ rest))
    have hbraces := matchGroups_braced hm.2.1.1 (braced t ++ rest)
    rw [matchGroups_bracket_braced, List.append_nil] at hbrackets
    rw [matchGroups_braced hm.2.2.2, matchGroups_of_head hrest, List.append_nil] at hbraces
    have hpattern := insertPattern_groups htwo (List.cons_ne_nil _ _) (.inl rfl) hbrackets hbraces
      (List.cons_ne_nil _ _)
    simpa only [render, List.append_assoc, List.cons_append, List.nil_append] using hpattern
  | texts c t1 e t =>
    have hbrackets := matchGroups_bracketed hm.1.2
      (bracketed t1 ++ (braced e ++ (braced t ++ rest)))
    have hbraces := matchGroups_braced hm.2.2.1.1 (braced t ++ rest)
    rw [matchGroups_bracketed hm.2.1.2, matchGroups_bracket_braced, List.append_nil] at hbrackets
    rw [matchGroups_braced hm.2.2.2.2, matchGroups_of_head hrest, List.append_nil] at hbraces
    have hpattern := insertPattern_groups htwo (List.cons_ne_nil _ _) (.inl rfl) hbrackets hbraces
      (List.cons_ne_nil _ _)
    simpa only [render, List.append_assoc, List.cons_append, List.nil_append] using hpattern

/-- A marker that is no name. -/
theorem readInsert_of_matchInsert {c : Char} {s : Text} {m' : InsertMatch}
    (hc : isIdentStart c = false) (h : matchInsert ('$' :: c :: s) = some m') :
    readInsert ('$' :: c :: s) = m'.read := by
  have hsimple : matchSimple ('$' :: c :: s) = none := by
    refine if_neg fun hname => ?_
    rw [hc] at hname
    exact Bool.false_ne_true hname.1
  refine readInsert_of_match ?_
  rw [insertMatch, hsimple]
  exact h

/-- A marker is read as what it means. -/
theorem readInsert_render (hm : m.WellFormed) :
    readInsert m.render = [.insert m.meaning, .chars []] := by
  have hbraced : ∀ e s, matchOptGroup '[' ']' (braced e ++ s) = (none, braced e ++ s) :=
    fun e s => matchOptGroup_of_head fun h => absurd (Option.some.inj h) (by decide)
  have hexpr : ∀ {e : Text} (_ : ExprInBraces e) (s : Text),
      matchGroup '{' '}' (braced e ++ s) = some (e, s) := by
    intro e he s
    rw [braced_append]
    exact matchGroup_of he.1 s
  have htext : ∀ {t : Text} (_ : InBraces t), matchOptGroup '{' '}' (braced t) = (some t, []) :=
    fun ht => matchOptGroup_of ht.1 ht.2 []
  have hlight : ∀ {c : Text} (_ : InBrackets c) (s : Text),
      matchOptGroup '[' ']' (bracketed c ++ s) = (some c, s) := by
    intro c hc s
    rw [bracketed_append]
    exact matchOptGroup_of hc.1 hc.2 s
  cases m with
  | name n =>
    obtain ⟨c, s, rfl, hc, hs⟩ := hm
    have hsimple : matchSimple ('$' :: c :: s) = some (c :: s) := if_pos ⟨hc, hs⟩
    have hmatch : insertMatch ('$' :: c :: s) =
        some ⟨'$' :: c :: s, false, none, none, c :: s, none, []⟩ := by
      rw [insertMatch, hsimple]
    exact readInsert_of_match hmatch
  | expr e =>
    have hnone := hbraced e []
    have hgroup := hexpr hm []
    rw [List.append_nil] at hnone hgroup
    have hmatch := matchInsert_of ('$' :: braced e) rfl hnone hnone hgroup rfl
    rw [hm.2] at hmatch
    exact readInsert_of_matchInsert (by decide) hmatch
  | highlight e =>
    have hnone := hbraced e []
    have hgroup := hexpr hm []
    rw [List.append_nil] at hnone hgroup
    have hmatch := matchInsert_of ('$' :: '$' :: braced e) rfl hnone hnone hgroup rfl
    rw [hm.2] at hmatch
    exact readInsert_of_matchInsert (by decide) hmatch
  | colour c e =>
    have hnone := hbraced e []
    have hgroup := hexpr hm.2 []
    rw [List.append_nil] at hnone hgroup
    have hmatch := matchInsert_of ('$' :: '$' :: (bracketed c ++ braced e)) rfl
      (hlight hm.1 _) hnone hgroup rfl
    rw [hm.2.2] at hmatch
    exact readInsert_of_matchInsert (by decide) hmatch
  | text c e t =>
    have hmatch := matchInsert_of
      ('$' :: '$' :: (bracketed c ++ (braced e ++ braced t))) rfl
      (hlight hm.1 _) (hbraced e _) (hexpr hm.2.1 _) (htext hm.2.2)
    rw [hm.2.1.2] at hmatch
    exact readInsert_of_matchInsert (by decide) hmatch
  | texts c t1 e t =>
    have hmatch := matchInsert_of
      ('$' :: '$' :: (bracketed c ++ (bracketed t1 ++ (braced e ++ braced t)))) rfl
      (hlight hm.1 _) (hlight hm.2.1 _) (hexpr hm.2.2.1 _) (htext hm.2.2.2)
    rw [hm.2.2.1.2] at hmatch
    exact readInsert_of_matchInsert (by decide) hmatch

end SpecialMarker

/-- Without a dollar there is no insert. -/
theorem splitInserts_append_of_notMem {txt : Text} (h : '$' ∉ txt) (s : Text) :
    splitInserts (txt ++ s) = (txt ++ (splitInserts s).1, (splitInserts s).2) := by
  induction txt with
  | nil => rfl
  | cons c txt ih =>
    rw [List.mem_cons, not_or] at h
    have hnone : insertPattern (c :: (txt ++ s)) = none := by
      rw [insertPattern]
      exact if_pos (List.takeWhile_cons_of_neg fun hc => h.1 (of_decide_eq_true hc).symm)
    rw [List.cons_append, splitInserts_of_none hnone, ih h.2]
    rfl

/-- The text of a line with the markers, and the texts behind them. -/
def renderLine (first : Text) (items : List (SpecialMarker × Text)) : Text :=
  first ++ items.flatMap fun p => p.1.render ++ p.2

/-- A marker that can be told from what is around it, and text without a dollar. -/
def SpecialMarker.Separate (p : SpecialMarker × Text) : Prop :=
  p.1.WellFormed ∧ '$' ∉ p.2 ∧ p.1.EndsBefore p.2

theorem splitInserts_renderLine {first : Text} (hfirst : '$' ∉ first)
    {items : List (SpecialMarker × Text)} (h : ∀ p ∈ items, SpecialMarker.Separate p) :
    splitInserts (renderLine first items) = (first, items.map fun p => (p.1.render, p.2)) := by
  rw [renderLine, splitInserts_append_of_notMem hfirst]
  suffices hitems : splitInserts (items.flatMap fun p => p.1.render ++ p.2) =
      ([], items.map fun p => (p.1.render, p.2)) by
    rw [hitems, List.append_nil]
  induction items with
  | nil => rw [List.flatMap_nil, splitInserts, List.map_nil]
  | cons p items ih =>
    obtain ⟨⟨hm, htxt, hend⟩, hitems⟩ := List.forall_mem_cons.mp h
    have hnext : p.1.EndsBefore (p.2 ++ items.flatMap fun p => p.1.render ++ p.2) := by
      cases hp : p.2 with
      | cons c s =>
        rw [hp] at hend
        exact hend
      | nil =>
        -- The next marker begins with a dollar.
        have hhead : ∀ c, (items.flatMap fun p => p.1.render ++ p.2).head? = some c → c = '$' := by
          intro c hc
          cases items with
          | nil => cases hc
          | cons q items =>
            rw [List.flatMap_cons] at hc
            cases hq : q.1 with
            | _ =>
              rw [hq] at hc
              exact (Option.some.inj hc).symm
        cases hm' : p.1 with
        | name n =>
          intro c hc
          rw [hhead c hc]
          decide
        | _ => exact fun hc => absurd (hhead _ hc) (by decide)
    rw [List.flatMap_cons, List.append_assoc,
      splitInserts_of_some (SpecialMarker.insertPattern_render hm hnext),
      splitInserts_append_of_notMem htxt, ih hitems, List.append_nil]
    rfl

/-- A line is read as its texts and what its markers mean. -/
theorem readLine_renderLine {first : Text} (hfirst : '$' ∉ first)
    {items : List (SpecialMarker × Text)} (h : ∀ p ∈ items, SpecialMarker.Separate p) :
    readLine (renderLine first items) = .chars first ::
      items.flatMap fun p => [.insert p.1.meaning, .chars [], .chars p.2] := by
  rw [readLine, splitInserts_renderLine hfirst h]
  congr 1
  induction items with
  | nil => rfl
  | cons p items ih =>
    obtain ⟨hp, hitems⟩ := List.forall_mem_cons.mp h
    rw [List.map_cons, List.flatMap_cons, List.flatMap_cons, ih hitems,
      SpecialMarker.readInsert_render hp.1]
    rfl

end T4P4S
