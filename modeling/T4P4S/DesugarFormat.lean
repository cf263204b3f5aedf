/-
What the string literal of a template line has for the text and for each insert.

* **`evaluate_splitAndTranslate`** — the value of a line's expression is the line's
  format, and if some insert has an expression, the format filled with their values;
* **`lits_used`** — the literal characters of the format are at most those that the
  insert is read as, and as many only if all of it is used and its texts are.
-/
import Mathlib.Data.Bool.AllAny
import T4P4S.Desugar

open PyText

namespace T4P4S

variable {G : ArgGrammar}

/-! ### The condition -/

/-- A text without braces. -/
def NoBrace (s : Text) : Prop := '{' ∉ s ∧ '}' ∉ s

/-- A text without an opening brace directly in front of a closing one. -/
def HoleFree (s : Text) : Prop := ¬ ['{', '}'] <:+: s

/-- A text whose braces are all in pairs with nothing between them. -/
def Paired : Text → Prop
  | '{' :: '}' :: s => Paired s
  | c :: s => c ≠ '{' ∧ c ≠ '}' ∧ Paired s
  | [] => True

namespace InsertMatch

/-- All of the insert is used. -/
def Whole (m : InsertMatch) : Prop :=
  if m.highlighted then m.behind = [] else m.light = none ∧ m.text2 = none ∧ m.rest = []

/-- An insert of a line that is formatted. -/
def Fits (G : ArgGrammar) (m : InsertMatch) : Prop :=
  m.Whole ∧ (∀ light ∈ m.light, NoBrace light) ∧
    if m.expr = [] then HoleFree (m.text1.getD []) ∧ HoleFree (m.text2.getD [])
    else NoBrace m.expr ∧ G.single m.expr

/-- An insert of a line that is not formatted. -/
def Unformatted (m : InsertMatch) : Prop :=
  m.Whole ∧ Paired (m.text1.getD []) ∧ Paired (m.text2.getD []) ∧ ∀ light ∈ m.light, HoleFree light

/-- The text of an insert whose expression has the empty text as its value, and of what is
read as literal with it. -/
def bare (m : InsertMatch) : Text :=
  m.read.flatMap fun
    | .chars s => s
    | .insert i => i.wrap []

/-- The insert's part of the format. -/
def used (m : InsertMatch) : Text := if m.expr = [] then dropHoles m.fmt else m.fmt

end InsertMatch

/-- The matches of a line's inserts, and the texts behind them. -/
def lineMatches (inserts : List (Text × Text)) : Option (List (InsertMatch × Text)) :=
  inserts.mapM fun p => (insertMatch p.1).map fun m => (m, p.2)

/-- The format of a line. -/
def lineFmt (first : Text) (ms : List (InsertMatch × Text)) : Text :=
  escapeBrace first ++ ms.flatMap fun p => p.1.used ++ escapeBrace p.2

/-! ### Quotes -/

@[simp] theorem escapeSlash_cons (c : Char) (s : Text) :
    escapeSlash (c :: s) = (if c = '\\' ∨ c = '"' then ['\\', c] else [c]) ++ escapeSlash s :=
  List.flatMap_cons

/-- No quote comes from nothing, and none is lost. -/
theorem stringLiteral_escapeSlash (s : Text) {extra : Text} (hextra : '\\' ∉ extra ∧ '"' ∉ extra)
    (rest : Text) :
    stringLiteral '"' (escapeSlash s ++ extra ++ '"' :: rest) = some (s ++ extra, rest) := by
  induction s with
  | nil =>
    induction extra with
    | nil => exact stringLiteral_quote (by decide) rest
    | cons c extra ih =>
      rw [List.mem_cons, List.mem_cons, not_or, not_or] at hextra
      obtain ⟨⟨hslash, hextra⟩, hquote, hextra'⟩ := hextra
      have hrest := ih ⟨hextra, hextra'⟩
      rw [escapeSlash, List.flatMap_nil, List.nil_append] at hrest ⊢
      rw [List.cons_append, stringLiteral_cons (Ne.symm hslash) (Ne.symm hquote), hrest]
      rfl
  | cons c s ih =>
    rw [escapeSlash_cons]
    split_ifs with hc
    · show stringLiteral '"' ('\\' :: c :: (escapeSlash s ++ extra ++ '"' :: rest)) = _
      rw [stringLiteral_escaped (by tauto), ih]
      rfl
    · obtain ⟨hslash, hquote⟩ := not_or.mp hc
      show stringLiteral '"' (c :: (escapeSlash s ++ extra ++ '"' :: rest)) = _
      rw [stringLiteral_cons hslash hquote, ih]
      rfl

theorem unescapeQuotes_cons {c : Char} {s : Text} (h : c = '\\' → s.head? ≠ some '"') :
    unescapeQuotes (c :: s) = c :: unescapeQuotes s := by
  rw [unescapeQuotes]
  rintro t hc rfl
  exact h hc rfl

/-- An escaped text does not begin with a quote. -/
theorem head_escapeSlash (s : Text) {extra : Text} (hextra : '"' ∉ extra) :
    (escapeSlash s ++ extra).head? ≠ some '"' := by
  cases s with
  | nil =>
    intro h
    exact hextra (List.mem_of_mem_head? h)
  | cons c s =>
    rw [escapeSlash_cons]
    split_ifs with hc
    · exact fun h => absurd (Option.some.inj h) (by decide)
    · exact fun h => hc (.inr (Option.some.inj h))

/-- A text in quotes without a backslash in front of them. -/
theorem stringLiteral_unescapeQuotes (s : Text) {extra : Text}
    (hextra : '\\' ∉ extra ∧ '"' ∉ extra) (happ : '\'' ∉ escapeSlash s ++ extra) (rest : Text) :
    stringLiteral '\'' (unescapeQuotes (escapeSlash s ++ extra) ++ '\'' :: rest) =
      some (s ++ extra, rest) := by
  -- an escaped double quote loses its backslash, and an escaped backslash keeps it
  induction s with
  | nil =>
    rw [escapeSlash, List.flatMap_nil, List.nil_append] at happ ⊢
    induction extra with
    | nil => exact stringLiteral_quote (by decide) rest
    | cons c extra ih =>
      rw [List.mem_cons, not_or] at happ
      rw [List.mem_cons, List.mem_cons, not_or, not_or] at hextra
      obtain ⟨⟨hslash, hextra⟩, hquote, hextra'⟩ := hextra
      rw [unescapeQuotes_cons fun hc => absurd hc.symm hslash, List.cons_append,
        stringLiteral_cons (Ne.symm hslash) (Ne.symm happ.1), ih ⟨hextra, hextra'⟩ happ.2]
      rfl
  | cons c s ih =>
    rw [escapeSlash_cons] at happ ⊢
    split_ifs at happ ⊢ with hc
    · have htail : '\'' ∉ escapeSlash s ++ extra :=
        fun hmem => happ (List.mem_cons_of_mem _ (List.mem_cons_of_mem _ hmem))
      rcases hc with rfl | rfl
      · show stringLiteral '\'' (unescapeQuotes ('\\' :: '\\' :: (escapeSlash s ++ extra)) ++
          '\'' :: rest) = _
        have hhead : ('\\' :: (escapeSlash s ++ extra)).head? ≠ some '"' :=
          fun h => absurd (Option.some.inj h) (by decide)
        rw [unescapeQuotes_cons fun _ => hhead,
          unescapeQuotes_cons fun _ => head_escapeSlash s hextra.2]
        show stringLiteral '\'' ('\\' :: '\\' ::
          (unescapeQuotes (escapeSlash s ++ extra) ++ '\'' :: rest)) = _
        rw [stringLiteral_escaped (.inl rfl), ih htail]
        rfl
      · show stringLiteral '\'' ('"' :: (unescapeQuotes (escapeSlash s ++ extra) ++
          '\'' :: rest)) = _
        rw [stringLiteral_cons (by decide) (by decide), ih htail]
        rfl
    · have hne : c ≠ '\'' := fun h => happ (h ▸ List.mem_cons_self)
      obtain ⟨hslash, -⟩ := not_or.mp hc
      have htail : '\'' ∉ escapeSlash s ++ extra := fun hmem => happ (List.mem_cons_of_mem _ hmem)
      show stringLiteral '\'' (unescapeQuotes (c :: (escapeSlash s ++ extra)) ++ '\'' :: rest) = _
      rw [unescapeQuotes_cons fun h => absurd h hslash, List.cons_append,
        stringLiteral_cons hslash hne, ih htail]
      rfl

/-- Whichever quotes are chosen, the literal's value is the text that is put into it. -/
theorem stringLiteral_chooseQuote (s : Text) {extra : Text}
    (hextra : '\\' ∉ extra ∧ '"' ∉ extra) (rest : Text) :
    let p := chooseQuote (escapeSlash s ++ extra)
    (p.1 = '\'' ∨ p.1 = '"') ∧
      stringLiteral p.1 (p.2 ++ p.1 :: rest) = some (s ++ extra, rest) := by
  rw [chooseQuote]
  split_ifs with happ
  · exact ⟨.inr rfl, stringLiteral_escapeSlash s hextra rest⟩
  · exact ⟨.inl rfl, stringLiteral_unescapeQuotes s hextra happ rest⟩

/-! ### The expression of a line -/

theorem LineInfo.plain_extraContent (line : LineInfo) :
    ∀ c ∈ line.extraContent, c ∉ "'\"\\".toList ∧ c ≠ '{' ∧ c ≠ '}' := by
  rw [extraContent]
  cases line.maybePre with
  | none => exact fun c hc => absurd hc List.not_mem_nil
  | some maybePre =>
    dsimp only
    split_ifs with hhint
    · exact fun c hc => absurd hc List.not_mem_nil
    · intro c hc
      rw [List.mem_append] at hc
      rcases hc with hc | hdigit
      · rw [List.mem_append] at hc
        rcases hc with hc | hprefix
        · revert c
          cases maybePre with
          | pre => exact List.all_iff_forall_prop.mp rfl
          | aft => exact List.all_iff_forall_prop.mp rfl
        · exact line.plain c hprefix
      · have hc : c.isDigit := Nat.isDigit_of_mem_toDigits (by decide) (by decide) hdigit
        refine ⟨fun hmem => ?_, ?_, ?_⟩
        · have hnot : ∀ d ∈ "'\"\\".toList, d.isDigit = false :=
            List.all_iff_forall_prop.mp rfl
          rw [hnot c hmem] at hc
          cases hc
        · rintro rfl
          cases hc
        · rintro rfl
          cases hc

theorem replaceInsert2_eq (insert : Text) :
    replaceInsert2 insert = (insertMatch insert).map fun m => (m.fmt, m.expr) := by
  rw [replaceInsert2, insertMatch]
  cases matchSimple insert with
  | none => rfl
  | some name => rfl

/-- The expressions of a line's inserts. -/
def lineExprs (ms : List (InsertMatch × Text)) : List Text :=
  (ms.map fun p => p.1.expr).filter (· ≠ [])

theorem mapM_replaceInsert2 (inserts : List (Text × Text)) :
    (inserts.mapM fun p => (replaceInsert2 p.1).map fun q => (q, p.2)) =
      (lineMatches inserts).map (List.map fun p => ((p.1.fmt, p.1.expr), p.2)) := by
  induction inserts with
  | nil => rfl
  | cons p inserts ih =>
    rw [lineMatches, List.mapM_cons, List.mapM_cons, ih, replaceInsert2_eq, ← lineMatches]
    cases insertMatch p.1 with
    | none => rfl
    | some m =>
      cases lineMatches inserts with
      | none => rfl
      | some ms => rfl

theorem escapeBrace_eq_nil {s : Text} : escapeBrace s = [] ↔ s = [] := by
  cases s with
  | nil => exact iff_of_true rfl rfl
  | cons c s =>
    refine iff_of_false (fun h => ?_) (List.cons_ne_nil c s)
    rw [escapeBrace, List.flatMap_cons, List.append_eq_nil_iff] at h
    split_ifs at h
    · exact h.1
    · exact h.1

/-- A join is empty only if there is nothing to join. -/
theorem intercalate_escapeBrace_eq_nil {es : List Text} (hes : ∀ e ∈ es, e ≠ []) (sep : Text) :
    sep.intercalate (es.map escapeBrace) = [] ↔ es = [] := by
  cases es with
  | nil => exact iff_of_true rfl rfl
  | cons e es =>
    refine iff_of_false (fun h => hes e List.mem_cons_self ?_) (List.cons_ne_nil e es)
    cases es with
    | nil =>
      rw [List.map_singleton, List.intercalate_singleton] at h
      exact escapeBrace_eq_nil.mp h
    | cons e' es =>
      rw [List.map_cons, List.map_cons, List.intercalate_cons_cons, List.append_assoc] at h
      exact escapeBrace_eq_nil.mp (List.append_eq_nil_iff.mp h).1

theorem mem_lineExprs {ms : List (InsertMatch × Text)} {e : Text} :
    e ∈ lineExprs ms ↔ e ≠ [] ∧ ∃ p ∈ ms, p.1.expr = e := by
  rw [lineExprs, List.mem_filter, List.mem_map, decide_eq_true_eq, and_comm]

section Line

theorem evaluate_literal (env : PyEnv G) {quote : Char} {code text : Text}
    (hquote : quote = '\'' ∨ quote = '"') (h : stringLiteral quote code = some (text, [])) :
    evaluate env (quote :: code) = some text := by
  rw [evaluate, if_pos hquote, h]
  rfl

theorem evaluate_format (env : PyEnv G) {quote : Char} {code text args : Text}
    (hquote : quote = '\'' ∨ quote = '"')
    (h : stringLiteral quote code = some (text, ".format(".toList ++ args ++ [')'])) :
    evaluate env (quote :: code) = (env.arguments args).bind (strFormat text) := by
  have hne : ".format(".toList ++ args ++ [')'] ≠ [] :=
    List.append_ne_nil_of_right_ne_nil _ (List.cons_ne_nil _ _)
  have hcall : ".format(".toList <+: ".format(".toList ++ args ++ [')'] ∧
      [')'] <:+ ".format(".toList ++ args ++ [')'] :=
    ⟨⟨args ++ [')'], (List.append_assoc _ _ _).symm⟩, List.suffix_append _ _⟩
  rw [evaluate, if_pos hquote, h]
  dsimp only [Option.bind_eq_bind, Option.bind_some]
  rw [if_neg hne, if_pos hcall, List.append_assoc]
  show (env.arguments (args ++ [')']).dropLast).bind _ = _
  rw [List.dropLast_concat]

variable {content : Text} {ms : List (InsertMatch × Text)}

theorem splitAndTranslate_eq_none (h : lineMatches (splitInserts content).2 = none)
    (extra : Text) (b : Bool) : splitAndTranslate content extra b = none := by
  rw [splitAndTranslate, translateLineMainContent2, if_neg, mapM_replaceInsert2, h]
  · rfl
  · intro hnil
    rw [hnil] at h
    cases h

/-- The expression of a line with inserts. -/
theorem evaluate_splitAndTranslate (hms : lineMatches (splitInserts content).2 = some ms)
    (hne : ms ≠ []) (line : LineInfo) (env : PyEnv G) :
    ∃ code, splitAndTranslate content line.extraContent false = some (true, code) ∧
      evaluate env code =
        if lineExprs ms = [] then
          some (lineFmt (splitInserts content).1 ms ++ line.extraContent)
        else
          (env.arguments (", ".toList.intercalate ((lineExprs ms).map escapeBrace))).bind
            (strFormat (lineFmt (splitInserts content).1 ms ++ line.extraContent)) := by
  have hnil : (splitInserts content).2 ≠ [] := by
    intro hnil
    rw [hnil] at hms
    exact hne (Option.some.inj hms).symm
  have hextra : '\\' ∉ line.extraContent ∧ '"' ∉ line.extraContent :=
    ⟨fun h => (line.plain_extraContent _ h).1 (by decide),
      fun h => (line.plain_extraContent _ h).1 (by decide)⟩
  obtain ⟨quote, allFmt, hchoose⟩ : ∃ quote allFmt, chooseQuote
      (escapeSlash (lineFmt (splitInserts content).1 ms) ++ line.extraContent) =
        (quote, allFmt) := ⟨_, _, rfl⟩
  have hquote := stringLiteral_chooseQuote (lineFmt (splitInserts content).1 ms) hextra
  rw [hchoose] at hquote
  dsimp only at hquote
  have hfmts : ((ms.map fun p => ((p.1.fmt, p.1.expr), p.2)).flatMap fun q =>
      (if q.1.2 = [] then dropHoles q.1.1 else q.1.1) ++ escapeBrace q.2) =
        ms.flatMap fun p => p.1.used ++ escapeBrace p.2 := by
    rw [List.flatMap_map]
    rfl
  have hexprs : (((ms.map fun p => ((p.1.fmt, p.1.expr), p.2)).map
      fun q => q.1.2).filter (· ≠ [])) = lineExprs ms := by
    rw [List.map_map]
    rfl
  rw [splitAndTranslate, translateLineMainContent2, if_neg hnil, mapM_replaceInsert2, hms]
  dsimp only [Option.map_some, Option.bind_eq_bind, Option.bind_some]
  rw [hfmts, hexprs, ← lineFmt, hchoose]
  dsimp only
  have hempty : ", ".toList.intercalate ((lineExprs ms).map escapeBrace) = [] ↔
      lineExprs ms = [] :=
    intercalate_escapeBrace_eq_nil (fun e he => (mem_lineExprs.mp he).1) _
  by_cases hexpr : lineExprs ms = []
  · rw [if_pos (hempty.mpr hexpr), if_pos hexpr, if_neg Bool.false_ne_true]
    exact ⟨_, rfl, evaluate_literal env (hquote []).1 (hquote []).2⟩
  · rw [if_neg (hempty.not.mpr hexpr), if_neg hexpr]
    refine ⟨_, rfl, ?_⟩
    have hrest := hquote (".format(".toList ++
      ", ".toList.intercalate ((lineExprs ms).map escapeBrace) ++ [')'])
    rw [List.append_assoc, List.append_assoc, List.cons_append, List.cons_append,
      ← List.append_assoc]
    exact evaluate_format env hrest.1 hrest.2

end Line

/-! ### Braces -/

@[simp] theorem escapeBrace_append (s t : Text) :
    escapeBrace (s ++ t) = escapeBrace s ++ escapeBrace t :=
  List.flatMap_append

theorem escapeBrace_cons_of_ne {c : Char} (hopen : c ≠ '{') (hclose : c ≠ '}') (s : Text) :
    escapeBrace (c :: s) = c :: escapeBrace s := by
  rw [escapeBrace, List.flatMap_cons, if_neg (not_or.mpr ⟨hopen, hclose⟩)]
  rfl

theorem noBrace_cons {c : Char} {s : Text} :
    NoBrace (c :: s) ↔ (c ≠ '{' ∧ c ≠ '}') ∧ NoBrace s := by
  rw [NoBrace, NoBrace, List.mem_cons, List.mem_cons, not_or, not_or]
  constructor
  · rintro ⟨⟨hopen, hs⟩, hclose, hs'⟩
    exact ⟨⟨Ne.symm hopen, Ne.symm hclose⟩, hs, hs'⟩
  · rintro ⟨⟨hopen, hclose⟩, hs, hs'⟩
    exact ⟨⟨Ne.symm hopen, hs⟩, Ne.symm hclose, hs'⟩

/-- Escaping lengthens exactly the texts with braces. -/
theorem length_escapeBrace (s : Text) :
    s.length ≤ (escapeBrace s).length ∧ ((escapeBrace s).length = s.length ↔ NoBrace s) := by
  induction s with
  | nil => exact ⟨le_rfl, iff_of_true rfl ⟨List.not_mem_nil, List.not_mem_nil⟩⟩
  | cons c s ih =>
    obtain ⟨hle, hiff⟩ := ih
    rw [noBrace_cons, ← hiff, escapeBrace, List.flatMap_cons, ← escapeBrace]
    split_ifs with hc
    · simp only [List.length_append, List.length_cons, List.length_nil]
      refine ⟨by omega, iff_of_false (by omega) ?_⟩
      rintro ⟨⟨hopen, hclose⟩, -⟩
      exact hc.elim hopen hclose
    · simp only [List.length_append, List.length_cons, List.length_nil]
      rw [← not_or]
      exact ⟨by omega, fun h => ⟨hc, by omega⟩, fun h => by omega⟩

theorem escapeBrace_of_noBrace {s : Text} (h : NoBrace s) : escapeBrace s = s := by
  induction s with
  | nil => rfl
  | cons c s ih =>
    obtain ⟨⟨hopen, hclose⟩, hs⟩ := noBrace_cons.mp h
    rw [escapeBrace_cons_of_ne hopen hclose, ih hs]

theorem parseFormat_escapeBrace (s r : Text) :
    parseFormat (escapeBrace s ++ r) = (parseFormat r).map (s.map some ++ ·) := by
  induction s with
  | nil => exact Option.map_id'.symm
  | cons c s ih =>
    by_cases hc : c = '{' ∨ c = '}'
    · rw [escapeBrace, List.flatMap_cons, if_pos hc, ← escapeBrace]
      rcases hc with rfl | rfl
      · show (parseFormat (escapeBrace s ++ r)).map (some '{' :: ·) = _
        rw [ih, Option.map_map]
        rfl
      · show (parseFormat (escapeBrace s ++ r)).map (some '}' :: ·) = _
        rw [ih, Option.map_map]
        rfl
    · obtain ⟨hopen, hclose⟩ := not_or.mp hc
      rw [escapeBrace_cons_of_ne hopen hclose, List.cons_append, parseFormat_cons hopen hclose, ih,
        Option.map_map]
      rfl

theorem parseFormat_of_noBrace {s : Text} (h : NoBrace s) : parseFormat s = some (s.map some) := by
  have hparse := parseFormat_escapeBrace s []
  rw [List.append_nil, escapeBrace_of_noBrace h] at hparse
  rw [hparse]
  exact congrArg some (List.append_nil _)

theorem dropHoles_cons {c : Char} {s : Text} (h : c = '{' → s.head? ≠ some '}') :
    dropHoles (c :: s) = c :: dropHoles s := by
  rw [dropHoles]
  rintro t hc rfl
  exact h hc rfl

/-- A cut in front of anything but a closing brace takes no `{}` apart. -/
theorem dropHoles_append {c : Char} (hc : c ≠ '}') (s r : Text) :
    dropHoles (s ++ c :: r) = dropHoles s ++ dropHoles (c :: r) := by
  induction s using dropHoles.induct with
  | case1 s ih => exact ih
  | case2 d s hhole ih =>
    have hhead : d = '{' → (s ++ c :: r).head? ≠ some '}' := by
      intro hd
      cases s with
      | nil => exact fun h => hc (Option.some.inj h)
      | cons x s =>
        intro h
        obtain rfl := Option.some.inj h
        exact hhole s hd rfl
    have hhead' : d = '{' → s.head? ≠ some '}' := by
      intro hd
      cases s with
      | nil => exact fun h => nomatch h
      | cons x s =>
        intro h
        obtain rfl := Option.some.inj h
        exact hhole s hd rfl
    rw [List.cons_append, dropHoles_cons hhead, dropHoles_cons hhead', ih]
    rfl
  | case3 => rfl

/-- What `re.sub` leaves of an escaped text: the braces of each `{}` are single again. -/
def squeeze : Text → Text
  | '{' :: '}' :: s => '{' :: '}' :: squeeze s
  | c :: s => (if c = '{' ∨ c = '}' then [c, c] else [c]) ++ squeeze s
  | [] => []

theorem squeeze_cons {c : Char} {s : Text} (h : c = '{' → s.head? ≠ some '}') :
    squeeze (c :: s) = (if c = '{' ∨ c = '}' then [c, c] else [c]) ++ squeeze s := by
  rw [squeeze]
  rintro t hc rfl
  exact h hc rfl

theorem head_escapeBrace (s : Text) : (escapeBrace s).head? = s.head? := by
  cases s with
  | nil => rfl
  | cons c s =>
    rw [escapeBrace, List.flatMap_cons]
    split_ifs <;> rfl

theorem head_ne_of_cons {c : Char} {s : Text} (h : ∀ t, c = '{' → s = '}' :: t → False) :
    c = '{' → s.head? ≠ some '}' := by
  intro hc hhead
  obtain ⟨t, rfl⟩ := List.head?_eq_some_iff.mp hhead
  exact h t hc rfl

theorem dropHoles_escapeBrace (s : Text) : dropHoles (escapeBrace s) = squeeze s := by
  induction s using squeeze.induct with
  | case1 s ih =>
    show dropHoles ('{' :: '{' :: '}' :: '}' :: escapeBrace s) = '{' :: '}' :: squeeze s
    have hhead : ('{' :: '}' :: '}' :: escapeBrace s).head? ≠ some '}' :=
      fun h => absurd (Option.some.inj h) (by decide)
    rw [dropHoles_cons fun _ => hhead, ← ih]
    show '{' :: dropHoles ('}' :: escapeBrace s) = _
    rw [dropHoles_cons fun h => absurd h (by decide)]
  | case2 c s hhole ih =>
    have hhead := head_ne_of_cons hhole
    rw [squeeze_cons hhead, escapeBrace, List.flatMap_cons, ← escapeBrace, ← ih]
    have htail : dropHoles (c :: escapeBrace s) = c :: dropHoles (escapeBrace s) :=
      dropHoles_cons fun hc => by rw [head_escapeBrace]; exact hhead hc
    split_ifs with hc
    · show dropHoles (c :: c :: escapeBrace s) = _
      rw [dropHoles_cons, htail]
      · rfl
      · rintro rfl h
        exact absurd (Option.some.inj h) (by decide)
    · exact htail
  | case3 => rfl

theorem holeFree_cons {c : Char} {s : Text} :
    HoleFree (c :: s) ↔ (c = '{' → s.head? ≠ some '}') ∧ HoleFree s := by
  rw [HoleFree, HoleFree, List.infix_cons_iff, not_or]
  refine and_congr_left fun _ => ⟨?_, ?_⟩
  · rintro h rfl hhead
    obtain ⟨t, rfl⟩ := List.head?_eq_some_iff.mp hhead
    exact h ⟨t, rfl⟩
  · rintro h ⟨t, ht⟩
    obtain ⟨rfl, rfl⟩ := List.cons.inj ht
    exact h rfl rfl

theorem squeeze_of_holeFree {s : Text} (h : HoleFree s) : squeeze s = escapeBrace s := by
  induction s with
  | nil => rfl
  | cons c s ih =>
    obtain ⟨hhead, hs⟩ := holeFree_cons.mp h
    rw [squeeze_cons hhead, ih hs, escapeBrace, escapeBrace, List.flatMap_cons]

/-- Each `{}` is a field again. -/
theorem parseFormat_squeeze {s r : Text} {ps : List (Option Char)}
    (h : parseFormat (squeeze s ++ r) = some ps) :
    ∃ qs rs, ps = qs ++ rs ∧ parseFormat r = some rs ∧ lits qs ≤ s.length ∧
      (lits qs = s.length → HoleFree s) := by
  induction s using squeeze.induct generalizing ps with
  | case1 s ih =>
    replace h : (parseFormat (squeeze s ++ r)).map (none :: ·) = some ps := h
    obtain ⟨ps, hps, rfl⟩ := Option.map_eq_some_iff.mp h
    obtain ⟨qs, rs, rfl, hrs, hle, -⟩ := ih hps
    have hlits : lits (none :: qs) = lits qs := rfl
    refine ⟨none :: qs, rs, rfl, hrs, ?_, fun heq => ?_⟩
    all_goals
      simp only [List.length_cons] at *
      omega
  | case2 c s hhole ih =>
    have hhead := head_ne_of_cons hhole
    have hcons : (parseFormat (squeeze s ++ r)).map (some c :: ·) = some ps := by
      rw [← h, squeeze_cons hhead]
      split_ifs with hc
      · rcases hc with rfl | rfl
        · rfl
        · rfl
      · obtain ⟨hopen, hclose⟩ := not_or.mp hc
        exact (parseFormat_cons hopen hclose _).symm
    obtain ⟨ps, hps, rfl⟩ := Option.map_eq_some_iff.mp hcons
    obtain ⟨qs, rs, rfl, hrs, hle, hfree⟩ := ih hps
    have hlits : lits (some c :: qs) = lits qs + 1 := List.countP_cons_of_pos rfl
    refine ⟨some c :: qs, rs, rfl, hrs, ?_, fun heq => ?_⟩
    · rw [hlits, List.length_cons]
      exact Nat.succ_le_succ hle
    · rw [hlits, List.length_cons] at heq
      exact holeFree_cons.mpr ⟨hhead, hfree (Nat.succ.inj heq)⟩
  | case3 => exact ⟨[], ps, rfl, h, Nat.le_refl 0, fun _ h => by cases List.eq_nil_of_infix_nil h⟩

theorem paired_cons {c : Char} {s : Text} (h : c = '{' → s.head? ≠ some '}') :
    Paired (c :: s) ↔ c ≠ '{' ∧ c ≠ '}' ∧ Paired s := by
  rw [Paired]
  rintro t hc rfl
  exact h hc rfl

/-- Only pairs of braces with nothing between them are left as they were. -/
theorem length_squeeze (s : Text) :
    s.length ≤ (squeeze s).length ∧ ((squeeze s).length = s.length ↔ Paired s) ∧
      (Paired s → squeeze s = s) := by
  induction s using squeeze.induct with
  | case1 s ih =>
    obtain ⟨hle, hiff, heq⟩ := ih
    refine ⟨?_, ?_, fun h => ?_⟩
    · show s.length + 2 ≤ (squeeze s).length + 2
      omega
    · show (squeeze s).length + 2 = s.length + 2 ↔ Paired s
      rw [← hiff, Nat.add_right_cancel_iff]
    · show '{' :: '}' :: squeeze s = _
      rw [heq h]
  | case2 c s hhole ih =>
    obtain ⟨hle, hiff, heq⟩ := ih
    have hhead := head_ne_of_cons hhole
    rw [squeeze_cons hhead, paired_cons hhead, ← hiff]
    split_ifs with hc
    · simp only [List.length_append, List.length_cons, List.length_nil]
      refine ⟨by omega, iff_of_false (by omega) fun h => ?_, fun h => ?_⟩
      · exact hc.elim h.1 h.2.1
      · exact absurd hc (not_or.mpr ⟨h.1, h.2.1⟩)
    · simp only [List.length_append, List.length_cons, List.length_nil]
      obtain ⟨hopen, hclose⟩ := not_or.mp hc
      refine ⟨by omega, ⟨fun h => ⟨hopen, hclose, by omega⟩, fun h => by omega⟩, fun h => ?_⟩
      rw [heq (hiff.mp h.2.2)]
      rfl
  | case3 => exact ⟨le_rfl, iff_of_true rfl trivial, fun _ => rfl⟩

/-! ### Matches -/

theorem length_matchGroup {left right : Char} {s body rest : Text}
    (h : matchGroup left right s = some (body, rest)) :
    body.length + rest.length + 2 = s.length := by
  rw [← matchGroup_append h]
  simp only [List.cons_append, List.length_cons, List.length_append]
  omega

theorem length_matchOptGroup (left right : Char) (s : Text) :
    ((matchOptGroup left right s).1.getD []).length + (matchOptGroup left right s).2.length ≤
      s.length := by
  rw [matchOptGroup]
  split
  · rename_i c body rest h
    have hlength := length_matchGroup h
    rw [Option.getD_some]
    show (c :: body).length + rest.length ≤ _
    omega
  · rw [Option.getD_none, List.length_nil, Nat.zero_add]

theorem matchOptGroup_of_none {left right : Char} {s : Text}
    (h : (matchOptGroup left right s).1 = none) : matchOptGroup left right s = (none, s) := by
  rw [matchOptGroup] at h ⊢
  split
  · rename_i heq
    rw [heq] at h
    cases h
  · rfl

/-- What is known of a match. -/
structure InsertMatch.Sane (m : InsertMatch) : Prop where
  text1 : m.light = none → m.text1 = none
  length : (m.text1.getD []).length + (m.text2.getD []).length < m.insert.length

theorem length_matchDollars {insert : Text} {dollars : Bool × Text}
    (h : matchDollars insert = some dollars) : dollars.2.length < insert.length := by
  unfold matchDollars at h
  split at h
  · obtain rfl := Option.some.inj h
    exact Nat.lt_succ_of_lt (Nat.lt_succ_self _)
  · obtain rfl := Option.some.inj h
    exact Nat.lt_succ_self _
  · cases h

theorem matchInsert_sane {insert : Text} {m : InsertMatch} (h : matchInsert insert = some m) :
    m.Sane := by
  obtain ⟨dollars, hdollars, h⟩ := Option.bind_eq_some_iff.mp h
  obtain ⟨expr, hexpr, hm⟩ := Option.map_eq_some_iff.mp h
  have hlength := length_matchDollars hdollars
  have hlight := length_matchOptGroup '[' ']' dollars.2
  have htext1 := length_matchOptGroup '[' ']' (matchOptGroup '[' ']' dollars.2).2
  have hbody := length_matchGroup hexpr
  have htext2 := length_matchOptGroup '{' '}' expr.2
  rw [← hm]
  refine ⟨fun hnone => ?_, ?_⟩
  · replace hnone : (matchOptGroup '[' ']' dollars.2).1 = none := hnone
    show (matchOptGroup '[' ']' (matchOptGroup '[' ']' dollars.2).2).1 = none
    rw [matchOptGroup_of_none hnone]
    exact hnone
  · show ((matchOptGroup '[' ']' (matchOptGroup '[' ']' dollars.2).2).1.getD []).length +
      ((matchOptGroup '{' '}' expr.2).1.getD []).length < insert.length
    omega

theorem insertMatch_sane {insert : Text} {m : InsertMatch} (h : insertMatch insert = some m) :
    m.Sane := by
  rw [insertMatch] at h
  split at h
  · rename_i name hname
    obtain rfl := Option.some.inj h
    have hpos : 0 < insert.length := by
      cases insert with
      | nil => cases hname
      | cons c s => exact Nat.succ_pos _
    exact ⟨fun _ => rfl, hpos⟩
  · exact matchInsert_sane h

theorem lineMatches_cons {p : Text × Text} {inserts : List (Text × Text)}
    {ms : List (InsertMatch × Text)} (h : lineMatches (p :: inserts) = some ms) :
    ∃ m rest, ms = (m, p.2) :: rest ∧ insertMatch p.1 = some m ∧
      lineMatches inserts = some rest := by
  rw [lineMatches, List.mapM_cons] at h
  obtain ⟨q, hq, h⟩ := Option.bind_eq_some_iff.mp h
  obtain ⟨m, hm, rfl⟩ := Option.map_eq_some_iff.mp hq
  obtain ⟨rest, hrest, h⟩ := Option.bind_eq_some_iff.mp h
  exact ⟨m, rest, (Option.some.inj h).symm, hm, hrest⟩

theorem lineMatches_sane {inserts : List (Text × Text)} {ms : List (InsertMatch × Text)}
    (h : lineMatches inserts = some ms) : ∀ p ∈ ms, p.1.Sane := by
  induction inserts generalizing ms with
  | nil =>
    obtain rfl := Option.some.inj h
    exact fun p hp => absurd hp List.not_mem_nil
  | cons q inserts ih =>
    obtain ⟨m, rest, rfl, hm, hrest⟩ := lineMatches_cons h
    exact List.forall_mem_cons.mpr ⟨insertMatch_sane hm, ih hrest⟩

/-! ### Parts of an insert -/

theorem length_dropHoles (s : Text) :
    (dropHoles s).length ≤ s.length ∧ ((dropHoles s).length = s.length → HoleFree s) := by
  induction s using dropHoles.induct with
  | case1 s ih =>
    show (dropHoles s).length ≤ s.length + 2 ∧ ((dropHoles s).length = s.length + 2 → _)
    have hle := ih.1
    exact ⟨by omega, fun heq => by omega⟩
  | case2 c s hhole ih =>
    have hhead := head_ne_of_cons hhole
    rw [dropHoles_cons hhead, holeFree_cons, List.length_cons, List.length_cons,
      Nat.add_right_cancel_iff]
    exact ⟨Nat.succ_le_succ ih.1, fun heq => ⟨hhead, ih.2 heq⟩⟩
  | case3 => exact ⟨le_rfl, fun _ h => by cases List.eq_nil_of_infix_nil h⟩

theorem dropHoles_of_holeFree {s : Text} (h : HoleFree s) : dropHoles s = s := by
  induction s with
  | nil => rfl
  | cons c s ih =>
    obtain ⟨hhead, hs⟩ := holeFree_cons.mp h
    rw [dropHoles_cons hhead, ih hs]

theorem noBrace_append {s t : Text} : NoBrace (s ++ t) ↔ NoBrace s ∧ NoBrace t := by
  rw [NoBrace, NoBrace, NoBrace, List.mem_append, List.mem_append, not_or, not_or]
  exact and_and_and_comm

theorem NoBrace.holeFree {s : Text} (h : NoBrace s) : HoleFree s :=
  fun hin => h.1 (hin.subset List.mem_cons_self)

namespace InsertMatch

variable {m : InsertMatch}

/-- What is in front of the first text. -/
def opening (m : InsertMatch) : Text := if m.highlighted then t4litOpen else []

/-- What is behind the second text. -/
def closing (m : InsertMatch) : Text := if m.highlighted then m.lightParam ++ t4litClose else []

def front (m : InsertMatch) : Text := m.opening ++ m.text1.getD []

def back (m : InsertMatch) : Text := m.text2.getD [] ++ m.closing

theorem noBrace_opening (m : InsertMatch) : NoBrace m.opening := by
  rw [opening]
  split_ifs
  · exact ⟨by decide, by decide⟩
  · exact ⟨List.not_mem_nil, List.not_mem_nil⟩

theorem fmt_eq (m : InsertMatch) :
    m.fmt = m.opening ++ (escapeBrace (m.text1.getD []) ++
      '{' :: '}' :: (escapeBrace (m.text2.getD []) ++ m.closing)) := by
  rw [fmt, opening, closing]
  split_ifs
  · simp only [List.append_assoc, List.cons_append, List.nil_append]
  · simp only [List.append_assoc, List.cons_append, List.nil_append, List.append_nil]

theorem dropHoles_closing (m : InsertMatch) :
    dropHoles m.closing = if m.highlighted then dropHoles m.lightParam ++ t4litClose else [] := by
  rw [closing]
  split_ifs
  · exact dropHoles_append (c := ')') (by decide) m.lightParam _
  · rfl

theorem used_of_expr (h : m.expr ≠ []) :
    m.used = m.opening ++ (escapeBrace (m.text1.getD []) ++
      '{' :: '}' :: (escapeBrace (m.text2.getD []) ++ m.closing)) := by
  rw [used, if_neg h, fmt_eq]

theorem used_of_empty (h : m.expr = []) :
    m.used = m.opening ++ (squeeze (m.text1.getD []) ++
      (squeeze (m.text2.getD []) ++ dropHoles m.closing)) := by
  have hopening : ∀ s, dropHoles (m.opening ++ s) = m.opening ++ dropHoles s := by
    intro s
    rw [opening]
    split_ifs
    · rfl
    · rfl
  have hclosing : dropHoles (escapeBrace (m.text2.getD []) ++ m.closing) =
      squeeze (m.text2.getD []) ++ dropHoles m.closing := by
    rw [← dropHoles_escapeBrace]
    rw [closing]
    split_ifs
    · cases hlight : m.lightParam with
      | nil => exact dropHoles_append (by decide) _ _
      | cons c s =>
        have hc : c ≠ '}' := by
          rw [lightParam] at hlight
          split at hlight
          · rw [← (List.cons.inj hlight).1]
            decide
          · cases hlight
        exact dropHoles_append hc _ _
    · rw [List.append_nil, dropHoles, List.append_nil]
  rw [used, if_pos h, fmt_eq, hopening, dropHoles_append (by decide), dropHoles_escapeBrace]
  show _ ++ (_ ++ dropHoles (escapeBrace (m.text2.getD []) ++ m.closing)) = _
  rw [hclosing]

theorem lightParam_eq (m : InsertMatch) : m.lightParam = m.light.elim [] (',' :: ·) := by
  rw [lightParam]
  cases m.light with
  | none => rfl
  | some light => rfl

theorem front_append_back (h : m.highlighted = true) :
    m.front ++ m.back = t4litOpen ++ m.text1.getD [] ++ m.text2.getD [] ++
      m.light.elim [] (',' :: ·) ++ t4litClose := by
  rw [front, back, opening, closing, if_pos h, if_pos h, lightParam_eq]
  simp only [List.append_assoc]

/-- An insert that is used as a whole is its texts with the value between them. -/
theorem Whole.lineText_read (h : m.Whole) (hm : m.Sane) (env : PyEnv G) :
    lineText env m.read = (if m.expr = [] then some [] else env.value m.expr).map
      fun v => m.front ++ v ++ m.back := by
  cases hhigh : m.highlighted with
  | true =>
    rw [Whole, if_pos hhigh] at h
    rw [read, if_pos hhigh, h, lineText, LinePiece.value]
    dsimp only
    cases (if m.expr = [] then some [] else env.value m.expr) with
    | none => rfl
    | some v =>
      refine congrArg some ?_
      rw [front, back, opening, closing, if_pos hhigh, if_pos hhigh, lightParam_eq]
      show t4litOpen ++ m.text1.getD [] ++ v ++ m.text2.getD [] ++ m.light.elim [] (',' :: ·) ++
        t4litClose ++ [] = _
      simp only [List.append_assoc, List.append_nil]
  | false =>
    have hnot : ¬ m.highlighted = true := ne_true_of_eq_false hhigh
    rw [Whole, if_neg hnot] at h
    obtain ⟨hlight, htext2, hrest⟩ := h
    rw [read, if_neg hnot, if_pos hlight, htext2, hrest, lineText, LinePiece.value]
    dsimp only
    cases (if m.expr = [] then some [] else env.value m.expr) with
    | none => rfl
    | some v =>
      refine congrArg some ?_
      rw [front, back, opening, closing, if_neg hnot, if_neg hnot, hm.text1 hlight, htext2]
      show [] ++ v ++ [] ++ [] = [] ++ [] ++ v ++ ([] ++ [])
      simp only [List.append_nil, List.nil_append]

/-- What is read of an insert is longer than what is used of it, unless all of it is used. -/
theorem length_bare (hm : m.Sane) : m.front.length + m.back.length ≤ m.bare.length ∧
    (m.front.length + m.back.length = m.bare.length ↔ m.Whole) ∧
      (m.Whole → m.bare = m.front ++ m.back) := by
  cases hhigh : m.highlighted with
  | true =>
    have hbare : m.bare = m.front ++ m.back ++ m.behind := by
      rw [front_append_back hhigh, bare, read, if_pos hhigh]
      show t4litOpen ++ m.text1.getD [] ++ [] ++ m.text2.getD [] ++ m.light.elim [] (',' :: ·) ++
        t4litClose ++ (m.behind ++ []) = _
      simp only [List.append_assoc, List.append_nil]
    rw [Whole, if_pos hhigh, hbare, ← List.length_eq_zero_iff]
    simp only [List.length_append]
    refine ⟨by omega, by omega, fun h => ?_⟩
    rw [List.length_eq_zero_iff.mp h, List.append_nil]
  | false =>
    have hnot : ¬ m.highlighted = true := ne_true_of_eq_false hhigh
    have hfront : m.front = m.text1.getD [] := by
      rw [front, opening, if_neg hnot, List.nil_append]
    have hback : m.back = m.text2.getD [] := by
      rw [back, closing, if_neg hnot, List.append_nil]
    rw [Whole, if_neg hnot, hfront, hback]
    by_cases hlight : m.light = none
    · have hbare : m.bare = m.text2.elim [] braced ++ m.rest := by
        rw [bare, read, if_neg hnot, if_pos hlight]
        exact List.append_nil _
      rw [hbare, hm.text1 hlight, Option.getD_none, List.length_nil, Nat.zero_add]
      cases htext2 : m.text2 with
      | none =>
        show 0 ≤ m.rest.length ∧ (0 = m.rest.length ↔ _) ∧ (_ → m.rest = [] ++ [])
        rw [eq_comm, List.length_eq_zero_iff]
        exact ⟨Nat.zero_le _, ⟨fun h => ⟨hlight, rfl, h⟩, fun h => h.2.2⟩, fun h => h.2.2⟩
      | some text2 =>
        have hlength : (braced text2 ++ m.rest).length = text2.length + 2 + m.rest.length := by
          rw [List.length_append, braced]
          simp
        show text2.length ≤ (braced text2 ++ m.rest).length ∧
          (text2.length = (braced text2 ++ m.rest).length ↔ _) ∧ _
        rw [hlength]
        have hsome : ¬ (m.light = none ∧ some text2 = none ∧ m.rest = []) :=
          fun h => Option.some_ne_none _ h.2.1
        exact ⟨by omega, iff_of_false (by omega) hsome, fun h => absurd h hsome⟩
    · have hbare : m.bare = m.insert := by
        rw [bare, read, if_neg hnot, if_neg hlight]
        exact List.append_nil _
      have hlength := hm.length
      rw [hbare]
      exact ⟨hlength.le, iff_of_false hlength.ne fun h => hlight h.1, fun h => absurd h.1 hlight⟩

/-- The braces and texts of an insert are the format's. -/
def Formats (m : InsertMatch) : Prop :=
  (∀ light ∈ m.light, NoBrace light) ∧
    (m.expr = [] → HoleFree (m.text1.getD []) ∧ HoleFree (m.text2.getD []))

/-- The insert's part of the format, parsed. -/
def skeleton (m : InsertMatch) : List (Option Char) :=
  m.front.map some ++ ((if m.expr = [] then [] else [none]) ++ m.back.map some)

theorem noBrace_closing (h : ∀ light ∈ m.light, NoBrace light) : NoBrace m.closing := by
  rw [closing]
  split_ifs
  · rw [noBrace_append, lightParam]
    refine ⟨?_, by decide, by decide⟩
    split
    · rename_i light hlight
      exact noBrace_cons.mpr ⟨by decide, h light hlight⟩
    · exact ⟨List.not_mem_nil, List.not_mem_nil⟩
  · exact ⟨List.not_mem_nil, List.not_mem_nil⟩

theorem parseFormat_used (h : m.Formats) (r : Text) :
    parseFormat (m.used ++ r) = (parseFormat r).map (m.skeleton ++ ·) := by
  have hclosing := noBrace_closing h.1
  have hfront : escapeBrace m.front = m.opening ++ escapeBrace (m.text1.getD []) := by
    rw [front, escapeBrace_append, escapeBrace_of_noBrace m.noBrace_opening]
  have hback : escapeBrace m.back = escapeBrace (m.text2.getD []) ++ m.closing := by
    rw [back, escapeBrace_append, escapeBrace_of_noBrace hclosing]
  by_cases hexpr : m.expr = []
  · obtain ⟨htext1, htext2⟩ := h.2 hexpr
    have hused : m.used = escapeBrace m.front ++ escapeBrace m.back := by
      rw [used_of_empty hexpr, squeeze_of_holeFree htext1, squeeze_of_holeFree htext2,
        dropHoles_of_holeFree hclosing.holeFree, hfront, hback, List.append_assoc]
    rw [hused, List.append_assoc, parseFormat_escapeBrace, parseFormat_escapeBrace, Option.map_map,
      skeleton, if_pos hexpr]
    congr 1
    funext ps
    exact (List.append_assoc _ _ _).symm
  · have hused : m.used = escapeBrace m.front ++ '{' :: '}' :: escapeBrace m.back := by
      rw [used_of_expr hexpr, hfront, hback, List.append_assoc]
    have hhole : parseFormat ('{' :: '}' :: (escapeBrace m.back ++ r)) =
        ((parseFormat r).map (m.back.map some ++ ·)).map (none :: ·) := by
      rw [← parseFormat_escapeBrace]
      rfl
    rw [hused, List.append_assoc, List.cons_append, List.cons_append, parseFormat_escapeBrace,
      hhole,
      Option.map_map, Option.map_map, skeleton, if_neg hexpr]
    congr 1
    funext ps
    simp only [Function.comp_apply, List.append_assoc, List.cons_append, List.nil_append]

/-- A format's end is parsed on its own. -/
theorem parseFormat_closing {s r : Text} {ps : List (Option Char)}
    (hs : s = [] ∨ ∃ t, s = t ++ ['"']) (h : parseFormat (s ++ r) = some ps) :
    ∃ qs rs, ps = qs ++ rs ∧ parseFormat r = some rs ∧ lits qs ≤ s.length ∧
      (lits qs = s.length → NoBrace s) := by
  rcases hs with rfl | ⟨t, rfl⟩
  · exact ⟨[], ps, rfl, h, le_rfl, fun _ => ⟨List.not_mem_nil, List.not_mem_nil⟩⟩
  · rw [parseFormat_concat_append (by decide) (by decide)] at h
    obtain ⟨qs, hqs, h⟩ := Option.bind_eq_some_iff.mp h
    obtain ⟨rs, hrs, rfl⟩ := Option.map_eq_some_iff.mp h
    exact ⟨qs, rs, rfl, hrs, lits_le_length hqs⟩

theorem closing_eq_nil_or (m : InsertMatch) : m.closing = [] ∨ ∃ t, m.closing = t ++ ['"'] := by
  rw [closing]
  split_ifs
  · exact .inr ⟨m.lightParam ++ [')', ' '], by rw [List.append_assoc]; rfl⟩
  · exact .inl rfl

theorem dropHoles_closing_eq_nil_or (m : InsertMatch) :
    dropHoles m.closing = [] ∨ ∃ t, dropHoles m.closing = t ++ ['"'] := by
  rw [dropHoles_closing]
  split_ifs
  · exact .inr ⟨dropHoles m.lightParam ++ [')', ' '], by rw [List.append_assoc]; rfl⟩
  · exact .inl rfl

theorem parseFormat_opening (m : InsertMatch) (s : Text) :
    parseFormat (m.opening ++ s) = (parseFormat s).map (m.opening.map some ++ ·) := by
  rw [← parseFormat_escapeBrace, escapeBrace_of_noBrace m.noBrace_opening]

theorem noBrace_light (hclosing : NoBrace m.closing) (hwhole : m.Whole) :
    ∀ light ∈ m.light, NoBrace light := by
  intro light hmem
  rw [Whole] at hwhole
  split_ifs at hwhole with hhigh
  · rw [closing, if_pos hhigh, noBrace_append, lightParam_eq, hmem] at hclosing
    exact (noBrace_cons.mp hclosing.1).2
  · rw [hwhole.1] at hmem
    cases hmem

theorem length_front_add_back (m : InsertMatch) :
    m.front.length + m.back.length = m.opening.length + (m.text1.getD []).length +
      ((m.text2.getD []).length + m.closing.length) := by
  rw [front, back, List.length_append, List.length_append]

theorem lits_used_of_empty (hm : m.Sane) (hexpr : m.expr = []) {r : Text}
    {ps : List (Option Char)} (h : parseFormat (m.used ++ r) = some ps) :
    ∃ qs rs, ps = qs ++ rs ∧ parseFormat r = some rs ∧ lits qs ≤ m.bare.length ∧
      (lits qs = m.bare.length → m.Whole ∧ m.Formats) := by
  obtain ⟨hbare, hwhole, -⟩ := length_bare hm
  rw [length_front_add_back] at hbare hwhole
  rw [used_of_empty hexpr, List.append_assoc, List.append_assoc, List.append_assoc,
    parseFormat_opening] at h
  obtain ⟨ps, hps, rfl⟩ := Option.map_eq_some_iff.mp h
  obtain ⟨qs1, ps, rfl, hps, hle1, hfree1⟩ := parseFormat_squeeze hps
  obtain ⟨qs2, ps, rfl, hps, hle2, hfree2⟩ := parseFormat_squeeze hps
  obtain ⟨qs3, rs, rfl, hrs, hle3, hnone⟩ :=
    parseFormat_closing m.dropHoles_closing_eq_nil_or hps
  obtain ⟨hdrop, hfree3⟩ := length_dropHoles m.closing
  refine ⟨m.opening.map some ++ (qs1 ++ (qs2 ++ qs3)), rs, ?_, hrs, ?_, fun heq => ?_⟩
  · simp only [List.append_assoc]
  all_goals simp only [lits_append, lits_map_some] at *
  · omega
  · -- none of the four parts is shorter than what it is read as
    have hw : m.Whole := hwhole.mp (by omega)
    have hclosing := hfree3 (by omega)
    rw [dropHoles_of_holeFree hclosing] at hnone hle3
    exact ⟨hw, noBrace_light (hnone (by omega)) hw,
      fun _ => ⟨hfree1 (by omega), hfree2 (by omega)⟩⟩

theorem lits_used_of_expr (hm : m.Sane) (hexpr : m.expr ≠ []) {r : Text}
    {ps : List (Option Char)} (h : parseFormat (m.used ++ r) = some ps) :
    ∃ qs rs, ps = qs ++ rs ∧ parseFormat r = some rs ∧ lits qs ≤ m.bare.length ∧
      (lits qs = m.bare.length → m.Whole ∧ m.Formats) := by
  obtain ⟨hbare, hwhole, -⟩ := length_bare hm
  rw [length_front_add_back] at hbare hwhole
  rw [used_of_expr hexpr, List.append_assoc, List.append_assoc, parseFormat_opening,
    parseFormat_escapeBrace, List.cons_append, List.cons_append, List.append_assoc] at h
  obtain ⟨ps1, h1, rfl⟩ := Option.map_eq_some_iff.mp h
  obtain ⟨ps2, h2, rfl⟩ := Option.map_eq_some_iff.mp h1
  replace h2 : (parseFormat (escapeBrace (m.text2.getD []) ++ (m.closing ++ r))).map
    (none :: ·) = some ps2 := h2
  rw [parseFormat_escapeBrace] at h2
  obtain ⟨ps3, h3, rfl⟩ := Option.map_eq_some_iff.mp h2
  obtain ⟨ps4, h4, rfl⟩ := Option.map_eq_some_iff.mp h3
  obtain ⟨qs, rs, rfl, hrs, hle, hnone⟩ := parseFormat_closing m.closing_eq_nil_or h4
  have hhole : lits (none :: ((m.text2.getD []).map some ++ qs)) =
      lits ((m.text2.getD []).map some ++ qs) := rfl
  refine ⟨m.opening.map some ++ ((m.text1.getD []).map some ++
    none :: ((m.text2.getD []).map some ++ qs)), rs, ?_, hrs, ?_, fun heq => ?_⟩
  · simp only [List.append_assoc, List.cons_append]
  all_goals simp only [lits_append, lits_map_some] at *
  · omega
  · have hw : m.Whole := hwhole.mp (by omega)
    exact ⟨hw, noBrace_light (hnone (by omega)) hw, fun h => absurd h hexpr⟩

/-- The literal characters that the format has for an insert are no more than what it is
read as, and are as many only if all of it is used and its texts are. -/
theorem lits_used (hm : m.Sane) {r : Text} {ps : List (Option Char)}
    (h : parseFormat (m.used ++ r) = some ps) :
    ∃ qs rs, ps = qs ++ rs ∧ parseFormat r = some rs ∧ lits qs ≤ m.bare.length ∧
      (lits qs = m.bare.length → m.Whole ∧ m.Formats) := by
  by_cases hexpr : m.expr = []
  · exact lits_used_of_empty hm hexpr h
  · exact lits_used_of_expr hm hexpr h

end InsertMatch

end T4P4S
