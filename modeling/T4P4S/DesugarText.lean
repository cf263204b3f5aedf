/-
The text of a template line is kept by its translation.

* **`desugar_iff`** — in all environments the expression of a line has the line's
  text with the inserts replaced by their values as its value, iff the line is
  `Preserved`: every insert is of a documented form, with nothing of it ignored; if
  some insert has an expression, then no expression has a brace and each is one
  argument of a call; and if no insert has one, then there is no brace in the
  text.
-/
import Mathlib.Data.List.Perm.Basic
import T4P4S.DesugarFormat

open PyText

namespace T4P4S

variable {G : ArgGrammar}

/-! ### The condition -/

/-- The text of a line whose inserts have no expressions. -/
def bareText (first : Text) (ms : List (InsertMatch × Text)) : Text :=
  first ++ ms.flatMap fun p => p.1.bare ++ p.2

/-- The line's text is the expression's. -/
def Preserved (G : ArgGrammar) (content : Text) : Prop :=
  ∃ ms, lineMatches (splitInserts content).2 = some ms ∧
    if ∃ p ∈ ms, p.1.expr ≠ [] then
      ∀ p ∈ ms, p.1.Fits G
    else
      ms = [] ∨
      (NoBrace (splitInserts content).1 ∧ ∀ p ∈ ms, p.1.Unformatted ∧ NoBrace p.2) ∨
      -- What is doubled may make up for what is ignored.
      (∃ p ∈ ms, ¬ p.1.Whole) ∧ lineFmt (splitInserts content).1 ms =
        bareText (splitInserts content).1 ms

/-! ### The text of a line -/

/-- What is read of a line behind the first text. -/
def readMatches (ms : List (InsertMatch × Text)) : List LinePiece :=
  ms.flatMap fun p => p.1.read ++ [.chars p.2]

theorem readLine_eq {content : Text} {ms : List (InsertMatch × Text)}
    (h : lineMatches (splitInserts content).2 = some ms) :
    readLine content = .chars (splitInserts content).1 :: readMatches ms := by
  rw [readLine]
  congr 1
  generalize (splitInserts content).2 = inserts at h
  induction inserts generalizing ms with
  | nil =>
    obtain rfl := Option.some.inj h
    rfl
  | cons p inserts ih =>
    obtain ⟨m, rest, rfl, hm, hrest⟩ := lineMatches_cons h
    rw [List.flatMap_cons, ih hrest, readInsert_of_match hm]
    rfl

theorem lineText_append (env : PyEnv G) (ps qs : List LinePiece) :
    lineText env (ps ++ qs) =
      (lineText env ps).bind fun s => (lineText env qs).map (s ++ ·) := by
  induction ps with
  | nil => exact Option.map_id'.symm
  | cons p ps ih =>
    rw [List.cons_append, lineText, lineText, ih]
    cases p.value env with
    | none => rfl
    | some s =>
      cases lineText env ps with
      | none => rfl
      | some t =>
        cases lineText env qs with
        | none => rfl
        | some u => exact congrArg some (List.append_assoc s t u).symm

theorem lineText_readMatches_cons (env : PyEnv G) (m : InsertMatch) (txt : Text)
    (ms : List (InsertMatch × Text)) :
    lineText env (readMatches ((m, txt) :: ms)) =
      (lineText env m.read).bind fun s =>
        (lineText env (readMatches ms)).map fun t => s ++ (txt ++ t) := by
  rw [readMatches, List.flatMap_cons, ← readMatches, List.append_assoc, lineText_append]
  congr 1
  funext s
  show (lineText env (.chars txt :: readMatches ms)).map _ = _
  rw [lineText]
  cases lineText env (readMatches ms) with
  | none => rfl
  | some t => rfl

/-! ### Lines that are formatted -/

section Formatted

variable {ms : List (InsertMatch × Text)}

/-- The format behind the first text. -/
def tailFmt (ms : List (InsertMatch × Text)) : Text :=
  ms.flatMap fun p => p.1.used ++ escapeBrace p.2

/-- The text behind the first one, if all values are empty. -/
def tailBare (ms : List (InsertMatch × Text)) : Text := ms.flatMap fun p => p.1.bare ++ p.2

/-- The format behind the first text, parsed. -/
def tailSkeleton (ms : List (InsertMatch × Text)) : List (Option Char) :=
  ms.flatMap fun p => p.1.skeleton ++ p.2.map some

theorem tailFmt_cons (p : InsertMatch × Text) (ms : List (InsertMatch × Text)) :
    tailFmt (p :: ms) = p.1.used ++ (escapeBrace p.2 ++ tailFmt ms) :=
  List.append_assoc _ _ _

theorem tailBare_cons (p : InsertMatch × Text) (ms : List (InsertMatch × Text)) :
    tailBare (p :: ms) = p.1.bare ++ (p.2 ++ tailBare ms) :=
  List.append_assoc _ _ _

theorem tailSkeleton_cons (p : InsertMatch × Text) (ms : List (InsertMatch × Text)) :
    tailSkeleton (p :: ms) = p.1.skeleton ++ (p.2.map some ++ tailSkeleton ms) :=
  List.append_assoc _ _ _

theorem lits_tailFmt (hsane : ∀ p ∈ ms, p.1.Sane) {r : Text} {ps : List (Option Char)}
    (h : parseFormat (tailFmt ms ++ r) = some ps) :
    ∃ qs rs, ps = qs ++ rs ∧ parseFormat r = some rs ∧ lits qs ≤ (tailBare ms).length ∧
      (lits qs = (tailBare ms).length → ∀ p ∈ ms, p.1.Whole ∧ p.1.Formats) := by
  induction ms generalizing ps with
  | nil => exact ⟨[], ps, rfl, h, Nat.le_refl 0, fun _ p hp => absurd hp List.not_mem_nil⟩
  | cons p ms ih =>
    obtain ⟨hp, hms⟩ := List.forall_mem_cons.mp hsane
    rw [tailFmt_cons, List.append_assoc, List.append_assoc] at h
    obtain ⟨qs1, ps1, rfl, h1, hle1, hwhole⟩ := InsertMatch.lits_used hp h
    rw [parseFormat_escapeBrace] at h1
    obtain ⟨ps2, h2, rfl⟩ := Option.map_eq_some_iff.mp h1
    obtain ⟨qs2, rs, rfl, hrs, hle2, hwholes⟩ := ih hms h2
    have hlength : (tailBare (p :: ms)).length =
        p.1.bare.length + p.2.length + (tailBare ms).length := by
      rw [tailBare_cons, List.length_append, List.length_append, Nat.add_assoc]
    refine ⟨qs1 ++ (p.2.map some ++ qs2), rs, ?_, hrs, ?_, fun heq => ?_⟩
    · simp only [List.append_assoc]
    all_goals simp only [lits_append, lits_map_some] at *
    · omega
    · exact List.forall_mem_cons.mpr ⟨hwhole (by omega), hwholes (by omega)⟩

theorem parseFormat_tailFmt (h : ∀ p ∈ ms, p.1.Formats) (r : Text) :
    parseFormat (tailFmt ms ++ r) = (parseFormat r).map (tailSkeleton ms ++ ·) := by
  induction ms with
  | nil => exact Option.map_id'.symm
  | cons p ms ih =>
    obtain ⟨hp, hms⟩ := List.forall_mem_cons.mp h
    rw [tailFmt_cons, List.append_assoc, List.append_assoc, InsertMatch.parseFormat_used hp,
      parseFormat_escapeBrace, ih hms, Option.map_map, Option.map_map, tailSkeleton_cons]
    congr 1
    funext ps
    simp only [Function.comp_apply, List.append_assoc]

theorem lineExprs_cons (p : InsertMatch × Text) (ms : List (InsertMatch × Text)) :
    lineExprs (p :: ms) = (if p.1.expr = [] then [] else [p.1.expr]) ++ lineExprs ms := by
  rw [lineExprs, List.map_cons, List.filter_cons, ← lineExprs]
  by_cases hexpr : p.1.expr = []
  · rw [if_pos hexpr, if_neg (by simp [hexpr])]
    rfl
  · rw [if_neg hexpr, if_pos (by simp [hexpr])]
    rfl

theorem holes_tailSkeleton (ms : List (InsertMatch × Text)) :
    holes (tailSkeleton ms) = (lineExprs ms).length := by
  induction ms with
  | nil => rfl
  | cons p ms ih =>
    rw [tailSkeleton_cons, lineExprs_cons, InsertMatch.skeleton]
    simp only [holes_append, holes_map_some, List.length_append, ih, Nat.zero_add, Nat.add_zero]
    congr 1
    split_ifs <;> rfl

theorem lits_tailSkeleton (hsane : ∀ p ∈ ms, p.1.Sane) (h : ∀ p ∈ ms, p.1.Whole) :
    lits (tailSkeleton ms) = (tailBare ms).length := by
  induction ms with
  | nil => rfl
  | cons p ms ih =>
    obtain ⟨hp, hms⟩ := List.forall_mem_cons.mp h
    obtain ⟨hsanep, hsanes⟩ := List.forall_mem_cons.mp hsane
    have hbare := ((InsertMatch.length_bare hsanep).2.1).mpr hp
    have hhole : lits (if p.1.expr = [] then [] else [none]) = 0 := by split_ifs <;> rfl
    rw [tailSkeleton_cons, tailBare_cons, InsertMatch.skeleton]
    simp only [lits_append, lits_map_some, List.length_append, ih hsanes hms, hhole]
    omega

/-- The fields take the values of the line's expressions. -/
theorem fill_tailSkeleton (hsane : ∀ p ∈ ms, p.1.Sane) (h : ∀ p ∈ ms, p.1.Whole) {env : PyEnv G}
    {text : Text} (htext : lineText env (readMatches ms) = some text) :
    ∃ vals, (lineExprs ms).mapM env.value = some vals ∧
      ∀ qs ws, fill (tailSkeleton ms ++ qs) (vals ++ ws) = (fill qs ws).map (text ++ ·) := by
  induction ms generalizing text with
  | nil =>
    obtain rfl := Option.some.inj htext
    exact ⟨[], rfl, fun qs ws => Option.map_id'.symm⟩
  | cons p ms ih =>
    obtain ⟨hp, hms⟩ := List.forall_mem_cons.mp h
    obtain ⟨hsanep, hsanes⟩ := List.forall_mem_cons.mp hsane
    rw [lineText_readMatches_cons, hp.lineText_read hsanep] at htext
    obtain ⟨s, hs, htext⟩ := Option.bind_eq_some_iff.mp htext
    obtain ⟨v, hv, rfl⟩ := Option.map_eq_some_iff.mp hs
    obtain ⟨t, ht, rfl⟩ := Option.map_eq_some_iff.mp htext
    obtain ⟨vals, hvals, hfill⟩ := ih hsanes hms ht
    rw [lineExprs_cons, tailSkeleton_cons, InsertMatch.skeleton]
    by_cases hexpr : p.1.expr = []
    · rw [if_pos hexpr] at hv ⊢
      rw [if_pos hexpr]
      obtain rfl := Option.some.inj hv
      refine ⟨vals, hvals, fun qs ws => ?_⟩
      simp only [List.append_assoc, List.nil_append, fill_map_some, hfill, Option.map_map]
      rfl
    · rw [if_neg hexpr] at hv ⊢
      rw [if_neg hexpr]
      refine ⟨v :: vals, ?_, fun qs ws => ?_⟩
      · rw [List.singleton_append, List.mapM_cons, hv, hvals]
        rfl
      · simp only [List.append_assoc, List.cons_append, List.nil_append, fill_map_some, fill, hfill,
          Option.map_map]
        rfl

end Formatted

/-! ### Environments -/

/-- The environment in which the expressions have the given values. -/
noncomputable def PyEnv.ofValue (G : ArgGrammar) (v : Text → Text) : PyEnv G where
  value e := some (v e)
  arguments args :=
    open Classical in
    if h : ∃ es : List Text, es ≠ [] ∧ (∀ e ∈ es, G.single e) ∧
        ", ".toList.intercalate es = args then
      some (h.choose.map v)
    else
      none
  arguments_join {es} hne hes := by
    have h : ∃ fs : List Text, fs ≠ [] ∧ (∀ f ∈ fs, G.single f) ∧
        ", ".toList.intercalate fs = ", ".toList.intercalate es := ⟨es, hne, hes, rfl⟩
    rw [dif_pos h, G.join_injective h.choose_spec.1 hne h.choose_spec.2.1 hes h.choose_spec.2.2]
    clear h hne hes
    induction es with
    | nil => rfl
    | cons e es ih =>
      rw [List.mapM_cons, ← ih]
      rfl

theorem PyEnv.ofValue_arguments {args : Text} {v₀ : Text → Text} {vs : List Text}
    (h : (PyEnv.ofValue G v₀).arguments args = some vs) :
    ∃ es : List Text, es ≠ [] ∧ (∀ e ∈ es, G.single e) ∧ ", ".toList.intercalate es = args ∧
      ∀ v, (PyEnv.ofValue G v).arguments args = some (es.map v) := by
  rw [PyEnv.ofValue] at h
  dsimp only at h
  split_ifs at h with hes
  refine ⟨hes.choose, hes.choose_spec.1, hes.choose_spec.2.1, hes.choose_spec.2.2, fun v => ?_⟩
  rw [PyEnv.ofValue]
  exact dif_pos hes

/-- The line of a `#[` marker. -/
def LineInfo.unmarked : LineInfo where
  noHint := true
  maybePre := none
  filePrefix := []
  plain _ hc := absurd hc List.not_mem_nil
  lineIdx := 0

section Formatted

variable {content : Text} {ms : List (InsertMatch × Text)}

theorem lineText_readLine (h : lineMatches (splitInserts content).2 = some ms) (env : PyEnv G) :
    lineText env (readLine content) =
      (lineText env (readMatches ms)).map ((splitInserts content).1 ++ ·) := by
  rw [readLine_eq h, lineText]
  show (lineText env (readMatches ms)).bind _ = _
  cases lineText env (readMatches ms) with
  | none => rfl
  | some t => rfl

theorem hintText_of_matches (h : lineMatches (splitInserts content).2 = some ms) (hne : ms ≠ [])
    (line : LineInfo) : hintText line content = line.extraContent := by
  refine if_neg fun hnil => hne ?_
  rw [hnil] at h
  exact (Option.some.inj h).symm

/-- The text of a line, by length. -/
theorem length_lineText (hsane : ∀ p ∈ ms, p.1.Sane) (h : ∀ p ∈ ms, p.1.Whole) (v : Text → Text) :
    ∃ text, lineText (PyEnv.ofValue G v) (readMatches ms) = some text ∧
      text.length = (tailBare ms).length + ((lineExprs ms).map fun e => (v e).length).sum := by
  induction ms with
  | nil => exact ⟨[], rfl, rfl⟩
  | cons p ms ih =>
    obtain ⟨hp, hms⟩ := List.forall_mem_cons.mp h
    obtain ⟨hsanep, hsanes⟩ := List.forall_mem_cons.mp hsane
    obtain ⟨text, htext, hlength⟩ := ih hsanes hms
    have hbare := ((InsertMatch.length_bare hsanep).2.1).mpr hp
    rw [lineText_readMatches_cons, hp.lineText_read hsanep, htext, lineExprs_cons, tailBare_cons]
    by_cases hexpr : p.1.expr = []
    · rw [if_pos hexpr, if_pos hexpr]
      refine ⟨_, rfl, ?_⟩
      simp only [List.length_append, List.length_nil, List.nil_append]
      omega
    · rw [if_neg hexpr, if_neg hexpr]
      refine ⟨_, rfl, ?_⟩
      simp only [List.length_append, List.singleton_append, List.map_cons, List.sum_cons]
      omega

/-- If all values are empty, the text is what is read of the line less the fields. -/
theorem lineText_bare {env : PyEnv G}
    (h : ∀ p ∈ ms, p.1.expr = [] ∨ env.value p.1.expr = some []) :
    lineText env (readMatches ms) = some (tailBare ms) := by
  induction ms with
  | nil => rfl
  | cons p ms ih =>
    obtain ⟨hp, hms⟩ := List.forall_mem_cons.mp h
    have hread : lineText env p.1.read = some p.1.bare := by
      have hvalue : (if p.1.expr = [] then some [] else env.value p.1.expr) = some [] := by
        split_ifs with hexpr
        · rfl
        · exact hp.resolve_left hexpr
      rw [InsertMatch.bare, InsertMatch.read]
      split_ifs
      · rw [lineText, LinePiece.value]
        dsimp only
        rw [hvalue]
        rfl
      · rw [lineText, LinePiece.value]
        dsimp only
        rw [hvalue]
        rfl
      · rfl
    rw [lineText_readMatches_cons, hread, ih hms, tailBare_cons]
    rfl

/-- With some expression, the law holds of the lines whose inserts fit. -/
theorem desugarLaw_of_fits (hms : lineMatches (splitInserts content).2 = some ms)
    (hexprs : lineExprs ms ≠ []) (h : ∀ p ∈ ms, p.1.Fits G) : DesugarLaw G content := by
  intro line env text htext
  have hne : ms ≠ [] := by
    rintro rfl
    exact hexprs rfl
  have hsane := lineMatches_sane hms
  rw [lineText_readLine hms] at htext
  obtain ⟨tail, htail, rfl⟩ := Option.map_eq_some_iff.mp htext
  obtain ⟨vals, hvals, hfill⟩ := fill_tailSkeleton hsane (fun p hp => (h p hp).1) htail
  obtain ⟨code, hcode, hvalue⟩ := evaluate_splitAndTranslate hms hne line env
  refine ⟨code, hcode, ?_⟩
  have hsingle : ∀ e ∈ lineExprs ms, NoBrace e ∧ G.single e := by
    intro e he
    obtain ⟨hne, p, hp, rfl⟩ := mem_lineExprs.mp he
    have hfits := (h p hp).2.2
    rwa [if_neg hne] at hfits
  have hescape : (lineExprs ms).map escapeBrace = lineExprs ms := by
    rw [List.map_congr_left fun e he => escapeBrace_of_noBrace (hsingle e he).1, List.map_id']
  have hformats : ∀ p ∈ ms, p.1.Formats := by
    refine fun p hp => ⟨(h p hp).2.1, fun hexpr => ?_⟩
    have hfits := (h p hp).2.2
    rwa [if_pos hexpr] at hfits
  have hextra : NoBrace line.extraContent :=
    ⟨fun hmem => (line.plain_extraContent _ hmem).2.1 rfl,
      fun hmem => (line.plain_extraContent _ hmem).2.2 rfl⟩
  have hparse : parseFormat (lineFmt (splitInserts content).1 ms ++ line.extraContent) =
      some ((splitInserts content).1.map some ++
        (tailSkeleton ms ++ line.extraContent.map some)) := by
    rw [lineFmt, ← tailFmt, List.append_assoc, parseFormat_escapeBrace,
      parseFormat_tailFmt hformats,
      parseFormat_of_noBrace hextra]
    rfl
  rw [hvalue, if_neg hexprs, hescape, env.arguments_join hexprs fun e he => (hsingle e he).2, hvals,
    Option.bind_some, strFormat, hparse, Option.bind_some, fill_map_some, ← List.append_nil vals,
    hfill, fill_of_map_some, hintText_of_matches hms hne]
  exact congrArg some (List.append_assoc _ _ _).symm

/-- What the law says of a line without a hint. -/
theorem DesugarLaw.value_eq (h : DesugarLaw G content)
    (hms : lineMatches (splitInserts content).2 = some ms) (hne : ms ≠ []) {env : PyEnv G}
    {text : Text} (htext : lineText env (readLine content) = some text) :
    (if lineExprs ms = [] then
      some (lineFmt (splitInserts content).1 ms)
    else
      (env.arguments (", ".toList.intercalate ((lineExprs ms).map escapeBrace))).bind
        (strFormat (lineFmt (splitInserts content).1 ms))) = some text := by
  obtain ⟨code, hcode, hvalue⟩ := h LineInfo.unmarked env text htext
  obtain ⟨code', hcode', hvalue'⟩ := evaluate_splitAndTranslate hms hne LineInfo.unmarked env
  rw [hcode] at hcode'
  obtain ⟨-, rfl⟩ := Prod.mk.inj (Option.some.inj hcode')
  have hextra : LineInfo.unmarked.extraContent = [] := rfl
  rw [hvalue, hintText_of_matches hms hne, hextra, List.append_nil, List.append_nil] at hvalue'
  exact hvalue'.symm

theorem DesugarLaw.strFormat_eq (h : DesugarLaw G content)
    (hms : lineMatches (splitInserts content).2 = some ms) (hexprs : lineExprs ms ≠ [])
    {v : Text → Text} {tail : Text}
    (htail : lineText (PyEnv.ofValue G v) (readMatches ms) = some tail) :
    ((PyEnv.ofValue G v).arguments
        (", ".toList.intercalate ((lineExprs ms).map escapeBrace))).bind
      (strFormat (lineFmt (splitInserts content).1 ms)) =
        some ((splitInserts content).1 ++ tail) := by
  have hne : ms ≠ [] := by
    rintro rfl
    exact hexprs rfl
  have htext : lineText (PyEnv.ofValue G v) (readLine content) =
      some ((splitInserts content).1 ++ tail) := by
    rw [lineText_readLine hms, htail]
    rfl
  have hvalue := h.value_eq hms hne htext
  rw [if_neg hexprs] at hvalue
  exact hvalue

/-- As many of each text, and as long in all: the escaped expressions are the expressions. -/
theorem noBrace_of_perm {es : List Text} (h : (es.map escapeBrace).Perm es) :
    ∀ e ∈ es, NoBrace e := by
  have hsum := (h.map List.length).sum_eq
  rw [List.map_map] at hsum
  have hall : ∀ fs : List Text,
      ((fs.map (List.length ∘ escapeBrace)).sum = (fs.map List.length).sum →
        ∀ f ∈ fs, NoBrace f) ∧
      (fs.map List.length).sum ≤ (fs.map (List.length ∘ escapeBrace)).sum := by
    intro fs
    induction fs with
    | nil => exact ⟨fun _ f hf => absurd hf List.not_mem_nil, le_rfl⟩
    | cons f fs ih =>
      obtain ⟨hle, hiff⟩ := length_escapeBrace f
      simp only [List.map_cons, List.sum_cons, Function.comp_apply]
      refine ⟨fun heq => List.forall_mem_cons.mpr ⟨hiff.mp ?_, ih.1 ?_⟩, ?_⟩
      all_goals
        have hrest := ih.2
        omega
  exact (hall es).1 hsum

/-- With empty values, the text is as long as its literal characters are many. -/
theorem whole_of_fill (hsane : ∀ p ∈ ms, p.1.Sane) {first : Text} {ps : List (Option Char)}
    {vs : List Text} (hps : parseFormat (lineFmt first ms) = some ps) (hvs : ∀ v ∈ vs, v = [])
    (h : fill ps vs = some (first ++ tailBare ms)) : ∀ p ∈ ms, p.1.Whole ∧ p.1.Formats := by
  have hzero : ((vs.take (holes ps)).map List.length).sum = 0 := by
    refine List.sum_eq_zero fun n hn => ?_
    obtain ⟨v, hv, rfl⟩ := List.mem_map.mp hn
    rw [hvs v (List.mem_of_mem_take hv)]
    rfl
  have hlength := (fill_length h).2
  rw [lineFmt, ← tailFmt, parseFormat_escapeBrace] at hps
  obtain ⟨qs, hqs, rfl⟩ := Option.map_eq_some_iff.mp hps
  rw [← List.append_nil (tailFmt ms)] at hqs
  obtain ⟨qs, rs, rfl, hrs, -, hgood⟩ := lits_tailFmt hsane hqs
  obtain rfl := Option.some.inj hrs
  refine hgood ?_
  rw [hzero, lits_append, lits_append, lits_map_some, List.length_append] at hlength
  have hnil : lits [] = 0 := rfl
  omega

theorem parseFormat_lineFmt (h : ∀ p ∈ ms, p.1.Formats) (first : Text) :
    parseFormat (lineFmt first ms) = some (first.map some ++ tailSkeleton ms) := by
  rw [lineFmt, ← tailFmt, parseFormat_escapeBrace, ← List.append_nil (tailFmt ms),
    parseFormat_tailFmt h]
  exact congrArg some (congrArg _ (List.append_nil _))

/-- The length of a value is one for one text, and zero for all others. -/
theorem sum_length_indicator (x : Text) (es : List Text) :
    (es.map fun e => (if e = x then [' '] else [] : Text).length).sum = es.count x := by
  induction es with
  | nil => rfl
  | cons e es ih =>
    rw [List.map_cons, List.sum_cons, ih, List.count_cons]
    by_cases he : e = x
    · rw [if_pos he, if_pos (beq_iff_eq.mpr he)]
      exact Nat.add_comm _ _
    · rw [if_neg he, if_neg (fun h => he (beq_iff_eq.mp h))]
      exact Nat.zero_add _

/-- The arguments that are used are the expressions, up to their order. -/
theorem perm_of_fill (hsane : ∀ p ∈ ms, p.1.Sane) (hwhole : ∀ p ∈ ms, p.1.Whole) {first : Text}
    {es : List Text} (h : ∀ v tail, lineText (PyEnv.ofValue G v) (readMatches ms) = some tail →
      fill (first.map some ++ tailSkeleton ms) (es.map v) = some (first ++ tail)) :
    (es.take (lineExprs ms).length).Perm (lineExprs ms) := by
  have hholes : holes (first.map some ++ tailSkeleton ms) = (lineExprs ms).length := by
    rw [holes_append, holes_map_some, holes_tailSkeleton, Nat.zero_add]
  have hlits : lits (first.map some ++ tailSkeleton ms) = first.length + (tailBare ms).length := by
    rw [lits_append, lits_map_some, lits_tailSkeleton hsane hwhole]
  rw [List.perm_iff_count]
  intro x
  obtain ⟨tail, htail, hlength⟩ := length_lineText (G := G) hsane hwhole
    fun e => if e = x then [' '] else []
  have hfilled := (fill_length (h _ _ htail)).2
  rw [sum_length_indicator] at hlength
  rw [hholes, hlits, ← List.map_take, List.map_map, List.length_append, hlength,
    show (List.length ∘ fun e : Text => if e = x then [' '] else []) =
      fun e => (if e = x then [' '] else [] : Text).length from rfl,
    sum_length_indicator] at hfilled
  omega

theorem fits_of_desugarLaw (hms : lineMatches (splitInserts content).2 = some ms)
    (hexprs : lineExprs ms ≠ []) (h : DesugarLaw G content) : ∀ p ∈ ms, p.1.Fits G := by
  have hsane := lineMatches_sane hms
  have hbare : lineText (PyEnv.ofValue G fun _ => []) (readMatches ms) = some (tailBare ms) :=
    lineText_bare fun p _ => .inr rfl
  obtain ⟨vs, hvs, hformat⟩ := Option.bind_eq_some_iff.mp (h.strFormat_eq hms hexprs hbare)
  obtain ⟨ps, hps, -⟩ := Option.bind_eq_some_iff.mp hformat
  -- The arguments of the call are the same expressions in all environments.
  obtain ⟨es, hes, hsingle, hjoin, hargs⟩ := PyEnv.ofValue_arguments hvs
  have hfill : ∀ v tail, lineText (PyEnv.ofValue G v) (readMatches ms) = some tail →
      fill ps (es.map v) = some ((splitInserts content).1 ++ tail) := by
    intro v tail htail
    have hfill := h.strFormat_eq hms hexprs htail
    rw [hargs v, Option.bind_some, strFormat, hps] at hfill
    exact hfill
  have hempty : ∀ v ∈ es.map fun _ => ([] : Text), v = [] := by
    intro v hv
    obtain ⟨e, -, rfl⟩ := List.mem_map.mp hv
    rfl
  have hgood := whole_of_fill hsane hps hempty (hfill _ _ hbare)
  obtain rfl : (splitInserts content).1.map some ++ tailSkeleton ms = ps :=
    Option.some.inj ((parseFormat_lineFmt (fun p hp => (hgood p hp).2) _).symm.trans hps)
  have hperm := perm_of_fill hsane (fun p hp => (hgood p hp).1) hfill
  have hsingles : ∀ e ∈ lineExprs ms, G.single e := fun e he =>
    hsingle e (List.mem_of_mem_take (hperm.mem_iff.mpr he))
  have hescaped : (lineExprs ms).map escapeBrace = es := by
    refine G.join_injective (fun hnil => hexprs (List.map_eq_nil_iff.mp hnil)) hes ?_ hsingle
      hjoin.symm
    intro f hf
    obtain ⟨e, he, rfl⟩ := List.mem_map.mp hf
    exact G.single_escapeBrace (hsingles e he)
  rw [← hescaped, List.take_of_length_le (by rw [List.length_map])] at hperm
  have hbraces := noBrace_of_perm hperm
  intro p hp
  obtain ⟨hwhole, hlight, htexts⟩ := hgood p hp
  refine ⟨hwhole, hlight, ?_⟩
  split_ifs with hexpr
  · exact htexts hexpr
  · have hmem : p.1.expr ∈ lineExprs ms := mem_lineExprs.mpr ⟨hexpr, p, hp, rfl⟩
    exact ⟨hbraces _ hmem, hsingles _ hmem⟩

end Formatted

/-! ### Lines that are not formatted -/

/-- A text that differs from another by additional braces only. -/
structure Grows (s t : Text) : Prop where
  length_le : t.length ≤ s.length
  count_eq : ∀ c, c ≠ '{' → c ≠ '}' → s.count c = t.count c

namespace Grows

theorem refl (s : Text) : Grows s s := ⟨le_rfl, fun _ _ _ => rfl⟩

theorem append {s t s' t' : Text} (h : Grows s t) (h' : Grows s' t') :
    Grows (s ++ s') (t ++ t') := by
  refine ⟨?_, fun c hopen hclose => ?_⟩
  · rw [List.length_append, List.length_append]
    exact Nat.add_le_add h.length_le h'.length_le
  · rw [List.count_append, List.count_append, h.count_eq c hopen hclose, h'.count_eq c hopen hclose]

theorem count_braces {c d : Char} (hd : d = '{' ∨ d = '}') (hopen : c ≠ '{') (hclose : c ≠ '}')
    (s : Text) : (d :: s).count c = s.count c := by
  refine List.count_cons_of_ne ?_
  rintro rfl
  exact hd.elim hopen hclose

theorem escapeBrace (s : Text) : Grows (T4P4S.escapeBrace s) s := by
  refine ⟨(length_escapeBrace s).1, fun c hopen hclose => ?_⟩
  induction s with
  | nil => rfl
  | cons d s ih =>
    rw [T4P4S.escapeBrace, List.flatMap_cons, ← T4P4S.escapeBrace]
    split_ifs with hd
    · show (d :: d :: T4P4S.escapeBrace s).count c = _
      rw [count_braces hd hopen hclose, count_braces hd hopen hclose, ih,
        count_braces hd hopen hclose]
    · show (d :: T4P4S.escapeBrace s).count c = _
      rw [List.count_cons, List.count_cons, ih]

theorem squeeze (s : Text) : Grows (T4P4S.squeeze s) s := by
  refine ⟨(length_squeeze s).1, fun c hopen hclose => ?_⟩
  induction s using T4P4S.squeeze.induct with
  | case1 s ih =>
    show ('{' :: '}' :: T4P4S.squeeze s).count c = ('{' :: '}' :: s).count c
    rw [List.count_cons, List.count_cons, ih, ← List.count_cons, ← List.count_cons]
  | case2 d s hhole ih =>
    rw [squeeze_cons (head_ne_of_cons hhole)]
    split_ifs with hd
    · show (d :: d :: T4P4S.squeeze s).count c = _
      rw [count_braces hd hopen hclose, count_braces hd hopen hclose, ih,
        count_braces hd hopen hclose]
    · show (d :: T4P4S.squeeze s).count c = _
      rw [List.count_cons, List.count_cons, ih]
  | case3 => rfl

end Grows

theorem count_dropHoles {c : Char} (hopen : c ≠ '{') (hclose : c ≠ '}') (s : Text) :
    (dropHoles s).count c = s.count c := by
  induction s using dropHoles.induct with
  | case1 s ih =>
    rw [Grows.count_braces (.inl rfl) hopen hclose, Grows.count_braces (.inr rfl) hopen hclose,
      ← ih]
    rfl
  | case2 d s hhole ih =>
    rw [dropHoles_cons (head_ne_of_cons hhole), List.count_cons, List.count_cons, ih]
  | case3 => rfl

namespace InsertMatch

variable {m : InsertMatch}

/-- An insert without an expression, that is used as a whole. -/
theorem used_of_paired (hexpr : m.expr = []) (htext1 : Paired (m.text1.getD []))
    (htext2 : Paired (m.text2.getD [])) (hlight : ∀ light ∈ m.light, HoleFree light) :
    m.used = m.front ++ m.back := by
  have hclosing : dropHoles m.closing = m.closing := by
    rw [dropHoles_closing, closing, lightParam]
    split_ifs
    · split
      · rename_i light hlight'
        rw [dropHoles_cons fun h => absurd h (by decide), dropHoles_of_holeFree (hlight _ hlight')]
      · rfl
    · rfl
  rw [used_of_empty hexpr, (length_squeeze _).2.2 htext1, (length_squeeze _).2.2 htext2, hclosing,
    front, back, List.append_assoc]

theorem closing_of_light {light : Text} (hhigh : m.highlighted = true)
    (hlight : m.light = some light) : m.closing = ',' :: (light ++ t4litClose) := by
  rw [closing, if_pos hhigh, lightParam, hlight]
  rfl

theorem closing_of_none (hlight : m.light = none) : dropHoles m.closing = m.closing := by
  rw [dropHoles_closing, closing, lightParam, hlight]
  split_ifs
  · rfl
  · rfl

end InsertMatch

section Unformatted

variable {ms : List (InsertMatch × Text)}

/-- Behind texts that differ in braces only, the rest of a line is its own text only if there is
no brace that is doubled, and none that is missing. -/
theorem unformatted_of_eq (hwhole : ∀ p ∈ ms, p.1.Sane ∧ p.1.Whole ∧ p.1.expr = []) {s t : Text}
    (hgrows : Grows s t) (h : s ++ tailFmt ms = t ++ tailBare ms) :
    s.length = t.length ∧ ∀ p ∈ ms, p.1.Unformatted ∧ NoBrace p.2 := by
  induction ms generalizing s t with
  | nil =>
    refine ⟨?_, fun p hp => absurd hp List.not_mem_nil⟩
    have hlength := congrArg List.length h
    rw [List.length_append, List.length_append] at hlength
    exact hlength
  | cons p ms ih =>
    obtain ⟨⟨hsane, hp, hexpr⟩, hms⟩ := List.forall_mem_cons.mp hwhole
    have hfront : Grows (s ++ (p.1.opening ++ (squeeze (p.1.text1.getD []) ++
        squeeze (p.1.text2.getD [])))) (t ++ (p.1.opening ++ (p.1.text1.getD [] ++
          p.1.text2.getD []))) :=
      hgrows.append ((Grows.refl _).append ((Grows.squeeze _).append (Grows.squeeze _)))
    have hparts := (length_squeeze (p.1.text1.getD [])).2.1
    have hparts' := (length_squeeze (p.1.text2.getD [])).2.1
    have hle := (length_squeeze (p.1.text1.getD [])).1
    have hle' := (length_squeeze (p.1.text2.getD [])).1
    obtain ⟨hescape, hnone⟩ := length_escapeBrace p.2
    have hgrow := hgrows.length_le
    rw [tailFmt_cons, tailBare_cons, InsertMatch.used_of_empty hexpr,
      (InsertMatch.length_bare hsane).2.2 hp, InsertMatch.front, InsertMatch.back] at h
    cases hlight : p.1.light with
    | none =>
      rw [InsertMatch.closing_of_none hlight] at h
      have hnext := ih hms (hfront.append ((Grows.refl p.1.closing).append (Grows.escapeBrace p.2)))
        (by simpa only [List.append_assoc] using h)
      obtain ⟨hlength, hrest⟩ := hnext
      simp only [List.length_append] at hlength
      refine ⟨by omega, List.forall_mem_cons.mpr ⟨⟨⟨hp, ?_, ?_, ?_⟩, ?_⟩, hrest⟩⟩
      · exact hparts.mp (by omega)
      · exact hparts'.mp (by omega)
      · rw [hlight]
        exact fun light hmem => absurd hmem (Option.not_mem_none light)
      · exact hnone.mp (by omega)
    | some light =>
      have hhigh : p.1.highlighted = true := by
        by_contra hnot
        rw [InsertMatch.Whole, if_neg hnot, hlight] at hp
        cases hp.1
      -- The colour is between a comma and a bracket of the same number on both sides.
      rw [InsertMatch.dropHoles_closing, if_pos hhigh, InsertMatch.lightParam, hlight,
        InsertMatch.closing_of_light hhigh hlight] at h
      dsimp only at h
      rw [dropHoles_cons fun h => absurd h (by decide)] at h
      have hclose : ∀ s, t4litClose ++ s = ')' :: ([' ', '"'] ++ s) := fun s => rfl
      have hcut : s ++ (p.1.opening ++ (squeeze (p.1.text1.getD []) ++
          squeeze (p.1.text2.getD []))) ++ ',' :: (dropHoles light ++
            ')' :: ([' ', '"'] ++ escapeBrace p.2 ++ tailFmt ms)) =
          t ++ (p.1.opening ++ (p.1.text1.getD [] ++ p.1.text2.getD [])) ++ ',' :: (light ++
            ')' :: ([' ', '"'] ++ p.2 ++ tailBare ms)) := by
        simpa only [List.append_assoc, List.cons_append, hclose] using h
      obtain ⟨hfronts, hcut⟩ := append_cons_inj_of_count
        (hfront.count_eq ',' (by decide) (by decide)) hcut
      obtain ⟨hdrop, hcut⟩ := append_cons_inj_of_count
        (count_dropHoles (by decide) (by decide) light) hcut
      obtain ⟨hlength, hrest⟩ :=
        ih hms ((Grows.refl [' ', '"']).append (Grows.escapeBrace p.2)) hcut
      have hlengths := congrArg List.length hfronts
      simp only [List.length_append] at hlength hlengths
      refine ⟨by omega, List.forall_mem_cons.mpr ⟨⟨⟨hp, ?_, ?_, ?_⟩, ?_⟩, hrest⟩⟩
      · exact hparts.mp (by omega)
      · exact hparts'.mp (by omega)
      · intro light' hmem
        rw [hlight] at hmem
        obtain rfl := Option.some.inj hmem
        exact (length_dropHoles light).2 (congrArg List.length hdrop)
      · exact hnone.mp (by omega)

theorem tailFmt_of_unformatted (hexpr : ∀ p ∈ ms, p.1.Sane ∧ p.1.expr = [])
    (h : ∀ p ∈ ms, p.1.Unformatted ∧ NoBrace p.2) : tailFmt ms = tailBare ms := by
  induction ms with
  | nil => rfl
  | cons p ms ih =>
    obtain ⟨⟨hsane, hp⟩, hms⟩ := List.forall_mem_cons.mp hexpr
    obtain ⟨⟨⟨hwhole, htext1, htext2, hlight⟩, hnone⟩, hrest⟩ := List.forall_mem_cons.mp h
    rw [tailFmt_cons, tailBare_cons, InsertMatch.used_of_paired hp htext1 htext2 hlight,
      escapeBrace_of_noBrace hnone, ih hms hrest, (InsertMatch.length_bare hsane).2.2 hwhole]

/-- If all of the inserts are used, the text of a line without expressions is the expression's
iff there are no braces to be doubled. -/
theorem lineFmt_eq_bareText_iff (hwhole : ∀ p ∈ ms, p.1.Sane ∧ p.1.Whole ∧ p.1.expr = [])
    (first : Text) : lineFmt first ms = bareText first ms ↔
      NoBrace first ∧ ∀ p ∈ ms, p.1.Unformatted ∧ NoBrace p.2 := by
  constructor
  · intro h
    obtain ⟨hlength, hrest⟩ := unformatted_of_eq hwhole (Grows.escapeBrace first) h
    exact ⟨(length_escapeBrace first).2.mp hlength, hrest⟩
  · rintro ⟨hfirst, hrest⟩
    have htail := tailFmt_of_unformatted (fun p hp => ⟨(hwhole p hp).1, (hwhole p hp).2.2⟩) hrest
    show escapeBrace first ++ tailFmt ms = first ++ tailBare ms
    rw [escapeBrace_of_noBrace hfirst, htail]

variable {content : Text}

/-- Without an expression, the law is about the text alone. -/
theorem desugarLaw_iff_of_empty (hms : lineMatches (splitInserts content).2 = some ms)
    (hne : ms ≠ []) (hexprs : lineExprs ms = []) : DesugarLaw G content ↔
      lineFmt (splitInserts content).1 ms = bareText (splitInserts content).1 ms := by
  have hempty : ∀ p ∈ ms, p.1.expr = [] := by
    intro p hp
    by_contra hexpr
    have hmem := mem_lineExprs.mpr ⟨hexpr, p, hp, rfl⟩
    rw [hexprs] at hmem
    exact List.not_mem_nil hmem
  have htext : ∀ env : PyEnv G, lineText env (readLine content) =
      some (bareText (splitInserts content).1 ms) := by
    intro env
    rw [lineText_readLine hms, lineText_bare fun p hp => .inl (hempty p hp)]
    rfl
  constructor
  · intro h
    have hvalue := h.value_eq hms hne (htext (PyEnv.ofValue G fun _ => []))
    rw [if_pos hexprs] at hvalue
    exact Option.some.inj hvalue
  · intro heq line env text h
    obtain ⟨code, hcode, hvalue⟩ := evaluate_splitAndTranslate hms hne line env
    rw [htext] at h
    obtain rfl := Option.some.inj h
    rw [if_pos hexprs, heq] at hvalue
    rw [hintText_of_matches hms hne]
    exact ⟨code, hcode, hvalue⟩

end Unformatted

/-- A line without inserts. -/
theorem desugarLaw_of_nil {content : Text} (h : (splitInserts content).2 = []) :
    DesugarLaw G content := by
  intro line env text htext
  refine ⟨'"' :: escapeSlash (splitInserts content).1 ++ ['"'], ?_, ?_⟩
  · rw [splitAndTranslate, translateLineMainContent2, if_pos h,
      if_neg fun hquote => Bool.false_ne_true hquote.1]
  · have hliteral : stringLiteral '"' (escapeSlash (splitInserts content).1 ++ [] ++ ['"']) =
        some ((splitInserts content).1 ++ [], []) :=
      stringLiteral_escapeSlash _ ⟨List.not_mem_nil, List.not_mem_nil⟩ []
    rw [List.append_nil (escapeSlash _)] at hliteral
    rw [readLine, h] at htext
    obtain rfl := Option.some.inj htext
    rw [hintText, if_pos h, List.append_nil]
    exact evaluate_literal env (.inr rfl) hliteral

/-- Where all expressions have values, so has every line. -/
theorem exists_lineText (v : Text → Text) (ps : List LinePiece) :
    ∃ text, lineText (PyEnv.ofValue G v) ps = some text := by
  induction ps with
  | nil => exact ⟨[], rfl⟩
  | cons p ps ih =>
    obtain ⟨text, htext⟩ := ih
    have hvalue : ∃ s, p.value (PyEnv.ofValue G v) = some s := by
      cases p with
      | chars s => exact ⟨s, rfl⟩
      | insert i =>
        rw [LinePiece.value]
        split_ifs
        · exact ⟨_, rfl⟩
        · exact ⟨_, rfl⟩
    obtain ⟨s, hs⟩ := hvalue
    rw [lineText, hs, htext]
    exact ⟨_, rfl⟩

theorem preserved_iff {content : Text} {ms : List (InsertMatch × Text)}
    (hms : lineMatches (splitInserts content).2 = some ms) :
    Preserved G content ↔
      if ∃ p ∈ ms, p.1.expr ≠ [] then
        ∀ p ∈ ms, p.1.Fits G
      else
        ms = [] ∨
        (NoBrace (splitInserts content).1 ∧ ∀ p ∈ ms, p.1.Unformatted ∧ NoBrace p.2) ∨
        (∃ p ∈ ms, ¬ p.1.Whole) ∧ lineFmt (splitInserts content).1 ms =
          bareText (splitInserts content).1 ms := by
  refine ⟨?_, fun h => ⟨ms, hms, h⟩⟩
  rintro ⟨ms', hms', h⟩
  rw [hms] at hms'
  obtain rfl := Option.some.inj hms'
  exact h

/-- **In all environments a line's expression has the line's text as its value just if the line
is `Preserved`.** -/
theorem desugar_iff (G : ArgGrammar) (content : Text) :
    DesugarLaw G content ↔ Preserved G content := by
  cases hms : lineMatches (splitInserts content).2 with
  | none =>
    -- One of the inserts has no match.
    refine iff_of_false (fun h => ?_) ?_
    · obtain ⟨text, htext⟩ := exists_lineText (G := G) (fun _ => []) (readLine content)
      obtain ⟨code, hcode, -⟩ := h LineInfo.unmarked _ text htext
      rw [splitAndTranslate_eq_none hms] at hcode
      cases hcode
    · rintro ⟨ms, hms', -⟩
      rw [hms] at hms'
      cases hms'
  | some ms =>
    have hsane := lineMatches_sane hms
    rw [preserved_iff hms]
    split_ifs with hexpr
    · have hexprs : lineExprs ms ≠ [] := by
        obtain ⟨p, hp, hne⟩ := hexpr
        exact List.ne_nil_of_mem (mem_lineExprs.mpr ⟨hne, p, hp, rfl⟩)
      exact ⟨fits_of_desugarLaw hms hexprs, desugarLaw_of_fits hms hexprs⟩
    · push Not at hexpr
      by_cases hnil : ms = []
      · refine iff_of_true (desugarLaw_of_nil ?_) (.inl hnil)
        cases htokens : (splitInserts content).2 with
        | nil => rfl
        | cons p inserts =>
          rw [htokens] at hms
          obtain ⟨m, rest, hcons, -⟩ := lineMatches_cons hms
          rw [hnil] at hcons
          cases hcons
      have hexprs : lineExprs ms = [] := by
        rw [List.eq_nil_iff_forall_not_mem]
        intro e he
        obtain ⟨hne, p, hp, rfl⟩ := mem_lineExprs.mp he
        exact hne (hexpr p hp)
      rw [desugarLaw_iff_of_empty hms hnil hexprs]
      by_cases hwhole : ∀ p ∈ ms, p.1.Whole
      · rw [lineFmt_eq_bareText_iff fun p hp => ⟨hsane p hp, hwhole p hp, hexpr p hp⟩]
        refine ⟨fun h => .inr (.inl h), ?_⟩
        rintro (h | h | ⟨⟨p, hp, hnot⟩, -⟩)
        · exact absurd h hnil
        · exact h
        · exact absurd (hwhole p hp) hnot
      · refine ⟨fun h => .inr (.inr ⟨by push Not at hwhole; exact hwhole, h⟩), ?_⟩
        rintro (h | ⟨-, h⟩ | ⟨-, h⟩)
        · exact absurd h hnil
        · exact absurd (fun p hp => (h p hp).1.1) hwhole
        · exact h

/-- A grammar in which no expression has a comma. -/
def commaFree : ArgGrammar where
  single e := ',' ∉ e
  join_injective hes hfs hsingle hsingle' h := join_injective hsingle hsingle' hes hfs h
  single_escapeBrace {e} h hmem := by
    obtain ⟨c, hc, hmem⟩ := List.mem_flatMap.mp hmem
    split_ifs at hmem
    · simp only [List.mem_cons, List.not_mem_nil, or_false, or_self] at hmem
      exact h (hmem ▸ hc)
    · rw [List.mem_singleton] at hmem
      exact h (hmem ▸ hc)

/-- A brace is doubled in front of an insert without an expression. -/
theorem not_desugar_brace : ¬ ∀ content, DesugarLaw commaFree content := by
  intro h
  have hms : lineMatches (splitInserts ['{', ' ', '$', '{', '}']).2 =
      some [(⟨['$', '{', '}'], false, none, none, [], none, []⟩, [])] := by decide +kernel
  have hlaw := (desugarLaw_iff_of_empty hms (List.cons_ne_nil _ _) rfl).mp (h _)
  revert hlaw
  decide +kernel

end T4P4S
