/-
Python's texts: string literals, `str.format` with `{}` as the only field, and
joined texts.

* **`fill_length`** — the length of a formatted text is the number of its literal
  characters and the lengths of the values that are used;
* **`parseFormat_append`** — a format string that is cut in front of a
  character that is no brace is parsed in two parts;
* **`join_injective`** — texts without a comma can be told from their join.
-/
import Mathlib.Algebra.BigOperators.Group.List.Basic
import Mathlib.Algebra.GroupWithZero.Nat
import Mathlib.Data.List.Basic
import Mathlib.Tactic.Common

namespace PyText

/-- A text, by its characters. -/
abbrev Text := List Char

/-! ### Formats -/

/-- The literal characters of a format string and, as `none`, its fields `{}`.  Single braces
are an error, and so are the fields with a name, a conversion or a specification. -/
def parseFormat : Text → Option (List (Option Char))
  | [] => some []
  | '{' :: '{' :: s => (parseFormat s).map (some '{' :: ·)
  | '{' :: '}' :: s => (parseFormat s).map (none :: ·)
  | '}' :: '}' :: s => (parseFormat s).map (some '}' :: ·)
  | c :: s => if c = '{' ∨ c = '}' then none else (parseFormat s).map (some c :: ·)

/-- The values take the fields' places in order; more values than fields are no error. -/
def fill : List (Option Char) → List Text → Option Text
  | [], _ => some []
  | some c :: ps, vs => (fill ps vs).map (c :: ·)
  | none :: _, [] => none
  | none :: ps, v :: vs => (fill ps vs).map (v ++ ·)

@[simp] theorem fill_some (c : Char) (ps : List (Option Char)) (vs : List Text) :
    fill (some c :: ps) vs = (fill ps vs).map (c :: ·) :=
  rfl

/-- `str.format` -/
def strFormat (fmt : Text) (values : List Text) : Option Text :=
  (parseFormat fmt).bind fun ps => fill ps values

/-- The number of literal characters. -/
def lits (ps : List (Option Char)) : ℕ := ps.countP Option.isSome

/-- The number of fields. -/
def holes (ps : List (Option Char)) : ℕ := ps.countP Option.isNone

@[simp] theorem lits_append (ps qs : List (Option Char)) : lits (ps ++ qs) = lits ps + lits qs :=
  List.countP_append

@[simp] theorem holes_append (ps qs : List (Option Char)) :
    holes (ps ++ qs) = holes ps + holes qs :=
  List.countP_append

@[simp] theorem lits_map_some (s : Text) : lits (s.map some) = s.length := by
  rw [lits, List.countP_map]
  exact List.countP_eq_length.mpr fun c _ => rfl

@[simp] theorem holes_map_some (s : Text) : holes (s.map some) = 0 := by
  rw [holes, List.countP_map, List.countP_eq_zero]
  exact fun c _ => Bool.false_ne_true

theorem fill_length {ps : List (Option Char)} {vs : List Text} {t : Text}
    (h : fill ps vs = some t) :
    holes ps ≤ vs.length ∧ t.length = lits ps + ((vs.take (holes ps)).map List.length).sum := by
  induction ps generalizing vs t with
  | nil =>
    obtain rfl := Option.some.inj h
    exact ⟨Nat.zero_le _, rfl⟩
  | cons p ps ih =>
    cases p with
    | some c =>
      obtain ⟨s, hs, rfl⟩ := Option.map_eq_some_iff.mp h
      obtain ⟨hle, hlength⟩ := ih hs
      have hholes : holes (some c :: ps) = holes ps := rfl
      have hlits : lits (some c :: ps) = lits ps + 1 := List.countP_cons_of_pos rfl
      rw [hholes, hlits, List.length_cons]
      exact ⟨hle, by omega⟩
    | none =>
      cases vs with
      | nil => cases h
      | cons v vs =>
        obtain ⟨s, hs, rfl⟩ := Option.map_eq_some_iff.mp h
        obtain ⟨hle, hlength⟩ := ih hs
        have hholes : holes (none :: ps) = holes ps + 1 := List.countP_cons_of_pos rfl
        have hlits : lits (none :: ps) = lits ps := rfl
        rw [hholes, hlits, List.take_succ_cons, List.map_cons, List.sum_cons, List.length_cons,
          List.length_append]
        exact ⟨Nat.succ_le_succ hle, by omega⟩

/-- Literal characters are taken as they are. -/
theorem fill_map_some (s : Text) (ps : List (Option Char)) (vs : List Text) :
    fill (s.map some ++ ps) vs = (fill ps vs).map (s ++ ·) := by
  induction s with
  | nil => exact Option.map_id'.symm
  | cons c s ih =>
    rw [List.map_cons, List.cons_append, fill_some, ih, Option.map_map]
    rfl

theorem fill_of_map_some (s : Text) (vs : List Text) : fill (s.map some) vs = some s := by
  have hfill := fill_map_some s [] vs
  rw [List.append_nil] at hfill
  rw [hfill]
  exact congrArg some (List.append_nil s)

/-! ### Parts of a format -/

/-- A character that is not the first one of a pair of braces. -/
theorem parseFormat_unpaired {c : Char} {s : Text} (hopen : c = '{' → s.head? ≠ some '{')
    (hhole : c = '{' → s.head? ≠ some '}') (hclose : c = '}' → s.head? ≠ some '}') :
    parseFormat (c :: s) =
      if c = '{' ∨ c = '}' then none else (parseFormat s).map (some c :: ·) := by
  rw [parseFormat]
  · rintro t h rfl
    exact hopen h rfl
  · rintro t h rfl
    exact hhole h rfl
  · rintro t h rfl
    exact hclose h rfl

theorem parseFormat_cons {c : Char} (hopen : c ≠ '{') (hclose : c ≠ '}') (s : Text) :
    parseFormat (c :: s) = (parseFormat s).map (some c :: ·) := by
  rw [parseFormat_unpaired (absurd · hopen) (absurd · hopen) (absurd · hclose)]
  exact if_neg (not_or.mpr ⟨hopen, hclose⟩)

/-- A brace without its partner. -/
theorem parseFormat_single {c : Char} {s : Text} (hc : c = '{' ∨ c = '}')
    (hpair : c = '{' → s.head? ≠ some '{') (hclose : s.head? ≠ some '}') :
    parseFormat (c :: s) = none := by
  rw [parseFormat_unpaired hpair (fun _ => hclose) fun _ => hclose]
  exact if_pos hc

theorem parseFormat_open (s : Text) :
    parseFormat ('{' :: '{' :: s) = (parseFormat s).map (some '{' :: ·) := rfl

theorem parseFormat_hole (s : Text) :
    parseFormat ('{' :: '}' :: s) = (parseFormat s).map (none :: ·) := rfl

theorem parseFormat_close (s : Text) :
    parseFormat ('}' :: '}' :: s) = (parseFormat s).map (some '}' :: ·) := rfl

theorem bind_append_cons {α : Type*} (p : α) (o q : Option (List α)) :
    (o.bind fun ps => q.map (ps ++ ·)).map (p :: ·) =
      (o.map (p :: ·)).bind fun ps => q.map (ps ++ ·) := by
  cases o with
  | none => rfl
  | some ps => exact Option.map_map _ _ q

theorem parseFormat_append {c : Char} (hopen : c ≠ '{') (hclose : c ≠ '}') (s r : Text) :
    parseFormat (s ++ c :: r) =
      (parseFormat s).bind fun ps => (parseFormat (c :: r)).map (ps ++ ·) := by
  induction s using parseFormat.induct with
  | case1 => exact Option.map_id'.symm
  | case2 s ih =>
    rw [List.cons_append, List.cons_append, parseFormat_open, parseFormat_open, ih,
      bind_append_cons]
  | case3 s ih =>
    rw [List.cons_append, List.cons_append, parseFormat_hole, parseFormat_hole, ih,
      bind_append_cons]
  | case4 s ih =>
    rw [List.cons_append, List.cons_append, parseFormat_close, parseFormat_close, ih,
      bind_append_cons]
  | case5 d s hopens hhole hcloses hbrace =>
    have hhead : (s ++ c :: r).head? ≠ some '}' ∧ (d = '{' → (s ++ c :: r).head? ≠ some '{') := by
      cases s with
      | nil => exact ⟨fun h => hclose (Option.some.inj h), fun _ h => hopen (Option.some.inj h)⟩
      | cons x s =>
        constructor
        · intro h
          obtain rfl := Option.some.inj h
          exact hbrace.elim (fun hd => hhole s hd rfl) fun hd => hcloses s hd rfl
        · intro hd h
          obtain rfl := Option.some.inj h
          exact hopens s hd rfl
    rw [List.cons_append, parseFormat_single hbrace hhead.2 hhead.1, parseFormat,
      if_pos hbrace]
    · rfl
    all_goals assumption
  | case6 d s hopens hhole hcloses hbrace ih =>
    obtain ⟨hd, hd'⟩ := not_or.mp hbrace
    rw [List.cons_append, parseFormat_cons hd hd', parseFormat_cons hd hd', ih, bind_append_cons]

/-- A format that ends in a character that is no brace. -/
theorem parseFormat_concat_append {c : Char} (hopen : c ≠ '{') (hclose : c ≠ '}') (s r : Text) :
    parseFormat (s ++ [c] ++ r) =
      (parseFormat (s ++ [c])).bind fun ps => (parseFormat r).map (ps ++ ·) := by
  rw [List.append_assoc, List.singleton_append, parseFormat_append hopen hclose,
    parseFormat_append hopen hclose, parseFormat_cons hopen hclose, parseFormat_cons hopen hclose]
  cases parseFormat s with
  | none => rfl
  | some ps =>
    show ((parseFormat r).map _).map _ = (parseFormat r).map _
    rw [Option.map_map]
    congr 1
    funext qs
    exact List.append_cons ps (some c) qs

/-- A brace is more than one character of the format, or none of the text. -/
theorem lits_le_length {s : Text} {ps : List (Option Char)} (h : parseFormat s = some ps) :
    lits ps ≤ s.length ∧ (lits ps = s.length → '{' ∉ s ∧ '}' ∉ s) := by
  induction s using parseFormat.induct generalizing ps with
  | case1 =>
    obtain rfl := Option.some.inj h
    exact ⟨Nat.le_refl 0, fun _ => ⟨List.not_mem_nil, List.not_mem_nil⟩⟩
  | case2 s ih | case4 s ih =>
    obtain ⟨qs, hqs, rfl⟩ := Option.map_eq_some_iff.mp h
    have hle := (ih hqs).1
    rw [lits, List.countP_cons_of_pos rfl, ← lits]
    simp only [List.length_cons]
    exact ⟨by omega, fun heq => by omega⟩
  | case3 s ih =>
    rw [parseFormat_hole] at h
    obtain ⟨qs, hqs, rfl⟩ := Option.map_eq_some_iff.mp h
    have hle := (ih hqs).1
    rw [lits, List.countP_cons_of_neg Bool.false_ne_true, ← lits]
    simp only [List.length_cons]
    exact ⟨by omega, fun heq => by omega⟩
  | case5 c s hopens hhole hcloses hbrace =>
    rw [parseFormat, if_pos hbrace] at h
    · cases h
    all_goals assumption
  | case6 c s hopens hhole hcloses hbrace ih =>
    obtain ⟨hopen, hclose⟩ := not_or.mp hbrace
    rw [parseFormat_cons hopen hclose] at h
    obtain ⟨qs, hqs, rfl⟩ := Option.map_eq_some_iff.mp h
    obtain ⟨hle, hnone⟩ := ih hqs
    rw [lits, List.countP_cons_of_pos rfl, ← lits, List.length_cons]
    refine ⟨Nat.succ_le_succ hle, fun heq => ?_⟩
    obtain ⟨hno, hno'⟩ := hnone (Nat.succ.inj heq)
    rw [List.mem_cons, List.mem_cons, not_or, not_or]
    exact ⟨⟨Ne.symm hopen, hno⟩, Ne.symm hclose, hno'⟩

/-! ### String literals -/

/-- The value of a string literal whose opening quote has been read, and what is behind its
closing quote.  The only escapes are those of the backslash and of the quotes. -/
def stringLiteral (quote : Char) : Text → Option (Text × Text)
  | [] => none
  | '\\' :: c :: s =>
    if c = '\\' ∨ c = '\'' ∨ c = '"' then
      (stringLiteral quote s).map fun p => (c :: p.1, p.2)
    else
      none
  | c :: s =>
    if c = quote then some ([], s) else (stringLiteral quote s).map fun p => (c :: p.1, p.2)

theorem stringLiteral_of_ne {c : Char} (hslash : c ≠ '\\') (quote : Char) (s : Text) :
    stringLiteral quote (c :: s) =
      if c = quote then some ([], s)
      else (stringLiteral quote s).map fun p => (c :: p.1, p.2) := by
  rw [stringLiteral]
  exact fun d t h => absurd h hslash

theorem stringLiteral_cons {quote c : Char} (hslash : c ≠ '\\') (hquote : c ≠ quote) (s : Text) :
    stringLiteral quote (c :: s) = (stringLiteral quote s).map fun p => (c :: p.1, p.2) :=
  (stringLiteral_of_ne hslash quote s).trans (if_neg hquote)

theorem stringLiteral_escaped {c : Char} (hc : c = '\\' ∨ c = '\'' ∨ c = '"') (quote : Char)
    (s : Text) : stringLiteral quote ('\\' :: c :: s) =
      (stringLiteral quote s).map fun p => (c :: p.1, p.2) :=
  if_pos hc

theorem stringLiteral_quote {quote : Char} (hslash : quote ≠ '\\') (s : Text) :
    stringLiteral quote (quote :: s) = some ([], s) :=
  (stringLiteral_of_ne hslash quote s).trans (if_pos rfl)

/-! ### Joined texts -/

/-- Cut at one character of which there are as many in front of both cuts. -/
theorem append_cons_inj_of_count {α : Type*} [DecidableEq α] {c : α} {a b x y : List α}
    (hcount : a.count c = b.count c) (h : a ++ c :: x = b ++ c :: y) : a = b ∧ x = y := by
  induction a generalizing b with
  | nil =>
    cases b with
    | nil => exact ⟨rfl, (List.cons.inj h).2⟩
    | cons d b =>
      obtain ⟨rfl, -⟩ := List.cons.inj h
      rw [List.count_nil, List.count_cons_self] at hcount
      cases hcount
  | cons d a ih =>
    cases b with
    | nil =>
      obtain ⟨rfl, -⟩ := List.cons.inj h
      rw [List.count_nil, List.count_cons_self] at hcount
      cases hcount
    | cons e b =>
      obtain ⟨rfl, htail⟩ := List.cons.inj h
      rw [List.count_cons, List.count_cons, Nat.add_right_cancel_iff] at hcount
      obtain ⟨rfl, hrest⟩ := ih hcount htail
      exact ⟨rfl, hrest⟩

/-- Texts that do not have the separator's first character can be told from their join. -/
theorem join_injective {c : Char} {sep : Text} {es fs : List Text} (hes : ∀ e ∈ es, c ∉ e)
    (hfs : ∀ f ∈ fs, c ∉ f) (hne : es ≠ []) (hnf : fs ≠ [])
    (h : (c :: sep).intercalate es = (c :: sep).intercalate fs) : es = fs := by
  induction es generalizing fs with
  | nil => exact absurd rfl hne
  | cons e es ih =>
    obtain ⟨f, fs, rfl⟩ := List.exists_cons_of_ne_nil hnf
    obtain ⟨he, hes'⟩ := List.forall_mem_cons.mp hes
    obtain ⟨hf, hfs'⟩ := List.forall_mem_cons.mp hfs
    cases es with
    | nil =>
      cases fs with
      | nil => rw [List.intercalate_singleton, List.intercalate_singleton] at h; rw [h]
      | cons f' fs =>
        rw [List.intercalate_singleton, List.intercalate_cons_cons] at h
        exact absurd (by rw [h]; simp) he
    | cons e' es =>
      cases fs with
      | nil =>
        rw [List.intercalate_singleton, List.intercalate_cons_cons] at h
        exact absurd (by rw [← h]; simp) hf
      | cons f' fs =>
        rw [List.intercalate_cons_cons, List.intercalate_cons_cons, List.append_assoc,
          List.append_assoc] at h
        obtain ⟨rfl, htail⟩ := append_cons_inj_of_count
          ((List.count_eq_zero.mpr he).trans (List.count_eq_zero.mpr hf).symm) h
        have hrest : e' :: es = f' :: fs :=
          ih hes' hfs' (List.cons_ne_nil e' es) (List.cons_ne_nil f' fs)
            (List.append_cancel_left htail)
        rw [hrest]

end PyText
