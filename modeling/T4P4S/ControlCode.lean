/-
The code of the body of a control and of an action: the meaning of statements over
`bit<w>` and `int<w>`, and of the C that is generated for them.

* **`stages_scoped_iff`**, **`action_scoped_iff`** — all temporaries are declared iff no
  `if` of a nested block comes after a statement with temporaries;
* **`assigns_localVar`**, **`assigns_field`**, **`field_holds`** — the assignments that are
  taken here give a local or a field the whole value of the source, and the other fields keep
  theirs;
* **`stages_correct`**, **`action_correct`** — the stages of a control, and the code of an
  action, do what P4 says if moreover no temporary is evaluated before a statement that
  changes what it reads, and the operators are used where C computes what P4 says;
* **`nested_block_simultaneous`** — of the assignments in a branch whose sources are all in
  temporaries, each one reads what was there before the branch.
-/
import T4P4S.Locals
import T4P4S.Statements

open CInt

namespace T4P4S

abbrev TypedExpr := (t : BitsType) × P4Expr t

/-! ### Variables and fields -/

/-- Where a variable of P4 is: in a field of a header, in `local_vars` or in `parameters`. -/
inductive Place
  | field (header : ℕ)
  | localVar
  | parameter
  deriving DecidableEq

/-- The values of all variables and fields, and the headers that are valid. -/
structure CtlState where
  vars : Vars
  valid : ℕ → Bool

/-- The places of the variables, and what is read from a field of an invalid header.  Fields have
a type `bit<w>`. -/
structure FieldInfo where
  place : CVar → Place
  unspecified : Vars
  unsigned : ∀ x h, place x = .field h → x.1.isSigned = false

namespace FieldInfo

variable (I : FieldInfo)

/-- A field whose header is not valid. -/
def invalid (s : CtlState) (x : CVar) : Bool :=
  match I.place x with
  | .field h => !s.valid h
  | _ => false

/-- What is read: `GET32_def`, or a variable of C. -/
def view (s : CtlState) : Vars := fun t x =>
  if I.invalid s (t, x) then I.unspecified t x else s.vars t x

/-- The assignment to a field of an invalid header is ignored. -/
def write (x : CVar) (v : ℤ) (s : CtlState) : CtlState :=
  if I.invalid s x then s
  else { s with vars := fun t y => if (t, y) = x then ⟨t.wrap v, t.wrap_inRange v⟩ else s.vars t y }

theorem invalid_write (x y : CVar) (v : ℤ) (s : CtlState) :
    I.invalid (I.write x v s) y = I.invalid s y := by
  unfold write
  split <;> rfl

theorem view_write {x y : CVar} {v : ℤ} {s : CtlState} (h : y ≠ x) :
    (I.view (I.write x v s)).toC y = (I.view s).toC y := by
  unfold Vars.toC view
  rw [invalid_write, write]
  split
  · rfl
  · congr 1
    split
    · rfl
    · exact if_neg h

end FieldInfo

/-! ### Expressions -/

namespace P4Expr

/-- The variable, if the expression is one. -/
def asVar : {t : BitsType} → P4Expr t → Option CVar
  | t, var x => some (t, x)
  | _, _ => none

def vars : {t : BitsType} → P4Expr t → List CVar
  | _, const _ _ _ => []
  | t, var x => [(t, x)]
  | _, neg e => vars e
  | _, cmpl e => vars e
  | _, bin _ l r => vars l ++ vars r
  | _, shl l r _ => vars l ++ vars r
  | _, shr l r _ => vars l ++ vars r
  | _, concat l r _ _ _ => vars l ++ vars r
  | _, cast e _ _ => vars e

theorem eq_var_of_asVar {t : BitsType} {e : P4Expr t} {x : CVar} (h : e.asVar = some x) :
    (⟨t, e⟩ : TypedExpr) = ⟨x.1, .var x.2⟩ := by
  cases e with
  | var y =>
    cases h
    rfl
  | _ => cases h

end P4Expr

/-- The C type of what `GET32_def` returns. -/
def uint32 : Storage := ⟨32, false, .inr (.inr rfl)⟩

namespace FieldInfo

variable (I : FieldInfo) (simple : Bool)

def isField (x : CVar) : Bool :=
  match I.place x with
  | .field _ => true
  | _ => false

/-- The C variable, or `GET32_def`. -/
def readVar (x : CVar) : CExpr := .var (if I.isField x then uint32 else x.1.storage) x

/-- `format_expr`.  The operands that are fields have at least 17 bits here: a variable of such
a type has the C type of `GET32_def`, as `genExpr` takes it. -/
def formatExpr (e : TypedExpr) : Option CExpr :=
  match e.2.asVar with
  | some x => some (I.readVar x)
  | none => if ∀ x ∈ e.2.vars, I.isField x → 16 < x.1.size then genExpr simple e.2 else none

/-- The C type of the formatted expression. -/
def exprType (e : TypedExpr) : CType :=
  match e.2.asVar with
  | some x => (I.readVar x).type
  | none => ctype simple e.2

/-! ### Assignments -/

/-- The node type of the expression. -/
def nodeType (e : TypedExpr) : NodeType :=
  match e.2 with
  | .const .. => .constant
  | .var x => if I.isField (e.1, x) then .member else .pathExpression
  | .neg _ => .operator .neg
  | .cmpl _ => .operator .cmpl
  | .bin .. => .operator .binaryOp
  | .shl .. => .operator .binaryOp
  | .shr .. => .operator .binaryOp
  | .concat .. => .operator .concat
  | .cast .. => .operator .cast

/-- All bytes of the variable of the local are copied. -/
def CopiesAll (t : BitsType) : Prop := ¬ (16 < t.size ∧ t.size ≤ 24)

instance (t : BitsType) : Decidable (CopiesAll t) := inferInstanceAs (Decidable (¬ _))

/-- The code that `gen_do_assignment` and `gen_format_statement_fieldref_short` make for the
assignment gives the destination the value: to a local, the variable is copied as a whole and the
source is a value, and from a local to a field no bytes are swapped. -/
def assignsValue (x : CVar) (e : TypedExpr) : Bool :=
  match I.place x, e.2.asVar.map I.place with
  | .localVar, _ => (I.nodeType e).isRefNode && CopiesAll x.1
  | .field _, some .localVar => x.1.size ≤ 8
  | .field _, some .parameter => CopiesAll x.1
  | .field _, _ => true
  | .parameter, _ => false

/-- `format_expr` with `needs_variable`: constants and fields are put into variables.  (For a
field, this is `GET32`, which needs a valid header.) -/
def formatVariable (e : TypedExpr) (c : CExpr) : CExpr :=
  match I.nodeType e with
  | .constant => .tmp { e.1.storage with isSigned := false } c
  | .member => .tmp e.1.storage c
  | _ => c

/-- What is assigned, cast to the type of the temporary that is copied or given to `set_fld`. -/
def assignSource (x : CVar) (e : TypedExpr) : Option CExpr :=
  if e.1 = x.1 ∧ I.assignsValue x e then
    (I.formatExpr simple e).map fun c =>
      .cast x.1.storage (if I.place x = .localVar then I.formatVariable e c else c)
  else none

/-- A field that is read by `GET32`, without a check of its header, has a valid one. -/
def SourceValid (s : CtlState) (x : CVar) (e : TypedExpr) : Prop :=
  I.place x = .localVar → I.nodeType e = .member → ∀ y ∈ e.2.vars, I.invalid s y = false

/-! ### Statements -/

/-- A statement with the C expressions for those that it contains. -/
def formatExprs {F T : Type} : {k : Kind} → Stmt TypedExpr CVar F T k →
    Option (Stmt CExpr CVar F T k)
  | _, .empty => some .empty
  | _, .seq a b => (formatExprs a).bind fun a' => (formatExprs b).map fun b' => .seq a' b'
  | _, .assignment x (.expr e) => (I.assignSource simple x e).map fun c => .assignment x (.expr c)
  | _, .assignment _ _ => none
  | _, .methodCall h => (h.traverse (I.formatExpr simple)).map .methodCall
  | _, .ifStatement h a b => (h.traverse (I.formatExpr simple)).bind fun h' =>
    (formatExprs a).bind fun a' => (formatExprs b).map fun b' => .ifStatement h' a' b'
  | _, .switchStatement h cs => (h.traverse (I.formatExpr simple)).bind fun h' =>
    (formatExprs cs).map fun cs' => .switchStatement h' cs'
  | _, .noCase => some .noCase
  | _, .case l a rest => (formatExprs a).bind fun a' =>
    (formatExprs rest).map fun rest' => .case l a' rest'
  | _, .default a => (formatExprs a).map .default

end FieldInfo

/-! ### What an assignment stores -/

section Stores

variable {width : ℕ → ℕ} {w : ℕ}

/-- A local gets the whole value of a source that is taken, if its variable is copied as a
whole. -/
theorem assigns_localVar (hw : 1 ≤ w ∧ w ≤ 32) (hcopied : ¬ (16 < w ∧ w ≤ 24)) {x : ℕ}
    {src : Source width w} {st : LocalsState} (hsrc : src.Supported)
    (hstored : src.stored st < 2 ^ w) :
    ∃ st', genDoAssignment x src st = some st' ∧ localWord w (st'.locals x) = src.stored st := by
  refine ⟨_, (genDoAssignment_eq_some hw).mpr ⟨hsrc, rfl⟩, ?_⟩
  show localWord w (Function.update st.locals x (storeLocal w (src.stored st) (st.locals x)) x) = _
  rw [Function.update_self]
  exact (localWord_storeLocal_iff hw hstored _).mpr ⟨rfl, fun h => absurd h hcopied⟩

/-- A field gets the whole value of a local of at most eight bits. -/
theorem assigns_field (hw : 1 ≤ w ∧ w ≤ 8) (g : FieldRef w) (valid : Bool) (junk x m : ℕ → Byte)
    {v : ℕ} (hv : v < 2 ^ w) :
    genFormatStatementFieldrefShort g valid junk (storeLocal w v x) m =
      if valid then g.set v m else m := by
  have hw' : 1 ≤ w ∧ w ≤ 32 := ⟨hw.1, hw.2.trans (by decide)⟩
  have hone : localBytes w = 1 := by
    have := localBytes_cases hw'
    omega
  have hword : localWord w (storeLocal w v junk) = v :=
    (localWord_storeLocal_iff hw' hv junk).mpr ⟨rfl, fun h => absurd h.1 (by omega)⟩
  rw [fieldrefShort_storeLocal hw', hword, hone]
  refine congrArg (fun u => if valid then g.set u m else m) ?_
  rw [ByteString.byteSwap_one]
  exact Nat.mod_eq_of_lt (hv.trans_le (Nat.pow_le_pow_right (by decide) hw.2))

/-- A field that is set has the value, and the fields apart from it have what they had. -/
theorem field_holds {g : FieldRef w} (hlaw : FieldLaw g.header g.hdesc g.fld) {v : ℕ}
    (hv : v < 2 ^ w) (m : ℕ → Byte) :
    g.get (g.set v m) = v ∧ ∀ fld', ShortField g.header fld' →
      FieldsApart g.header g.hdesc g.fld fld' →
        get32 g.header g.hdesc fld' (g.set v m) = get32 g.header g.hdesc fld' m := by
  have hw : w ≤ 32 := g.size_eq ▸ g.short.size_le
  have hword : v < 2 ^ 32 := hv.trans_le (Nat.pow_le_pow_right (by decide) hw)
  refine ⟨?_, fun fld' hfld' hapart => hlaw.other m _ fld' hfld' hapart⟩
  rw [FieldRef.get, FieldRef.set, hlaw.get_set, g.size_eq, BitVec.toNat_ofNat,
    Nat.mod_eq_of_lt hword]
  exact Nat.mod_eq_of_lt hv

end Stores

/-- The tables, actions, externs and built-in methods: what a call returns and does, and
the variables and fields that it may change. -/
structure Methods (I : FieldInfo) where
  call : ℕ → List ℤ → CtlState → ℤ × CtlState
  writes : ℕ → CVar → Bool
  frame : ∀ {f : ℕ} {args : List ℤ} {s : CtlState} {x : CVar}, writes f x = false →
    (I.view (call f args s).2).toC x = (I.view s).toC x

/-- The effects of the statements of a control.  A test is the validity of a header. -/
def Methods.effects {I : FieldInfo} (m : Methods I) : Effects CtlState CVar ℕ ℕ where
  read s := (I.view s).toC
  write := I.write
  call := m.call
  test h s := s.valid h
  writes := m.writes
  read_write := I.view_write
  read_call := m.frame

/-! ### Safe values -/

section Safe

variable {I : FieldInfo} (simple : Bool) (m : Methods I)

/-- What P4 says. -/
def p4Value (s : CtlState) (h : Head TypedExpr ℕ ℕ) : Option (ℤ × CtlState) :=
  h.exec m.effects (fun e => some (e.2.value (I.view s)))
    (fun c => some (c.value (m.effects.test · s) fun e => e.2.value (I.view s))) s

/-- Two values that C compares as P4 does: they are not negative, or values of the common
type. -/
def CmpSafe (I : FieldInfo) (env : Vars) (l r : TypedExpr) : Prop :=
  (0 ≤ l.2.value env ∧ 0 ≤ r.2.value env) ∨
    (((I.exprType simple l).join (I.exprType simple r)).InRange (l.2.value env) ∧
      ((I.exprType simple l).join (I.exprType simple r)).InRange (r.2.value env))

/-- All operators and comparisons are used where C computes what P4 says. -/
def HeadSafe (I : FieldInfo) (env : Vars) (h : Head TypedExpr ℕ ℕ) : Prop :=
  (∀ e ∈ h.exprs, e.2.All (NodeSafe simple env)) ∧
    ∀ c, h = .cond c → c.AllCmp (CmpSafe simple I env)

/-- The values of all expressions are safe when the statements are executed, and so are the
fields that are read without a check. -/
def StmtSafe : {k : Kind} → Stmt TypedExpr CVar ℕ ℕ k → ℤ → CtlState → Prop
  | _, .empty, _, _ => True
  | _, .seq a b, v, s => StmtSafe a v s ∧
    ∀ s', a.exec m.effects (p4Value m) v s = some s' → StmtSafe b v s'
  | _, .assignment x h, _, s => HeadSafe simple I (I.view s) h ∧
    ∀ e, h = .expr e → I.SourceValid s x e
  | _, .methodCall h, _, s => HeadSafe simple I (I.view s) h
  | _, .ifStatement h a b, v, s => HeadSafe simple I (I.view s) h ∧
    ∀ r, p4Value m s h = some r → if r.1 ≠ 0 then StmtSafe a v r.2 else StmtSafe b v r.2
  | _, .switchStatement h cs, _, s => HeadSafe simple I (I.view s) h ∧
    ∀ r, p4Value m s h = some r → StmtSafe cs r.1 r.2
  | _, .noCase, _, _ => True
  | _, .case l a rest, v, s => if v = l then StmtSafe a v s else StmtSafe rest v s
  | _, .default a, v, s => StmtSafe a v s

/-- A comparison of unsigned values is safe. -/
theorem cmpSafe_of_unsigned (env : Vars) {l r : TypedExpr} (hl : l.1.isSigned = false)
    (hr : r.1.isSigned = false) : CmpSafe simple I env l r :=
  .inl ⟨(inRange_of_unsigned hl (l.2.value_inRange env)).1,
    (inRange_of_unsigned hr (r.2.value_inRange env)).1⟩

/-- The C of a safe expression. -/
structure Fits (I : FieldInfo) (env : Vars) (e : TypedExpr) (c : CExpr) : Prop where
  initsOk : c.InitsOk env.toC
  eval : c.eval env.toC = some (e.2.value env)
  type : c.type = I.exprType simple e

/-- A variable or a field is read as it is. -/
theorem eval_readVar (env : Vars) (x : CVar) :
    (I.readVar x).eval env.toC = some (env x.1 x.2 : ℤ) := by
  have hrange : x.1.storage.InRange (env x.1 x.2) := (env x.1 x.2).2.storage
  rw [FieldInfo.readVar, Expr.eval]
  split
  · next hfield =>
    -- the number of a field has no more bits than the one that is returned
    have hunsigned : x.1.isSigned = false := by
      rw [FieldInfo.isField] at hfield
      split at hfield
      · next h hplace => exact I.unsigned x h hplace
      · exact absurd hfield Bool.false_ne_true
    have hrange' : uint32.InRange (env x.1 x.2) := by
      have h := (env x.1 x.2).2
      rw [BitsType.InRange, hunsigned] at h
      exact h.mono x.1.size_le
    exact congrArg some (Storage.conv_of_inRange hrange')
  · exact congrArg some (Storage.conv_of_inRange hrange)

theorem formatExpr_fits {env : Vars} {e : TypedExpr} {c : CExpr}
    (hc : I.formatExpr simple e = some c) (hsafe : e.2.All (NodeSafe simple env)) :
    Fits simple I env e c := by
  cases hvar : e.2.asVar with
  | some x =>
    obtain rfl : e = ⟨x.1, .var x.2⟩ := P4Expr.eq_var_of_asVar hvar
    rw [FieldInfo.formatExpr, hvar] at hc
    obtain rfl := Option.some.inj hc
    exact ⟨nofun, eval_readVar env x, rfl⟩
  | none =>
    simp only [FieldInfo.formatExpr, hvar] at hc
    obtain ⟨-, hc⟩ := Option.ite_none_right_eq_some.mp hc
    have hcorrect := (genExpr_correct_iff simple env e.2 (by rw [hc]; rfl)).1 hsafe c hc
    obtain ⟨hinits, heval⟩ := (Expr.run_eq_some env.toC).mp hcorrect
    refine ⟨hinits, heval, ?_⟩
    rw [FieldInfo.exprType, hvar]
    exact ctype_eq hc

/-- The comparison of C, on the values that it converts. -/
theorem cmp_fits {env : Vars} {l r : TypedExpr} {cl cr : CExpr} (hl : Fits simple I env l cl)
    (hr : Fits simple I env r cr) (hsafe : CmpSafe simple I env l r) :
    (cl.type.join cr.type).conv (l.2.value env) = l.2.value env ∧
      (cl.type.join cr.type).conv (r.2.value env) = r.2.value env := by
  have hlr := cl.eval_inRange env.toC hl.eval
  have hrr := cr.eval_inRange env.toC hr.eval
  rcases hsafe with ⟨hl0, hr0⟩ | ⟨hl', hr'⟩
  · exact ⟨CType.conv_of_inRange (.join_of_nonneg (.inl hlr) hl0),
      CType.conv_of_inRange (.join_of_nonneg (.inr hrr) hr0)⟩
  · rw [hl.type, hr.type]
    exact ⟨CType.conv_of_inRange hl', CType.conv_of_inRange hr'⟩

theorem cond_fits (test : ℕ → Bool) {env : Vars} {c : Cond TypedExpr ℕ} {c' : Cond CExpr ℕ}
    (hc : c.traverse (I.formatExpr simple) = some c')
    (hsafe : ∀ e ∈ c.exprs, e.2.All (NodeSafe simple env))
    (hcmp : c.AllCmp (CmpSafe simple I env)) :
    (∀ e ∈ c'.exprs, e.InitsOk env.toC) ∧
      c'.eval test env.toC = some (c.value test fun e => e.2.value env) := by
  induction c generalizing c' with
  | lit b =>
    cases hc
    exact ⟨nofun, rfl⟩
  | test t =>
    cases hc
    exact ⟨nofun, rfl⟩
  | cmp op l r =>
    obtain ⟨cl, hl, hc⟩ := Option.bind_eq_some_iff.mp hc
    obtain ⟨cr, hr, rfl⟩ := Option.map_eq_some_iff.mp hc
    have hfl := formatExpr_fits simple hl (hsafe l List.mem_cons_self)
    have hfr := formatExpr_fits simple hr (hsafe r (List.mem_cons_of_mem _ List.mem_cons_self))
    obtain ⟨hcl, hcr⟩ := cmp_fits simple hfl hfr hcmp
    refine ⟨?_, ?_⟩
    · intro e he
      rcases List.mem_pair.mp he with rfl | rfl
      · exact hfl.initsOk
      · exact hfr.initsOk
    · simp only [Cond.eval, hfl.eval, hfr.eval, Option.bind_some, Option.map_some, hcl, hcr,
        Cond.value]
  | not c ih =>
    obtain ⟨d, hd, rfl⟩ := Option.map_eq_some_iff.mp hc
    obtain ⟨hok, hval⟩ := ih hd hsafe hcmp
    exact ⟨hok, by simp only [Cond.eval, hval, Option.map_some, Cond.value]⟩
  | and c d ihc ihd =>
    obtain ⟨c', hc', hc⟩ := Option.bind_eq_some_iff.mp hc
    obtain ⟨d', hd', rfl⟩ := Option.map_eq_some_iff.mp hc
    obtain ⟨hsc, hsd⟩ := List.forall_mem_append.mp hsafe
    obtain ⟨hokc, hvalc⟩ := ihc hc' hsc hcmp.1
    obtain ⟨hokd, hvald⟩ := ihd hd' hsd hcmp.2
    refine ⟨List.forall_mem_append.mpr ⟨hokc, hokd⟩, ?_⟩
    simp only [Cond.eval, hvalc, hvald, Option.bind_some, Cond.value]
    cases c.value test fun e => e.2.value env <;> rfl
  | or c d ihc ihd =>
    obtain ⟨c', hc', hc⟩ := Option.bind_eq_some_iff.mp hc
    obtain ⟨d', hd', rfl⟩ := Option.map_eq_some_iff.mp hc
    obtain ⟨hsc, hsd⟩ := List.forall_mem_append.mp hsafe
    obtain ⟨hokc, hvalc⟩ := ihc hc' hsc hcmp.1
    obtain ⟨hokd, hvald⟩ := ihd hd' hsd hcmp.2
    refine ⟨List.forall_mem_append.mpr ⟨hokc, hokd⟩, ?_⟩
    simp only [Cond.eval, hvalc, hvald, Option.bind_some, Cond.value]
    cases c.value test fun e => e.2.value env <;> rfl

theorem args_fits {env : Vars} {args : List TypedExpr} {args' : List CExpr}
    (hargs : args.mapM (I.formatExpr simple) = some args')
    (hsafe : ∀ e ∈ args, e.2.All (NodeSafe simple env)) :
    (∀ e ∈ args', e.InitsOk env.toC) ∧
      args'.mapM (Expr.eval env.toC) = args.mapM fun e => some (e.2.value env) := by
  induction args generalizing args' with
  | nil =>
    cases hargs
    exact ⟨nofun, rfl⟩
  | cons e es ih =>
    rw [List.mapM_cons] at hargs
    obtain ⟨c, hc, hargs⟩ := Option.bind_eq_some_iff.mp hargs
    obtain ⟨cs, hcs, hargs⟩ := Option.bind_eq_some_iff.mp hargs
    cases hargs
    obtain ⟨he, hes⟩ := List.forall_mem_cons.mp hsafe
    have hfits := formatExpr_fits simple hc he
    obtain ⟨hok, hval⟩ := ih hcs hes
    refine ⟨List.forall_mem_cons.mpr ⟨hfits.initsOk, hok⟩, ?_⟩
    rw [List.mapM_cons, List.mapM_cons, hval, hfits.eval]

/-- **A safe value of P4 is the value of its C.** -/
theorem head_run {s : CtlState} {h : Head TypedExpr ℕ ℕ} {h' : Head CExpr ℕ ℕ}
    (hh : h.traverse (I.formatExpr simple) = some h') (hsafe : HeadSafe simple I (I.view s) h) :
    h'.run m.effects s = p4Value m s h := by
  have hok : ∀ {r}, (∀ e ∈ h'.exprs, e.InitsOk (I.view s).toC) →
      h'.eval m.effects (I.view s).toC s = r → h'.run m.effects s = r := by
    intro r hinits hr
    exact (if_pos hinits).trans hr
  cases h with
  | expr e =>
    obtain ⟨c, hc, rfl⟩ := Option.map_eq_some_iff.mp hh
    have hfits := formatExpr_fits simple hc (hsafe.1 e (List.mem_singleton_self e))
    refine hok ?_ ?_
    · exact fun f hf => List.mem_singleton.mp hf ▸ hfits.initsOk
    · simp only [Head.eval, Head.exec, hfits.eval, p4Value]
  | cond c =>
    obtain ⟨c', hc, rfl⟩ := Option.map_eq_some_iff.mp hh
    obtain ⟨hinits, hval⟩ := cond_fits simple (m.effects.test · s) hc hsafe.1 (hsafe.2 c rfl)
    refine hok hinits ?_
    simp only [Head.eval, Head.exec, hval, p4Value]
  | call f args =>
    obtain ⟨args', hargs, rfl⟩ := Option.map_eq_some_iff.mp hh
    obtain ⟨hinits, hval⟩ := args_fits simple hargs hsafe.1
    refine hok hinits ?_
    simp only [Head.eval, Head.exec, hval, p4Value]

/-- **The source of an assignment has the value that P4 says.** -/
theorem assignSource_run {env : Vars} {x : CVar} {e : TypedExpr} {c' : CExpr}
    (hc' : I.assignSource simple x e = some c') (hsafe : e.2.All (NodeSafe simple env)) :
    c'.run env.toC = some (e.2.value env) := by
  obtain ⟨⟨htype, -⟩, hc'⟩ := Option.ite_none_right_eq_some.mp hc'
  obtain ⟨c, hc, rfl⟩ := Option.map_eq_some_iff.mp hc'
  have hfits := formatExpr_fits simple hc hsafe
  have hrun : c.run env.toC = some (e.2.value env) :=
    (Expr.run_eq_some _).mpr ⟨hfits.initsOk, hfits.eval⟩
  have hrange : e.1.storage.InRange (e.2.value env) := (e.2.value_inRange env).storage
  have hconv : e.1.storage.conv (e.2.value env) = e.2.value env := Storage.conv_of_inRange hrange
  rw [Expr.run_cast, ← htype]
  split
  · rw [FieldInfo.formatVariable]
    cases I.nodeType e with
    | constant =>
      -- an unsigned variable has the bits of a negative constant
      rw [Expr.run_tmp, hrun, Option.map_some, Option.map_some]
      refine congrArg some (Eq.trans ?_ hconv)
      exact wrap_wrap e.1.storage.bits_pos le_rfl
    | member => rw [Expr.run_tmp, hrun, Option.map_some, Option.map_some, hconv, hconv]
    | _ => rw [hrun, Option.map_some, hconv]
  · rw [hrun, Option.map_some, hconv]

/-- P4 gives every value a meaning. -/
theorem p4Value_isSome (s : CtlState) (h : Head TypedExpr ℕ ℕ) : (p4Value m s h).isSome = true := by
  cases h with
  | expr e => rfl
  | cond c => rfl
  | call f args =>
    have hargs : ∀ l : List TypedExpr,
        l.mapM (fun e => some (e.2.value (I.view s))) = some (l.map fun e => e.2.value (I.view s)) :=
      fun l => List.mapM_pure
    simp only [p4Value, Head.exec, hargs, Option.map_some, Option.isSome_some]

/-- **The expressions of C, evaluated one statement after another, do what P4 says.** -/
theorem exec_formatExprs {k : Kind} {a : Stmt TypedExpr CVar ℕ ℕ k}
    {c : Stmt CExpr CVar ℕ ℕ k} (hc : I.formatExprs simple a = some c) {v : ℤ} {s : CtlState}
    (hsafe : StmtSafe simple m a v s) :
    c.exec m.effects (Head.run m.effects) v s = a.exec m.effects (p4Value m) v s := by
  induction a generalizing v s with
  | empty =>
    cases hc
    rfl
  | seq a b iha ihb =>
    obtain ⟨ca, ha, hc⟩ := Option.bind_eq_some_iff.mp hc
    obtain ⟨cb, hb, rfl⟩ := Option.map_eq_some_iff.mp hc
    rw [Stmt.exec_seq, Stmt.exec_seq, iha ha hsafe.1]
    cases hexec : a.exec m.effects (p4Value m) v s with
    | none => rfl
    | some s' => exact ihb hb (hsafe.2 s' hexec)
  | assignment x h =>
    cases h with
    | cond _ => cases hc
    | call _ _ => cases hc
    | expr e =>
      obtain ⟨c', hc', rfl⟩ := Option.map_eq_some_iff.mp hc
      have hrun := assignSource_run simple hc' (hsafe.1.1 e (List.mem_singleton_self e))
      have hread : m.effects.read s = (I.view s).toC := rfl
      rw [Stmt.exec_assignment, Stmt.exec_assignment, Head.run_expr, hread, hrun]
      rfl
  | methodCall h =>
    obtain ⟨h', hh, rfl⟩ := Option.map_eq_some_iff.mp hc
    rw [Stmt.exec_methodCall, Stmt.exec_methodCall, head_run simple m hh hsafe]
  | ifStatement h a b iha ihb =>
    obtain ⟨h', hh, hc⟩ := Option.bind_eq_some_iff.mp hc
    obtain ⟨ca, ha, hc⟩ := Option.bind_eq_some_iff.mp hc
    obtain ⟨cb, hb, rfl⟩ := Option.map_eq_some_iff.mp hc
    rw [Stmt.exec_if, Stmt.exec_if, head_run simple m hh hsafe.1]
    cases hr : p4Value m s h with
    | none => rfl
    | some r =>
      have hbranch := hsafe.2 r hr
      rw [Option.bind_some, Option.bind_some]
      split
      · next hne =>
        rw [if_pos hne] at hbranch
        exact iha ha hbranch
      · next heq =>
        rw [if_neg heq] at hbranch
        exact ihb hb hbranch
  | switchStatement h cs ih =>
    obtain ⟨h', hh, hc⟩ := Option.bind_eq_some_iff.mp hc
    obtain ⟨ccs, hcs, rfl⟩ := Option.map_eq_some_iff.mp hc
    rw [Stmt.exec_switch, Stmt.exec_switch, head_run simple m hh hsafe.1]
    cases hr : p4Value m s h with
    | none => rfl
    | some r => exact ih hcs (hsafe.2 r hr)
  | noCase =>
    cases hc
    rfl
  | case l a rest iha ihrest =>
    obtain ⟨ca, ha, hc⟩ := Option.bind_eq_some_iff.mp hc
    obtain ⟨crest, hrest, rfl⟩ := Option.map_eq_some_iff.mp hc
    rw [StmtSafe] at hsafe
    rw [Stmt.exec_case, Stmt.exec_case]
    split
    · next heq =>
      rw [if_pos heq] at hsafe
      exact iha ha hsafe
    · next hne =>
      rw [if_neg hne] at hsafe
      exact ihrest hrest hsafe
  | default a ih =>
    obtain ⟨ca, ha, rfl⟩ := Option.map_eq_some_iff.mp hc
    exact ih ha hsafe

theorem exec_block {body : List (Stmt TypedExpr CVar ℕ ℕ .stmt)}
    {code : List (Stmt CExpr CVar ℕ ℕ .stmt)}
    (hcode : body.mapM (I.formatExprs simple) = some code) {s : CtlState}
    (hsafe : StmtSafe simple m (Stmt.block body) 0 s) :
    (Stmt.block code).exec m.effects (Head.run m.effects) 0 s =
      (Stmt.block body).exec m.effects (p4Value m) 0 s := by
  refine exec_formatExprs simple m ?_ hsafe
  clear hsafe
  induction body generalizing code with
  | nil =>
    cases hcode
    rfl
  | cons a body ih =>
    rw [List.mapM_cons] at hcode
    obtain ⟨c, hc, hcode⟩ := Option.bind_eq_some_iff.mp hcode
    obtain ⟨cs, hcs, hcode⟩ := Option.bind_eq_some_iff.mp hcode
    cases hcode
    rw [Stmt.block_cons, Stmt.block_cons, FieldInfo.formatExprs, hc, ih hcs]
    rfl

end Safe

section Main

variable {I : FieldInfo} (simple : Bool) (m : Methods I) {body : List (Stmt TypedExpr CVar ℕ ℕ .stmt)}
  {code : List (Stmt CExpr CVar ℕ ℕ .stmt)} {s : CtlState}

/-- **The stages of a control do what P4 says** if its components are placed and ordered,
whatever is on the stack when they are called. -/
theorem stages_correct (hcode : body.mapM (I.formatExprs simple) = some code)
    (hplaced : ∀ c ∈ code, c.Placed) (hordered : ∀ c ∈ code, c.Ordered m.effects)
    (hsafe : StmtSafe simple m (Stmt.block body) 0 s) (n : ℕ) (stack : ℕ → ℕ → ℤ) :
    ∃ s', (Stmt.block body).exec m.effects (p4Value m) 0 s = some s' ∧
      Stmt.runStages m.effects stack (Stmt.stages code n) s = some s' := by
  obtain ⟨s', hs'⟩ := Stmt.exec_isSome (M := m.effects) (p4Value_isSome m) (Stmt.block body) 0 s
  refine ⟨s', hs', Stmt.stages_run hplaced hordered ?_ n stack⟩
  rw [exec_block simple m hcode hsafe, hs']

/-- **The code of an action does what P4 says.** -/
theorem action_correct (hcode : body.mapM (I.formatExprs simple) = some code)
    (hplaced : ∀ c ∈ code, c.Placed) (hordered : ∀ c ∈ code, c.Ordered m.effects)
    (hsafe : StmtSafe simple m (Stmt.block body) 0 s) (n : ℕ) (t : ℕ → ℤ) :
    ∃ s' t', (Stmt.block body).exec m.effects (p4Value m) 0 s = some s' ∧
      (Stmt.actionCode code n).run m.effects 0 s t = some (s', t') := by
  obtain ⟨s', hs'⟩ := Stmt.exec_isSome (M := m.effects) (p4Value_isSome m) (Stmt.block body) 0 s
  obtain ⟨t', ht'⟩ := Stmt.actionCode_run hplaced hordered
    ((exec_block simple m hcode hsafe).trans hs') n t
  exact ⟨s', t', hs', ht'⟩

end Main

section Examples

theorem localVar_unsigned (x : CVar) (h : ℕ) (hplace : Place.localVar = .field h) :
    x.1.isSigned = false := nomatch hplace

/-- No headers. -/
def localsOnly : FieldInfo where
  place _ := .localVar
  unspecified t _ := ⟨t.wrap 0, t.wrap_inRange 0⟩
  unsigned := localVar_unsigned

/-- Calls that do nothing. -/
def noMethods : Methods localsOnly := ⟨fun _ _ s => (0, s), fun _ _ => false, fun _ => rfl⟩

/-- A sum of a variable and a constant. -/
def varPlus (x : ℕ) (v : ℤ) (h : bit8.InRange v) : P4Expr bit8 :=
  .bin .add (.var x) (.const 10 v h)

def assignPlus (y x : ℕ) (v : ℤ) (h : bit8.InRange v) : Stmt TypedExpr CVar ℕ ℕ .stmt :=
  .assignment (bit8, y) (.expr ⟨bit8, varPlus x v h⟩)

theorem one_inRange : bit8.InRange 1 := by decide

theorem two_inRange : bit8.InRange 2 := by decide

theorem three_inRange : bit8.InRange 3 := by decide

/-- `if (x == 3) { x = x + 1; y = z + 1; }` and `z = x + 2;` -/
def branchBody : List (Stmt TypedExpr CVar ℕ ℕ .stmt) :=
  [.ifStatement (.cond (.cmp .eq ⟨bit8, .var 0⟩ ⟨bit8, .const 10 3 three_inRange⟩))
      (.seq (assignPlus 0 0 1 one_inRange) (assignPlus 1 2 1 one_inRange)) .empty,
    assignPlus 2 0 2 two_inRange]

def branchCode : List (Stmt CExpr CVar ℕ ℕ .stmt) :=
  (branchBody.mapM (localsOnly.formatExprs true)).getD []

/-- All variables are 3. -/
def threes : CtlState := ⟨fun t _ => ⟨t.wrap 3, t.wrap_inRange 3⟩, fun _ => false⟩

theorem varPlus_safe (env : Vars) (x : ℕ) {v : ℤ} (h : bit8.InRange v) :
    (varPlus x v h).All (NodeSafe true env) := by
  refine ⟨fun _ _ => ?_, trivial, trivial⟩
  have hx : 0 ≤ (env bit8 x : ℤ) ∧ (env bit8 x : ℤ) < 2 ^ 8 := inRange_of_unsigned rfl (env bit8 x).2
  have hv : 0 ≤ v ∧ v < 2 ^ 8 := inRange_of_unsigned rfl h
  have hlit : litType 10 |v| = .int := by
    rw [litType, abs_of_nonneg hv.1, if_pos (by omega)]
  have htype : (bit8.storage.promote.join (ctype true (.const 10 v h : P4Expr bit8))) = .int := by
    rw [ctype, hlit]
    rfl
  rw [htype]
  simp only [CType.InRange, CType.bits, CType.isSigned, inRange_true]
  change -2 ^ (32 - 1) ≤ (env bit8 x : ℤ) + v ∧ (env bit8 x : ℤ) + v < 2 ^ (32 - 1)
  omega

theorem branchBody_safe (s : CtlState) :
    StmtSafe true noMethods (Stmt.block branchBody) 0 s := by
  have hcond : HeadSafe true localsOnly (localsOnly.view s)
      (.cond (.cmp .eq ⟨bit8, .var 0⟩ ⟨bit8, .const 10 3 (by decide)⟩) : Head TypedExpr ℕ ℕ) := by
    refine ⟨?_, fun c hc => ?_⟩
    · intro e he
      rcases List.mem_pair.mp he with rfl | rfl <;> trivial
    · cases hc
      exact cmpSafe_of_unsigned _ _ rfl rfl
  have hplus : ∀ (s : CtlState) (y x : ℕ) {v : ℤ} (h : bit8.InRange v),
      StmtSafe true noMethods (assignPlus y x v h) 0 s := fun s _ x _ h =>
    ⟨⟨fun e he => List.mem_singleton.mp he ▸ varPlus_safe _ x h, nofun⟩, fun _ _ _ _ _ _ => rfl⟩
  refine ⟨⟨hcond, fun r _ => ?_⟩, fun s' _ => ⟨hplus s' 2 0 _, fun _ _ => trivial⟩⟩
  split
  · exact ⟨hplus r.2 0 0 _, fun s' _ => hplus s' 1 2 _⟩
  · trivial

theorem branchBody_stages : ∃ s',
    (Stmt.block branchBody).exec noMethods.effects (p4Value noMethods) 0 threes = some s' ∧
      Stmt.runStages noMethods.effects (fun _ _ => 17) (Stmt.stages branchCode 0) threes =
        some s' := by
  have hcode : branchBody.mapM (localsOnly.formatExprs true) = some branchCode := rfl
  exact stages_correct true noMethods hcode (by decide) (by decide) (branchBody_safe threes) 0 _

end Examples

/-! ### What a block of assignments does -/

/-- The result of the operator at the root is masked. -/
def P4Expr.masked (simple : Bool) : {t : BitsType} → P4Expr t → Bool
  | t, .neg _ => !t.isSigned
  | _, .cmpl _ => true
  | t, .bin op _ _ => !t.isSigned && (match op with | .bit _ => !simple | _ => true)
  | t, .shl _ _ _ => !t.isSigned
  | t, .shr _ _ _ => !t.isSigned
  | _, @P4Expr.cast t _ u _ => !u.isSigned && (t.isSigned || decide (u.size < t.size))
  | _, _ => false

theorem masking_direct {t : BitsType} {e c : CExpr} (h : masking t e = some c) : c.direct = [] := by
  obtain ⟨mask, hmask, rfl⟩ := Option.map_eq_some_iff.mp h
  obtain ⟨-, hmask⟩ := Option.ite_none_left_eq_some.mp hmask
  cases hmask
  rfl

theorem complexOp_direct {t : BitsType} {op : BinOp} {left right c : CExpr}
    (ht : t.isSigned = false) (h : complexOp t op left right = some c) : c.direct = [] := by
  rw [complexOp, ht] at h
  exact masking_direct h

/-- **A masked result is read from temporaries.** -/
theorem direct_of_masked {simple : Bool} {t : BitsType} {e : P4Expr t} {c : CExpr}
    (hc : genExpr simple e = some c) (hmasked : e.masked simple = true) : c.direct = [] := by
  cases e with
  | const base v hv => cases hmasked
  | var x => cases hmasked
  | neg e =>
    obtain ⟨fe, -, hc⟩ := Option.bind_eq_some_iff.mp hc
    rw [P4Expr.masked, Bool.not_eq_true'] at hmasked
    rw [hmasked] at hc
    exact masking_direct hc
  | cmpl e =>
    obtain ⟨fe, -, hc⟩ := Option.bind_eq_some_iff.mp hc
    exact masking_direct hc
  | bin op l r =>
    obtain ⟨left, -, hc⟩ := Option.bind_eq_some_iff.mp hc
    obtain ⟨right, -, hc⟩ := Option.bind_eq_some_iff.mp hc
    obtain ⟨ht, hop⟩ := Bool.and_eq_true_iff.mp hmasked
    rw [Bool.not_eq_true'] at ht
    cases op with
    | add => exact complexOp_direct ht hc
    | mul => exact complexOp_direct ht hc
    | sub =>
      rw [genBin, ht] at hc
      exact masking_direct hc
    | bit op =>
      rw [Bool.not_eq_true'] at hop
      rw [genBin, hop] at hc
      exact complexOp_direct ht hc
  | shl l r hu =>
    obtain ⟨left, -, hc⟩ := Option.bind_eq_some_iff.mp hc
    obtain ⟨right, -, hc⟩ := Option.bind_eq_some_iff.mp hc
    rw [P4Expr.masked, Bool.not_eq_true'] at hmasked
    exact complexOp_direct hmasked hc
  | shr l r hu =>
    obtain ⟨left, -, hc⟩ := Option.bind_eq_some_iff.mp hc
    obtain ⟨right, -, hc⟩ := Option.bind_eq_some_iff.mp hc
    rw [P4Expr.masked, Bool.not_eq_true'] at hmasked
    rw [hmasked, if_neg Bool.false_ne_true] at hc
    exact complexOp_direct hmasked hc
  | concat l r s hsize hsign => cases hmasked
  | @cast t e u h =>
    obtain ⟨src, -, hc⟩ := Option.bind_eq_some_iff.mp hc
    obtain ⟨hu, ht⟩ := Bool.and_eq_true_iff.mp hmasked
    rw [Bool.not_eq_true'] at hu
    rw [Bool.or_eq_true_iff, decide_eq_true_iff] at ht
    rw [hu] at hc
    cases htS : t.isSigned with
    | true =>
      rw [htS, if_neg (by decide), if_pos rfl] at hc
      exact masking_direct hc
    | false =>
      rw [htS] at hc ht
      rw [if_pos rfl, if_neg Bool.false_ne_true, if_pos (ht.resolve_left Bool.false_ne_true)] at hc
      exact masking_direct hc

section Blocks

variable {I : FieldInfo} (simple : Bool) (m : Methods I)

/-- An assignment with the C of its source. -/
def Compiles (I : FieldInfo) (a : CVar × TypedExpr) (a' : CVar × CExpr) : Prop :=
  a'.1 = a.1 ∧ I.assignSource simple a.1 a.2 = some a'.2

/-- The source is computed in temporaries: it is masked, or a constant or a field that is put into
a variable. -/
def InTmp (I : FieldInfo) (a : CVar × TypedExpr) : Prop :=
  a.2.2.masked simple = true ∨
    (I.place a.1 = .localVar ∧ (I.nodeType a.2 = .constant ∨ I.nodeType a.2 = .member))

theorem asVar_of_masked {t : BitsType} {e : P4Expr t} (h : e.masked simple = true) :
    e.asVar = none := by
  cases e with
  | var x => cases h
  | _ => rfl

theorem Compiles.direct {a : CVar × TypedExpr} {a' : CVar × CExpr} (h : Compiles simple I a a')
    (htmp : InTmp simple I a) : a'.2.direct = [] := by
  obtain ⟨-, h⟩ := h
  obtain ⟨-, h⟩ := Option.ite_none_right_eq_some.mp h
  obtain ⟨c, hc, hc'⟩ := Option.map_eq_some_iff.mp h
  rw [← hc']
  show (if I.place a.1 = .localVar then I.formatVariable a.2 c else c).direct = []
  rcases htmp with hmasked | ⟨hplace, hnode⟩
  · have hdirect : c.direct = [] := by
      simp only [FieldInfo.formatExpr, asVar_of_masked simple hmasked] at hc
      exact direct_of_masked (Option.ite_none_right_eq_some.mp hc).2 hmasked
    split
    · rw [FieldInfo.formatVariable]
      cases I.nodeType a.2 with
      | constant => rfl
      | member => rfl
      | _ => exact hdirect
    · exact hdirect
  · rw [if_pos hplace, FieldInfo.formatVariable]
    rcases hnode with hnode | hnode <;> rw [hnode] <;> rfl

/-- The value that is assigned is safe, and so is the field that is read without a check. -/
def AssignSafe (I : FieldInfo) (s : CtlState) (a : CVar × TypedExpr) : Prop :=
  a.2.2.All (NodeSafe simple (I.view s)) ∧ I.SourceValid s a.1 a.2

/-- The values of P4 before a block of assignments, in the C of the block. -/
theorem assignAll_eq {s₀ : CtlState} {as : List (CVar × TypedExpr)} {as' : List (CVar × CExpr)}
    (hcode : List.Forall₂ (Compiles simple I) as as') (htmp : ∀ a ∈ as, InTmp simple I a)
    (hsafe : ∀ a ∈ as, AssignSafe simple I s₀ a) :
    ∃ vs, (∀ a' ∈ as', a'.2.direct = []) ∧
      List.Forall₂ (fun a' v => a'.2.run (m.effects.read s₀) = some v) as' vs ∧
      ∀ s, Stmt.assignAll m.effects as' vs s =
        as.foldl (fun s a => I.write a.1 (a.2.2.value (I.view s₀)) s) s := by
  induction hcode with
  | nil => exact ⟨[], nofun, .nil, fun s => rfl⟩
  | @cons a a' as as' ha _ ih =>
    obtain ⟨htmpa, htmp⟩ := List.forall_mem_cons.mp htmp
    obtain ⟨hsafea, hsafe⟩ := List.forall_mem_cons.mp hsafe
    obtain ⟨vs, hdirect, hvs, hall⟩ := ih htmp hsafe
    refine ⟨a.2.2.value (I.view s₀) :: vs, ?_, .cons ?_ hvs, fun s => ?_⟩
    · exact List.forall_mem_cons.mpr ⟨ha.direct simple htmpa, hdirect⟩
    · exact assignSource_run simple ha.2 hsafea.1
    · rw [List.foldl_cons, ← hall, ← ha.1]
      rfl

/-- **The assignments of a nested block are made all at once**, from the values before the
block, if their sources are computed in temporaries. -/
theorem nested_block_simultaneous {s : CtlState} {as : List (CVar × TypedExpr)}
    {as' : List (CVar × CExpr)} (hcode : List.Forall₂ (Compiles simple I) as as')
    (htmp : ∀ a ∈ as, InTmp simple I a) (hsafe : ∀ a ∈ as, AssignSafe simple I s a) (n : ℕ)
    (t : ℕ → ℤ) :
    ∃ t', ((Stmt.assignments as' : Stmt CExpr CVar ℕ ℕ .stmt).format n).run m.effects 0 s t =
      some (as.foldl (fun s' a => I.write a.1 (a.2.2.value (I.view s)) s') s, t') := by
  obtain ⟨vs, hdirect, hvs, hall⟩ := assignAll_eq simple m hcode htmp hsafe
  rw [← hall]
  exact Stmt.assignments_simultaneous hdirect hvs 0 n t

end Blocks

/-- `x = x + 1; y = x + 1;` -/
def twoSums : List (CVar × TypedExpr) :=
  [((bit8, 0), ⟨bit8, varPlus 0 1 one_inRange⟩), ((bit8, 1), ⟨bit8, varPlus 0 1 one_inRange⟩)]

def twoSumsCode : List (CVar × CExpr) :=
  twoSums.map fun a => (a.1, (localsOnly.assignSource true a.1 a.2).getD (decimal 0))

/-- **In a branch, `x = x + 1; y = x + 1;` gives both variables the same value.** -/
theorem twoSums_run : ∃ t', ((Stmt.assignments twoSumsCode : Stmt CExpr CVar ℕ ℕ .stmt).format 0).run
      noMethods.effects 0 threes (fun _ => 0) =
    some (twoSums.foldl (fun s a => localsOnly.write a.1 4 s) threes, t') := by
  have hcode : List.Forall₂ (Compiles true localsOnly) twoSums twoSumsCode :=
    .cons ⟨rfl, rfl⟩ (.cons ⟨rfl, rfl⟩ .nil)
  have hsafe : ∀ a ∈ twoSums, AssignSafe true localsOnly threes a := by
    intro a ha
    rcases List.mem_pair.mp ha with rfl | rfl <;>
      exact ⟨varPlus_safe _ 0 _, fun _ _ _ _ => rfl⟩
  have htmp : ∀ a ∈ twoSums, InTmp true localsOnly a := by
    intro a ha
    rcases List.mem_pair.mp ha with rfl | rfl <;> exact .inl rfl
  exact nested_block_simultaneous true noMethods hcode htmp hsafe 0 _

end T4P4S
