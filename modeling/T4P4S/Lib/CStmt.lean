/-
C statements over integer expressions.  The temporaries of an expression are declared,
under the names of consecutive numbers, and the expression then uses these names.

* **`Hoisted.init_eval`** — once its declarations have been run, an expression without
  temporaries has the value of the one it comes from;
* **`Ready.append`** — declarations can be run one after another;
* **`Init.congr`** — they have the same values wherever the variables they read have.
-/
import Mathlib.Data.List.Forall2
import Mathlib.Logic.Function.Basic
import T4P4S.Lib.CExpr

namespace CInt

variable {V : Type}

namespace Expr

def vars : Expr V → List V
  | lit _ _ => []
  | var _ x => [x]
  | neg e => vars e
  | compl e => vars e
  | bin _ a b => vars a ++ vars b
  | cast _ e => vars e
  | tmp _ e => vars e
  | cond c a b => vars c ++ (vars a ++ vars b)

theorem eval_congr {env env' : V → ℤ} (e : Expr V) (h : ∀ x ∈ e.vars, env x = env' x) :
    e.eval env = e.eval env' := by
  induction e with
  | lit t v => rfl
  | var s x => exact congrArg (fun v => some (s.conv v)) (h x List.mem_cons_self)
  | neg e ih => simp only [eval, ih h]
  | compl e ih => simp only [eval, ih h]
  | bin op a b iha ihb =>
    obtain ⟨ha, hb⟩ := List.forall_mem_append.mp h
    simp only [eval, iha ha, ihb hb]
  | cast s e ih => simp only [eval, ih h]
  | tmp s e ih => simp only [eval, ih h]
  | cond c a b ihc iha ihb =>
    obtain ⟨hc, h⟩ := List.forall_mem_append.mp h
    obtain ⟨ha, hb⟩ := List.forall_mem_append.mp h
    simp only [eval, ihc hc, iha ha, ihb hb]

/-- The variables that are read by the temporaries. -/
def tmpVars (e : Expr V) : List V := e.inits.flatMap vars

/-- The variables that are read outside of the temporaries. -/
def direct : Expr V → List V
  | lit _ _ => []
  | var _ x => [x]
  | neg e => direct e
  | compl e => direct e
  | bin _ a b => direct a ++ direct b
  | cast _ e => direct e
  | tmp _ _ => []
  | cond c a b => direct c ++ (direct a ++ direct b)

/-- The names of declared temporaries. -/
def temps (e : Expr (V ⊕ ℕ)) : List ℕ := e.vars.filterMap Sum.getRight?

end Expr

/-! ### Declarations -/

structure Decl (V : Type) where
  name : ℕ
  type : Storage
  init : Expr (V ⊕ ℕ)

namespace Decl

/-- The values of the temporaries when the declarations have been run. -/
def run (env : V → ℤ) : List (Decl V) → (ℕ → ℤ) → Option (ℕ → ℤ)
  | [], t => some t
  | d :: ds, t => (d.init.eval (Sum.elim env t)).bind fun v =>
    run env ds (Function.update t d.name (d.type.conv v))

def names (ds : List (Decl V)) : List ℕ := ds.map name

/-- Each declaration uses only names of `D` and of declarations in front of it. -/
def Scoped : List ℕ → List (Decl V) → Prop
  | _, [] => True
  | D, d :: ds => d.init.temps ⊆ D ∧ Scoped (D ++ [d.name]) ds

/-- The variables that are read by declarations. -/
def Reads (ds : List (Decl V)) (x : V) : Prop := ∃ d ∈ ds, .inl x ∈ d.init.vars

theorem run_nil (env : V → ℤ) (t : ℕ → ℤ) : run env [] t = some t := rfl

theorem run_cons (env : V → ℤ) (d : Decl V) (ds : List (Decl V)) (t : ℕ → ℤ) :
    run env (d :: ds) t = (d.init.eval (Sum.elim env t)).bind fun v =>
      run env ds (Function.update t d.name (d.type.conv v)) := rfl

theorem scoped_nil (D : List ℕ) : Scoped D ([] : List (Decl V)) ↔ True := Iff.rfl

theorem scoped_cons {D : List ℕ} {d : Decl V} {ds : List (Decl V)} :
    Scoped D (d :: ds) ↔ d.init.temps ⊆ D ∧ Scoped (D ++ [d.name]) ds := Iff.rfl

theorem names_append (ds es : List (Decl V)) : names (ds ++ es) = names ds ++ names es :=
  List.map_append

theorem run_append (env : V → ℤ) (ds es : List (Decl V)) (t : ℕ → ℤ) :
    run env (ds ++ es) t = (run env ds t).bind (run env es) := by
  induction ds generalizing t with
  | nil => rfl
  | cons d ds ih =>
    rw [List.cons_append, run_cons, run_cons]
    cases d.init.eval (Sum.elim env t) with
    | none => rfl
    | some v => exact ih _

theorem scoped_append {D : List ℕ} {ds es : List (Decl V)} :
    Scoped D (ds ++ es) ↔ Scoped D ds ∧ Scoped (D ++ names ds) es := by
  induction ds generalizing D with
  | nil => simp [scoped_nil, names]
  | cons d ds ih =>
    rw [List.cons_append, scoped_cons, scoped_cons, ih, and_assoc]
    simp [names]

theorem Scoped.mono {D E : List ℕ} {ds : List (Decl V)} (h : Scoped D ds) (hDE : D ⊆ E) :
    Scoped E ds := by
  induction ds generalizing D E with
  | nil => trivial
  | cons d ds ih =>
    obtain ⟨hd, hds⟩ := scoped_cons.mp h
    refine scoped_cons.mpr ⟨fun m hm => hDE (hd hm), ih hds fun m hm => ?_⟩
    rcases List.mem_append.mp hm with hm | hm
    · exact List.mem_append_left _ (hDE hm)
    · exact List.mem_append_right _ hm

/-- What declarations use is declared by them or before them. -/
theorem Scoped.temps_mem {D : List ℕ} {ds : List (Decl V)} (h : Scoped D ds) {d : Decl V}
    (hd : d ∈ ds) {m : ℕ} (hm : m ∈ d.init.temps) : m ∈ D ∨ m ∈ names ds := by
  induction ds generalizing D with
  | nil => exact absurd hd List.not_mem_nil
  | cons d' ds ih =>
    obtain ⟨hd', hds⟩ := scoped_cons.mp h
    rcases List.mem_cons.mp hd with rfl | hd
    · exact .inl (hd' hm)
    · rcases ih hds hd with hm | hm
      · rcases List.mem_append.mp hm with hm | hm
        · exact .inl hm
        · exact .inr (List.mem_cons.mpr (.inl (List.mem_singleton.mp hm)))
      · exact .inr (List.mem_cons_of_mem _ hm)

end Decl

/-! ### Values of declared temporaries -/

theorem mem_temps {e : Expr (V ⊕ ℕ)} {m : ℕ} : m ∈ e.temps ↔ .inr m ∈ e.vars := by
  simp [Expr.temps, List.mem_filterMap, Sum.getRight?_eq_some_iff]

/-- Each declared name has the value that its declaration gives it. -/
def Init (env : V → ℤ) (ds : List (Decl V)) (t : ℕ → ℤ) : Prop :=
  ∀ d ∈ ds, ∃ v, d.init.eval (Sum.elim env t) = some v ∧ t d.name = d.type.conv v

/-- The declarations can be run, and then have their values; no other name gets one. -/
def Ready (env : V → ℤ) (ds : List (Decl V)) : Prop :=
  ∀ t, ∃ t', Decl.run env ds t = some t' ∧ Init env ds t' ∧ ∀ m ∉ Decl.names ds, t' m = t m

variable {env env' : V → ℤ} {ds es : List (Decl V)} {t t' : ℕ → ℤ}

theorem Init.nil : Init env [] t := fun _ hd => absurd hd List.not_mem_nil

theorem Init.append : Init env (ds ++ es) t ↔ Init env ds t ∧ Init env es t :=
  List.forall_mem_append

/-- The values of an expression in two states that agree on all it uses. -/
theorem eval_elim_congr {e : Expr (V ⊕ ℕ)} (hvars : ∀ x, .inl x ∈ e.vars → env x = env' x)
    (htemps : ∀ m ∈ e.temps, t m = t' m) :
    e.eval (Sum.elim env t) = e.eval (Sum.elim env' t') := by
  refine e.eval_congr ?_
  rintro (x | m) hx
  · exact hvars x hx
  · exact htemps m (mem_temps.mpr hx)

/-- **Declarations keep their values as long as the variables that they read do.** -/
theorem Init.congr (h : Init env ds t) (hds : Decl.Scoped [] ds)
    (hvars : ∀ x, Decl.Reads ds x → env x = env' x) (hnames : ∀ m ∈ Decl.names ds, t m = t' m) :
    Init env' ds t' := by
  intro d hd
  obtain ⟨v, hv, ht⟩ := h d hd
  refine ⟨v, ?_, ?_⟩
  · rw [← hv]
    refine (eval_elim_congr (fun x hx => hvars x ⟨d, hd, hx⟩) fun m hm => ?_).symm
    rcases hds.temps_mem hd hm with hm | hm
    · exact absurd hm List.not_mem_nil
    · exact hnames m hm
  · rw [← ht]
    exact (hnames d.name (List.mem_map_of_mem hd)).symm

theorem Decl.run_congr (hvars : ∀ x, Decl.Reads ds x → env x = env' x) (t : ℕ → ℤ) :
    Decl.run env ds t = Decl.run env' ds t := by
  induction ds generalizing t with
  | nil => rfl
  | cons d ds ih =>
    have hd : d.init.eval (Sum.elim env t) = d.init.eval (Sum.elim env' t) :=
      eval_elim_congr (fun x hx => hvars x ⟨d, List.mem_cons_self, hx⟩) fun _ _ => rfl
    rw [run_cons, run_cons, hd]
    refine congrArg _ (funext fun v => ih ?_ _)
    exact fun x ⟨d', hd', hx⟩ => hvars x ⟨d', List.mem_cons_of_mem _ hd', hx⟩

theorem Ready.congr (h : Ready env ds) (hds : Decl.Scoped [] ds)
    (hvars : ∀ x, Decl.Reads ds x → env x = env' x) : Ready env' ds := by
  intro t
  obtain ⟨t', hrun, hinit, hother⟩ := h t
  exact ⟨t', Decl.run_congr hvars t ▸ hrun, hinit.congr hds hvars fun _ _ => rfl, hother⟩

theorem Ready.nil : Ready env ([] : List (Decl V)) :=
  fun t => ⟨t, rfl, Init.nil, fun _ _ => rfl⟩

/-- **Declarations can be run after others of different names.** -/
theorem Ready.append (hds : Ready env ds) (hes : Ready env es) (hscoped : Decl.Scoped [] ds)
    (hdisj : ∀ m ∈ Decl.names ds, m ∉ Decl.names es) : Ready env (ds ++ es) := by
  intro t
  obtain ⟨t₁, hrun₁, hinit₁, hother₁⟩ := hds t
  obtain ⟨t₂, hrun₂, hinit₂, hother₂⟩ := hes t₁
  refine ⟨t₂, ?_, Init.append.mpr ⟨?_, hinit₂⟩, fun m hm => ?_⟩
  · rw [Decl.run_append, hrun₁]
    exact hrun₂
  · exact hinit₁.congr hscoped (fun _ _ => rfl) fun m hm => (hother₂ m (hdisj m hm)).symm
  · rw [Decl.names_append, List.mem_append, not_or] at hm
    rw [hother₂ m hm.2, hother₁ m hm.1]

/-- A declaration that has a value once those in front of it have theirs. -/
theorem Ready.concat {d : Decl V} (hds : Ready env ds) (hscoped : Decl.Scoped [] (ds ++ [d]))
    (hname : d.name ∉ Decl.names ds)
    (h : ∀ t, Init env ds t → ∃ v, d.init.eval (Sum.elim env t) = some v) :
    Ready env (ds ++ [d]) := by
  intro t
  obtain ⟨t₁, hrun₁, hinit₁, hother₁⟩ := hds t
  obtain ⟨v, hv⟩ := h t₁ hinit₁
  obtain ⟨hscoped₁, hd⟩ := Decl.scoped_append.mp hscoped
  have hupdate : ∀ m ∈ Decl.names ds, t₁ m = Function.update t₁ d.name (d.type.conv v) m := by
    intro m hm
    rw [Function.update_of_ne]
    rintro rfl
    exact hname hm
  refine ⟨Function.update t₁ d.name (d.type.conv v), ?_, ?_, fun m hm => ?_⟩
  · rw [Decl.run_append, hrun₁, Option.bind_some, Decl.run_cons, hv]
    rfl
  · refine Init.append.mpr ⟨hinit₁.congr hscoped₁ (fun _ _ => rfl) hupdate, ?_⟩
    intro d' hd'
    obtain rfl := List.mem_singleton.mp hd'
    refine ⟨v, ?_, Function.update_self ..⟩
    rw [← hv]
    refine (eval_elim_congr (fun _ _ => rfl) fun m hm => hupdate m ?_).symm
    exact (Decl.scoped_cons.mp hd).1 hm
  · rw [Decl.names_append, List.mem_append, not_or] at hm
    rw [Function.update_of_ne (fun h => hm.2 (List.mem_singleton.mpr h)), hother₁ m hm.1]

/-! ### Expressions without temporaries -/

/-- The declarations of the temporaries of an expression, from the name `n` on, and what is
left of the expression. -/
def Expr.hoist : Expr V → ℕ → List (Decl V) × Expr (V ⊕ ℕ)
  | .lit t v, _ => ([], .lit t v)
  | .var s x, _ => ([], .var s (.inl x))
  | .neg e, n => ((hoist e n).1, .neg (hoist e n).2)
  | .compl e, n => ((hoist e n).1, .compl (hoist e n).2)
  | .bin op a b, n =>
    let p := hoist a n
    let q := hoist b (n + p.1.length)
    (p.1 ++ q.1, .bin op p.2 q.2)
  | .cast s e, n => ((hoist e n).1, .cast s (hoist e n).2)
  | .tmp s e, n =>
    let p := hoist e n
    (p.1 ++ [⟨n + p.1.length, s, p.2⟩], .var s (.inr (n + p.1.length)))
  | .cond c a b, n =>
    let p := hoist c n
    let q := hoist a (n + p.1.length)
    let r := hoist b (n + p.1.length + q.1.length)
    (p.1 ++ (q.1 ++ r.1), .cond p.2 q.2 r.2)

/-- The same value, and the same type. -/
def SameValue (env : V → ℤ) (t : ℕ → ℤ) (e : Expr V) (e' : Expr (V ⊕ ℕ)) : Prop :=
  e'.eval (Sum.elim env t) = e.eval env ∧ e'.type = e.type

/-- `es'` is what is left of `es` when their temporaries are declared by `ds`. -/
structure Hoisted (n : ℕ) (es : List (Expr V)) (ds : List (Decl V))
    (es' : List (Expr (V ⊕ ℕ))) : Prop where
  length : ds.length = (es.flatMap Expr.inits).length
  names : Decl.names ds = List.range' n ds.length
  wellScoped : Decl.Scoped [] ds
  vars : ∀ x, ∀ e' ∈ es', .inl x ∈ e'.vars → ∃ e ∈ es, x ∈ e.vars
  temps : ∀ e' ∈ es', e'.temps ⊆ Decl.names ds
  used : ds ≠ [] → ∃ e' ∈ es', e'.temps ≠ []
  reads : ∀ x, Decl.Reads ds x → ∃ e ∈ es, x ∈ e.tmpVars
  ready : ∀ env, (∀ e ∈ es, e.InitsOk env) → Ready env ds
  eval : ∀ env t, Init env ds t → List.Forall₂ (SameValue env t) es es'

namespace Hoisted

variable {n : ℕ} {es₁ es₂ : List (Expr V)} {ds₁ ds₂ : List (Decl V)}
  {es₁' es₂' : List (Expr (V ⊕ ℕ))}

theorem nil (n : ℕ) : Hoisted n ([] : List (Expr V)) [] [] where
  length := rfl
  names := rfl
  wellScoped := trivial
  vars _ _ h := absurd h List.not_mem_nil
  temps _ h := absurd h List.not_mem_nil
  used h := absurd rfl h
  reads := fun _ ⟨_, h, _⟩ => absurd h List.not_mem_nil
  ready _ _ := Ready.nil
  eval _ _ _ := .nil

theorem var (n : ℕ) (s : Storage) (x : V) :
    Hoisted n [.var s x] [] [.var s (.inl x)] where
  length := rfl
  names := rfl
  wellScoped := trivial
  vars y e' he' hy := by
    obtain rfl := List.mem_singleton.mp he'
    obtain rfl : y = x := by simpa [Expr.vars] using hy
    exact ⟨_, List.mem_singleton_self _, List.mem_singleton_self _⟩
  temps e' he' m hm := by
    obtain rfl := List.mem_singleton.mp he'
    simp [mem_temps, Expr.vars] at hm
  used h := absurd rfl h
  reads := fun _ ⟨_, h, _⟩ => absurd h List.not_mem_nil
  ready _ _ := Ready.nil
  eval _ _ _ := .cons ⟨rfl, rfl⟩ .nil

theorem mem_names (h : Hoisted n es₁ ds₁ es₁') {m : ℕ} (hm : m ∈ Decl.names ds₁) :
    n ≤ m ∧ m < n + ds₁.length := by
  rw [h.names] at hm
  exact List.mem_range'_1.mp hm

theorem append (h₁ : Hoisted n es₁ ds₁ es₁') (h₂ : Hoisted (n + ds₁.length) es₂ ds₂ es₂') :
    Hoisted n (es₁ ++ es₂) (ds₁ ++ ds₂) (es₁' ++ es₂') where
  length := by
    rw [List.length_append, h₁.length, h₂.length, List.flatMap_append, List.length_append]
  names := by
    rw [Decl.names_append, h₁.names, h₂.names, List.length_append, List.range'_append_1]
  wellScoped := Decl.scoped_append.mpr ⟨h₁.wellScoped, h₂.wellScoped.mono (List.nil_subset _)⟩
  vars := by
    intro x e' he' hx
    rcases List.mem_append.mp he' with he' | he'
    · obtain ⟨e, he, hx⟩ := h₁.vars x e' he' hx
      exact ⟨e, List.mem_append_left _ he, hx⟩
    · obtain ⟨e, he, hx⟩ := h₂.vars x e' he' hx
      exact ⟨e, List.mem_append_right _ he, hx⟩
  temps := by
    intro e' he' m hm
    rw [Decl.names_append]
    rcases List.mem_append.mp he' with he' | he'
    · exact List.mem_append_left _ (h₁.temps e' he' hm)
    · exact List.mem_append_right _ (h₂.temps e' he' hm)
  used := by
    intro h
    by_cases hds : ds₁ = []
    · obtain ⟨e', he', hne⟩ := h₂.used (by simpa [hds] using h)
      exact ⟨e', List.mem_append_right _ he', hne⟩
    · obtain ⟨e', he', hne⟩ := h₁.used hds
      exact ⟨e', List.mem_append_left _ he', hne⟩
  reads := by
    rintro x ⟨d, hd, hx⟩
    rcases List.mem_append.mp hd with hd | hd
    · obtain ⟨e, he, hx⟩ := h₁.reads x ⟨d, hd, hx⟩
      exact ⟨e, List.mem_append_left _ he, hx⟩
    · obtain ⟨e, he, hx⟩ := h₂.reads x ⟨d, hd, hx⟩
      exact ⟨e, List.mem_append_right _ he, hx⟩
  ready := by
    intro env h
    obtain ⟨hok₁, hok₂⟩ := List.forall_mem_append.mp h
    refine (h₁.ready env hok₁).append (h₂.ready env hok₂) h₁.wellScoped fun m hm hm' => ?_
    have := h₁.mem_names hm
    have := h₂.mem_names hm'
    omega
  eval := by
    intro env t h
    obtain ⟨hinit₁, hinit₂⟩ := Init.append.mp h
    exact List.rel_append (h₁.eval env t hinit₁) (h₂.eval env t hinit₂)

/-- An expression whose parts are without temporaries. -/
theorem node {e : Expr V} {e' : Expr (V ⊕ ℕ)} (h : Hoisted n es₁ ds₁ es₁')
    (hinits : e.inits = es₁.flatMap Expr.inits) (hvars : e.vars = es₁.flatMap Expr.vars)
    (hvars' : e'.vars = es₁'.flatMap Expr.vars)
    (heval : ∀ env t, List.Forall₂ (SameValue env t) es₁ es₁' → SameValue env t e e') :
    Hoisted n [e] ds₁ [e'] where
  length := by
    rw [h.length, List.flatMap_singleton, hinits]
  names := h.names
  wellScoped := h.wellScoped
  vars := by
    intro x e'' he'' hx
    obtain rfl := List.mem_singleton.mp he''
    rw [hvars'] at hx
    obtain ⟨e', he', hx⟩ := List.mem_flatMap.mp hx
    obtain ⟨f, hf, hx⟩ := h.vars x e' he' hx
    refine ⟨e, List.mem_singleton_self e, ?_⟩
    rw [hvars]
    exact List.mem_flatMap.mpr ⟨f, hf, hx⟩
  temps := by
    intro e'' he'' m hm
    obtain rfl := List.mem_singleton.mp he''
    rw [mem_temps, hvars'] at hm
    obtain ⟨e', he', hm⟩ := List.mem_flatMap.mp hm
    exact h.temps e' he' (mem_temps.mpr hm)
  used := by
    intro hne
    obtain ⟨f', hf', hne⟩ := h.used hne
    obtain ⟨m, hm⟩ := List.exists_mem_of_ne_nil _ hne
    refine ⟨e', List.mem_singleton_self e', List.ne_nil_of_mem (a := m) (mem_temps.mpr ?_)⟩
    rw [hvars']
    exact List.mem_flatMap.mpr ⟨f', hf', mem_temps.mp hm⟩
  reads := by
    intro x hx
    obtain ⟨f, hf, hx⟩ := h.reads x hx
    refine ⟨e, List.mem_singleton_self e, ?_⟩
    obtain ⟨i, hi, hx⟩ := List.mem_flatMap.mp hx
    refine List.mem_flatMap.mpr ⟨i, ?_, hx⟩
    rw [hinits]
    exact List.mem_flatMap.mpr ⟨f, hf, hi⟩
  ready := by
    intro env hok
    refine h.ready env fun f hf i hi => hok e (List.mem_singleton_self e) i ?_
    rw [hinits]
    exact List.mem_flatMap.mpr ⟨f, hf, hi⟩
  eval env t hinit := .cons (heval env t (h.eval env t hinit)) .nil

/-- The value of an expression becomes that of one more temporary. -/
theorem tmp {s : Storage} {e : Expr V} {e' : Expr (V ⊕ ℕ)} (h : Hoisted n [e] ds₁ [e']) :
    Hoisted n [.tmp s e] (ds₁ ++ [⟨n + ds₁.length, s, e'⟩]) [.var s (.inr (n + ds₁.length))] := by
  have htemps := h.temps e' (List.mem_singleton_self e')
  have hscoped : Decl.Scoped [] (ds₁ ++ [⟨n + ds₁.length, s, e'⟩]) :=
    Decl.scoped_append.mpr ⟨h.wellScoped, htemps, trivial⟩
  have hvalue : ∀ env t, Init env ds₁ t → SameValue env t e e' := fun env t hinit =>
    (List.forall₂_cons.mp (h.eval env t hinit)).1
  refine ⟨?_, ?_, hscoped, ?_, ?_, ?_, ?_, ?_, ?_⟩
  · rw [List.length_append, h.length, List.flatMap_singleton, List.flatMap_singleton, Expr.inits,
      List.length_append]
    rfl
  · rw [Decl.names_append, h.names, List.length_append, List.length_singleton,
      List.range'_1_concat]
    rfl
  · intro x e'' he'' hx
    obtain rfl := List.mem_singleton.mp he''
    simp [Expr.vars] at hx
  · intro e'' he'' m hm
    obtain rfl := List.mem_singleton.mp he''
    rw [mem_temps] at hm
    obtain hm : m = n + ds₁.length := by simpa [Expr.vars] using hm
    rw [hm, Decl.names_append]
    exact List.mem_append_right _ (List.mem_singleton_self _)
  · exact fun _ => ⟨_, List.mem_singleton_self _, by simp [Expr.temps, Expr.vars]⟩
  · rintro x ⟨d, hd, hx⟩
    refine ⟨.tmp s e, List.mem_singleton_self _, ?_⟩
    rw [Expr.tmpVars, Expr.inits, List.flatMap_append, List.mem_append]
    rcases List.mem_append.mp hd with hd | hd
    · obtain ⟨f, hf, hx⟩ := h.reads x ⟨d, hd, hx⟩
      obtain rfl := List.mem_singleton.mp hf
      exact .inl hx
    · obtain rfl := List.mem_singleton.mp hd
      obtain ⟨f, hf, hx⟩ := h.vars x e' (List.mem_singleton_self e') hx
      obtain rfl := List.mem_singleton.mp hf
      exact .inr (List.mem_flatMap.mpr ⟨f, List.mem_singleton_self f, hx⟩)
  · intro env hok
    obtain ⟨hparts, hsome⟩ := List.forall_mem_append.mp (hok _ (List.mem_singleton_self _))
    obtain ⟨v, hv⟩ := Option.isSome_iff_exists.mp (hsome e (List.mem_singleton_self e))
    refine (h.ready env ?_).concat hscoped (fun hm => ?_) fun t hinit => ⟨v, ?_⟩
    · exact fun f hf => List.mem_singleton.mp hf ▸ hparts
    · exact absurd (h.mem_names hm).2 (lt_irrefl _)
    · exact (hvalue env t hinit).1.trans hv
  · intro env t hinit
    obtain ⟨hinit₁, hlast⟩ := Init.append.mp hinit
    obtain ⟨v, hv, ht⟩ := hlast _ (List.mem_singleton_self _)
    have he := (hvalue env t hinit₁).1
    refine .cons ⟨?_, rfl⟩ .nil
    simp only [Expr.eval, Sum.elim_inr, ht]
    rw [← he, hv, Option.map_some, Storage.conv_of_inRange (s.conv_inRange v)]

end Hoisted

theorem Expr.hoist_hoisted (e : Expr V) (n : ℕ) : Hoisted n [e] (e.hoist n).1 [(e.hoist n).2] := by
  induction e generalizing n with
  | lit t v => exact (Hoisted.nil n).node rfl rfl rfl fun _ _ _ => ⟨rfl, rfl⟩
  | var s x => exact Hoisted.var n s x
  | neg e ih =>
    refine (ih n).node (by simp [inits]) (by simp [vars]) (by simp [hoist, vars]) ?_
    intro env t h
    obtain ⟨⟨he, hty⟩, -⟩ := List.forall₂_cons.mp h
    exact ⟨by simp only [hoist, eval, he, hty], hty⟩
  | compl e ih =>
    refine (ih n).node (by simp [inits]) (by simp [vars]) (by simp [hoist, vars]) ?_
    intro env t h
    obtain ⟨⟨he, hty⟩, -⟩ := List.forall₂_cons.mp h
    exact ⟨by simp only [hoist, eval, he, hty], hty⟩
  | bin op a b iha ihb =>
    refine ((iha n).append (ihb _)).node (by simp [inits]) (by simp [vars])
      (by simp [hoist, vars]) ?_
    intro env t h
    obtain ⟨⟨ha, hta⟩, h⟩ := List.forall₂_cons.mp h
    obtain ⟨⟨hb, htb⟩, -⟩ := List.forall₂_cons.mp h
    exact ⟨by simp only [hoist, eval, ha, hb, hta, htb], by simp only [hoist, type, hta, htb]⟩
  | cast s e ih =>
    refine (ih n).node (by simp [inits]) (by simp [vars]) (by simp [hoist, vars]) ?_
    intro env t h
    obtain ⟨⟨he, hty⟩, -⟩ := List.forall₂_cons.mp h
    exact ⟨by simp only [hoist, eval, he], rfl⟩
  | tmp s e ih => exact (ih n).tmp
  | cond c a b ihc iha ihb =>
    refine ((ihc n).append ((iha _).append (ihb _))).node (by simp [inits]) (by simp [vars])
      (by simp [hoist, vars]) ?_
    intro env t h
    obtain ⟨⟨hc, -⟩, h⟩ := List.forall₂_cons.mp h
    obtain ⟨⟨ha, hta⟩, h⟩ := List.forall₂_cons.mp h
    obtain ⟨⟨hb, htb⟩, -⟩ := List.forall₂_cons.mp h
    exact ⟨by simp only [hoist, eval, hc, ha, hb, hta, htb], by simp only [hoist, type, hta, htb]⟩

/-- What is left of an expression reads the variables that are not read by temporaries. -/
theorem Expr.mem_direct {e : Expr V} {n : ℕ} {x : V} (hx : .inl x ∈ (e.hoist n).2.vars) :
    x ∈ e.direct := by
  induction e generalizing n with
  | lit t v => exact absurd hx List.not_mem_nil
  | var s y => simpa [hoist, vars, direct] using hx
  | neg e ih => exact ih hx
  | compl e ih => exact ih hx
  | bin op a b iha ihb =>
    exact List.mem_append.mpr ((List.mem_append.mp hx).imp iha ihb)
  | cast s e ih => exact ih hx
  | tmp s e => simp [hoist, vars] at hx
  | cond c a b ihc iha ihb =>
    refine List.mem_append.mpr ((List.mem_append.mp hx).imp ihc fun hx => ?_)
    exact List.mem_append.mpr ((List.mem_append.mp hx).imp iha ihb)

/-! ### Conditions, calls and values -/

inductive CmpOp
  | eq
  | ne
  | lt
  | le
  | gt
  | ge
  deriving DecidableEq

def CmpOp.holds (x y : ℤ) : CmpOp → Bool
  | eq => x == y
  | ne => x != y
  | lt => decide (x < y)
  | le => decide (x ≤ y)
  | gt => decide (y < x)
  | ge => decide (y ≤ x)

/-- Conditions on the values of expressions `E` and on tests `T` of the state. -/
inductive Cond (E T : Type)
  | lit (b : Bool)
  | test (t : T)
  | cmp (op : CmpOp) (a b : E)
  | not (c : Cond E T)
  | and (c d : Cond E T)
  | or (c d : Cond E T)

/-- What has a value: an expression, a condition or a call. -/
inductive Head (E F T : Type)
  | expr (e : E)
  | cond (c : Cond E T)
  | call (f : F) (args : List E)

/-- The variables of a state, the calls and the tests. -/
structure Effects (σ V F T : Type) where
  read : σ → V → ℤ
  write : V → ℤ → σ → σ
  call : F → List ℤ → σ → ℤ × σ
  test : T → σ → Bool
  /-- The variables that a call may change. -/
  writes : F → V → Bool
  read_write : ∀ {x y : V} {v : ℤ} {s : σ}, y ≠ x → read (write x v s) y = read s y
  read_call : ∀ {f : F} {args : List ℤ} {s : σ} {y : V}, writes f y = false →
    read (call f args s).2 y = read s y

variable {E E' F T σ W : Type}

namespace Cond

def exprs : Cond E T → List E
  | lit _ => []
  | test _ => []
  | cmp _ a b => [a, b]
  | not c => exprs c
  | and c d => exprs c ++ exprs d
  | or c d => exprs c ++ exprs d

/-- The value of a condition, from those of its expressions. -/
def value (test : T → Bool) (val : E → ℤ) : Cond E T → Bool
  | .lit b => b
  | .test t => test t
  | .cmp op a b => op.holds (val a) (val b)
  | .not c => !value test val c
  | .and c d => value test val c && value test val d
  | .or c d => value test val c || value test val d

/-- All comparisons of a condition have a property. -/
def AllCmp (P : E → E → Prop) : Cond E T → Prop
  | .cmp _ a b => P a b
  | .not c => AllCmp P c
  | .and c d => AllCmp P c ∧ AllCmp P d
  | .or c d => AllCmp P c ∧ AllCmp P d
  | _ => True

def traverse (f : E → Option E') : Cond E T → Option (Cond E' T)
  | .lit b => some (.lit b)
  | .test t => some (.test t)
  | .cmp op a b => (f a).bind fun a' => (f b).map fun b' => .cmp op a' b'
  | .not c => (traverse f c).map .not
  | .and c d => (traverse f c).bind fun c' => (traverse f d).map fun d' => .and c' d'
  | .or c d => (traverse f c).bind fun c' => (traverse f d).map fun d' => .or c' d'

/-- The right part of a conjunction or a disjunction is not always evaluated. -/
def eval (test : T → Bool) (env : W → ℤ) : Cond (Expr W) T → Option Bool
  | .lit b => some b
  | .test t => some (test t)
  | .cmp op a b => (a.eval env).bind fun x => (b.eval env).map fun y =>
    op.holds ((a.type.join b.type).conv x) ((a.type.join b.type).conv y)
  | .not c => (eval test env c).map (!·)
  | .and c d => (eval test env c).bind fun b => if b then eval test env d else some false
  | .or c d => (eval test env c).bind fun b => if b then some true else eval test env d

def hoist : Cond (Expr V) T → ℕ → List (Decl V) × Cond (Expr (V ⊕ ℕ)) T
  | .lit b, _ => ([], .lit b)
  | .test t, _ => ([], .test t)
  | .cmp op a b, n =>
    let p := a.hoist n
    let q := b.hoist (n + p.1.length)
    (p.1 ++ q.1, .cmp op p.2 q.2)
  | .not c, n => ((hoist c n).1, .not (hoist c n).2)
  | .and c d, n =>
    let p := hoist c n
    let q := hoist d (n + p.1.length)
    (p.1 ++ q.1, .and p.2 q.2)
  | .or c d, n =>
    let p := hoist c n
    let q := hoist d (n + p.1.length)
    (p.1 ++ q.1, .or p.2 q.2)

theorem hoist_hoisted (c : Cond (Expr V) T) (n : ℕ) :
    Hoisted n c.exprs (c.hoist n).1 (c.hoist n).2.exprs := by
  induction c generalizing n with
  | lit b => exact Hoisted.nil n
  | test t => exact Hoisted.nil n
  | cmp op a b => exact (a.hoist_hoisted n).append (b.hoist_hoisted _)
  | not c ih => exact ih n
  | and c d ihc ihd => exact (ihc n).append (ihd _)
  | or c d ihc ihd => exact (ihc n).append (ihd _)

theorem eval_hoist (test : T → Bool) {c : Cond (Expr V) T} {n : ℕ}
    (h : Init env (c.hoist n).1 t) :
    (c.hoist n).2.eval test (Sum.elim env t) = c.eval test env := by
  induction c generalizing n with
  | lit b => rfl
  | test t => rfl
  | cmp op a b =>
    obtain ⟨ha, hb⟩ := Init.append.mp h
    obtain ⟨⟨ha, hta⟩, -⟩ := List.forall₂_cons.mp ((a.hoist_hoisted n).eval env t ha)
    obtain ⟨⟨hb, htb⟩, -⟩ := List.forall₂_cons.mp ((b.hoist_hoisted _).eval env t hb)
    simp only [hoist, eval, ha, hb, hta, htb]
  | not c ih => simp only [hoist, eval, ih h]
  | and c d ihc ihd =>
    obtain ⟨hc, hd⟩ := Init.append.mp h
    simp only [hoist, eval, ihc hc, ihd hd]
  | or c d ihc ihd =>
    obtain ⟨hc, hd⟩ := Init.append.mp h
    simp only [hoist, eval, ihc hc, ihd hd]

end Cond

/-- The arguments of a call, without their temporaries. -/
def hoistArgs : List (Expr V) → ℕ → List (Decl V) × List (Expr (V ⊕ ℕ))
  | [], _ => ([], [])
  | e :: es, n =>
    let p := e.hoist n
    let q := hoistArgs es (n + p.1.length)
    (p.1 ++ q.1, p.2 :: q.2)

theorem hoistArgs_hoisted (es : List (Expr V)) (n : ℕ) :
    Hoisted n es (hoistArgs es n).1 (hoistArgs es n).2 := by
  induction es generalizing n with
  | nil => exact Hoisted.nil n
  | cons e es ih => exact (e.hoist_hoisted n).append (ih _)

theorem mapM_eval_eq {es : List (Expr V)} {es' : List (Expr (V ⊕ ℕ))}
    (h : List.Forall₂ (SameValue env t) es es') :
    es'.mapM (Expr.eval (Sum.elim env t)) = es.mapM (Expr.eval env) := by
  induction h with
  | nil => rfl
  | cons he _ ih => rw [List.mapM_cons, List.mapM_cons, he.1, ih]

namespace Head

def exprs : Head E F T → List E
  | expr e => [e]
  | cond c => c.exprs
  | call _ args => args

def traverse (f : E → Option E') : Head E F T → Option (Head E' F T)
  | .expr e => (f e).map .expr
  | .cond c => (c.traverse f).map .cond
  | .call m args => (args.mapM f).map (.call m)

/-- The value, and the state after a call, when expressions have the values `ev` and
conditions the values `cev`. -/
def exec (M : Effects σ V F T) (ev : E → Option ℤ) (cev : Cond E T → Option Bool) (s : σ) :
    Head E F T → Option (ℤ × σ)
  | expr e => (ev e).map fun v => (v, s)
  | cond c => (cev c).map fun b => (if b then 1 else 0, s)
  | call f args => (args.mapM ev).map fun vs => M.call f vs s

/-- The value of C expressions without temporaries. -/
def eval (M : Effects σ V F T) (env : W → ℤ) (s : σ) (h : Head (Expr W) F T) : Option (ℤ × σ) :=
  h.exec M (Expr.eval env) (Cond.eval (M.test · s) env) s

/-- The value, with the temporaries. -/
def run (M : Effects σ V F T) (s : σ) (h : Head (Expr V) F T) : Option (ℤ × σ) :=
  if ∀ e ∈ h.exprs, e.InitsOk (M.read s) then h.eval M (M.read s) s else none

def hoist : Head (Expr V) F T → ℕ → List (Decl V) × Head (Expr (V ⊕ ℕ)) F T
  | .expr e, n => ((e.hoist n).1, .expr (e.hoist n).2)
  | .cond c, n => ((c.hoist n).1, .cond (c.hoist n).2)
  | .call f args, n => ((hoistArgs args n).1, .call f (hoistArgs args n).2)

theorem hoist_hoisted (h : Head (Expr V) F T) (n : ℕ) :
    Hoisted n h.exprs (h.hoist n).1 (h.hoist n).2.exprs := by
  cases h with
  | expr e => exact e.hoist_hoisted n
  | cond c => exact c.hoist_hoisted n
  | call f args => exact hoistArgs_hoisted args n

/-- **A value is the same without the temporaries, once these are declared.** -/
theorem eval_hoist (M : Effects σ V F T) {h : Head (Expr V) F T} {n : ℕ} {s : σ}
    (hinit : Init env (h.hoist n).1 t) :
    (h.hoist n).2.eval M (Sum.elim env t) s = h.eval M env s := by
  cases h with
  | expr e =>
    obtain ⟨⟨he, -⟩, -⟩ := List.forall₂_cons.mp ((e.hoist_hoisted n).eval env t hinit)
    simp only [hoist, eval, exec, he]
  | cond c => simp only [hoist, eval, exec, Cond.eval_hoist _ hinit]
  | call f args =>
    simp only [hoist, eval, exec, mapM_eval_eq ((hoistArgs_hoisted args n).eval env t hinit)]

/-- The variables that are changed when the value is computed. -/
def Changes (M : Effects σ V F T) (x : V) : Head E F T → Prop
  | call f _ => M.writes f x = true
  | _ => False

instance (M : Effects σ V F T) (x : V) : (h : Head E F T) → Decidable (h.Changes M x)
  | expr _ => isFalse id
  | cond _ => isFalse id
  | call f _ => inferInstanceAs (Decidable (M.writes f x = true))

theorem run_eq_some {M : Effects σ V F T} {s : σ} {h : Head (Expr V) F T} {r : ℤ × σ} :
    h.run M s = some r ↔
      (∀ e ∈ h.exprs, e.InitsOk (M.read s)) ∧ h.eval M (M.read s) s = some r :=
  Option.ite_none_right_eq_some

theorem run_expr (M : Effects σ V F T) (s : σ) (e : Expr V) :
    (expr e : Head (Expr V) F T).run M s = (e.run (M.read s)).map fun v => (v, s) := by
  by_cases hok : e.InitsOk (M.read s)
  · rw [Expr.run_of_initsOk _ hok, run, exprs, if_pos (List.forall_mem_singleton.mpr hok)]
    rfl
  · rw [Expr.run_of_not_initsOk _ hok, run, exprs,
      if_neg fun h => hok (List.forall_mem_singleton.mp h)]
    rfl

/-- What is not changed keeps its value. -/
theorem read_exec {M : Effects σ V F T} {ev : E → Option ℤ} {cev : Cond E T → Option Bool}
    {s s' : σ} {h : Head E F T} {v : ℤ} (hexec : h.exec M ev cev s = some (v, s')) {x : V}
    (hx : ¬ h.Changes M x) : M.read s' x = M.read s x := by
  cases h with
  | expr e =>
    obtain ⟨_, -, hs⟩ := Option.map_eq_some_iff.mp hexec
    cases hs
    rfl
  | cond c =>
    obtain ⟨_, -, hs⟩ := Option.map_eq_some_iff.mp hexec
    cases hs
    rfl
  | call f args =>
    obtain ⟨vs, -, hs⟩ := Option.map_eq_some_iff.mp hexec
    have hread := @M.read_call f vs s x (Bool.eq_false_of_not_eq_true hx)
    rw [hs] at hread
    exact hread

end Head

/-! ### Statements -/

/-- A statement, or the cases of a `switch`. -/
inductive Kind
  | stmt
  | cases

inductive Code (V F T : Type) : Kind → Type
  | empty : Code V F T .stmt
  | seq (first second : Code V F T .stmt) : Code V F T .stmt
  | decls (ds : List (Decl V)) : Code V F T .stmt
  | assign (x : V) (h : Head (Expr (V ⊕ ℕ)) F T) : Code V F T .stmt
  | eval (h : Head (Expr (V ⊕ ℕ)) F T) : Code V F T .stmt
  | ite (h : Head (Expr (V ⊕ ℕ)) F T) (ifTrue ifFalse : Code V F T .stmt) : Code V F T .stmt
  | switch (h : Head (Expr (V ⊕ ℕ)) F T) (cases : Code V F T .cases) : Code V F T .stmt
  | noCase : Code V F T .cases
  | case (label : ℤ) (body : Code V F T .stmt) (rest : Code V F T .cases) : Code V F T .cases
  | default (body : Code V F T .stmt) : Code V F T .cases

namespace Code

/-- The state and the temporaries after a statement.  Cases also get the value that is
switched on.  What is declared in a block is gone after it. -/
def run (M : Effects σ V F T) : {k : Kind} → Code V F T k → ℤ → σ → (ℕ → ℤ) →
    Option (σ × (ℕ → ℤ))
  | _, empty, _, s, t => some (s, t)
  | _, seq a b, v, s, t => (run M a v s t).bind fun r => run M b v r.1 r.2
  | _, decls ds, _, s, t => (Decl.run (M.read s) ds t).map fun t' => (s, t')
  | _, assign x h, _, s, t =>
    (h.eval M (Sum.elim (M.read s) t) s).map fun r => (M.write x r.1 r.2, t)
  | _, eval h, _, s, t => (h.eval M (Sum.elim (M.read s) t) s).map fun r => (r.2, t)
  | _, ite h a b, v, s, t => (h.eval M (Sum.elim (M.read s) t) s).bind fun r =>
    (if r.1 ≠ 0 then run M a v r.2 t else run M b v r.2 t).map fun r => (r.1, t)
  | _, switch h cs, _, s, t => (h.eval M (Sum.elim (M.read s) t) s).bind fun r =>
    (run M cs r.1 r.2 t).map fun r => (r.1, t)
  | _, noCase, _, s, t => some (s, t)
  | _, case l a rest, v, s, t => if v = l then run M a v s t else run M rest v s t
  | _, default a, v, s, t => run M a v s t

section Run

variable {M : Effects σ V F T} {h : Head (Expr (V ⊕ ℕ)) F T} {a b : Code V F T .stmt}
  {cs : Code V F T .cases} {v : ℤ} {s : σ} {t : ℕ → ℤ}

theorem run_seq : (seq a b).run M v s t = (a.run M v s t).bind fun r => b.run M v r.1 r.2 := rfl

theorem run_decls {ds : List (Decl V)} :
    (decls ds : Code V F T .stmt).run M v s t = (Decl.run (M.read s) ds t).map fun t' => (s, t') :=
  rfl

theorem run_assign {x : V} : (assign x h).run M v s t =
    (h.eval M (Sum.elim (M.read s) t) s).map fun r => (M.write x r.1 r.2, t) := rfl

theorem run_eval : (eval h : Code V F T .stmt).run M v s t =
    (h.eval M (Sum.elim (M.read s) t) s).map fun r => (r.2, t) := rfl

theorem run_ite : (ite h a b).run M v s t =
    (h.eval M (Sum.elim (M.read s) t) s).bind fun r =>
      (if r.1 ≠ 0 then a.run M v r.2 t else b.run M v r.2 t).map fun r => (r.1, t) := rfl

theorem run_switch : (switch h cs).run M v s t =
    (h.eval M (Sum.elim (M.read s) t) s).bind fun r =>
      (cs.run M r.1 r.2 t).map fun r => (r.1, t) := rfl

theorem run_case {l : ℤ} : (case l a cs).run M v s t =
    if v = l then a.run M v s t else cs.run M v s t := rfl

end Run

/-- The temporaries that are declared for what follows. -/
def declared : {k : Kind} → Code V F T k → List ℕ
  | _, seq a b => declared a ++ declared b
  | _, decls ds => Decl.names ds
  | _, _ => []

/-- The temporaries that a value uses. -/
def uses (h : Head (Expr (V ⊕ ℕ)) F T) : List ℕ := h.exprs.flatMap Expr.temps

/-- Only declared temporaries are used. -/
def Scoped : {k : Kind} → List ℕ → Code V F T k → Prop
  | _, _, empty => True
  | _, D, seq a b => Scoped D a ∧ Scoped (D ++ declared a) b
  | _, D, decls ds => Decl.Scoped D ds
  | _, D, assign _ h => uses h ⊆ D
  | _, D, eval h => uses h ⊆ D
  | _, D, ite h a b => uses h ⊆ D ∧ Scoped D a ∧ Scoped D b
  | _, D, switch h cs => uses h ⊆ D ∧ Scoped D cs
  | _, _, noCase => True
  | _, D, case _ a rest => Scoped D a ∧ Scoped D rest
  | _, D, default a => Scoped D a

theorem declared_decls (ds : List (Decl V)) :
    (decls ds : Code V F T .stmt).declared = Decl.names ds := rfl

section Scoped

variable {D : List ℕ} {h : Head (Expr (V ⊕ ℕ)) F T} {a b : Code V F T .stmt}
  {cs : Code V F T .cases}

theorem scoped_seq : (seq a b).Scoped D ↔ a.Scoped D ∧ b.Scoped (D ++ a.declared) := Iff.rfl

theorem scoped_decls {ds : List (Decl V)} :
    (decls ds : Code V F T .stmt).Scoped D ↔ Decl.Scoped D ds := Iff.rfl

theorem scoped_ite : (ite h a b).Scoped D ↔ uses h ⊆ D ∧ a.Scoped D ∧ b.Scoped D := Iff.rfl

theorem scoped_switch : (switch h cs).Scoped D ↔ uses h ⊆ D ∧ cs.Scoped D := Iff.rfl

theorem scoped_case {l : ℤ} : (case l a cs).Scoped D ↔ a.Scoped D ∧ cs.Scoped D := Iff.rfl

theorem scoped_default : (default a).Scoped D ↔ a.Scoped D := Iff.rfl

end Scoped

theorem uses_subset (h : Head (Expr V) F T) (n : ℕ) :
    uses (h.hoist n).2 ⊆ Decl.names (h.hoist n).1 := by
  intro m hm
  obtain ⟨e, he, hm⟩ := List.mem_flatMap.mp hm
  exact (h.hoist_hoisted n).temps e he hm

theorem hoist_eq_nil_iff (h : Head (Expr V) F T) (n : ℕ) :
    (h.hoist n).1 = [] ↔ ∀ e ∈ h.exprs, e.inits = [] := by
  rw [← List.length_eq_zero_iff, (h.hoist_hoisted n).length, List.length_eq_zero_iff,
    List.flatMap_eq_nil_iff]

/-- A value uses a temporary if there are any. -/
theorem uses_eq_nil_iff (h : Head (Expr V) F T) (n : ℕ) :
    uses (h.hoist n).2 = [] ↔ (h.hoist n).1 = [] := by
  constructor
  · intro huses
    by_contra hne
    obtain ⟨e, he, hm⟩ := (h.hoist_hoisted n).used hne
    exact hm (List.flatMap_eq_nil_iff.mp huses e he)
  · intro hnil
    have := uses_subset h n
    rw [hnil] at this
    exact List.subset_nil.mp this

end Code

end CInt
