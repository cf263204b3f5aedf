/-
The paths of a parser as `parser_generate_states` lists them.

The generator walks through the parser with a set of known states.  A direct transition passes on
the set without its own state, so only selects are known behind it; a case that leads to a known
state is listed without its conditions, and is missing among the negations behind it; and a case
with more than one condition replaces the keys of the cases behind it.

* **`pathLaw_of_ok`** — in a parser without these the generator terminates, all that it lists are
  paths with their conditions and negations, and every simple path to `accept` is listed.
* **`terminates_iff`** — it terminates iff no cycle of direct transitions can be reached.
* `outputCases_eq` — what one select lists, by its cases.
-/
import Mathlib.Data.Fintype.Card
import Mathlib.Data.Fintype.Basic
import Mathlib.Data.Finset.Card
import Mathlib.Data.Fintype.EquivFin
import Mathlib.Logic.Relation
import Mathlib.Order.WellFounded
import T4P4S.Lib.CText

open CText

namespace T4P4S

namespace ParserPaths

/-! ### Keys and conditions -/

/-- An expression of a keyset. -/
inductive Key
  | default
  | constant (value : ℤ) (size : ℕ)
  | other (nodeType : Text)

def decimal (v : ℤ) : Text :=
  if v < 0 then '-' :: Nat.toDigits 10 v.natAbs else Nat.toDigits 10 v.natAbs

/-- `f'{value:0{width}x}'` -/
def paddedHex (width value : ℕ) : Text :=
  List.replicate (width - (Nat.toDigits 16 value).length) '0' ++ Nat.toDigits 16 value

/-- `fmt_key` -/
def fmtKey : Key → Text
  | .default => ['_']
  | .constant value size =>
    if value < 10 then decimal value else paddedHex ((size + 3) / 4) value.toNat
  | .other nodeType => "???#".toList ++ nodeType

inductive Keyset
  | list (components : List Key)
  | single (k : Key)

/-- `get_elems` -/
def getElems : Keyset → List Text
  | .list components => components.map fmtKey
  | .single (.constant value size) => [fmtKey (.constant value size)]
  | .single _ => []

/-- A component of the expression of a select. -/
inductive Comp
  | slice (name : Text) (e1 e2 : ℕ)
  | path (name : Text)
  | ofPath (name member : Text) (size : ℕ)
  | arrayIndex (left member : Text) (index size : ℕ)
  | ofMember (exprMember member : Text) (size : ℕ)

/-- `get_name` -/
def getName : Comp → Text
  | .slice name e1 e2 =>
    name ++ '[' :: (Nat.toDigits 10 e1 ++ ':' :: (Nat.toDigits 10 e2 ++ [']']))
  | .path name => name
  | .ofPath name member size =>
    if name = "standard_metadata".toList then
      "all_metadatas.".toList ++ member ++ '/' :: Nat.toDigits 10 size
    else name ++ '/' :: Nat.toDigits 10 size
  | .arrayIndex left member index size =>
    left ++ '.' :: (member ++ '[' :: (Nat.toDigits 10 index ++ ']' :: '/' :: Nat.toDigits 10 size))
  | .ofMember exprMember member size =>
    exprMember ++ '.' :: (member ++ '/' :: Nat.toDigits 10 size)

/-- `infos`: the keys with their values, without those that match anything. -/
def infosOf (keys elems : List Text) : List Text :=
  ((keys.zip elems).filter fun kv => kv.2 ≠ ['_']).map fun kv => kv.1 ++ '=' :: kv.2

/-- `re.sub(r"[.].*", "", info)` -/
def beforeDot (info : Text) : Text := info.takeWhile (· ≠ '.')

/-- `re.sub(r"[^.]*[.]", ".", info)` -/
def fromDot (info : Text) : Text :=
  List.replicate (info.count '.') '.' ++ (info.splitOn '.').getLast (List.splitOn_ne_nil '.' info)

/-- `NOT_separator.join` -/
def joinNot (infos : List Text) : Text := ['▶'].intercalate infos

/-- The order in which Python goes through a set. -/
structure SetOrder where
  order : List Text → List Text
  perm : ∀ l, (order l).Perm l.dedup

/-- The keys and `prev_conds` behind a case. -/
def afterCase (P : SetOrder) (keys prev infos : List Text) : List Text × List Text :=
  match infos with
  | [] => (keys, prev)
  | [info] => (keys, prev ++ [info.map fun c => if c = '=' then '≠' else c])
  | infos =>
    let keys := P.order (infos.map beforeDot)
    match keys with
    | [key] =>
      (keys, prev ++ [key ++ ".NOT(".toList ++ joinNot (infos.map fromDot) ++ [')']])
    | _ => (keys, prev ++ ["NOT(".toList ++ joinNot infos ++ [')']])

/-! ### The generator -/

variable {S : Type}

structure Case (S : Type) where
  keyset : Keyset
  next : S

/-- What a state of the parser does behind its statements. -/
inductive Body (S : Type)
  | accept
  | reject
  | direct (next : S)
  | select (components : List Comp) (cases : List (Case S))

structure Parser (S : Type) where
  name : S → Text
  body : S → Body S
  start : S

variable [DecidableEq S]

/-- The loop over the cases.  `none` means that the generator does not come to its end. -/
def outputCases (P : SetOrder) (newKnown : Finset S) (name : Text)
    (output : S → Option (List (List Text))) :
    List Text → List Text → List (Case S) → Option (List (List Text))
  | _, _, [] => some []
  | keys, prev, c :: cases =>
    let infos := infosOf keys (getElems c.keyset)
    if c.next ∈ newKnown then
      (outputCases P newKnown name output keys prev cases).map
        (["state-already-visited:".toList ++ name] :: ·)
    else
      (output c.next).bind fun outs =>
        let after := afterCase P keys prev infos
        (outputCases P newKnown name output after.1 after.2 cases).map
          (outs.map (fun info => infos ++ prev ++ info) ++ ·)

/-- `output_states`, with a bound for the depth of the recursion. -/
def outputStates (P : SetOrder) (G : Parser S) : ℕ → S → Finset S → Option (List (List Text))
  | 0, _, _ => none
  | n + 1, s, known =>
    let newKnown := insert s known
    match G.body s with
    | .accept => some [[]]
    | .reject => some [["rejected".toList]]
    | .select components cases =>
      outputCases P newKnown (G.name s) (fun t => outputStates P G n t newKnown)
        (components.map getName) [] cases
    | .direct t =>
      if t ∈ newKnown then some [["state-already-visited:".toList ++ G.name s]]
      else outputStates P G n t known

/-! ### Paths and their descriptions -/

/-- The values that a case asks for. -/
def condElems : Keyset → List Text
  | .list components => components.map fmtKey
  | .single k => [fmtKey k]

def Case.conditions (keys : List Text) (c : Case S) : List Text :=
  infosOf keys (condElems c.keyset)

/-- The text for conditions that do not all hold; there is none without conditions. -/
def negation : List Text → List Text
  | [] => []
  | [info] => [info.map fun c => if c = '=' then '≠' else c]
  | infos =>
    match (infos.map beforeDot).dedup with
    | [key] => [key ++ ".NOT(".toList ++ joinNot (infos.map fromDot) ++ [')']]
    | _ => ["NOT(".toList ++ joinNot infos ++ [')']]

def Case.negations (keys : List Text) (c : Case S) : List Text := negation (c.conditions keys)

/-- Where a path ends. -/
inductive End
  | accept
  | reject
  | repeated

def visitedText (G : Parser S) (s : S) : Text := "state-already-visited:".toList ++ G.name s

/-- `p` is a path from `s` to `accept`, to `reject` or to the first state that is in it or in `seen`
already, and `infos` are the conditions of its cases and the negations of those listed before them.
-/
inductive Describes (G : Parser S) : List S → S → List S → List Text → End → Prop
  | accept {seen s} : G.body s = .accept → Describes G seen s [s] [] .accept
  | reject {seen s} : G.body s = .reject → Describes G seen s [s] ["rejected".toList] .reject
  | direct {seen s t p infos e} : G.body s = .direct t → t ∉ s :: seen →
      Describes G (s :: seen) t p infos e → Describes G seen s (s :: p) infos e
  | directRepeated {seen s t} : G.body s = .direct t → t ∈ s :: seen →
      Describes G seen s [s, t] [visitedText G s] .repeated
  | case {seen s components pre c post p infos e} :
      G.body s = .select components (pre ++ c :: post) → c.next ∉ s :: seen →
      Describes G (s :: seen) c.next p infos e →
      Describes G seen s (s :: p) (c.conditions (components.map getName) ++
        pre.flatMap (Case.negations (components.map getName)) ++ infos) e
  | caseRepeated {seen s components pre c post} :
      G.body s = .select components (pre ++ c :: post) → c.next ∈ s :: seen →
      Describes G seen s [s, c.next] (c.conditions (components.map getName) ++
        pre.flatMap (Case.negations (components.map getName)) ++ [visitedText G s]) .repeated

/-- The generator comes to its end. -/
def Terminates (P : SetOrder) (G : Parser S) : Prop :=
  ∃ n outs, outputStates P G n G.start ∅ = some outs

/-- The generator terminates, lists paths only, and lists every simple path to `accept`. -/
def PathLaw (P : SetOrder) (G : Parser S) : Prop :=
  ∃ n outs, outputStates P G n G.start ∅ = some outs ∧
    (∀ infos ∈ outs, ∃ p e, Describes G [] G.start p infos e) ∧
    ∀ p infos, Describes G [] G.start p infos .accept → infos ∈ outs

/-! ### The parsers without the cases above -/

/-- A transition of the parser. -/
def Parser.Edge (G : Parser S) (s t : S) : Prop :=
  G.body s = .direct t ∨ ∃ components cases c, G.body s = .select components cases ∧ c ∈ cases ∧
    c.next = t

/-- `seen` are the states before `s` on a simple path from the start, the last one first. -/
inductive Parser.OnPath (G : Parser S) : List S → S → Prop
  | start : G.OnPath [] G.start
  | step {seen s t} : G.OnPath seen s → G.Edge s t → t ∉ s :: seen → G.OnPath (s :: seen) t

def Parser.IsSelect (G : Parser S) (s : S) : Prop :=
  ∃ components cases, G.body s = .select components cases

/-- A keyset that `get_elems` knows. -/
def Keyset.Known : Keyset → Prop
  | .single (.other _) => False
  | _ => True

/-- The cases of a select behind `seen`. -/
structure CasesOk (seen : List S) (keys : List Text) (pre : List (Case S)) (c : Case S)
    (post : List (Case S)) : Prop where
  known : c.keyset.Known
  visited : c.next ∈ seen → ∀ d ∈ pre ++ [c], d.conditions keys = []
  several : 2 ≤ (c.conditions keys).length → ∀ d ∈ post, d.conditions keys = []

/-- A direct transition to another state. -/
def Parser.Direct (G : Parser S) (s t : S) : Prop := G.body s = .direct t ∧ t ≠ s

/-- A cycle of direct transitions between several states can be reached. -/
def Parser.DirectCycle (G : Parser S) : Prop :=
  ∃ s, Relation.ReflTransGen G.Edge G.start s ∧ Relation.TransGen G.Direct s s

structure Parser.Ok (G : Parser S) : Prop where
  /-- The first state that is repeated is a select, unless it is the last one. -/
  repeated : ∀ seen s t, G.OnPath seen s → G.Edge s t → t ∈ seen → t = s ∨ G.IsSelect t
  cases : ∀ seen s components pre c post, G.OnPath seen s →
    G.body s = .select components (pre ++ c :: post) →
    CasesOk (s :: seen) (components.map getName) pre c post

/-! ### Conditions -/

theorem infosOf_eq_nil_iff {keys elems : List Text} :
    infosOf keys elems = [] ↔ ∀ e ∈ elems.take keys.length, e = ['_'] := by
  induction keys generalizing elems with
  | nil => exact iff_of_true rfl fun e he => absurd he List.not_mem_nil
  | cons key keys ih =>
    cases elems with
    | nil => exact iff_of_true rfl fun e he => absurd he List.not_mem_nil
    | cons e elems =>
      rw [infosOf, List.zip_cons_cons, List.length_cons, List.take_succ_cons, List.forall_mem_cons,
        List.map_eq_nil_iff, List.filter_cons]
      by_cases he : e = ['_']
      · rw [if_neg (by simpa using he), ← List.map_eq_nil_iff]
        exact ih.trans (and_iff_right he).symm
      · rw [if_pos (by simpa using he)]
        exact iff_of_false (List.cons_ne_nil _ _) fun h => he h.1

/-- Without conditions there are none either for fewer keys. -/
theorem infosOf_nil_of_le {keys keys' elems : List Text} (h : infosOf keys elems = [])
    (hle : keys'.length ≤ keys.length) : infosOf keys' elems = [] :=
  infosOf_eq_nil_iff.mpr fun e he =>
    infosOf_eq_nil_iff.mp h e (List.take_subset_take_left elems hle he)

theorem infosOf_length_le (keys elems : List Text) :
    (infosOf keys elems).length ≤ keys.length := by
  rw [infosOf, List.length_map]
  refine (List.length_filter_le _ _).trans ?_
  rw [List.length_zip]
  exact min_le_left _ _

/-- `get_elems` leaves out nothing that it knows. -/
theorem infosOf_getElems {k : Keyset} (hk : k.Known) (keys : List Text) :
    infosOf keys (getElems k) = infosOf keys (condElems k) := by
  match k, hk with
  | .list components, _ => rfl
  | .single (.constant value size), _ => rfl
  | .single .default, _ =>
    cases keys with
    | nil => rfl
    | cons key keys => simp [getElems, condElems, fmtKey, infosOf]

theorem afterCase_snd (P : SetOrder) (keys prev infos : List Text) :
    (afterCase P keys prev infos).2 = prev ++ negation infos := by
  match infos with
  | [] => exact (List.append_nil prev).symm
  | [info] => rfl
  | a :: b :: infos =>
    have hperm := P.perm ((a :: b :: infos).map beforeDot)
    -- a set of one element has one order
    match horder : P.order ((a :: b :: infos).map beforeDot) with
    | [] =>
      have hdedup : ((a :: b :: infos).map beforeDot).dedup = [] :=
        List.nil_perm.mp (horder ▸ hperm)
      simp only [afterCase, negation, horder, hdedup]
    | [key] =>
      have hdedup : ((a :: b :: infos).map beforeDot).dedup = [key] :=
        (List.singleton_perm.mp (horder ▸ hperm)).symm
      simp only [afterCase, negation, horder, hdedup]
    | key :: key' :: keys =>
      rw [horder] at hperm
      simp only [afterCase, negation, horder]
      split
      · next hdedup =>
        rw [hdedup] at hperm
        exact absurd hperm.length_eq (by simp)
      · rfl

theorem afterCase_fst_of_lt {P : SetOrder} {keys prev infos : List Text} (h : infos.length < 2) :
    (afterCase P keys prev infos).1 = keys := by
  match infos, h with
  | [], _ => rfl
  | [_], _ => rfl

theorem afterCase_fst_length_le {P : SetOrder} {keys prev infos : List Text}
    (h : 2 ≤ infos.length) : (afterCase P keys prev infos).1.length ≤ infos.length := by
  match infos, h with
  | a :: b :: infos, _ =>
    have hfst : (afterCase P keys prev (a :: b :: infos)).1 =
        P.order ((a :: b :: infos).map beforeDot) := by
      simp only [afterCase]
      split <;> simp only [*]
    have hlen : ((a :: b :: infos).map beforeDot).length = (a :: b :: infos).length :=
      List.length_map _
    rw [hfst, (P.perm _).length_eq, ← hlen]
    exact (List.dedup_sublist _).length_le

/-! ### One select -/

section

variable {newKnown : Finset S} {seen : List S} {keys : List Text}

/-- What is listed behind the conditions of a case. -/
def tails (seen : List S) (name : Text) (output : S → Option (List (List Text))) (t : S) :
    List (List Text) :=
  if t ∈ seen then [["state-already-visited:".toList ++ name]] else (output t).getD []

/-- What one select lists: for each case the conditions, the negations and what is behind them. -/
theorem outputCases_eq (P : SetOrder) (name : Text) (output : S → Option (List (List Text)))
    {all : List (Case S)}
    (hok : ∀ pre c post, all = pre ++ c :: post → CasesOk seen keys pre c post)
    (hknown : ∀ c ∈ all, c.next ∈ newKnown ↔ c.next ∈ seen)
    (hout : ∀ c ∈ all, c.next ∉ seen → ∃ outs, output c.next = some outs)
    {pre cases : List (Case S)} (hall : all = pre ++ cases) {keys' : List Text}
    (hkeys : keys' = keys ∨
      (keys'.length ≤ keys.length ∧ ∀ d ∈ cases, d.conditions keys = [])) :
    ∃ outs, outputCases P newKnown name output keys' (pre.flatMap (Case.negations keys)) cases =
        some outs ∧
      ∀ infos, infos ∈ outs ↔ ∃ mid c post, cases = mid ++ c :: post ∧
        ∃ info ∈ tails seen name output c.next, infos =
          c.conditions keys ++ (pre ++ mid).flatMap (Case.negations keys) ++ info := by
  induction cases generalizing pre keys' with
  | nil =>
    refine ⟨[], rfl, fun infos => iff_of_false List.not_mem_nil ?_⟩
    rintro ⟨mid, c, post, hcases, -⟩
    exact absurd hcases (by simp)
  | cons c cases ih =>
    have hc := hok pre c cases hall
    have hmem : c ∈ all := by rw [hall]; simp
    have hall' : all = (pre ++ [c]) ++ cases := by rw [hall, List.append_assoc]; rfl
    have hprev : (pre ++ [c]).flatMap (Case.negations keys) =
        pre.flatMap (Case.negations keys) ++ c.negations keys := by
      rw [List.flatMap_append, List.flatMap_singleton]
    have hinfos : infosOf keys' (getElems c.keyset) = c.conditions keys := by
      rw [infosOf_getElems hc.known]
      rcases hkeys with rfl | ⟨hle, hnil⟩
      · rfl
      · have hcnil : c.conditions keys = [] := hnil c List.mem_cons_self
        rw [hcnil]
        exact infosOf_nil_of_le hcnil hle
    -- the cases of the list are the first one and the others
    have hsplit : ∀ infos, (∃ mid d post, c :: cases = mid ++ d :: post ∧
          ∃ info ∈ tails seen name output d.next, infos =
            d.conditions keys ++ (pre ++ mid).flatMap (Case.negations keys) ++ info) ↔
        (∃ info ∈ tails seen name output c.next, infos =
            c.conditions keys ++ pre.flatMap (Case.negations keys) ++ info) ∨
          ∃ mid d post, cases = mid ++ d :: post ∧
            ∃ info ∈ tails seen name output d.next, infos =
              d.conditions keys ++ ((pre ++ [c]) ++ mid).flatMap (Case.negations keys) ++ info := by
      intro infos
      constructor
      · rintro ⟨mid, d, post, heq, h⟩
        cases mid with
        | nil =>
          obtain ⟨rfl, rfl⟩ := List.cons.inj heq
          rw [List.append_nil] at h
          exact Or.inl h
        | cons e mid =>
          obtain ⟨rfl, rfl⟩ := List.cons.inj heq
          refine Or.inr ⟨mid, d, post, rfl, ?_⟩
          rwa [List.append_assoc]
      · rintro (h | ⟨mid, d, post, rfl, h⟩)
        · exact ⟨[], c, cases, rfl, by rwa [List.append_nil]⟩
        · refine ⟨c :: mid, d, post, rfl, ?_⟩
          rwa [List.append_assoc] at h
    by_cases hvisited : c.next ∈ seen
    · -- such a case has no conditions, and neither have those before it
      have hnone := hc.visited hvisited
      have hcnil : c.conditions keys = [] := hnone c (by simp)
      have hneg : (pre ++ [c]).flatMap (Case.negations keys) = [] :=
        List.flatMap_eq_nil_iff.mpr fun d hd => by rw [Case.negations, hnone d hd]; rfl
      have hneg' : pre.flatMap (Case.negations keys) = [] :=
        (List.append_eq_nil_iff.mp (hprev ▸ hneg)).1
      obtain ⟨outs, houts, hiff⟩ := ih hall' (hkeys.imp_right fun h =>
        ⟨h.1, fun d hd => h.2 d (List.mem_cons_of_mem c hd)⟩)
      rw [hneg] at houts
      refine ⟨["state-already-visited:".toList ++ name] :: outs, ?_, fun infos => ?_⟩
      · rw [outputCases, if_pos ((hknown c hmem).mpr hvisited), hneg', houts]
        rfl
      · rw [hsplit, List.mem_cons, hiff, tails, if_pos hvisited, hcnil, hneg']
        simp
    · obtain ⟨os, hos⟩ := hout c hmem hvisited
      have hafter : (afterCase P keys' (pre.flatMap (Case.negations keys))
          (c.conditions keys)).2 = (pre ++ [c]).flatMap (Case.negations keys) := by
        rw [afterCase_snd, hprev]
        rfl
      have hkeys' : (afterCase P keys' (pre.flatMap (Case.negations keys))
            (c.conditions keys)).1 = keys ∨
          ((afterCase P keys' (pre.flatMap (Case.negations keys))
            (c.conditions keys)).1.length ≤ keys.length ∧
              ∀ d ∈ cases, d.conditions keys = []) := by
        by_cases hlen : (c.conditions keys).length < 2
        · rw [afterCase_fst_of_lt hlen]
          exact hkeys.imp_right fun h => ⟨h.1, fun d hd => h.2 d (List.mem_cons_of_mem c hd)⟩
        · rw [not_lt] at hlen
          exact Or.inr ⟨(afterCase_fst_length_le hlen).trans (infosOf_length_le _ _),
            hc.several hlen⟩
      obtain ⟨outs, houts, hiff⟩ := ih hall' hkeys'
      refine ⟨os.map (fun info => c.conditions keys ++ pre.flatMap (Case.negations keys) ++ info) ++
        outs, ?_, fun infos => ?_⟩
      · rw [outputCases, if_neg (mt (hknown c hmem).mp hvisited), hos, hinfos]
        simp only [Option.bind_some, hafter, houts, Option.map_some]
      · rw [hsplit, List.mem_append, hiff, tails, if_neg hvisited, hos, Option.getD_some,
          List.mem_map]
        simp only [eq_comm]

end

/-! ### The generator -/

section

variable {P : SetOrder} {G : Parser S}

omit [DecidableEq S] in
theorem Parser.OnPath.nodup {seen : List S} {s : S} (h : G.OnPath seen s) : (s :: seen).Nodup := by
  induction h with
  | start => exact List.nodup_singleton _
  | step _ _ hnot ih => exact List.nodup_cons.mpr ⟨hnot, ih⟩

omit [DecidableEq S] in
/-- The rest of a path is the end of it, or goes on with the next state. -/
theorem describes_iff {seen : List S} {s : S} {infos : List Text} :
    (∃ p e, Describes G seen s p infos e) ↔ match G.body s with
      | .accept => infos = []
      | .reject => infos = ["rejected".toList]
      | .direct t => (t ∈ s :: seen ∧ infos = [visitedText G s]) ∨
          (t ∉ s :: seen ∧ ∃ p e, Describes G (s :: seen) t p infos e)
      | .select components cases => ∃ pre c post, cases = pre ++ c :: post ∧
          ∃ info, ((c.next ∈ s :: seen ∧ info = [visitedText G s]) ∨
              (c.next ∉ s :: seen ∧ ∃ p e, Describes G (s :: seen) c.next p info e)) ∧
            infos = c.conditions (components.map getName) ++
              pre.flatMap (Case.negations (components.map getName)) ++ info := by
  constructor
  · rintro ⟨p, e, h⟩
    cases h with
    | accept hbody => rw [hbody]
    | reject hbody => rw [hbody]
    | direct hbody hnot hp =>
      rw [hbody]
      exact Or.inr ⟨hnot, _, _, hp⟩
    | directRepeated hbody hmem =>
      rw [hbody]
      exact Or.inl ⟨hmem, rfl⟩
    | case hbody hnot hp =>
      rw [hbody]
      exact ⟨_, _, _, rfl, _, Or.inr ⟨hnot, _, _, hp⟩, rfl⟩
    | caseRepeated hbody hmem =>
      rw [hbody]
      exact ⟨_, _, _, rfl, _, Or.inl ⟨hmem, rfl⟩, rfl⟩
  · intro h
    cases hbody : G.body s with
    | accept =>
      rw [hbody] at h
      exact h ▸ ⟨_, _, .accept hbody⟩
    | reject =>
      rw [hbody] at h
      exact h ▸ ⟨_, _, .reject hbody⟩
    | direct t =>
      rw [hbody] at h
      rcases h with ⟨hmem, rfl⟩ | ⟨hnot, p, e, hp⟩
      · exact ⟨_, _, .directRepeated hbody hmem⟩
      · exact ⟨_, _, .direct hbody hnot hp⟩
    | select components cases =>
      rw [hbody] at h
      obtain ⟨pre, c, post, rfl, info, ⟨hmem, rfl⟩ | ⟨hnot, p, e, hp⟩, rfl⟩ := h
      · exact ⟨_, _, .caseRepeated hbody hmem⟩
      · exact ⟨_, _, .case hbody hnot hp⟩

/-- With enough depth, what is listed from a state on are the paths from it. -/
theorem outputStates_eq [Fintype S] (hok : G.Ok) {n : ℕ} {seen : List S} {s : S} {known : Finset S}
    (hpath : G.OnPath seen s) (hsub : ∀ t ∈ known, t ∈ seen)
    (hselect : ∀ t ∈ seen, G.IsSelect t → t ∈ known)
    (hn : Fintype.card S < (s :: seen).length + n) :
    ∃ outs, outputStates P G n s known = some outs ∧
      ∀ infos, infos ∈ outs ↔ ∃ p e, Describes G seen s p infos e := by
  induction n generalizing seen s known with
  | zero => exact absurd hpath.nodup.length_le_card (not_le.mpr hn)
  | succ n ih =>
    have hn' : ∀ t : S, Fintype.card S < (t :: s :: seen).length + n := fun t => by
      simp only [List.length_cons] at hn ⊢
      omega
    -- a state is known iff it is on the path
    have hknown : ∀ t, G.Edge s t → (t ∈ insert s known ↔ t ∈ s :: seen) := fun t ht => by
      rw [Finset.mem_insert, List.mem_cons]
      refine or_congr_right' fun hne => ⟨hsub t, fun hmem => ?_⟩
      exact hselect t hmem ((hok.repeated seen s t hpath ht hmem).resolve_left hne)
    have hsub' : ∀ t ∈ insert s known, t ∈ s :: seen := fun t ht =>
      List.mem_cons.mpr ((Finset.mem_insert.mp ht).imp_right (hsub t))
    cases hbody : G.body s with
    | accept =>
      refine ⟨[[]], by rw [outputStates, hbody], fun infos => ?_⟩
      rw [List.mem_singleton, describes_iff (s := s), hbody]
    | reject =>
      refine ⟨[["rejected".toList]], by rw [outputStates, hbody], fun infos => ?_⟩
      rw [List.mem_singleton, describes_iff (s := s), hbody]
    | direct t =>
      have hedge : G.Edge s t := Or.inl hbody
      by_cases hmem : t ∈ s :: seen
      · refine ⟨[[visitedText G s]], ?_, fun infos => ?_⟩
        · rw [outputStates]
          simp only [hbody, if_pos ((hknown t hedge).mpr hmem)]
          rfl
        · rw [List.mem_singleton, describes_iff (s := s), hbody]
          exact ⟨fun h => Or.inl ⟨hmem, h⟩, fun h => h.elim And.right fun h => absurd hmem h.1⟩
      · -- the state itself is not known behind it, but it is no select
        obtain ⟨outs, houts, hiff⟩ := ih (hpath.step hedge hmem)
          (fun u hu => List.mem_cons_of_mem s (hsub u hu)) (fun u hu hsel => by
            rcases List.mem_cons.mp hu with rfl | hu
            · obtain ⟨_, _, h⟩ := hsel
              exact nomatch hbody.symm.trans h
            · exact hselect u hu hsel) (hn' t)
        refine ⟨outs, ?_, fun infos => (hiff infos).trans ?_⟩
        · rw [outputStates]
          simp only [hbody, if_neg (mt (hknown t hedge).mp hmem)]
          exact houts
        · rw [describes_iff (s := s), hbody]
          exact ⟨fun h => Or.inr ⟨hmem, h⟩, fun h => h.elim (fun h => absurd h.1 hmem) And.right⟩
    | select components cases =>
      have hedge : ∀ c ∈ cases, G.Edge s c.next := fun c hc => Or.inr ⟨_, _, c, hbody, hc, rfl⟩
      have hrec : ∀ c ∈ cases, c.next ∉ s :: seen →
          ∃ outs, outputStates P G n c.next (insert s known) = some outs ∧
            ∀ infos, infos ∈ outs ↔ ∃ p e, Describes G (s :: seen) c.next p infos e :=
        fun c hc hnot => ih (hpath.step (hedge c hc) hnot) hsub' (fun u hu hsel => by
          rw [Finset.mem_insert]
          exact (List.mem_cons.mp hu).imp_right fun hu => hselect u hu hsel) (hn' c.next)
      obtain ⟨outs, houts, hiff⟩ := outputCases_eq P (G.name s)
        (fun t => outputStates P G n t (insert s known))
        (fun pre c post heq => hok.cases seen s components pre c post hpath (heq ▸ hbody))
        (fun c hc => hknown c.next (hedge c hc))
        (fun c hc hnot => (hrec c hc hnot).imp fun _ h => h.1)
        (show cases = [] ++ cases from rfl) (Or.inl rfl)
      have htails : ∀ c ∈ cases, ∀ info,
          info ∈ tails (s :: seen) (G.name s) (fun t => outputStates P G n t (insert s known))
              c.next ↔
            (c.next ∈ s :: seen ∧ info = [visitedText G s]) ∨
              (c.next ∉ s :: seen ∧ ∃ p e, Describes G (s :: seen) c.next p info e) := by
        intro c hc info
        by_cases hmem : c.next ∈ s :: seen
        · rw [tails, if_pos hmem, List.mem_singleton]
          exact ⟨fun h => Or.inl ⟨hmem, h⟩, fun h => h.elim And.right fun h => absurd hmem h.1⟩
        · obtain ⟨os, hos, hosiff⟩ := hrec c hc hmem
          rw [tails, if_neg hmem, hos, Option.getD_some, hosiff]
          exact ⟨fun h => Or.inr ⟨hmem, h⟩, fun h => h.elim (fun h => absurd h.1 hmem) And.right⟩
      refine ⟨outs, ?_, fun infos => (hiff infos).trans ?_⟩
      · rw [outputStates]
        simp only [hbody]
        exact houts
      · rw [describes_iff (s := s), hbody]
        constructor
        · rintro ⟨pre, c, post, rfl, info, hinfo, rfl⟩
          exact ⟨pre, c, post, rfl, info, (htails c (by simp) info).mp hinfo, rfl⟩
        · rintro ⟨pre, c, post, rfl, info, hinfo, rfl⟩
          exact ⟨pre, c, post, rfl, info, (htails c (by simp) info).mpr hinfo, rfl⟩

/-- In a parser without the cases above the generator terminates and lists the paths. -/
theorem pathLaw_of_ok [Fintype S] (hok : G.Ok) : PathLaw P G := by
  have hcard : Fintype.card S < [G.start].length + Fintype.card S := by
    rw [List.length_singleton]
    omega
  obtain ⟨outs, houts, hiff⟩ := outputStates_eq (P := P) hok .start
    (fun t ht => absurd ht (Finset.notMem_empty t)) (fun t ht => absurd ht List.not_mem_nil) hcard
  exact ⟨_, outs, houts, fun infos hinfos => (hiff infos).mp hinfos,
    fun p infos h => (hiff infos).mpr ⟨p, _, h⟩⟩

/-! ### Termination -/

section

variable {newKnown : Finset S} {name : Text} {output : S → Option (List (List Text))}

theorem outputCases_eq_none {c : Case S} {cases : List (Case S)} (hc : c ∈ cases)
    (hnot : c.next ∉ newKnown) (hnone : output c.next = none) (keys prev : List Text) :
    outputCases P newKnown name output keys prev cases = none := by
  induction cases generalizing keys prev with
  | nil => exact absurd hc List.not_mem_nil
  | cons d cases ih =>
    rw [outputCases]
    rcases List.mem_cons.mp hc with rfl | hc
    · simp only [if_neg hnot, hnone, Option.bind_none]
    · simp only [ih hc, Option.map_none, Option.bind_fun_none]
      split <;> rfl

theorem exists_outputCases (P : SetOrder) (name : Text)
    (output : S → Option (List (List Text))) {cases : List (Case S)}
    (h : ∀ c ∈ cases, c.next ∉ newKnown → ∃ outs, output c.next = some outs)
    (keys prev : List Text) :
    ∃ outs, outputCases P newKnown name output keys prev cases = some outs := by
  induction cases generalizing keys prev with
  | nil => exact ⟨_, rfl⟩
  | cons c cases ih =>
    have hcases := fun d hd => h d (List.mem_cons_of_mem c hd)
    rw [outputCases]
    by_cases hmem : c.next ∈ newKnown
    · obtain ⟨outs, houts⟩ := ih hcases keys prev
      simp only [if_pos hmem, houts]
      exact ⟨_, rfl⟩
    · obtain ⟨os, hos⟩ := h c List.mem_cons_self hmem
      obtain ⟨outs, houts⟩ := ih hcases
        (afterCase P keys prev (infosOf keys (getElems c.keyset))).1
        (afterCase P keys prev (infosOf keys (getElems c.keyset))).2
      simp only [if_neg hmem, hos, Option.bind_some, houts]
      exact ⟨_, rfl⟩

end

/-- More depth does not hurt. -/
theorem exists_outputStates_of_le {n m : ℕ} (hle : n ≤ m) {s : S} {known : Finset S}
    (h : ∃ outs, outputStates P G n s known = some outs) :
    ∃ outs, outputStates P G m s known = some outs := by
  induction n generalizing m s known with
  | zero => exact h.elim fun _ h => nomatch h
  | succ n ih =>
    obtain ⟨m, rfl⟩ := Nat.exists_eq_succ_of_ne_zero (Nat.ne_zero_of_lt hle)
    have hle' : n ≤ m := Nat.succ_le_succ_iff.mp hle
    obtain ⟨outs, h⟩ := h
    rw [outputStates] at h
    cases hbody : G.body s with
    | accept => exact ⟨[[]], by rw [outputStates, hbody]⟩
    | reject => exact ⟨[["rejected".toList]], by rw [outputStates, hbody]⟩
    | direct t =>
      simp only [hbody] at h
      rw [outputStates]
      simp only [hbody]
      split at h
      · next hmem =>
        rw [if_pos hmem]
        exact ⟨_, rfl⟩
      · next hmem =>
        rw [if_neg hmem]
        exact ih hle' ⟨_, h⟩
    | select components cases =>
      simp only [hbody] at h
      rw [outputStates]
      simp only [hbody]
      refine exists_outputCases P (G.name s) (fun t => outputStates P G m t (insert s known))
        (fun c hc hnot => ih hle' ?_) _ _
      by_contra hnone
      rw [outputCases_eq_none hc hnot (Option.eq_none_iff_forall_not_mem.mpr fun outs ho =>
        hnone ⟨outs, ho⟩)] at h
      exact nomatch h

/-- On a cycle of direct transitions no state is known. -/
theorem outputStates_of_cycle {n : ℕ} {s : S} {known : Finset S}
    (hknown : ∀ t ∈ known, G.IsSelect t) (hcycle : Relation.TransGen G.Direct s s) :
    outputStates P G n s known = none := by
  induction n generalizing s with
  | zero => rfl
  | succ n ih =>
    obtain ⟨t, ⟨hbody, hne⟩, hback⟩ := Relation.TransGen.head'_iff.mp hcycle
    have hcycle' : Relation.TransGen G.Direct t t := Relation.TransGen.tail' hback ⟨hbody, hne⟩
    have hnot : t ∉ insert s known := fun hmem => by
      rcases Finset.mem_insert.mp hmem with heq | hmem
      · exact hne heq
      · obtain ⟨_, _, hsel⟩ := hknown t hmem
        obtain ⟨u, ⟨hu, -⟩, -⟩ := Relation.TransGen.head'_iff.mp hcycle'
        exact nomatch hsel.symm.trans hu
    rw [outputStates]
    simp only [hbody, if_neg hnot]
    exact ih hcycle'

/-- The generator comes to each state of a simple path, with selects of the path as known. -/
theorem diverges_of_onPath {seen : List S} {s : S} (h : G.OnPath seen s) :
    ∃ known : Finset S, (∀ t ∈ known, t ∈ seen) ∧ (∀ t ∈ known, G.IsSelect t) ∧
      ((∀ n, outputStates P G n s known = none) → ∀ n, outputStates P G n G.start ∅ = none) := by
  induction h with
  | start => exact ⟨∅, by simp, by simp, id⟩
  | @step seen s t _ hedge hnot ih =>
    obtain ⟨known, hsub, hselect, hdiverges⟩ := ih
    have hnew : t ∉ insert s known := fun hmem =>
      hnot (List.mem_cons.mpr ((Finset.mem_insert.mp hmem).imp_right (hsub t)))
    rcases hedge with hbody | ⟨components, cases, c, hbody, hc, rfl⟩
    · refine ⟨known, fun u hu => List.mem_cons_of_mem s (hsub u hu), hselect, fun hnone =>
        hdiverges fun n => ?_⟩
      cases n with
      | zero => rfl
      | succ n =>
        rw [outputStates]
        simp only [hbody, if_neg hnew]
        exact hnone n
    · refine ⟨insert s known, fun u hu => ?_, fun u hu => ?_, fun hnone => hdiverges fun n => ?_⟩
      · exact List.mem_cons.mpr ((Finset.mem_insert.mp hu).imp_right (hsub u))
      · rcases Finset.mem_insert.mp hu with rfl | hu
        · exact ⟨_, _, hbody⟩
        · exact hselect u hu
      · cases n with
        | zero => rfl
        | succ n =>
          rw [outputStates]
          simp only [hbody]
          exact outputCases_eq_none hc hnew (hnone n) _ _

omit [DecidableEq S] in
theorem Parser.OnPath.of_mem {seen : List S} {s t : S} (h : G.OnPath seen s) (ht : t ∈ s :: seen) :
    ∃ seen', G.OnPath seen' t := by
  induction h with
  | start =>
    obtain rfl := List.mem_singleton.mp ht
    exact ⟨_, .start⟩
  | step hpath hedge hnot ih =>
    rcases List.mem_cons.mp ht with rfl | ht
    · exact ⟨_, hpath.step hedge hnot⟩
    · exact ih ht

theorem exists_onPath {s : S} (h : Relation.ReflTransGen G.Edge G.start s) :
    ∃ seen, G.OnPath seen s := by
  induction h with
  | refl => exact ⟨_, .start⟩
  | @tail s t _ hedge ih =>
    obtain ⟨seen, hpath⟩ := ih
    by_cases hmem : t ∈ s :: seen
    · exact hpath.of_mem hmem
    · exact ⟨_, hpath.step hedge hmem⟩

/-- A depth that suffices for each of the cases suffices for all. -/
theorem exists_depth {newKnown : Finset S} {cases : List (Case S)}
    (h : ∀ c ∈ cases, c.next ∉ newKnown →
      ∃ n, ∃ outs, outputStates P G n c.next newKnown = some outs) :
    ∃ n, ∀ c ∈ cases, c.next ∉ newKnown →
      ∃ outs, outputStates P G n c.next newKnown = some outs := by
  induction cases with
  | nil => exact ⟨0, fun c hc => absurd hc List.not_mem_nil⟩
  | cons c cases ih =>
    obtain ⟨n, hn⟩ := ih fun d hd => h d (List.mem_cons_of_mem c hd)
    by_cases hmem : c.next ∈ newKnown
    · refine ⟨n, List.forall_mem_cons.mpr ⟨fun hnot => absurd hmem hnot, hn⟩⟩
    · obtain ⟨m, hm⟩ := h c List.mem_cons_self hmem
      refine ⟨max n m, List.forall_mem_cons.mpr ⟨fun _ => ?_, fun d hd hnot => ?_⟩⟩
      · exact exists_outputStates_of_le (le_max_right n m) hm
      · exact exists_outputStates_of_le (le_max_left n m) (hn d hd hnot)

omit [DecidableEq S] in
/-- Along direct transitions the generator comes to an end. -/
theorem wellFounded_direct [Finite S] (hno : ¬ G.DirectCycle) :
    WellFounded fun t s => Relation.ReflTransGen G.Edge G.start s ∧ G.Direct s t := by
  let D : S → S → Prop := fun s t => Relation.ReflTransGen G.Edge G.start s ∧ G.Direct s t
  have hirrefl : ∀ s, ¬ Relation.TransGen D s s := fun s h => by
    obtain ⟨t, ⟨hreach, -⟩, -⟩ := Relation.TransGen.head'_iff.mp h
    exact hno ⟨s, hreach, Relation.TransGen.mono (fun _ _ h => h.2) _ _ h⟩
  have hwf : WellFounded fun t s => Relation.TransGen D s t := by
    have : IsTrans S fun t s => Relation.TransGen D s t := ⟨fun _ _ _ h h' => h'.trans h⟩
    have : Std.Irrefl fun t s => Relation.TransGen D s t := ⟨hirrefl⟩
    exact Finite.wellFounded_of_trans_of_irrefl _
  have hsub : Subrelation (fun t s => D s t) fun t s => Relation.TransGen D s t :=
    fun h => Relation.TransGen.single h
  exact hsub.wf hwf

/-- Without such a cycle, there is a depth that suffices. -/
theorem exists_outputStates [Fintype S] (hno : ¬ G.DirectCycle) {s : S} {known : Finset S}
    (hreach : Relation.ReflTransGen G.Edge G.start s) (hs : s ∉ known) :
    ∃ n outs, outputStates P G n s known = some outs := by
  -- a select leaves fewer states that are not known, a direct transition is a step of the chain
  induction hk : Fintype.card S - known.card using Nat.strong_induction_on generalizing s known with
  | _ k ihk =>
  induction s using (wellFounded_direct hno).induction with
  | _ s ihs =>
  cases hbody : G.body s with
  | accept => exact ⟨1, [[]], by rw [outputStates, hbody]⟩
  | reject => exact ⟨1, [["rejected".toList]], by rw [outputStates, hbody]⟩
  | direct t =>
    by_cases hmem : t ∈ insert s known
    · refine ⟨1, [[visitedText G s]], ?_⟩
      rw [outputStates]
      simp only [hbody, if_pos hmem]
      rfl
    · obtain ⟨hne, hnot⟩ := not_or.mp (mt Finset.mem_insert.mpr hmem)
      obtain ⟨n, outs, houts⟩ := ihs t ⟨hreach, hbody, hne⟩ (hreach.tail (Or.inl hbody)) hnot
      refine ⟨n + 1, outs, ?_⟩
      rw [outputStates]
      simp only [hbody, if_neg hmem]
      exact houts
  | select components cases =>
    have hlt : Fintype.card S - (insert s known).card < k := by
      rw [← hk, Finset.card_insert_of_notMem hs]
      have hle := (insert s known).card_le_univ
      rw [Finset.card_insert_of_notMem hs] at hle
      omega
    have hdepth : ∃ n, ∀ c ∈ cases, c.next ∉ insert s known →
        ∃ outs, outputStates P G n c.next (insert s known) = some outs :=
      exists_depth fun c hc hnot =>
        ihk _ hlt (hreach.tail (Or.inr ⟨components, cases, c, hbody, hc, rfl⟩)) hnot rfl
    obtain ⟨n, hn⟩ := hdepth
    obtain ⟨outs, houts⟩ := exists_outputCases P (G.name s)
      (fun t => outputStates P G n t (insert s known)) hn (components.map getName) []
    refine ⟨n + 1, outs, ?_⟩
    rw [outputStates]
    simp only [hbody]
    exact houts

/-- The generator terminates iff no cycle of direct transitions can be reached. -/
theorem terminates_iff [Fintype S] : Terminates P G ↔ ¬ G.DirectCycle := by
  constructor
  · rintro ⟨n, outs, houts⟩ ⟨s, hreach, hcycle⟩
    obtain ⟨seen, hpath⟩ := exists_onPath hreach
    obtain ⟨known, -, hselect, hdiverges⟩ := diverges_of_onPath (P := P) hpath
    have hnone := hdiverges (fun n => outputStates_of_cycle hselect hcycle) n
    exact nomatch houts.symm.trans hnone
  · exact fun hno => exists_outputStates hno .refl (Finset.notMem_empty _)

end

/-! ### Two parsers -/

def dedupOrder : SetOrder := ⟨List.dedup, fun _ => List.Perm.refl _⟩

def stateName (s : Fin 4) : Text := Nat.toDigits 10 s

/-- `start` and the state behind it transition to each other. -/
def cycleParser : Parser (Fin 4) where
  name := stateName
  body s := match s with
    | 0 => .direct 1
    | 1 => .direct 0
    | 2 => .accept
    | 3 => .reject
  start := 0

theorem not_pathLaw : ¬ PathLaw dedupOrder cycleParser := by
  rintro ⟨n, outs, houts, -⟩
  refine terminates_iff.mp ⟨n, outs, houts⟩ ⟨0, .refl, ?_⟩
  exact .tail (.single (b := 1) ⟨rfl, by decide⟩) ⟨rfl, by decide⟩

/-- A select with two cases, to `accept` and to a state in front of it. -/
def branchParser : Parser (Fin 4) where
  name := stateName
  body s := match s with
    | 0 => .select [.ofMember "eth".toList "etherType".toList 16]
        [⟨.single (.constant 2048 16), 1⟩, ⟨.single .default, 2⟩]
    | 1 => .direct 2
    | 2 => .accept
    | 3 => .reject
  start := 0

theorem branchParser_edge {s t : Fin 4} (h : branchParser.Edge s t) : s < t := by
  rcases h with h | ⟨components, cases, c, h, hc, rfl⟩
  · match s, h with
    | 0, h => exact nomatch h
    | 1, h => rw [← Body.direct.inj h]; decide
    | 2, h => exact nomatch h
    | 3, h => exact nomatch h
  · match s, h with
    | 1, h => exact nomatch h
    | 2, h => exact nomatch h
    | 3, h => exact nomatch h
    | 0, h =>
      rw [← (Body.select.inj h).2] at hc
      rcases List.mem_cons.mp hc with rfl | hc
      · decide
      · rw [List.mem_singleton.mp hc]
        decide

theorem branchParser_onPath {seen : List (Fin 4)} {s : Fin 4} (h : branchParser.OnPath seen s) :
    ∀ t ∈ seen, t < s := by
  induction h with
  | start => exact fun t ht => absurd ht List.not_mem_nil
  | step _ hedge _ ih =>
    have hlt := branchParser_edge hedge
    exact List.forall_mem_cons.mpr ⟨hlt, fun t ht => (ih t ht).trans hlt⟩

theorem branchParser_law : PathLaw dedupOrder branchParser := by
  refine pathLaw_of_ok ⟨fun seen s t hpath hedge ht => ?_,
    fun seen s components pre c post hpath hbody => ?_⟩
  · exact absurd ((branchParser_onPath hpath t ht).trans (branchParser_edge hedge)) (lt_irrefl t)
  · have hedge : branchParser.Edge s c.next := Or.inr ⟨components, _, c, hbody, by simp, rfl⟩
    have hnot : c.next ∉ s :: seen := fun hmem => by
      have hlt := branchParser_edge hedge
      rcases List.mem_cons.mp hmem with heq | hmem
      · exact absurd (heq ▸ hlt) (lt_irrefl s)
      · exact absurd (hlt.trans (branchParser_onPath hpath _ hmem)) (lt_irrefl s)
    match s, hbody with
    | 1, hbody => exact nomatch hbody
    | 2, hbody => exact nomatch hbody
    | 3, hbody => exact nomatch hbody
    | 0, hbody =>
      obtain ⟨rfl, hcases⟩ := Body.select.inj hbody
      refine ⟨?_, fun hmem => absurd hmem hnot, fun hlen => ?_⟩
      · have hc : c ∈ pre ++ c :: post := by simp
        rw [← hcases] at hc
        rcases List.mem_cons.mp hc with rfl | hc
        · trivial
        · rw [List.mem_singleton.mp hc]
          trivial
      · -- there is one key only
        exact absurd (hlen.trans (infosOf_length_le _ _)) (by decide)

end ParserPaths

end T4P4S
