import HiceDt.Smt.Verifier

/-!
# Reading clauses

Model of `seahorn_smtlib2_parser` (`chc_verifier/include/seahorn_smtlib2_parser.h`)
from the rules and queries that `Z3_fixedpoint_from_file` returns.

Results:

* `extractRelations_spec`: the applications that `extract_relations` collects.
* `parseRule_cases`: the shapes of accepted rules.
* `parse_clause`: the shapes of the clauses of a problem.
-/

namespace HiceDt.Smt

open HiceDt Loop Fol

/-! ## Replacing 0-ary relations -/

/-- `name ().str ()`, which asserts that the name is a string. -/
def nameStr (decl : Decl) : Except Error String :=
  match decl.name with
  | .str s => .ok s
  | .int _ => .error .assertionFailure

/-- `old2new_relations` and `relations`. -/
structure Collected where
  old2newRelations : List (Decl × Decl) := []
  relations : List Decl := []
deriving Repr

/-- The 1-ary relation for a 0-ary one with this name. -/
def newDecl (name : String) (range : Srt) : Decl := ⟨.str (name ++ "@"), [.bool], range⟩

/-- `is_bool () || is_int ()`. -/
def supported (s : Srt) : Bool := s = .bool || s = .int

/-- The step of `collect_and_replace_relations` for an uninterpreted function
    (lines 100–128). -/
def collectDecl (decl : Decl) (c : Collected) : Except Error Collected :=
  if decl.arity = 0 then
    if (c.old2newRelations.lookup decl).isNone then do
      let name ← nameStr decl
      return ⟨c.old2newRelations ++ [(decl, newDecl name decl.range)],
        c.relations.insert (newDecl name decl.range)⟩
    else .ok c
  else do
    let name ← nameStr decl
    if name = "verifier.error" ∨ decl ∈ c.relations then return c
    else if decl.domain.all supported then
      return { c with relations := c.relations.insert decl }
    else .error (.runtimeError ("Domain of " ++ name ++ " not supported"))

/-- `collect_and_replace_relations`. -/
def collectAndReplaceRelations : Term → Collected → Except Error Collected
  | .op _ args, c => collectArgs args c
  | .app decl args, c => do
    let c ← collectDecl decl c
    collectArgs args c
  | .var _, c => .ok c
  | .quantifier _ _ body, c => collectAndReplaceRelations body c
where
  /-- The loop over the arguments. -/
  collectArgs : List Term → Collected → Except Error Collected
    | [], c => .ok c
    | t :: ts, c => do
      let c ← collectAndReplaceRelations t c
      collectArgs ts c

/-- The pairs of `source` and `destination`. -/
def replacement (old2newRelations : List (Decl × Decl)) (decl : Decl) : Option Term :=
  (old2newRelations.lookup decl).map fun new => .app new [.op (.bool true) []]

/-- `preprocess_expressions`. -/
def preprocessExpressions (expressions : List Term) (relations : List Decl) :
    Except Error (List Term × List Decl) := do
  let c ← expressions.foldlM (fun c expr => collectAndReplaceRelations expr c)
    { relations := relations }
  return (expressions.map (Term.replaceConsts (replacement c.old2newRelations)), c.relations)

/-! ## Collecting predicates -/

/-- `relations` and `relation_expressions`. -/
structure Extracted where
  relations : List Decl := []
  relationExpressions : List Predicate := []
deriving Repr

/-- `extract_relations`. -/
def extractRelations : Bool → Term → Extracted → Except Error Extracted
  | _, .quantifier _ _ _, _ => .error (.runtimeError "Nested quantifier not supported")
  | isNegated, .app decl args, x =>
    if 0 < decl.arity then do
      let name ← nameStr decl
      assert (name ≠ "verifier.error")
      assert (!isNegated)
      return ⟨x.relations.insert decl, x.relationExpressions.insert ⟨decl, args⟩⟩
    else .ok x -- a constant has no arguments
  | isNegated, .op o args, x => extractArgs (if o = .not then !isNegated else isNegated) args x
  | _, .var _, x => .ok x
where
  /-- The recursive descent on the arguments. -/
  extractArgs (isNegated : Bool) : List Term → Extracted → Except Error Extracted
    | [], x => .ok x
    | t :: ts, x => do
      let x ← extractRelations isNegated t x
      extractArgs isNegated ts x

/-! ## Clauses -/

/-- `is_const ()`. -/
def isConst : Term → Bool
  | .op _ [] => true
  | .app _ [] => true
  | _ => false

/-- `is_const ()` with a declaration that is not uninterpreted. -/
def isInterpretedConst : Term → Bool
  | .op _ [] => true
  | _ => false

/-- Throws if an argument is not a constant. -/
def checkArguments (constant : Term → Bool) (what : String) (args : List Term) :
    Except Error Unit :=
  if args.all constant then .ok () else .error (.runtimeError what)

/-- The predicate of a query or a fact. -/
def extractPredicate (expr : Term) : Except Error Extracted := do
  let x ← extractRelations false expr {}
  assert (x.relationExpressions.length = 1)
  return x

/-- The loop body for a query (lines 255–289). -/
def parseQuery (expr : Term) : Except Error ConstraintedHornClause :=
  match expr with
  | .app decl args =>
    if 0 < decl.arity then do
      let name ← nameStr decl
      assert (name ≠ "verifier.error")
      checkArguments isInterpretedConst "Argument of query is not a constant" args
      let x ← extractPredicate expr
      return ⟨.op .not [expr], x.relations, x.relationExpressions, []⟩
    else .error (.runtimeError "Don't know what to do with query")
  | _ => .error (.runtimeError "Don't know what to do with query")

/-- A fact about a predicate (lines 306–336 and 364–391); facts about `verifier.error`
    are skipped. -/
def parseFact (constant : Term → Bool) (what : String) (decl : Decl) (args : List Term) :
    Except Error (Option ConstraintedHornClause) := do
  let name ← nameStr decl
  if name = "verifier.error" then return none
  else do
    checkArguments constant what args
    let x ← extractPredicate (.app decl args)
    return some ⟨.app decl args, x.relations, [], x.relationExpressions⟩

/-- The left-hand-side is a conjunction or an application of a predicate. -/
def isConjunction : Term → Bool
  | .op .and _ => true
  | .app _ _ => true
  | _ => false

/-- The right-hand-side is an application of a predicate. -/
def isApplication : Term → Bool
  | .app _ _ => true
  | _ => false

/-- A Horn constraint (lines 396–432). -/
def parseHorn (lhs rhs : Term) : Except Error (Option ConstraintedHornClause) :=
  if !isConjunction lhs then
    .error (.runtimeError "Left-hand-side of Horn clause has to be a conjunction")
  else if !isApplication rhs then
    .error (.runtimeError "Right-hand-side of Horn clause has to be a predicate")
  else do
    let x ← extractRelations false lhs {}
    let y ← extractRelations false rhs ⟨x.relations, []⟩
    return some ⟨.op .implies [lhs, rhs], y.relations, x.relationExpressions, y.relationExpressions⟩

/-- The new constants for the bound variables (lines 354–360). -/
def newConstants (constantId : ℕ) (bound : List Srt) : List Term :=
  bound.reverse.mapIdx fun i sort => .app ⟨.int (constantId + i), [], sort⟩ []

/-- A rule below its quantifier (lines 364–442). -/
def parseBody (body : Term) : Except Error (Option ConstraintedHornClause) :=
  match body with
  | .app decl args =>
    if 0 < decl.arity then
      parseFact isConst "Argument of forall fact is not a constant" decl args
    else .error (.runtimeError "Cannot parse rule")
  | .op .implies [lhs, rhs] => parseHorn lhs rhs
  | _ => .error (.runtimeError "Cannot parse rule")

/-- The loop body for a rule (lines 300–453), with the next value of
    `constant_id`. -/
def parseRule (constantId : ℕ) (expr : Term) : Except Error (Option ConstraintedHornClause × ℕ) :=
  match expr with
  | .app decl args =>
    if 0 < decl.arity then do
      let chc ← parseFact isInterpretedConst "Argument of fact is not a constant" decl args
      return (chc, constantId)
    else .error (.runtimeError "Don't know what to do with rule")
  | .quantifier .all bound body => do
    let chc ← parseBody (body.substituteVars (newConstants constantId bound) 0)
    return (chc, constantId + bound.length)
  | _ => .error (.runtimeError "Don't know what to do with rule")

/-- The loop over the rules. -/
def parseRules : ℕ → List Term → Except Error (List ConstraintedHornClause)
  | _, [] => .ok []
  | constantId, expr :: rest => do
    let (chc, constantId) ← parseRule constantId expr
    let chcs ← parseRules constantId rest
    return chc.toList ++ chcs

/-- The term can be a formula: it is no numeral and no application of a function with
    other values. -/
def isFormula : Term → Bool
  | .app decl _ => decl.range = .bool
  | .quantifier _ _ body => isFormula body
  | .op (.int _) _ => false
  | _ => true

/-- The rules and queries of a `z3::fixedpoint`, which holds well-formed formulas. -/
structure Fixedpoint where
  rules : List Term
  queries : List Term
  wellFormed : ∀ e ∈ rules ++ queries, e.wellFormed = true
  rules_formulas : ∀ r ∈ rules, isFormula r = true

/-- `parse`. -/
def parse (fp : Fixedpoint) : Except Error Problem := do
  let (rules, relations) ← preprocessExpressions fp.rules []
  let (queries, relations) ← preprocessExpressions fp.queries relations
  let fromQueries ← queries.mapM parseQuery
  let fromRules ← parseRules 0 rules
  return ⟨relations, fromQueries ++ fromRules⟩

/-! ## Collected predicates -/

/-- The declarations of the collected applications are recorded. -/
def Extracted.Listed (x : Extracted) : Prop := ∀ a ∈ x.relationExpressions, a.decl ∈ x.relations

/-- What `extract_relations` does to its sets: recorded declarations stay, and
    applications are stored with their declarations. -/
structure Extracted.Extends (x y : Extracted) : Prop where
  relations : ∀ decl ∈ x.relations, decl ∈ y.relations
  listed : x.Listed → y.Listed

theorem Extracted.Extends.refl (x : Extracted) : x.Extends x := ⟨fun _ h => h, fun h => h⟩

theorem Extracted.Extends.trans {x y z : Extracted} (h : x.Extends y) (h' : y.Extends z) :
    x.Extends z :=
  ⟨fun decl hd => h'.relations decl (h.relations decl hd), fun hl => h'.listed (h.listed hl)⟩

theorem Extracted.extends_insert (x : Extracted) (a : Predicate) :
    x.Extends ⟨x.relations.insert a.decl, x.relationExpressions.insert a⟩ := by
  refine ⟨fun decl hd => List.mem_insert_of_mem hd, fun hl b hb => ?_⟩
  rcases List.mem_insert_iff.mp hb with rfl | hb
  · exact List.mem_insert_self
  · exact List.mem_insert_of_mem (hl b hb)

theorem extractArgs_spec {ts : List Term}
    (ih : ∀ t ∈ ts, ∀ {isNegated : Bool} {x y : Extracted},
      extractRelations isNegated t x = .ok y → x.Extends y) :
    ∀ {isNegated : Bool} {x y : Extracted},
      extractRelations.extractArgs isNegated ts x = .ok y → x.Extends y := by
  induction ts with
  | nil =>
    intro isNegated x y h
    rw [← Except.ok.inj h]
    exact .refl x
  | cons t ts ih' =>
    intro isNegated x y h
    obtain ⟨z, hz, h⟩ := bind_ok.mp h
    exact (ih t List.mem_cons_self hz).trans (ih' (fun u hu => ih u (List.mem_cons_of_mem _ hu)) h)

/-- An application of a predicate is stored with its declaration. -/
theorem extractRelations_predicate {isNegated : Bool} {decl : Decl} {args : List Term}
    {x y : Extracted} (harity : 0 < decl.arity)
    (h : extractRelations isNegated (.app decl args) x = .ok y) :
    isNegated = false ∧ decl.name ≠ .str "verifier.error" ∧
      y = ⟨x.relations.insert decl, x.relationExpressions.insert ⟨decl, args⟩⟩ := by
  rw [extractRelations, if_pos harity] at h
  obtain ⟨name, hname, h⟩ := bind_ok.mp h
  obtain ⟨_, herror, h⟩ := bind_ok.mp h
  obtain ⟨_, hneg, h⟩ := bind_ok.mp h
  refine ⟨by simpa using assert_eq_ok hneg, fun hn => ?_, (Except.ok.inj h).symm⟩
  rw [nameStr, hn] at hname
  have hne : name ≠ "verifier.error" := by simpa using assert_eq_ok herror
  exact hne (Except.ok.inj hname).symm

/-- `extract_relations` adds applications with their declarations. -/
theorem extractRelations_spec {t : Term} : ∀ {isNegated : Bool} {x y : Extracted},
    extractRelations isNegated t x = .ok y → x.Extends y := by
  induction t using Term.induction with
  | op o args ih =>
    intro isNegated x y h
    exact extractArgs_spec ih h
  | app decl args _ =>
    intro isNegated x y h
    by_cases harity : 0 < decl.arity
    · rw [(extractRelations_predicate harity h).2.2]
      exact x.extends_insert ⟨decl, args⟩
    · rw [extractRelations, if_neg harity] at h
      rw [← Except.ok.inj h]
      exact .refl x
  | var index =>
    intro isNegated x y h
    rw [← Except.ok.inj h]
    exact .refl x
  | quantifier q bound body _ =>
    intro isNegated x y h
    cases h

/-! ## The clauses of a problem -/

/-- The clauses that `parse` stores. -/
inductive Clause : ConstraintedHornClause → Prop
  | query {decl : Decl} {args : List Term} :
    Clause ⟨.op .not [.app decl args], [decl], [⟨decl, args⟩], []⟩
  | fact {decl : Decl} {args : List Term} : decl.name ≠ .str "verifier.error" →
    Clause ⟨.app decl args, [decl], [], [⟨decl, args⟩]⟩
  | horn {lhs rhs : Term} {x y : Extracted} :
    isConjunction lhs = true → isApplication rhs = true →
    extractRelations false lhs {} = .ok x → extractRelations false rhs ⟨x.relations, []⟩ = .ok y →
    Clause ⟨.op .implies [lhs, rhs], y.relations, x.relationExpressions, y.relationExpressions⟩

theorem extractPredicate_ok {decl : Decl} {args : List Term} {x : Extracted}
    (harity : 0 < decl.arity) (h : extractPredicate (.app decl args) = .ok x) :
    decl.name ≠ .str "verifier.error" ∧ x = ⟨[decl], [⟨decl, args⟩]⟩ := by
  obtain ⟨y, hy, h⟩ := bind_ok.mp h
  obtain ⟨_, _, h⟩ := bind_ok.mp h
  rw [← Except.ok.inj h]
  exact (extractRelations_predicate harity hy).2

/-- A query is a predicate, and its clause is the negation. -/
theorem parseQuery_ok {expr : Term} {chc : ConstraintedHornClause}
    (h : parseQuery expr = .ok chc) :
    ∃ decl args, expr = .app decl args ∧ 0 < decl.arity ∧ decl.name ≠ .str "verifier.error" ∧
      chc = ⟨.op .not [expr], [decl], [⟨decl, args⟩], []⟩ := by
  unfold parseQuery at h
  split at h
  case h_1 decl args =>
    split_ifs at h with harity
    obtain ⟨_, _, h⟩ := bind_ok.mp h
    obtain ⟨_, _, h⟩ := bind_ok.mp h
    obtain ⟨_, _, h⟩ := bind_ok.mp h
    obtain ⟨x, hx, h⟩ := bind_ok.mp h
    obtain ⟨hname, rfl⟩ := extractPredicate_ok harity hx
    exact ⟨decl, args, rfl, harity, hname, (Except.ok.inj h).symm⟩
  case h_2 => cases h

/-- A fact is skipped or is its own clause. -/
theorem parseFact_ok {constant : Term → Bool} {what : String} {decl : Decl} {args : List Term}
    {chc : Option ConstraintedHornClause} (harity : 0 < decl.arity)
    (h : parseFact constant what decl args = .ok chc) :
    (decl.name = .str "verifier.error" ∧ chc = none) ∨
    (decl.name ≠ .str "verifier.error" ∧
      chc = some ⟨.app decl args, [decl], [], [⟨decl, args⟩]⟩) := by
  obtain ⟨name, hname, h⟩ := bind_ok.mp h
  split_ifs at h with hn
  · refine .inl ⟨?_, (Except.ok.inj h).symm⟩
    unfold nameStr at hname
    split at hname
    case h_1 s hs => rw [hs, Except.ok.inj hname, hn]
    case h_2 => cases hname
  · obtain ⟨_, _, h⟩ := bind_ok.mp h
    obtain ⟨x, hx, h⟩ := bind_ok.mp h
    obtain ⟨hne, rfl⟩ := extractPredicate_ok harity hx
    exact .inr ⟨hne, (Except.ok.inj h).symm⟩

/-- A Horn constraint has a conjunction and a predicate. -/
theorem parseHorn_ok {lhs rhs : Term} {chc : Option ConstraintedHornClause}
    (h : parseHorn lhs rhs = .ok chc) : ∃ c, chc = some c ∧ Clause c ∧
      c.expr = .op .implies [lhs, rhs] := by
  unfold parseHorn at h
  split_ifs at h with hlhs hrhs
  obtain ⟨x, hx, h⟩ := bind_ok.mp h
  obtain ⟨y, hy, h⟩ := bind_ok.mp h
  refine ⟨_, (Except.ok.inj h).symm, ?_, rfl⟩
  exact .horn (by simpa using hlhs) (by simpa using hrhs) hx hy

/-- A rule without quantifier is a fact about `verifier.error` or its own clause. -/
theorem parseBody_ok {body : Term} {chc : Option ConstraintedHornClause}
    (h : parseBody body = .ok chc) :
    (∃ decl args, body = .app decl args ∧ 0 < decl.arity ∧ decl.name = .str "verifier.error" ∧
      chc = none) ∨
    ∃ c, chc = some c ∧ Clause c ∧ c.expr = body := by
  unfold parseBody at h
  split at h
  case h_1 decl args =>
    split_ifs at h with harity
    rcases parseFact_ok harity h with ⟨hname, rfl⟩ | ⟨hname, rfl⟩
    · exact .inl ⟨decl, args, rfl, harity, hname, rfl⟩
    · exact .inr ⟨_, rfl, .fact hname, rfl⟩
  case h_2 lhs rhs => exact .inr (parseHorn_ok h)
  case h_3 => cases h

/-- The rule with new constants for its variables. -/
def instantiate (constantId : ℕ) : Term → Term
  | .quantifier .all bound body => body.substituteVars (newConstants constantId bound) 0
  | expr => expr

/-- The shapes of accepted rules: an application or a universal quantifier; a fact about
    `verifier.error` is skipped, and otherwise the instantiated rule is the clause. -/
theorem parseRule_cases {constantId constantId' : ℕ} {expr : Term}
    {chc : Option ConstraintedHornClause}
    (h : parseRule constantId expr = .ok (chc, constantId')) :
    ((∃ decl args, expr = .app decl args) ∨ ∃ bound body, expr = .quantifier .all bound body) ∧
    ((∃ decl args, instantiate constantId expr = .app decl args ∧ 0 < decl.arity ∧
        decl.name = .str "verifier.error" ∧ chc = none) ∨
      ∃ c, chc = some c ∧ Clause c ∧ c.expr = instantiate constantId expr) := by
  unfold parseRule at h
  split at h
  case h_1 decl args =>
    refine ⟨.inl ⟨decl, args, rfl⟩, ?_⟩
    split_ifs at h with harity
    obtain ⟨r, hr, h⟩ := bind_ok.mp h
    obtain ⟨rfl, _⟩ := Prod.mk.inj (Except.ok.inj h)
    rcases parseFact_ok harity hr with ⟨hname, rfl⟩ | ⟨hname, rfl⟩
    · exact .inl ⟨decl, args, rfl, harity, hname, rfl⟩
    · exact .inr ⟨_, rfl, .fact hname, rfl⟩
  case h_2 bound body =>
    refine ⟨.inr ⟨bound, body, rfl⟩, ?_⟩
    obtain ⟨r, hr, h⟩ := bind_ok.mp h
    obtain ⟨rfl, _⟩ := Prod.mk.inj (Except.ok.inj h)
    exact parseBody_ok hr
  case h_3 => cases h

/-- Every clause comes from a rule, and every rule is read. -/
theorem parseRules_spec {rules : List Term} : ∀ {constantId : ℕ}
    {chcs : List ConstraintedHornClause}, parseRules constantId rules = .ok chcs →
    (∀ c ∈ chcs, ∃ r ∈ rules, ∃ i j, parseRule i r = .ok (some c, j)) ∧
    ∀ r ∈ rules, ∃ i j chc, parseRule i r = .ok (chc, j) ∧ ∀ c ∈ chc, c ∈ chcs := by
  induction rules with
  | nil =>
    intro constantId chcs h
    rw [← Except.ok.inj h]
    exact ⟨by simp, by simp⟩
  | cons r rules ih =>
    intro constantId chcs h
    obtain ⟨⟨chc, next⟩, hr, h⟩ := bind_ok.mp h
    obtain ⟨rest, hrest, h⟩ := bind_ok.mp h
    obtain ⟨hfrom, hread⟩ := ih hrest
    rw [← Except.ok.inj h]
    constructor
    · intro c hc
      rcases List.mem_append.mp hc with hc | hc
      · have hsome : chc = some c := Option.mem_toList.mp hc
        exact ⟨r, List.mem_cons_self, constantId, next, hsome ▸ hr⟩
      · obtain ⟨r', hr', hfound⟩ := hfrom c hc
        exact ⟨r', List.mem_cons_of_mem _ hr', hfound⟩
    · intro r' hr'
      rcases List.mem_cons.mp hr' with rfl | hr'
      · exact ⟨constantId, next, chc, hr, fun c hc =>
          List.mem_append_left _ (Option.mem_toList.mpr hc)⟩
      · obtain ⟨i, j, chc', hrun, hmem⟩ := hread r' hr'
        exact ⟨i, j, chc', hrun, fun c hc => List.mem_append_right _ (hmem c hc)⟩

/-- The stages of `parse`. -/
theorem parse_ok {fp : Fixedpoint} {p : Problem} (h : parse fp = .ok p) :
    ∃ rules relations queries fromQueries fromRules,
      preprocessExpressions fp.rules [] = .ok (rules, relations) ∧
      preprocessExpressions fp.queries relations = .ok (queries, p.relations) ∧
      List.Forall₂ (fun q c => parseQuery q = .ok c) queries fromQueries ∧
      parseRules 0 rules = .ok fromRules ∧ p.chcs = fromQueries ++ fromRules := by
  obtain ⟨⟨rules, relations⟩, hrules, h⟩ := bind_ok.mp h
  obtain ⟨⟨queries, relations'⟩, hqueries, h⟩ := bind_ok.mp h
  obtain ⟨fromQueries, hfromQ, h⟩ := bind_ok.mp h
  obtain ⟨fromRules, hfromR, h⟩ := bind_ok.mp h
  rw [← Except.ok.inj h]
  exact ⟨rules, relations, queries, fromQueries, fromRules, hrules, hqueries, mapM_ok hfromQ,
    hfromR, rfl⟩

/-- Every clause of a problem is a query, a fact or a Horn constraint. -/
theorem parse_clause {fp : Fixedpoint} {p : Problem} (h : parse fp = .ok p)
    {chc : ConstraintedHornClause} (hchc : chc ∈ p.chcs) : Clause chc := by
  obtain ⟨rules, relations, queries, fromQueries, fromRules, _, _, hqueries, hrules, hchcs⟩ :=
    parse_ok h
  rw [hchcs] at hchc
  rcases List.mem_append.mp hchc with hchc | hchc
  · obtain ⟨q, _, hq⟩ := forall₂_mem_right hqueries hchc
    obtain ⟨decl, args, rfl, _, _, rfl⟩ := parseQuery_ok hq
    exact .query
  · obtain ⟨r, _, i, j, hr⟩ := (parseRules_spec hrules).1 chc hchc
    rcases (parseRule_cases hr).2 with ⟨_, _, _, _, _, hnone⟩ | ⟨c, hc, hclause, _⟩
    · cases hnone
    · rw [Option.some.inj hc]
      exact hclause

end HiceDt.Smt
