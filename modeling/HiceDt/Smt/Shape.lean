import HiceDt.Smt.Satisfiability
import HiceDt.Smt.Genuine

/-!
# Constrained Horn clauses

`parse` accepts clauses that are not Horn clauses over the predicates: a body may have a
predicate below a disjunction, and an argument may have a function. Here are the clauses
proper, whose body is a conjunction of predicates and constraints, and what
`extract_relations` (`chc_verifier/include/seahorn_smtlib2_parser.h`, lines 161–218)
collects for them.

Results:

* `parse_arity`, `parse_symbols`: the relations have arguments, and the functions of the
  clauses are relations and new constants.
* `parse_predicates`: the listed predicates are relations.
* `HornBody.collected`: the applications that are collected in a body.
* `HornShaped.collects`: the condition under which counterexamples are genuine.
* `HornShaped.implication`: a clause that holds, at a counterexample for it.
-/

namespace HiceDt.Smt

open HiceDt Loop Fol

variable {α : Type} {T : Theory α} {I J : Interp α}

/-! ## The functions of the clauses -/

/-- The recorded relations have arguments. -/
theorem collectDecl_arity {decl : Decl} {c c' : Collected} (h : collectDecl decl c = .ok c')
    (hc : ∀ r ∈ c.relations, 0 < r.arity) : ∀ r ∈ c'.relations, 0 < r.arity := by
  unfold collectDecl at h
  by_cases harity : decl.arity = 0
  · rw [if_pos harity] at h
    split_ifs at h
    · obtain ⟨name, _, h⟩ := bind_ok.mp h
      rw [← Except.ok.inj h]
      intro r hr
      rcases List.mem_insert_iff.mp hr with rfl | hr
      · exact Nat.one_pos
      · exact hc r hr
    · rw [← Except.ok.inj h]
      exact hc
  · rw [if_neg harity] at h
    obtain ⟨name, _, h⟩ := bind_ok.mp h
    split_ifs at h
    · rw [← Except.ok.inj h]
      exact hc
    · rw [← Except.ok.inj h]
      intro r hr
      rcases List.mem_insert_iff.mp hr with rfl | hr
      · exact Nat.pos_of_ne_zero harity
      · exact hc r hr

theorem collectArgs_arity {ts : List Term}
    (ih : ∀ t ∈ ts, ∀ {c c' : Collected}, collectAndReplaceRelations t c = .ok c' →
      (∀ r ∈ c.relations, 0 < r.arity) → ∀ r ∈ c'.relations, 0 < r.arity) :
    ∀ {c c' : Collected}, collectAndReplaceRelations.collectArgs ts c = .ok c' →
      (∀ r ∈ c.relations, 0 < r.arity) → ∀ r ∈ c'.relations, 0 < r.arity := by
  induction ts with
  | nil =>
    intro c c' h hc
    rw [← Except.ok.inj h]
    exact hc
  | cons t ts ih' =>
    intro c c' h hc
    obtain ⟨d, hd, h⟩ := bind_ok.mp h
    exact ih' (fun u hu => ih u (List.mem_cons_of_mem _ hu)) h (ih t List.mem_cons_self hd hc)

theorem collect_arity {t : Term} : ∀ {c c' : Collected},
    collectAndReplaceRelations t c = .ok c' → (∀ r ∈ c.relations, 0 < r.arity) →
      ∀ r ∈ c'.relations, 0 < r.arity := by
  induction t using Term.induction with
  | op o args ih => exact fun h => collectArgs_arity ih h
  | app decl args ih =>
    intro c c' h hc
    obtain ⟨d, hd, h⟩ := bind_ok.mp h
    exact collectArgs_arity ih h (collectDecl_arity hd hc)
  | var index =>
    intro c c' h hc
    rw [← Except.ok.inj h]
    exact hc
  | quantifier q bound body ih => exact fun h => ih h

theorem preprocessExpressions_arity {es es' : List Term} {relations relations' : List Decl}
    (h : preprocessExpressions es relations = .ok (es', relations'))
    (hrel : ∀ r ∈ relations, 0 < r.arity) : ∀ r ∈ relations', 0 < r.arity := by
  obtain ⟨c, hc, h⟩ := bind_ok.mp h
  obtain ⟨_, rfl⟩ := Prod.mk.inj (Except.ok.inj h)
  exact foldlM_ok (I := fun d : Collected => ∀ r ∈ d.relations, 0 < r.arity)
    (fun _ _ _ hd he => collect_arity he hd) hrel hc

/-- The relations of a problem have arguments. -/
theorem parse_arity {fp : Fixedpoint} {p : Problem} (h : parse fp = .ok p) :
    ∀ r ∈ p.relations, 0 < r.arity := by
  obtain ⟨rules, relations, queries, fromQueries, fromRules, hrules, hqueries, _⟩ := parse_ok h
  exact preprocessExpressions_arity hqueries (preprocessExpressions_arity hrules (by simp))

/-- The functions of the replaced expressions of a stage are relations or
    `verifier.error`. -/
theorem symbols_replaced {p : Problem} {c : Collected} {es : List Term} (h : Stage p c es)
    {e : Term}
    (he : e ∈ es) (hwf : e.wellFormed = true) {f : Decl} (hf : f ∈ (replaced c e).symbols) :
    0 < f.arity ∧ (f.name = .str "verifier.error" ∨ f ∈ p.relations) := by
  rcases Term.mem_symbols_replaceConsts hwf hf with ⟨hf, hkept⟩ | ⟨g, u, hu, hf⟩
  · rcases h.records e he f hf with ⟨harity, g, hg⟩ | ⟨hpos, hrec⟩
    · rcases hkept with hkept | hpos
      · simp [replacement, hg] at hkept
      · omega
    · exact ⟨hpos, hrec.imp_right (h.relations f)⟩
  · obtain ⟨new, hnew, rfl⟩ := Option.map_eq_some_iff.mp hu
    obtain ⟨_, s, _, rfl, hmem⟩ := h.inv.keys g new hnew
    simp only [Term.mem_symbols_app, Term.mem_symbols_op, List.mem_singleton, exists_eq_left,
      List.not_mem_nil, false_and, exists_false, or_false] at hf
    rw [hf]
    exact ⟨Nat.one_pos, .inr (h.relations _ hmem)⟩

/-- The functions of an instantiated rule are those of the rule and new constants. -/
theorem symbols_instantiate {r : Term} {constantId : ℕ} {f : Decl}
    (hf : f ∈ (instantiate constantId r).symbols) :
    f ∈ r.symbols ∨ f.arity = 0 ∧ ∃ n, f.name = .int n := by
  unfold instantiate at hf
  split at hf
  · refine (Term.mem_symbols_substituteVars hf).imp_right ?_
    rintro ⟨u, hu, hf⟩
    obtain ⟨n, sort, rfl⟩ := mem_newConstants hu
    simp only [Term.mem_symbols_app, List.not_mem_nil, false_and, exists_false, or_false] at hf
    rw [hf]
    exact ⟨rfl, n, rfl⟩
  · exact .inl hf

/-- The functions of the clauses are the relations, `verifier.error` and the new
    constants. -/
theorem parse_symbols {fp : Fixedpoint} {p : Problem} (h : parse fp = .ok p)
    {chc : ConstraintedHornClause} (hchc : chc ∈ p.chcs) {f : Decl} (hf : f ∈ chc.expr.symbols) :
    0 < f.arity ∧ (f.name = .str "verifier.error" ∨ f ∈ p.relations) ∨
      f.arity = 0 ∧ ∃ n, f.name = .int n := by
  obtain ⟨c₁, c₂, fromQueries, fromRules, hstage₁, hstage₂, hqueries, hrules, hchcs, _⟩ :=
    parse_stages h
  rw [hchcs] at hchc
  rcases List.mem_append.mp hchc with hchc | hchc
  · obtain ⟨q', hq', hread⟩ := forall₂_mem_right hqueries hchc
    obtain ⟨q, hq, rfl⟩ := List.mem_map.mp hq'
    obtain ⟨decl, args, _, _, _, rfl⟩ := parseQuery_ok hread
    obtain ⟨t, ht, hf⟩ := Term.mem_symbols_op.mp hf
    rw [List.mem_singleton.mp ht] at hf
    exact .inl (symbols_replaced hstage₂ hq (fp.wellFormed q (List.mem_append_right _ hq)) hf)
  · obtain ⟨r', hr', i, j, hread⟩ := (parseRules_spec hrules).1 chc hchc
    obtain ⟨r, hr, rfl⟩ := List.mem_map.mp hr'
    rcases (parseRule_cases hread).2 with ⟨_, _, _, _, _, hnone⟩ | ⟨chc', hsome, _, hexpr⟩
    · cases hnone
    · obtain rfl := Option.some.inj hsome
      rw [hexpr] at hf
      exact (symbols_instantiate hf).imp_left
        (symbols_replaced hstage₁ hr (fp.wellFormed r (List.mem_append_left _ hr)))

/-! ## The predicates of the clauses -/

/-- A predicate that occurs in the term, with arguments and another name than
    `verifier.error`. -/
structure OccursIn (t : Term) (decl : Decl) : Prop where
  symbol : decl ∈ t.symbols
  arity : 0 < decl.arity
  name : decl.name ≠ .str "verifier.error"

/-- The declarations that `extract_relations` adds. -/
theorem extractRelations_occurs {t : Term} : ∀ {isNegated : Bool} {x y : Extracted},
    extractRelations isNegated t x = .ok y →
      ∀ decl ∈ y.relations, decl ∈ x.relations ∨ OccursIn t decl := by
  induction t using Term.induction with
  | op o args ih =>
    intro isNegated x y h
    have hsteps : ∀ us : List Term, (∀ t ∈ us, t ∈ args) → ∀ {b : Bool} {x y : Extracted},
        extractRelations.extractArgs b us x = .ok y →
          ∀ decl ∈ y.relations, decl ∈ x.relations ∨ OccursIn (.op o args) decl := by
      intro us
      induction us with
      | nil =>
        intro _ b x y h decl hd
        rw [← Except.ok.inj h] at hd
        exact .inl hd
      | cons u us ih' =>
        intro hmem b x y h decl hd
        obtain ⟨z, hz, hrest⟩ := bind_ok.mp h
        rcases ih' (fun t ht => hmem t (List.mem_cons_of_mem _ ht)) hrest decl hd with hd | hd
        · refine (ih u (hmem u List.mem_cons_self) hz decl hd).imp_right fun ho => ?_
          exact ⟨Term.mem_symbols_op.mpr ⟨u, hmem u List.mem_cons_self, ho.symbol⟩, ho.arity,
            ho.name⟩
        · exact .inr hd
    exact hsteps args (fun _ ht => ht) h
  | app f args _ =>
    intro isNegated x y h decl hd
    by_cases hpos : 0 < f.arity
    · obtain ⟨_, hname, rfl⟩ := extractRelations_predicate hpos h
      rcases List.mem_insert_iff.mp hd with rfl | hd
      · exact .inr ⟨Term.mem_symbols_app.mpr (.inl rfl), hpos, hname⟩
      · exact .inl hd
    · rw [extractRelations, if_neg hpos] at h
      rw [← Except.ok.inj h] at hd
      exact .inl hd
  | var index =>
    intro isNegated x y h decl hd
    rw [← Except.ok.inj h] at hd
    exact .inl hd
  | quantifier q bound body _ =>
    intro isNegated x y h
    cases h

/-- The listed predicates of the clause occur in it. -/
def ListsPredicates (chc : ConstraintedHornClause) : Prop :=
  ∀ decl ∈ chc.uninterpretedPredicates, OccursIn chc.expr decl

theorem listsPredicates_single {t : Term} {decl : Decl} {lhs rhs : List Predicate}
    (hsymbol : decl ∈ t.symbols) (hpos : 0 < decl.arity)
    (hname : decl.name ≠ .str "verifier.error") : ListsPredicates ⟨t, [decl], lhs, rhs⟩ := by
  intro f hf
  rw [List.mem_singleton.mp hf]
  exact ⟨hsymbol, hpos, hname⟩

theorem parseHorn_lists {lhs rhs : Term} {chc : Option ConstraintedHornClause}
    (h : parseHorn lhs rhs = .ok chc) : ∀ c ∈ chc, ListsPredicates c := by
  unfold parseHorn at h
  split_ifs at h with hlhs hrhs
  obtain ⟨x, hx, h⟩ := bind_ok.mp h
  obtain ⟨y, hy, h⟩ := bind_ok.mp h
  intro c hc decl hd
  rw [← Except.ok.inj h] at hc
  obtain rfl := Option.some.inj hc
  have hin : ∀ t ∈ [lhs, rhs], OccursIn t decl → OccursIn (.op .implies [lhs, rhs]) decl :=
    fun t ht ho => ⟨Term.mem_symbols_op.mpr ⟨t, ht, ho.symbol⟩, ho.arity, ho.name⟩
  rcases extractRelations_occurs hy decl hd with hd | ho
  · exact hin lhs (by simp) ((extractRelations_occurs hx decl hd).resolve_left (by simp))
  · exact hin rhs (by simp) ho

theorem parseFact_lists {constant : Term → Bool} {what : String} {decl : Decl} {args : List Term}
    {chc : Option ConstraintedHornClause} (hpos : 0 < decl.arity)
    (h : parseFact constant what decl args = .ok chc) : ∀ c ∈ chc, ListsPredicates c := by
  intro c hc
  rcases parseFact_ok hpos h with ⟨_, rfl⟩ | ⟨hname, rfl⟩
  · cases hc
  · obtain rfl := Option.some.inj hc
    exact listsPredicates_single (Term.mem_symbols_app.mpr (.inl rfl)) hpos hname

theorem parseRule_lists {constantId constantId' : ℕ} {r : Term}
    {chc : Option ConstraintedHornClause} (h : parseRule constantId r = .ok (chc, constantId')) :
    ∀ c ∈ chc, ListsPredicates c := by
  unfold parseRule at h
  split at h
  case h_1 decl args =>
    split_ifs at h with hpos
    obtain ⟨fact, hfact, h⟩ := bind_ok.mp h
    obtain ⟨rfl, _⟩ := Prod.mk.inj (Except.ok.inj h)
    exact parseFact_lists hpos hfact
  case h_2 bound body =>
    obtain ⟨clause, hclause, h⟩ := bind_ok.mp h
    obtain ⟨rfl, _⟩ := Prod.mk.inj (Except.ok.inj h)
    unfold parseBody at hclause
    split at hclause
    · split_ifs at hclause with hpos
      exact parseFact_lists hpos hclause
    · exact parseHorn_lists hclause
    · cases hclause
  case h_3 => cases h

/-- The listed predicates of a clause occur in it. -/
theorem parse_lists {fp : Fixedpoint} {p : Problem} (h : parse fp = .ok p)
    {chc : ConstraintedHornClause} (hchc : chc ∈ p.chcs) : ListsPredicates chc := by
  obtain ⟨c₁, c₂, fromQueries, fromRules, _, _, hqueries, hrules, hchcs, _⟩ := parse_stages h
  rw [hchcs] at hchc
  rcases List.mem_append.mp hchc with hchc | hchc
  · obtain ⟨q, _, hread⟩ := forall₂_mem_right hqueries hchc
    obtain ⟨decl, args, rfl, hpos, hname, rfl⟩ := parseQuery_ok hread
    exact listsPredicates_single (by simp) hpos hname
  · obtain ⟨r, _, i, j, hread⟩ := (parseRules_spec hrules).1 chc hchc
    exact parseRule_lists hread chc rfl

/-- The listed predicates of a clause are relations. -/
theorem parse_predicates {fp : Fixedpoint} {p : Problem} (h : parse fp = .ok p)
    {chc : ConstraintedHornClause} (hchc : chc ∈ p.chcs) :
    ∀ decl ∈ chc.uninterpretedPredicates, decl ∈ p.relations := by
  intro decl hd
  have ho := parse_lists h hchc decl hd
  rcases parse_symbols h hchc ho.symbol with ⟨_, hsymbol⟩ | ⟨harity, _⟩
  · exact hsymbol.resolve_left ho.name
  · exact absurd harity ho.arity.ne'

/-! ## Bodies -/

/-- A term whose functions are constants and operators. -/
def Constraint (t : Term) : Prop := ∀ f ∈ t.symbols, f.arity = 0

/-- A conjunction of predicates over constraints and of constraints. -/
inductive HornBody : Term → Prop
  | constraint {t : Term} : Constraint t → HornBody t
  | predicate {f : Decl} {args : List Term} : 0 < f.arity → (∀ t ∈ args, Constraint t) →
    HornBody (.app f args)
  | conjunction {ts : List Term} : (∀ t ∈ ts, HornBody t) → HornBody (.op .and ts)

/-- Nothing is collected in a constraint. -/
theorem Constraint.collected {t : Term} : ∀ {isNegated : Bool} {x y : Extracted}, Constraint t →
    extractRelations isNegated t x = .ok y → y = x := by
  induction t using Term.induction with
  | op o args ih =>
    intro isNegated x y ht h
    have hargs : ∀ t ∈ args, Constraint t :=
      fun t hmem f hf => ht f (Term.mem_symbols_op.mpr ⟨t, hmem, hf⟩)
    clear ht
    rw [extractRelations] at h
    generalize (if o = .not then !isNegated else isNegated) = b at h
    induction args generalizing x with
    | nil => exact (Except.ok.inj h).symm
    | cons t ts ih' =>
      obtain ⟨z, hz, hrest⟩ := bind_ok.mp h
      rw [ih t List.mem_cons_self (hargs t List.mem_cons_self) hz] at hrest
      exact ih' (fun u hu => ih u (List.mem_cons_of_mem _ hu))
        (fun u hu => hargs u (List.mem_cons_of_mem _ hu)) hrest
  | app f args _ =>
    intro isNegated x y ht h
    have harity : f.arity = 0 := ht f (Term.mem_symbols_app.mpr (.inl rfl))
    rw [extractRelations, if_neg (by omega)] at h
    exact (Except.ok.inj h).symm
  | var index =>
    intro isNegated x y _ h
    exact (Except.ok.inj h).symm
  | quantifier q bound body _ =>
    intro isNegated x y _ h
    cases h

/-- Conjuncts are applications of functions of the formula. -/
theorem conjuncts_symbols {t : Term} : ∀ {isNegated : Bool} {a : Predicate},
    a ∈ conjuncts isNegated t → a.decl ∈ t.symbols := by
  induction t using Term.induction with
  | op o args ih =>
    intro isNegated a ha
    have hlist : ∀ {b : Bool}, a ∈ conjuncts.conjunctsList b args →
        a.decl ∈ (Term.op o args).symbols := by
      intro b ha
      obtain ⟨t, ht, ha⟩ := mem_conjunctsList.mp ha
      exact Term.mem_symbols_op.mpr ⟨t, ht, ih t ht ha⟩
    have hone : ∀ {b : Bool} {t : Term}, t ∈ args → a ∈ conjuncts b t →
        a.decl ∈ (Term.op o args).symbols :=
      fun ht ha => Term.mem_symbols_op.mpr ⟨_, ht, ih _ ht ha⟩
    rw [conjuncts.eq_def] at ha
    split at ha
    case h_1 h => cases h
    case h_2 t h =>
      cases h
      exact hone List.mem_cons_self ha
    case h_3 h =>
      cases h
      exact hlist ha
    case h_4 h =>
      cases h
      exact hlist ha
    case h_5 t u h =>
      cases h
      rcases List.mem_append.mp ha with ha | ha
      · exact hone List.mem_cons_self ha
      · exact hone (by simp) ha
    case h_6 h =>
      cases h
      exact hone List.mem_cons_self ha
    case h_7 h =>
      cases h
      exact hone List.mem_cons_self ha
    case h_8 => simp at ha
  | app f args _ =>
    intro isNegated a ha
    cases isNegated with
    | true => simp [conjuncts] at ha
    | false =>
      simp only [conjuncts, List.mem_singleton] at ha
      rw [ha]
      exact Term.mem_symbols_app.mpr (.inl rfl)
  | var index =>
    intro isNegated a ha
    cases isNegated <;> simp [conjuncts] at ha
  | quantifier q bound body _ =>
    intro isNegated a ha
    cases isNegated <;> simp [conjuncts] at ha

/-- The predicates of a body. -/
def predicates (t : Term) : List Predicate := (conjuncts false t).filter fun a => 0 < a.decl.arity

/-- The applications `found` are added, each with its declaration. -/
structure Collects (found : List Predicate) (x y : Extracted) : Prop where
  expressions : ∀ a, a ∈ y.relationExpressions ↔ a ∈ x.relationExpressions ∨ a ∈ found
  relations : ∀ decl, decl ∈ y.relations ↔ decl ∈ x.relations ∨ ∃ a ∈ found, a.decl = decl

theorem predicates_constraint {t : Term} (h : Constraint t) : predicates t = [] := by
  rw [predicates, List.filter_eq_nil_iff]
  intro a ha
  rw [h a.decl (conjuncts_symbols ha)]
  simp

theorem predicates_app {f : Decl} {args : List Term} (hpos : 0 < f.arity) :
    predicates (.app f args) = [⟨f, args⟩] := by
  simp [predicates, conjuncts, hpos]

theorem mem_predicates_and {ts : List Term} {a : Predicate} :
    a ∈ predicates (.op .and ts) ↔ ∃ t ∈ ts, a ∈ predicates t := by
  cases ts with
  | nil => simp [predicates, conjuncts, conjuncts.conjunctsList]
  | cons t ts =>
    simp only [predicates, List.mem_filter]
    rw [show conjuncts false (.op .and (t :: ts)) = conjuncts.conjunctsList false (t :: ts) by
      rw [conjuncts], mem_conjunctsList]
    constructor
    · rintro ⟨⟨u, hu, ha⟩, hpos⟩
      exact ⟨u, hu, ha, hpos⟩
    · rintro ⟨u, hu, ha, hpos⟩
      exact ⟨⟨u, hu, ha⟩, hpos⟩

/-- The predicates of a body are collected, and nothing else. -/
theorem HornBody.collected {t : Term} (h : HornBody t) : ∀ {x y : Extracted},
    extractRelations false t x = .ok y → Collects (predicates t) x y := by
  induction h with
  | constraint ht =>
    intro x y hrun
    rw [ht.collected hrun, predicates_constraint ht]
    exact ⟨by simp, by simp⟩
  | @predicate f args hpos hargs =>
    intro x y hrun
    rw [(extractRelations_predicate hpos hrun).2.2, predicates_app hpos]
    exact ⟨fun a => by simp [List.mem_insert_iff, or_comm],
      fun decl => by simp [List.mem_insert_iff, or_comm, eq_comm]⟩
  | @conjunction ts hts ih =>
    intro x y hrun
    have hsteps : ∀ us : List Term, (∀ t ∈ us, t ∈ ts) → ∀ {x y : Extracted},
        extractRelations.extractArgs false us x = .ok y → Collects (us.flatMap predicates) x y := by
      intro us
      induction us with
      | nil =>
        intro _ x y hrun
        rw [← Except.ok.inj hrun]
        exact ⟨by simp, by simp⟩
      | cons u us ih' =>
        intro hmem x y hrun
        obtain ⟨z, hz, hrest⟩ := bind_ok.mp hrun
        have hfirst := ih u (hmem u List.mem_cons_self) hz
        have hlast := ih' (fun t ht => hmem t (List.mem_cons_of_mem _ ht)) hrest
        refine ⟨fun a => ?_, fun decl => ?_⟩
        · rw [hlast.expressions, hfirst.expressions, List.flatMap_cons, List.mem_append, or_assoc]
        · rw [hlast.relations, hfirst.relations, List.flatMap_cons, or_assoc]
          simp only [List.mem_append, or_and_right, exists_or]
    have hall := hsteps ts (fun _ ht => ht) hrun
    have hmem : ∀ a, a ∈ ts.flatMap predicates ↔ a ∈ predicates (.op .and ts) := fun a => by
      rw [mem_predicates_and, List.mem_flatMap]
    refine ⟨fun a => ?_, fun decl => ?_⟩
    · rw [hall.expressions, hmem]
    · rw [hall.relations]
      exact or_congr_right (exists_congr fun a => and_congr_left fun _ => hmem a)

/-- The predicates of a body are applied to constraints. -/
theorem HornBody.arguments {t : Term} (h : HornBody t) :
    ∀ a ∈ predicates t, ∀ u ∈ a.args, Constraint u := by
  induction h with
  | constraint ht =>
    rw [predicates_constraint ht]
    simp
  | predicate hpos hargs =>
    rw [predicates_app hpos]
    intro a ha
    rw [List.mem_singleton.mp ha]
    exact hargs
  | conjunction hts ih =>
    intro a ha
    obtain ⟨t, ht, ha⟩ := mem_predicates_and.mp ha
    exact ih t ht a ha

/-- The value of a constraint depends on the constants. -/
theorem Constraint.eval_eq {t : Term} (h : Constraint t) (hIJ : ∀ f, f.arity = 0 → I f = J f)
    (ρ : List (Val α)) : t.eval T I ρ = t.eval T J ρ :=
  Term.eval_congr fun f hf => hIJ f (h f hf)

/-- A body that holds in `I` holds in `J` if its predicates do and the constants have
    the same values. -/
theorem HornBody.eval_of {t : Term} (h : HornBody t) (hIJ : ∀ f, f.arity = 0 → I f = J f)
    (hpred : ∀ a ∈ predicates t, (Term.eval T J (.app a.decl a.args) []).truth = true)
    (ht : (t.eval T I []).truth = true) : (t.eval T J []).truth = true := by
  induction h with
  | constraint hc =>
    rw [← hc.eval_eq hIJ]
    exact ht
  | predicate hpos _ =>
    rw [predicates_app hpos] at hpred
    exact hpred _ (List.mem_singleton_self _)
  | @conjunction ts hts ih =>
    rw [Term.eval_op] at ht ⊢
    have hall : ∀ t ∈ ts, (t.eval T I []).truth = true :=
      fun t hmem => List.all_eq_true.mp ht _ (List.mem_map_of_mem hmem)
    refine List.all_eq_true.mpr (List.forall_mem_map.mpr fun t hmem => ?_)
    exact ih t hmem (fun a ha => hpred a (mem_predicates_and.mpr ⟨t, hmem, ha⟩)) (hall t hmem)

/-! ## Clauses -/

/-- A query, a fact or an implication over predicates and constraints. -/
inductive HornClause : Term → Prop
  | query {decl : Decl} {args : List Term} : 0 < decl.arity → (∀ t ∈ args, Constraint t) →
    HornClause (.op .not [.app decl args])
  | fact {decl : Decl} {args : List Term} : 0 < decl.arity → (∀ t ∈ args, Constraint t) →
    HornClause (.app decl args)
  | horn {lhs : Term} {decl : Decl} {args : List Term} : HornBody lhs → 0 < decl.arity →
    (∀ t ∈ args, Constraint t) → HornClause (.op .implies [lhs, .app decl args])

/-- A clause of `parse` that is a constrained Horn clause. -/
structure HornShaped (chc : ConstraintedHornClause) : Prop where
  clause : Clause chc
  expr : HornClause chc.expr

variable {chc : ConstraintedHornClause}

/-- What is collected for a clause. -/
structure Proper (chc : ConstraintedHornClause) : Prop where
  listed : ∀ decl, decl ∈ chc.uninterpretedPredicates ↔
    ∃ a ∈ chc.predicatesInLhs ++ chc.predicatesInRhs, a.decl = decl
  positive : ∀ a ∈ chc.predicatesInLhs ++ chc.predicatesInRhs, 0 < a.decl.arity
  arguments : ∀ a ∈ chc.predicatesInLhs ++ chc.predicatesInRhs, ∀ t ∈ a.args, Constraint t
  nonempty : chc.uninterpretedPredicates ≠ []

/-- What is collected in an implication. -/
theorem collected_horn {lhs : Term} {decl : Decl} {args : List Term} {x y : Extracted}
    (hlhs : HornBody lhs) (hpos : 0 < decl.arity) (hx : extractRelations false lhs {} = .ok x)
    (hy : extractRelations false (.app decl args) ⟨x.relations, []⟩ = .ok y) :
    (∀ a, a ∈ x.relationExpressions ↔ a ∈ predicates lhs) ∧
      y.relationExpressions = [⟨decl, args⟩] ∧
      ∀ f, f ∈ y.relations ↔ f = decl ∨ ∃ a ∈ predicates lhs, a.decl = f := by
  have hc := hlhs.collected hx
  obtain ⟨_, _, rfl⟩ := extractRelations_predicate hpos hy
  refine ⟨fun a => ?_, rfl, fun f => ?_⟩
  · rw [hc.expressions]
    simp
  · rw [List.mem_insert_iff, hc.relations]
    simp

theorem HornShaped.proper (h : HornShaped chc) : Proper chc := by
  obtain ⟨hclause, hexpr⟩ := h
  cases hclause with
  | @query decl args =>
    cases hexpr with
    | query hpos hargs =>
      exact ⟨by simp [eq_comm], by simpa using hpos, by simpa using hargs, by simp⟩
  | @fact decl args _ =>
    cases hexpr with
    | fact hpos hargs =>
      exact ⟨by simp [eq_comm], by simpa using hpos, by simpa using hargs, by simp⟩
  | @horn lhs rhs x y _ _ hx hy =>
    cases hexpr with
    | @horn _ decl args hlhs hpos hargs =>
      obtain ⟨hfound, hhead, hrel⟩ := collected_horn hlhs hpos hx hy
      have hmem : ∀ a, a ∈ x.relationExpressions ++ y.relationExpressions ↔
          a ∈ predicates lhs ∨ a = ⟨decl, args⟩ := by
        intro a
        rw [List.mem_append, hfound, hhead, List.mem_singleton]
      refine ⟨fun f => ?_, fun a ha => ?_, fun a ha => ?_, ?_⟩
      · rw [hrel]
        constructor
        · rintro (rfl | ⟨a, ha, rfl⟩)
          · exact ⟨⟨f, args⟩, (hmem _).mpr (.inr rfl), rfl⟩
          · exact ⟨a, (hmem a).mpr (.inl ha), rfl⟩
        · rintro ⟨a, ha, rfl⟩
          rcases (hmem a).mp ha with ha | rfl
          · exact .inr ⟨a, ha, rfl⟩
          · exact .inl rfl
      · rcases (hmem a).mp ha with ha | rfl
        · exact of_decide_eq_true (List.mem_filter.mp ha).2
        · exact hpos
      · rcases (hmem a).mp ha with ha | rfl
        · exact hlhs.arguments a ha
        · exact hargs
      · exact List.ne_nil_of_mem ((hrel decl).mpr (.inl rfl))

/-- The listed predicates have arguments. -/
theorem Proper.arity (h : Proper chc) {decl : Decl} (hd : decl ∈ chc.uninterpretedPredicates) :
    0 < decl.arity := by
  obtain ⟨a, ha, rfl⟩ := (h.listed decl).mp hd
  exact h.positive a ha

/-- The collected applications are conjuncts over constraints. -/
theorem HornShaped.collects (h : HornShaped chc) : CollectsConjuncts chc := by
  have hproper := h.proper
  refine ⟨fun lhs rhs hexpr a ha => ?_, fun a ha t ht f hf hlisted => ?_⟩
  · obtain ⟨hclause, hshape⟩ := h
    cases hclause with
    | query => cases hexpr
    | fact => cases hexpr
    | horn _ _ hx hy =>
      cases hshape with
      | horn hlhs hpos hargs =>
        cases hexpr
        exact (List.mem_filter.mp (((collected_horn hlhs hpos hx hy).1 a).mp ha)).1
  · have h0 := hproper.arguments a ha t ht f hf
    have hpos := hproper.arity hlisted
    omega

/-- At most one predicate is collected from the right-hand side. -/
theorem HornShaped.conclusion (h : HornShaped chc) : chc.predicatesInRhs.length ≤ 1 := by
  obtain ⟨hclause, hexpr⟩ := h
  cases hclause with
  | query => exact Nat.zero_le 1
  | fact _ => exact le_rfl
  | horn _ _ hx hy =>
    cases hexpr with
    | horn hbody hpos hargs => rw [(collected_horn hbody hpos hx hy).2.1, List.length_singleton]

/-- A clause that `I` violates and `J` satisfies is an implication between its predicates
    in `J` if the constants have the same values. -/
theorem HornShaped.implication (h : HornShaped chc) (hIJ : ∀ f, f.arity = 0 → I f = J f)
    (hI : (chc.expr.eval T I []).truth = false) (hJ : (chc.expr.eval T J []).truth = true)
    (hlhs : ∀ a ∈ chc.predicatesInLhs, (Term.eval T J (.app a.decl a.args) []).truth = true) :
    ∃ a ∈ chc.predicatesInRhs, (Term.eval T J (.app a.decl a.args) []).truth = true := by
  obtain ⟨hclause, hexpr⟩ := h
  cases hclause with
  | @query decl args =>
    have htrue := hlhs ⟨decl, args⟩ (List.mem_singleton_self _)
    have hfalse : (Term.eval T J (.app decl args) []).truth = false := by
      simpa [Op.eval] using hJ
    rw [htrue] at hfalse
    cases hfalse
  | fact _ => exact ⟨_, List.mem_singleton_self _, hJ⟩
  | @horn lhs rhs x y _ _ hx hy =>
    cases hexpr with
    | @horn _ decl args hbody hpos hargs =>
      obtain ⟨hfound, hhead, _⟩ := collected_horn hbody hpos hx hy
      have hbodyI : (lhs.eval T I []).truth = true := by
        have hboth : (lhs.eval T I []).truth = true ∧
            (Term.eval T I (.app decl args) []).truth = false := by
          simpa [Op.eval] using hI
        exact hboth.1
      have hbodyJ := hbody.eval_of hIJ (fun a ha => hlhs a ((hfound a).mpr ha)) hbodyI
      refine ⟨⟨decl, args⟩, by rw [hhead]; exact List.mem_singleton_self _, ?_⟩
      simpa [Op.eval, hbodyJ] using hJ

end HiceDt.Smt
