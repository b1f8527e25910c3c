import HiceDt.Smt.Parser

/-!
# Satisfiability of the parsed problem

A solution of the clause system interprets all its functions, a solution of the problem
only the recorded relations: it has to satisfy the clauses for all values of the new
constants. `parse` replaces a 0-ary relation `R` by `R@(true)` and skips the facts about
`verifier.error`.

Results:

* `collect_spec`: the relations that `collect_and_replace_relations` records.
* `eval_replaced`: the meaning of a formula in which 0-ary relations are replaced.
* `parse_solvable_iff`: when parsing preserves satisfiability.
-/

namespace HiceDt.Smt

open HiceDt Loop Fol

variable {α : Type} {T : Theory α} {I J : Interp α} {c c' : Collected}

/-! ## Recorded relations -/

theorem nameStr_ok {decl : Decl} {s : String} : nameStr decl = .ok s ↔ decl.name = .str s := by
  unfold nameStr
  cases decl.name with
  | str t => simp
  | int n => simp

/-- 0-ary relations are mapped to new relations, and relations have strings as names. -/
structure Collected.Inv (c : Collected) : Prop where
  keys : ∀ f g, c.old2newRelations.lookup f = some g →
    f.arity = 0 ∧ ∃ s, f.name = .str s ∧ g = newDecl s f.range ∧ g ∈ c.relations
  names : ∀ r ∈ c.relations, ∃ s, r.name = .str s

/-- Entries are never removed. -/
structure Collected.Grows (c c' : Collected) : Prop where
  lookup : ∀ f g, c.old2newRelations.lookup f = some g → c'.old2newRelations.lookup f = some g
  relations : ∀ r ∈ c.relations, r ∈ c'.relations

/-- A function is replaced, recorded, or is `verifier.error`. -/
def Collected.Records (c : Collected) (f : Decl) : Prop :=
  (f.arity = 0 ∧ ∃ g, c.old2newRelations.lookup f = some g) ∨
  (0 < f.arity ∧ (f.name = .str "verifier.error" ∨ f ∈ c.relations))

theorem Collected.Grows.refl (c : Collected) : c.Grows c := ⟨fun _ _ h => h, fun _ h => h⟩

theorem Collected.Grows.trans {c'' : Collected} (h : c.Grows c') (h' : c'.Grows c'') :
    c.Grows c'' :=
  ⟨fun f g hf => h'.lookup f g (h.lookup f g hf), fun r hr => h'.relations r (h.relations r hr)⟩

theorem Collected.Records.grows {f : Decl} (h : c.Records f) (hg : c.Grows c') : c'.Records f := by
  rcases h with ⟨harity, g, hlookup⟩ | ⟨harity, hname | hmem⟩
  · exact .inl ⟨harity, g, hg.lookup f g hlookup⟩
  · exact .inr ⟨harity, .inl hname⟩
  · exact .inr ⟨harity, .inr (hg.relations f hmem)⟩

theorem collectDecl_spec {decl : Decl} (hinv : c.Inv) (h : collectDecl decl c = .ok c') :
    c'.Inv ∧ c.Grows c' ∧ c'.Records decl := by
  unfold collectDecl at h
  by_cases harity : decl.arity = 0
  · rw [if_pos harity] at h
    cases hlookup : c.old2newRelations.lookup decl with
    | some g =>
      rw [hlookup, if_neg (by simp)] at h
      rw [← Except.ok.inj h]
      exact ⟨hinv, .refl c, .inl ⟨harity, g, hlookup⟩⟩
    | none =>
      rw [hlookup, Option.isNone_none, if_pos rfl] at h
      obtain ⟨s, hs, h⟩ := bind_ok.mp h
      have hname := nameStr_ok.mp hs
      rw [← Except.ok.inj h]
      have hself : (c.old2newRelations ++ [(decl, newDecl s decl.range)]).lookup decl =
          some (newDecl s decl.range) := by
        simp [List.lookup_append, hlookup]
      have hgrows : c.Grows ⟨c.old2newRelations ++ [(decl, newDecl s decl.range)],
          c.relations.insert (newDecl s decl.range)⟩ := by
        refine ⟨fun f g hf => ?_, fun r hr => List.mem_insert_of_mem hr⟩
        simp [List.lookup_append, hf]
      refine ⟨⟨fun f g hf => ?_, fun r hr => ?_⟩, hgrows, .inl ⟨harity, _, hself⟩⟩
      · rw [List.lookup_append] at hf
        cases hold : c.old2newRelations.lookup f with
        | some g' =>
          rw [hold, Option.some_or] at hf
          obtain ⟨h0, t, ht, hg, hmem⟩ := hinv.keys f g (hold.trans hf)
          exact ⟨h0, t, ht, hg, List.mem_insert_of_mem hmem⟩
        | none =>
          rw [hold, Option.none_or, List.lookup_cons] at hf
          by_cases hfd : f = decl
          · subst hfd
            rw [beq_self_eq_true] at hf
            rw [← Option.some.inj hf]
            exact ⟨harity, s, hname, rfl, List.mem_insert_self⟩
          · rw [beq_eq_false_iff_ne.mpr hfd] at hf
            simp at hf
      · rcases List.mem_insert_iff.mp hr with rfl | hr
        · exact ⟨_, rfl⟩
        · exact hinv.names r hr
  · rw [if_neg harity] at h
    obtain ⟨s, hs, h⟩ := bind_ok.mp h
    have hname := nameStr_ok.mp hs
    have hpos : 0 < decl.arity := Nat.pos_of_ne_zero harity
    split_ifs at h with hold hdomain
    · rw [← Except.ok.inj h]
      refine ⟨hinv, .refl c, .inr ⟨hpos, hold.imp_left fun he => ?_⟩⟩
      rw [hname, he]
    · rw [← Except.ok.inj h]
      refine ⟨⟨fun f g hf => ?_, fun r hr => ?_⟩,
        ⟨fun _ _ hf => hf, fun r hr => List.mem_insert_of_mem hr⟩,
        .inr ⟨hpos, .inr List.mem_insert_self⟩⟩
      · obtain ⟨h0, t, ht, hg, hmem⟩ := hinv.keys f g hf
        exact ⟨h0, t, ht, hg, List.mem_insert_of_mem hmem⟩
      · rcases List.mem_insert_iff.mp hr with rfl | hr
        · exact ⟨s, hname⟩
        · exact hinv.names r hr

theorem collectArgs_spec {ts : List Term}
    (ih : ∀ t ∈ ts, ∀ {c c' : Collected}, c.Inv → collectAndReplaceRelations t c = .ok c' →
      c'.Inv ∧ c.Grows c' ∧ ∀ f ∈ t.symbols, c'.Records f) :
    ∀ {c c' : Collected}, c.Inv → collectAndReplaceRelations.collectArgs ts c = .ok c' →
      c'.Inv ∧ c.Grows c' ∧ ∀ t ∈ ts, ∀ f ∈ t.symbols, c'.Records f := by
  induction ts with
  | nil =>
    intro c c' hinv h
    rw [← Except.ok.inj h]
    exact ⟨hinv, .refl c, by simp⟩
  | cons t ts ih' =>
    intro c c' hinv h
    obtain ⟨d, hd, h⟩ := bind_ok.mp h
    obtain ⟨hinv₁, hgrows₁, hrec₁⟩ := ih t List.mem_cons_self hinv hd
    obtain ⟨hinv₂, hgrows₂, hrec₂⟩ := ih' (fun u hu => ih u (List.mem_cons_of_mem _ hu)) hinv₁ h
    refine ⟨hinv₂, hgrows₁.trans hgrows₂, fun u hu f hf => ?_⟩
    rcases List.mem_cons.mp hu with rfl | hu
    · exact (hrec₁ f hf).grows hgrows₂
    · exact hrec₂ u hu f hf

/-- `collect_and_replace_relations` records the functions of the expression. -/
theorem collect_spec {t : Term} : ∀ {c c' : Collected}, c.Inv →
    collectAndReplaceRelations t c = .ok c' →
    c'.Inv ∧ c.Grows c' ∧ ∀ f ∈ t.symbols, c'.Records f := by
  induction t using Term.induction with
  | op o args ih =>
    intro c c' hinv h
    obtain ⟨hinv', hgrows, hrec⟩ := collectArgs_spec ih hinv h
    refine ⟨hinv', hgrows, fun f hf => ?_⟩
    obtain ⟨t, ht, hf⟩ := Term.mem_symbols_op.mp hf
    exact hrec t ht f hf
  | app decl args ih =>
    intro c c' hinv h
    obtain ⟨d, hd, h⟩ := bind_ok.mp h
    obtain ⟨hinv₁, hgrows₁, hrec₁⟩ := collectDecl_spec hinv hd
    obtain ⟨hinv₂, hgrows₂, hrec₂⟩ := collectArgs_spec ih hinv₁ h
    refine ⟨hinv₂, hgrows₁.trans hgrows₂, fun f hf => ?_⟩
    rcases Term.mem_symbols_app.mp hf with rfl | ⟨t, ht, hf⟩
    · exact hrec₁.grows hgrows₂
    · exact hrec₂ t ht f hf
  | var index =>
    intro c c' hinv h
    rw [← Except.ok.inj h]
    exact ⟨hinv, .refl c, by simp [Term.symbols]⟩
  | quantifier q bound body ih =>
    intro c c' hinv h
    exact ih hinv h

/-- `preprocess_expressions` records the functions of all expressions. -/
theorem preprocessExpressions_ok {es es' : List Term} {relations relations' : List Decl}
    (hnames : ∀ r ∈ relations, ∃ s, r.name = .str s)
    (h : preprocessExpressions es relations = .ok (es', relations')) :
    ∃ c : Collected, c.Inv ∧ c.relations = relations' ∧ (∀ r ∈ relations, r ∈ relations') ∧
      es' = es.map (Term.replaceConsts (replacement c.old2newRelations)) ∧
      ∀ e ∈ es, ∀ f ∈ e.symbols, c.Records f := by
  obtain ⟨c, hc, h⟩ := bind_ok.mp h
  obtain ⟨rfl, rfl⟩ := Prod.mk.inj (Except.ok.inj h)
  have hstart : Collected.Inv { relations := relations } := ⟨by simp, hnames⟩
  have hcollected : c.Inv ∧ Collected.Grows { relations := relations } c ∧
      ∀ e ∈ es, ∀ f ∈ e.symbols, c.Records f := by
    refine foldlM_ok_spec (I := fun done d => d.Inv ∧ Collected.Grows { relations := relations } d ∧
      ∀ e ∈ done, ∀ f ∈ e.symbols, d.Records f) (fun done e rest d d' _ hd he => ?_)
      ⟨hstart, .refl _, by simp⟩ hc
    obtain ⟨hinv, hgrows, hrec⟩ := hd
    obtain ⟨hinv', hgrows', hrec'⟩ := collect_spec hinv he
    refine ⟨hinv', hgrows.trans hgrows', fun u hu f hf => ?_⟩
    rcases List.mem_append.mp hu with hu | hu
    · exact (hrec u hu f hf).grows hgrows'
    · rw [List.mem_singleton.mp hu] at hf
      exact hrec' f hf
  obtain ⟨hinv, hgrows, hrec⟩ := hcollected
  exact ⟨c, hinv, rfl, hgrows.relations, rfl, hrec⟩

/-! ## Replaced formulas -/

/-- The expressions after `preprocess_expressions`. -/
def replaced (c : Collected) (t : Term) : Term := t.replaceConsts (replacement c.old2newRelations)

/-- `J` interprets the replaced and recorded functions of `t` as `I` does the original
    ones. -/
def Translates (c : Collected) (I J : Interp α) (t : Term) : Prop :=
  ∀ f ∈ t.symbols, (∀ g, c.old2newRelations.lookup f = some g → J g [.bool true] = I f []) ∧
    (0 < f.arity → J f = I f)

/-- The value of a formula in which the 0-ary relations are replaced. -/
theorem eval_replaced {t : Term} (hinv : c.Inv) (hwf : t.wellFormed = true)
    (hrec : ∀ f ∈ t.symbols, c.Records f) (h : Translates c I J t) (ρ : List (Val α)) :
    (replaced c t).eval T J ρ = t.eval T I ρ := by
  let I₂ : Interp α := fun f vs => if vs.length = f.arity then I f vs else J f vs
  have hI₂ : t.eval T I ρ = t.eval T I₂ ρ :=
    Term.eval_congr_of_wellFormed hwf fun f _ vs hlen => by simp [I₂, hlen]
  rw [hI₂]
  refine Term.eval_replaceConsts (fun f hf u hu ρ' => ?_) (fun f hf vs hvs => ?_)
  · obtain ⟨g, hg, rfl⟩ := Option.map_eq_some_iff.mp hu
    have h0 := (hinv.keys f g hg).1
    simp only [Term.eval_app, Term.eval_op, List.map_cons, List.map_nil, Op.eval, I₂,
      List.length_nil, h0, if_true]
    exact (h f hf).1 g hg
  · by_cases hlen : vs.length = f.arity
    · simp only [I₂, if_pos hlen]
      rcases hrec f hf with ⟨h0, g, hg⟩ | ⟨hpos, _⟩
      · have hnil : vs = [] := List.length_eq_zero_iff.mp (hlen.trans h0)
        rcases hvs with hvs | hvs
        · exact absurd hnil hvs
        · simp [replacement, hg] at hvs
      · rw [(h f hf).2 hpos]
    · simp only [I₂, if_neg hlen]

/-- Only an application becomes an application: of the same function, or of the new
    relation of a 0-ary one. -/
theorem replaced_app {l : List (Decl × Decl)} {t : Term} {decl : Decl} {args : List Term}
    (h : t.replaceConsts (replacement l) = .app decl args) :
    (∃ args₀, t = .app decl args₀) ∨ ∃ f, t = .app f [] ∧ l.lookup f = some decl := by
  cases t with
  | op o args₀ => simp at h
  | app f args₀ =>
    by_cases hf : args₀ ≠ [] ∨ replacement l f = none
    · rw [Term.replaceConsts_app hf] at h
      injection h with hdecl _
      exact .inl ⟨args₀, by rw [hdecl]⟩
    · push Not at hf
      obtain ⟨rfl, hsome⟩ := hf
      obtain ⟨u, hu⟩ := Option.ne_none_iff_exists'.mp hsome
      rw [Term.replaceConsts_const, hu, Option.getD_some] at h
      obtain ⟨g, hg, rfl⟩ := Option.map_eq_some_iff.mp hu
      injection h with hdecl _
      exact .inr ⟨f, rfl, hdecl ▸ hg⟩
  | var index => cases h
  | quantifier q bound body => cases h

/-- Only a quantifier becomes a quantifier. -/
theorem replaced_quantifier {l : List (Decl × Decl)} {t body : Term} {q : Quantifier}
    {bound : List Srt} (h : t.replaceConsts (replacement l) = .quantifier q bound body) :
    ∃ body₀, t = .quantifier q bound body₀ ∧ body₀.replaceConsts (replacement l) = body := by
  cases t with
  | op o args₀ => simp at h
  | app f args₀ =>
    by_cases hf : args₀ ≠ [] ∨ replacement l f = none
    · rw [Term.replaceConsts_app hf] at h
      cases h
    · push Not at hf
      obtain ⟨rfl, hsome⟩ := hf
      obtain ⟨u, hu⟩ := Option.ne_none_iff_exists'.mp hsome
      rw [Term.replaceConsts_const, hu, Option.getD_some] at h
      obtain ⟨g, _, rfl⟩ := Option.map_eq_some_iff.mp hu
      cases h
  | var index => cases h
  | quantifier q₀ bound₀ body₀ =>
    rw [Term.replaceConsts] at h
    injection h with hq hbound hbody
    exact ⟨body₀, by rw [hq, hbound], hbody⟩

/-! ## Instantiated rules -/

theorem mem_newConstants {constantId : ℕ} {bound : List Srt} {t : Term}
    (h : t ∈ newConstants constantId bound) : ∃ n sort, t = .app ⟨.int n, [], sort⟩ [] := by
  obtain ⟨i, hi, rfl⟩ := List.mem_mapIdx.mp h
  exact ⟨_, _, rfl⟩

/-- The values of the new constants. -/
def constantValues (J : Interp α) (constantId : ℕ) (bound : List Srt) : List (Val α) :=
  bound.reverse.mapIdx fun i sort => J ⟨.int (constantId + i), [], sort⟩ []

theorem eval_instantiated (body : Term) (constantId : ℕ) (bound : List Srt) :
    (body.substituteVars (newConstants constantId bound) 0).eval T J [] =
      body.eval T J (constantValues J constantId bound) := by
  have hvalues : List.Forall₂ (fun u w => ∀ ρ, Term.eval T J u ρ = w)
      (newConstants constantId bound) (constantValues J constantId bound) := by
    refine List.forall₂_iff_get.mpr ⟨by simp [newConstants, constantValues], ?_⟩
    intro i h₁ h₂ ρ
    simp [newConstants, constantValues]
  have hnil : ([] : List (Val α)).length = 0 := rfl
  exact Term.eval_substituteVars hvalues hnil

theorem sort_constantValues (hJ : J.Sorted) (constantId : ℕ) (bound : List Srt) :
    (constantValues J constantId bound).map Val.sort = bound.reverse := by
  refine List.ext_getElem (by simp [constantValues]) fun i h₁ h₂ => ?_
  simp only [constantValues, List.getElem_map, List.getElem_mapIdx]
  exact hJ _ _

/-- A rule that holds does so for the values of the new constants. -/
theorem eval_instantiate {r : Term} (hJ : J.Sorted) (constantId : ℕ)
    (h : (r.eval T J []).truth = true) : ((instantiate constantId r).eval T J []).truth = true := by
  unfold instantiate
  split
  case h_1 bound body =>
    have hsorts : (constantValues J constantId bound).reverse.map Val.sort = bound := by
      rw [List.map_reverse, sort_constantValues hJ, List.reverse_reverse]
    have hbody := Term.eval_all.mp h _ hsorts
    rw [List.reverse_reverse, List.append_nil] at hbody
    rw [eval_instantiated]
    exact hbody
  case h_2 => exact h

/-- `J` with the values `ws` for the new constants. -/
def withConstants (J : Interp α) (constantId : ℕ) (ws : List (Val α)) : Interp α := fun f args =>
  match f.name with
  | .str _ => J f args
  | .int n =>
    match ws[n - constantId]? with
    | some w => if w.sort = f.range then w else J f args
    | none => J f args

theorem withConstants_sorted (hJ : J.Sorted) (constantId : ℕ) (ws : List (Val α)) :
    (withConstants J constantId ws).Sorted := by
  intro f args
  unfold withConstants
  split
  · exact hJ f args
  · split
    · split_ifs with hsort
      · exact hsort
      · exact hJ f args
    · exact hJ f args

theorem constantValues_withConstants (J : Interp α) (constantId : ℕ) {bound : List Srt}
    {ws : List (Val α)} (hws : ws.map Val.sort = bound.reverse) :
    constantValues (withConstants J constantId ws) constantId bound = ws := by
  have hlen : bound.reverse.length = ws.length := by rw [← hws, List.length_map]
  refine List.ext_getElem (by simpa [constantValues] using hlen) fun i h₁ h₂ => ?_
  have hi : i < bound.reverse.length := hlen ▸ h₂
  have hsort : ws[i].sort = bound.reverse[i] := by simp [← hws]
  simp only [constantValues, List.getElem_mapIdx]
  simp [withConstants, h₂, hsort]

/-- A rule holds if its instances do for all values of the new constants. -/
theorem eval_of_instances {r : Term} (constantId : ℕ) (hinv : c.Inv) (hwf : r.wellFormed = true)
    (hrec : ∀ f ∈ r.symbols, c.Records f) (hJ : J.Sorted)
    (htr : ∀ J' : Interp α, (∀ f s, f.name = .str s → J' f = J f) → Translates c I J' r)
    (h : ∀ J' : Interp α, J'.Sorted → (∀ f s, f.name = .str s → J' f = J f) →
      ((instantiate constantId (replaced c r)).eval T J' []).truth = true) :
    (r.eval T I []).truth = true := by
  by_cases hall : ∃ bound body, r = .quantifier .all bound body
  · obtain ⟨bound, body, rfl⟩ := hall
    refine Term.eval_all.mpr fun vs hvs => ?_
    let J' := withConstants J constantId vs.reverse
    have hagree : ∀ f s, f.name = .str s → J' f = J f := by
      intro f s hs
      funext args
      simp only [J', withConstants, hs]
    have hvalues : constantValues J' constantId bound = vs.reverse :=
      constantValues_withConstants J constantId (by rw [List.map_reverse, hvs])
    have hbody := h J' (withConstants_sorted hJ _ _) hagree
    have htrans : Translates c I J' body := htr J' hagree
    rw [replaced, Term.replaceConsts, instantiate, eval_instantiated, hvalues] at hbody
    rw [List.append_nil, ← eval_replaced (t := body) hinv hwf hrec htrans]
    exact hbody
  · have hself : instantiate constantId (replaced c r) = replaced c r := by
      unfold instantiate
      split
      case h_1 bound body heq =>
        obtain ⟨body₀, hr, _⟩ := replaced_quantifier heq
        exact absurd ⟨bound, body₀, hr⟩ hall
      case h_2 => rfl
    have hinst := h J hJ fun _ _ _ => rfl
    rw [hself, eval_replaced hinv hwf hrec (htr J fun _ _ _ => rfl)] at hinst
    exact hinst

/-! ## Solutions -/

/-- An interpretation of all functions that makes the rules true and the queries
    false. -/
structure Fixedpoint.Solution (T : Theory α) (fp : Fixedpoint) (I : Interp α) : Prop where
  sorted : I.Sorted
  rules : ∀ r ∈ fp.rules, (r.eval T I []).truth = true
  queries : ∀ q ∈ fp.queries, (q.eval T I []).truth = false

/-- The interpretation of the relations makes every clause true, whatever the values of
    the other functions are. -/
structure Problem.Solution (T : Theory α) (p : Problem) (I : Interp α) : Prop where
  sorted : I.Sorted
  chcs : ∀ chc ∈ p.chcs, ∀ J : Interp α, J.Sorted → (∀ r ∈ p.relations, J r = I r) →
    (chc.expr.eval T J []).truth = true

/-- The functions of the rules and queries. -/
def Fixedpoint.symbols (fp : Fixedpoint) : List Decl :=
    (fp.rules ++ fp.queries).flatMap Term.symbols

/-- A fact about `verifier.error`, possibly below a quantifier. -/
def ErrorFact (r : Term) : Prop :=
  ∃ decl args, (r = .app decl args ∨ ∃ bound, r = .quantifier .all bound (.app decl args)) ∧
    0 < decl.arity ∧ decl.name = .str "verifier.error"

/-- The new relation of a 0-ary one is not a function of the input, and `verifier.error`
    occurs in skipped facts only. -/
structure Fixedpoint.Unambiguous (fp : Fixedpoint) : Prop where
  fresh : ∀ g ∈ fp.symbols, g.arity = 0 → ∀ s, g.name = .str s → newDecl s g.range ∉ fp.symbols
  error : ∀ e ∈ fp.rules ++ fp.queries, ErrorFact e ∨
    ∀ f ∈ e.symbols, 0 < f.arity → f.name ≠ .str "verifier.error"

/-! ## Stages -/

/-- The expressions of a stage with what was recorded for them. -/
structure Stage (p : Problem) (c : Collected) (es : List Term) : Prop where
  inv : c.Inv
  relations : ∀ r ∈ c.relations, r ∈ p.relations
  records : ∀ e ∈ es, ∀ f ∈ e.symbols, c.Records f

theorem parse_stages {fp : Fixedpoint} {p : Problem} (h : parse fp = .ok p) :
    ∃ c₁ c₂ fromQueries fromRules, Stage p c₁ fp.rules ∧ Stage p c₂ fp.queries ∧
      List.Forall₂ (fun q chc => parseQuery q = .ok chc) (fp.queries.map (replaced c₂))
        fromQueries ∧
      parseRules 0 (fp.rules.map (replaced c₁)) = .ok fromRules ∧
      p.chcs = fromQueries ++ fromRules ∧ ∀ r ∈ p.relations, ∃ s, r.name = .str s := by
  obtain ⟨rules, relations, queries, fromQueries, fromRules, hrules, hqueries, hfromQ, hfromR,
    hchcs⟩ := parse_ok h
  obtain ⟨c₁, hinv₁, rfl, _, rfl, hrec₁⟩ := preprocessExpressions_ok (by simp) hrules
  obtain ⟨c₂, hinv₂, hrel₂, hsub, rfl, hrec₂⟩ := preprocessExpressions_ok hinv₁.names hqueries
  exact ⟨c₁, c₂, fromQueries, fromRules, ⟨hinv₁, hsub, hrec₁⟩,
    ⟨hinv₂, fun r hr => hrel₂ ▸ hr, hrec₂⟩, hfromQ, hfromR, hchcs, hrel₂ ▸ hinv₂.names⟩

theorem Fixedpoint.mem_symbols {fp : Fixedpoint} {e : Term} (he : e ∈ fp.rules ++ fp.queries)
    {f : Decl} (hf : f ∈ e.symbols) : f ∈ fp.symbols := List.mem_flatMap.mpr ⟨e, he, hf⟩

/-! ## From the clause system to the problem -/

/-- The new relation of a 0-ary one. -/
def newDeclOf (g : Decl) : Option Decl :=
  match g.name with
  | .str s => some (newDecl s g.range)
  | .int _ => none

theorem newDeclOf_range {f g : Decl} (h : newDeclOf g = some f) : f.range = g.range := by
  unfold newDeclOf at h
  split at h
  · rw [← Option.some.inj h]
    rfl
  · cases h

theorem newDeclOf_inj {f g g' : Decl} (hg : g.arity = 0) (hg' : g'.arity = 0)
    (h : newDeclOf g = some f) (h' : newDeclOf g' = some f) : g = g' := by
  obtain ⟨name, domain, range⟩ := g
  obtain ⟨name', domain', range'⟩ := g'
  have hd : domain = [] := List.length_eq_zero_iff.mp hg
  have hd' : domain' = [] := List.length_eq_zero_iff.mp hg'
  cases name with
  | int n => cases h
  | str s =>
    cases name' with
    | int n => cases h'
    | str s' =>
      have heq : newDecl s range = newDecl s' range' :=
        (Option.some.inj h).trans (Option.some.inj h').symm
      simp only [newDecl, Decl.mk.injEq, Symbol.str.injEq, String.append_left_inj, true_and] at heq
      rw [hd, hd', heq.1, heq.2]

/-- The solution of the problem: a new relation has the value of the 0-ary one. -/
def lift (fp : Fixedpoint) (I : Interp α) : Interp α := fun f vs =>
  match fp.symbols.find? fun g => g.arity = 0 ∧ newDeclOf g = some f with
  | some g => I g []
  | none => I f vs

variable {fp : Fixedpoint} {p : Problem}

theorem lift_sorted (hI : I.Sorted) : (lift fp I).Sorted := by
  intro f vs
  unfold lift
  split
  case h_1 g hg =>
    have hnew := List.find?_some hg
    simp only [decide_eq_true_eq] at hnew
    rw [hI, newDeclOf_range hnew.2]
  case h_2 => exact hI f vs

theorem lift_new {f g : Decl} (hg : g ∈ fp.symbols) (harity : g.arity = 0)
    (hf : newDeclOf g = some f) (vs : List (Val α)) : lift fp I f vs = I g [] := by
  unfold lift
  split
  case h_1 g' hg' =>
    have hnew := List.find?_some hg'
    simp only [decide_eq_true_eq] at hnew
    rw [newDeclOf_inj hnew.1 harity hnew.2 hf]
  case h_2 hno =>
    have hnot := List.find?_eq_none.mp hno g hg
    simp [harity, hf] at hnot

theorem lift_old (hcond : fp.Unambiguous) {f : Decl} (hf : f ∈ fp.symbols) :
    lift fp I f = I f := by
  funext vs
  unfold lift
  split
  case h_1 g hg =>
    have hnew := List.find?_some hg
    simp only [decide_eq_true_eq] at hnew
    have hmem := List.mem_of_find?_eq_some hg
    obtain ⟨harity, hnew⟩ := hnew
    unfold newDeclOf at hnew
    split at hnew
    case h_1 s hs => exact absurd (Option.some.inj hnew ▸ hf) (hcond.fresh g hmem harity s hs)
    case h_2 => cases hnew
  case h_2 => rfl

theorem lift_translates (hcond : fp.Unambiguous) {es : List Term} (hstage : Stage p c es)
    {e : Term} (he : e ∈ es) (hmem : e ∈ fp.rules ++ fp.queries)
    (herror : ∀ f ∈ e.symbols, 0 < f.arity → f.name ≠ .str "verifier.error")
    (hJ : ∀ r ∈ p.relations, J r = lift fp I r) : Translates c I J e := by
  intro f hf
  have hsym := Fixedpoint.mem_symbols hmem hf
  constructor
  · intro g hg
    obtain ⟨harity, s, hs, hnew, hrel⟩ := hstage.inv.keys f g hg
    rw [hJ g (hstage.relations g hrel)]
    exact lift_new hsym harity (by rw [newDeclOf, hs, hnew]) _
  · intro hpos
    rcases hstage.records e he f hf with ⟨harity, _⟩ | ⟨_, hname | hrel⟩
    · omega
    · exact absurd hname (herror f hf hpos)
    · rw [hJ f (hstage.relations f hrel), lift_old hcond hsym]

/-- A fact about `verifier.error` stays one. -/
theorem ErrorFact.instantiated {r : Term} (h : ErrorFact r) (hinv : c.Inv) (constantId : ℕ) :
    ∃ decl args, instantiate constantId (replaced c r) = .app decl args ∧
      decl.name = .str "verifier.error" := by
  obtain ⟨decl, args, hr, hpos, hname⟩ := h
  have hkeep : replacement c.old2newRelations decl = none := by
    cases hlookup : c.old2newRelations.lookup decl with
    | none => simp [replacement, hlookup]
    | some g =>
      have := (hinv.keys decl g hlookup).1
      omega
  have happ : replaced c (.app decl args) = .app decl (args.map (replaced c)) :=
    Term.replaceConsts_app (.inr hkeep)
  rcases hr with rfl | ⟨bound, rfl⟩
  · exact ⟨decl, args.map (replaced c), by rw [happ]; rfl, hname⟩
  · have hquant : replaced c (.quantifier .all bound (.app decl args)) =
        .quantifier .all bound (replaced c (.app decl args)) := rfl
    rw [hquant, happ, instantiate, Term.substituteVars_app]
    exact ⟨decl, _, rfl, hname⟩

/-- A clause is no fact about `verifier.error`. -/
theorem Clause.not_error {chc : ConstraintedHornClause} (h : Clause chc) {decl : Decl}
    {args : List Term} (he : chc.expr = .app decl args) : decl.name ≠ .str "verifier.error" := by
  cases h with
  | query => cases he
  | fact hname =>
    injection he with hdecl _
    exact hdecl ▸ hname
  | horn => cases he

/-- The clause of a query is its negation, and the query is not about
    `verifier.error`. -/
theorem parseQuery_replaced {q : Term} {chc : ConstraintedHornClause} (hinv : c.Inv)
    (h : parseQuery (replaced c q) = .ok chc) :
    chc.expr = .op .not [replaced c q] ∧ ¬ ErrorFact q := by
  obtain ⟨decl, args, happ, _, hname, rfl⟩ := parseQuery_ok h
  refine ⟨rfl, fun hfact => ?_⟩
  obtain ⟨decl', args', hinst, hname'⟩ := hfact.instantiated hinv 0
  rw [happ] at hinst
  injection hinst with hdecl _
  exact hname (hdecl ▸ hname')

/-- A solution of the clause system gives one of the problem. -/
theorem Fixedpoint.Solution.lift (hparse : parse fp = .ok p) (hcond : fp.Unambiguous)
    (h : fp.Solution T I) : p.Solution T (Smt.lift fp I) := by
  obtain ⟨c₁, c₂, fromQueries, fromRules, hstage₁, hstage₂, hqueries, hrules, hchcs, _⟩ :=
    parse_stages hparse
  refine ⟨lift_sorted h.sorted, fun chc hchc J hJ hagree => ?_⟩
  rw [hchcs] at hchc
  rcases List.mem_append.mp hchc with hchc | hchc
  · obtain ⟨q', hq', hread⟩ := forall₂_mem_right hqueries hchc
    obtain ⟨q, hq, rfl⟩ := List.mem_map.mp hq'
    have hmem : q ∈ fp.rules ++ fp.queries := List.mem_append_right _ hq
    obtain ⟨hexpr, hfact⟩ := parseQuery_replaced hstage₂.inv hread
    have herror := (hcond.error q hmem).resolve_left hfact
    have hvalue := eval_replaced (T := T) hstage₂.inv (fp.wellFormed q hmem) (hstage₂.records q hq)
      (lift_translates hcond hstage₂ hq hmem herror hagree) []
    have hfalse := h.queries q hq
    rw [← hvalue] at hfalse
    rw [hexpr]
    simpa [Op.eval] using hfalse
  · obtain ⟨r', hr', i, j, hread⟩ := (parseRules_spec hrules).1 chc hchc
    obtain ⟨r, hr, rfl⟩ := List.mem_map.mp hr'
    have hmem : r ∈ fp.rules ++ fp.queries := List.mem_append_left _ hr
    rcases (parseRule_cases hread).2 with ⟨_, _, _, _, _, hnone⟩ | ⟨chc', hsome, hclause, hexpr⟩
    · cases hnone
    · obtain rfl := Option.some.inj hsome
      have herror := (hcond.error r hmem).resolve_left fun hfact => by
        obtain ⟨decl, args, hinst, hname⟩ := hfact.instantiated hstage₁.inv i
        exact hclause.not_error (hexpr.trans hinst) hname
      have hvalue := eval_replaced (T := T) hstage₁.inv (fp.wellFormed r hmem)
        (hstage₁.records r hr) (lift_translates hcond hstage₁ hr hmem herror hagree) []
      rw [hexpr]
      refine eval_instantiate hJ i ?_
      rw [hvalue]
      exact h.rules r hr

/-! ## From the problem to the clause system -/

/-- The solution of the clause system: a 0-ary relation has the value of the new one at
    `true`, and `verifier.error` holds. -/
def lower (I : Interp α) : Interp α := fun f vs =>
  if f.arity = 0 then
    match newDeclOf f with
    | some g => I g [.bool true]
    | none => I f vs
  else if f.name = .str "verifier.error" ∧ f.range = .bool then .bool true
  else I f vs

theorem lower_sorted (hI : I.Sorted) : (lower I).Sorted := by
  intro f vs
  unfold lower
  split_ifs with harity herror
  · split
    case h_1 g hg => rw [hI, newDeclOf_range hg]
    case h_2 => exact hI f vs
  · rw [herror.2]
    rfl
  · exact hI f vs

theorem lower_translates {es : List Term} (hstage : Stage p c es) {e : Term} (he : e ∈ es)
    (herror : ∀ f ∈ e.symbols, 0 < f.arity → f.name ≠ .str "verifier.error")
    (hJ : ∀ f s, f.name = .str s → J f = I f) : Translates c (lower I) J e := by
  intro f hf
  constructor
  · intro g hg
    obtain ⟨harity, s, hs, hnew, hrel⟩ := hstage.inv.keys f g hg
    have hof : newDeclOf f = some g := by rw [newDeclOf, hs, hnew]
    obtain ⟨t, ht⟩ := hstage.inv.names g hrel
    rw [hJ g t ht, lower, if_pos harity, hof]
  · intro hpos
    rcases hstage.records e he f hf with ⟨harity, _⟩ | ⟨_, hname | hrel⟩
    · omega
    · exact absurd hname (herror f hf hpos)
    · obtain ⟨t, ht⟩ := hstage.inv.names f hrel
      funext vs
      rw [hJ f t ht, lower, if_neg (by omega), if_neg fun h => herror f hf hpos h.1]

/-- The name of a new relation is not `verifier.error`. -/
theorem newName_ne (s : String) : s ++ "@" ≠ "verifier.error" := by
  intro h
  have hlast := congrArg (fun t => t.toList.getLast?) h
  simp at hlast

/-- Skipped rules are facts about `verifier.error`. -/
theorem errorFact_of_instantiated {r : Term} (hinv : c.Inv) {constantId : ℕ} {decl : Decl}
    {args : List Term} (hpos : 0 < decl.arity) (hname : decl.name = .str "verifier.error")
    (h : instantiate constantId (replaced c r) = .app decl args) : ErrorFact r := by
  have hkeep : ∀ {t : Term} {args : List Term}, replaced c t = .app decl args →
      ∃ args₀, t = .app decl args₀ := by
    intro t args ht
    rcases replaced_app ht with happ | ⟨f, _, hlookup⟩
    · exact happ
    · obtain ⟨_, s, _, rfl, _⟩ := hinv.keys f decl hlookup
      exact absurd (Symbol.str.inj hname) (newName_ne s)
  unfold instantiate at h
  split at h
  case h_1 bound body hr =>
    obtain ⟨body₀, rfl, hbody⟩ := replaced_quantifier hr
    have happ : ∃ args', body = .app decl args' := by
      cases body with
      | app f args' =>
        rw [Term.substituteVars_app] at h
        injection h with hf _
        exact ⟨args', by rw [hf]⟩
      | var index =>
        rw [Term.substituteVars, if_neg (by omega), List.getD_eq_getElem?_getD] at h
        cases hc : (newConstants constantId bound)[index - 0]? with
        | none =>
          rw [hc] at h
          cases h
        | some t =>
          obtain ⟨n, sort, rfl⟩ := mem_newConstants (List.mem_of_getElem? hc)
          rw [hc] at h
          injection h with hdecl _
          rw [← hdecl] at hpos
          exact absurd hpos (by simp [Decl.arity])
      | op o args' => simp at h
      | quantifier q b body' => cases h
    obtain ⟨args', rfl⟩ := happ
    obtain ⟨args₀, rfl⟩ := hkeep hbody
    exact ⟨decl, args₀, .inr ⟨bound, rfl⟩, hpos, hname⟩
  case h_2 =>
    obtain ⟨args₀, rfl⟩ := hkeep h
    exact ⟨decl, args₀, .inl rfl, hpos, hname⟩

/-- `verifier.error` holds in the solution. -/
theorem eval_errorFact {r : Term} (h : ErrorFact r) (hr : isFormula r = true) :
    (r.eval T (lower I) []).truth = true := by
  obtain ⟨decl, args, hshape, hpos, hname⟩ := h
  have htrue : decl.range = .bool → ∀ vs, lower I decl vs = .bool true := by
    intro hrange vs
    rw [lower, if_neg (by omega), if_pos ⟨hname, hrange⟩]
  rcases hshape with rfl | ⟨bound, rfl⟩
  · rw [Term.eval_app, htrue (of_decide_eq_true hr), Val.truth_bool]
  · refine Term.eval_all.mpr fun vs _ => ?_
    rw [Term.eval_app, htrue (of_decide_eq_true hr), Val.truth_bool]

/-- A solution of the problem gives one of the clause system. -/
theorem Problem.Solution.lower (hparse : parse fp = .ok p) (hcond : fp.Unambiguous)
    (h : p.Solution T I) : fp.Solution T (Smt.lower I) := by
  obtain ⟨c₁, c₂, fromQueries, fromRules, hstage₁, hstage₂, hqueries, hrules, hchcs, hnames⟩ :=
    parse_stages hparse
  refine ⟨lower_sorted h.sorted, fun r hr => ?_, fun q hq => ?_⟩
  · have hmem : r ∈ fp.rules ++ fp.queries := List.mem_append_left _ hr
    obtain ⟨i, j, chc, hread, hchc⟩ := (parseRules_spec hrules).2 _ (List.mem_map_of_mem hr)
    by_cases hfact : ErrorFact r
    · exact eval_errorFact hfact (fp.rules_formulas r hr)
    · have herror := (hcond.error r hmem).resolve_left hfact
      rcases (parseRule_cases hread).2 with ⟨decl, args, hinst, hpos, hname, _⟩ | ⟨c, rfl, _, hexpr⟩
      · exact absurd (errorFact_of_instantiated hstage₁.inv hpos hname hinst) hfact
      · refine eval_of_instances i hstage₁.inv (fp.wellFormed r hmem) (hstage₁.records r hr)
          h.sorted (fun J' hJ' => lower_translates hstage₁ hr herror hJ') fun J' hJ' hagree => ?_
        have hc : c ∈ p.chcs := hchcs ▸ List.mem_append_right _ (hchc c rfl)
        rw [← hexpr]
        refine h.chcs c hc J' hJ' fun r hr => ?_
        obtain ⟨s, hs⟩ := hnames r hr
        exact hagree r s hs
  · have hmem : q ∈ fp.rules ++ fp.queries := List.mem_append_right _ hq
    obtain ⟨chc, hchc, hread⟩ := forall₂_mem_right hqueries.flip (List.mem_map_of_mem hq)
    obtain ⟨hexpr, hfact⟩ := parseQuery_replaced hstage₂.inv hread
    have herror := (hcond.error q hmem).resolve_left hfact
    have htrans : Translates c₂ (Smt.lower I) I q :=
      lower_translates hstage₂ hq herror fun _ _ _ => rfl
    have hvalue := eval_replaced (T := T) hstage₂.inv (fp.wellFormed q hmem) (hstage₂.records q hq)
      htrans []
    have htrue := h.chcs chc (hchcs ▸ List.mem_append_left _ hchc) I h.sorted fun _ _ => rfl
    rw [← hvalue]
    simpa [hexpr, Op.eval] using htrue

/-! ## Equisatisfiability -/

/-- The clause system has a solution. -/
def Fixedpoint.Solvable (T : Theory α) (fp : Fixedpoint) : Prop := ∃ I, fp.Solution T I

/-- The problem has a solution for its relations. -/
def Problem.Solvable (T : Theory α) (p : Problem) : Prop := ∃ I, p.Solution T I

/-- Parsing preserves satisfiability unless a new relation is a function of the input or
    `verifier.error` occurs in a clause that is kept. -/
theorem parse_solvable_iff (T : Theory α) (fp : Fixedpoint) (p : Problem)
    (hparse : parse fp = .ok p) (hcond : fp.Unambiguous) : p.Solvable T ↔ fp.Solvable T := by
  constructor
  · rintro ⟨I, hI⟩
    exact ⟨_, hI.lower hparse hcond⟩
  · rintro ⟨I, hI⟩
    exact ⟨_, hI.lift hparse hcond⟩

/-- The fact `R` for a 0-ary relation and a query for another relation. -/
def factAndQuery (query : Term) (hquery : query.wellFormed = true) : Fixedpoint where
  rules := [.app ⟨.str "R", [], .bool⟩ []]
  queries := [query]
  wellFormed := by
    intro e he
    simp only [List.cons_append, List.nil_append, List.mem_cons, List.not_mem_nil, or_false] at he
    rcases he with rfl | rfl
    · rfl
    · exact hquery
  rules_formulas := by simp [isFormula]

/-- The 0-ary query `S`. -/
def queryS : Term := .app ⟨.str "S", [], .bool⟩ []

/-- The problem for the fact `R@(true)` and a query for `decl`. -/
def factAndQueryProblem (relations : List Decl) (decl : Decl) : Problem where
  relations := relations
  chcs := [⟨.op .not [.app decl [.op (.bool true) []]], [decl], [⟨decl, [.op (.bool true) []]⟩],
  []⟩,
    ⟨.app (newDecl "R" .bool) [.op (.bool true) []], [newDecl "R" .bool], [],
      [⟨newDecl "R" .bool, [.op (.bool true) []]⟩]⟩]

theorem parse_queryS : parse (factAndQuery queryS rfl) =
    .ok (factAndQueryProblem [newDecl "S" .bool, newDecl "R" .bool] (newDecl "S" .bool)) := rfl

theorem queryS_unambiguous : (factAndQuery queryS rfl).Unambiguous where
  fresh g hg harity s hs hmem := by
    have hsym : (factAndQuery queryS rfl).symbols =
      [⟨.str "R", [], .bool⟩, ⟨.str "S", [], .bool⟩] := rfl
    rw [hsym] at hmem
    simp [newDecl] at hmem
  error e he := by
    right
    intro f hf hpos
    have hsym : f ∈ (factAndQuery queryS rfl).symbols := Fixedpoint.mem_symbols he hf
    have heq : (factAndQuery queryS rfl).symbols = [⟨.str "R", [], .bool⟩, ⟨.str "S", [], .bool⟩] :=
      rfl
    rw [heq] at hsym
    simp only [List.mem_cons, List.not_mem_nil, or_false] at hsym
    rcases hsym with rfl | rfl <;> simp [Decl.arity] at hpos

theorem parse_solvable_iff_queryS :
    (factAndQueryProblem [newDecl "S" .bool, newDecl "R" .bool] (newDecl "S" .bool)).Solvable
      arithmetic ↔ (factAndQuery queryS rfl).Solvable arithmetic :=
  parse_solvable_iff arithmetic _ _ parse_queryS queryS_unambiguous

/-- The rule `forall x. (R@(true) and 0 <= x) => S`, where `R@` is a relation of the input. -/
def ruleClash : Term :=
  .quantifier .all [.int] (.op .implies [.op .and [.app (newDecl "R" .bool) [.op (.bool true) []],
    .op (.other "<=") [.op (.int 0) [], .var 0]], queryS])

/-- The fact `R` for a 0-ary relation, the rule that reads another relation `R@`, and the
    query `S`. -/
def clashingRelations : Fixedpoint where
  rules := [.app ⟨.str "R", [], .bool⟩ [], ruleClash]
  queries := [queryS]
  wellFormed := by
    intro e he
    simp only [List.cons_append, List.nil_append, List.mem_cons, List.not_mem_nil, or_false] at he
    rcases he with rfl | rfl | rfl <;> rfl
  rules_formulas := by
    intro r hr
    simp only [List.mem_cons, List.not_mem_nil, or_false] at hr
    rcases hr with rfl | rfl <;> rfl

/-- The body of the rule for the new constant `0` of its variable. -/
def clashLhs : Term :=
  .op .and [.app (newDecl "R" .bool) [.op (.bool true) []],
    .op (.other "<=") [.op (.int 0) [], .app ⟨.int 0, [], .int⟩ []]]

/-- `S@(true)`. -/
def clashRhs : Term := .app (newDecl "S" .bool) [.op (.bool true) []]

/-- What `parse` makes of it: the relation of the fact is the one that the rule reads. -/
def clashingProblem : Problem where
  relations := [newDecl "S" .bool, newDecl "R" .bool]
  chcs := [⟨.op .not [clashRhs], [newDecl "S" .bool],
      [⟨newDecl "S" .bool, [.op (.bool true) []]⟩], []⟩,
    ⟨.app (newDecl "R" .bool) [.op (.bool true) []], [newDecl "R" .bool], [],
      [⟨newDecl "R" .bool, [.op (.bool true) []]⟩]⟩,
    ⟨.op .implies [clashLhs, clashRhs], [newDecl "S" .bool, newDecl "R" .bool],
      [⟨newDecl "R" .bool, [.op (.bool true) []]⟩], [⟨newDecl "S" .bool, [.op (.bool true) []]⟩]⟩]

theorem parse_clashingRelations : parse clashingRelations = .ok clashingProblem := rfl

/-- `R` holds, and every other function is false or zero. -/
def onlyR : Interp Unit := fun f vs =>
  if f.name = .str "R" ∧ f.range = .bool then .bool true else zeros f vs

theorem onlyR_sorted : onlyR.Sorted := by
  intro f vs
  unfold onlyR
  split_ifs with hf
  · rw [hf.2]
    rfl
  · exact zeros_sorted f vs

theorem onlyR_solution : clashingRelations.Solution arithmetic onlyR where
  sorted := onlyR_sorted
  rules r hr := by
    simp only [clashingRelations, List.mem_cons, List.not_mem_nil, or_false] at hr
    rcases hr with rfl | rfl
    · simp [onlyR]
    · refine Term.eval_all.mpr fun vs _ => ?_
      simp [queryS, newDecl, onlyR, zeros, Op.eval]
  queries q hq := by
    rw [clashingRelations, List.mem_singleton] at hq
    simp [hq, queryS, onlyR, zeros]

/-- If the input has a relation `R@` beside the 0-ary relation `R`, both become one: the
    clause system has a solution, the problem has none. -/
theorem parse_merges_relations : ∃ p, parse clashingRelations = .ok p ∧
    ¬ (p.Solvable arithmetic ↔ clashingRelations.Solvable arithmetic) := by
  refine ⟨_, parse_clashingRelations, fun h => ?_⟩
  obtain ⟨I, hI⟩ := h.mpr ⟨onlyR, onlyR_solution⟩
  -- the constant of the rule is zero
  obtain ⟨J, hJ, hzero, hagree⟩ : ∃ J : Interp Unit, J.Sorted ∧ J ⟨.int 0, [], .int⟩ [] = .int 0 ∧
      ∀ r ∈ clashingProblem.relations, J r = I r := by
    refine ⟨fun f vs => if f = ⟨.int 0, [], .int⟩ then .int 0 else I f vs, ?_, by simp, ?_⟩
    · intro f vs
      dsimp only
      split_ifs with hf
      · rw [hf]
        rfl
      · exact hI.sorted f vs
    · intro r hr
      simp only [clashingProblem, List.mem_cons, List.not_mem_nil, or_false] at hr
      rcases hr with rfl | rfl <;> rfl
  have hquery := hI.chcs _ List.mem_cons_self J hJ hagree
  have hfact := hI.chcs _ (List.mem_cons_of_mem _ List.mem_cons_self) J hJ hagree
  have hrule := hI.chcs _ (List.mem_cons_of_mem _ (List.mem_cons_of_mem _ List.mem_cons_self))
    J hJ hagree
  simp [clashRhs, Op.eval] at hquery
  simp [Op.eval] at hfact
  simp [clashLhs, clashRhs, Op.eval, hzero, hfact, hquery, arithmetic] at hrule

end HiceDt.Smt
