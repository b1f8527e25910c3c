import Mathlib.Logic.Relation
import HiceDt.Smt.Verifier

/-!
# Predicate substitution

The worklist and the cache of `z3_helper::substitute`
(`chc_verifier/include/z3_helper.h`, lines 55–161). The recursion `substituteLoop` says
what the worklist computes. An expression whose arguments are in the cache leaves the
worklist with the value of the recursion, and the others wait below their arguments.

Results:

* `steps_term`: an expression on the worklist is processed.
* `substituteWithin_ok`: with enough fuel the worklist yields the result of the recursion.
* `eval_substituteLoop`: the meaning of the result.
* `substitute_correct`: substitution is correct, and the successive substitutions of
  `check_chc` are the simultaneous one.
-/

namespace HiceDt.Smt

open HiceDt Loop Fol

variable {α : Type} {T : Theory α} {I : Interp α} {conjectures : ConjectureMap}
variable {f : Decl} {h : Conjecture}

/-! ## The worklist -/

/-- `is_app`. -/
def isApp : Term → Bool
  | .op _ _ => true
  | .app _ _ => true
  | _ => false

/-- `cur.arg (i)` for `i < cur.num_args ()`. -/
def argsOf : Term → List Term
  | .op _ args => args
  | .app _ args => args
  | _ => []

/-- The variables `worklist` and `cache`; the back of the worklist comes first. -/
structure Substitution where
  worklist : List Term
  cache : List (Term × Term)
deriving DecidableEq, Repr

/-- `cache.at (arg)`. -/
def cacheAt (cache : List (Term × Term)) (arg : Term) : Except Error Term :=
  match cache.lookup arg with
  | some t => .ok t
  | none => .error (.runtimeError "out_of_range")

/-- `cache.emplace (cur, tmp)`, which keeps an entry that exists. -/
def emplace (cache : List (Term × Term)) (cur tmp : Term) : List (Term × Term) :=
  match cache.lookup cur with
  | some _ => cache
  | none => (cur, tmp) :: cache

/-- The expression `tmp` for processed arguments (lines 123–150). -/
def rebuild (f : Decl) (h : Conjecture) : Term → List Term → Except Error Term
  | .op o _, dest => .ok (.op o dest)
  | .app g _, dest =>
    if g = f then do
      assert (h.vars.length = dest.length)
      return h.expr.replaceConsts (bindings h.vars dest)
    else .ok (.app g dest)
  | _, _ => .error .assertionFailure

/-- One iteration of the loop (lines 76–154) on the back `cur` of the worklist. -/
def processBack (f : Decl) (h : Conjecture) (cur : Term) (rest : List Term)
    (cache : List (Term × Term)) : Except Error Substitution := do
  assert (isApp cur)
  let missing := (argsOf cur).filter fun arg => (cache.lookup arg).isNone
  if missing.isEmpty then do
    let dest ← (argsOf cur).mapM (cacheAt cache)
    let tmp ← rebuild f h cur dest
    return ⟨rest, emplace cache cur tmp⟩
  else return ⟨missing.reverse ++ cur :: rest, cache⟩

/-- The loop with at most `fuel` tests of its condition. -/
def processWorklist (f : Decl) (h : Conjecture) :
    ℕ → Substitution → Option (Except Error (List (Term × Term)))
  | 0, _ => none
  | fuel + 1, s =>
    match s.worklist with
    | [] => some (.ok s.cache)
    | cur :: rest =>
      match processBack f h cur rest s.cache with
      | .error e => some (.error e)
      | .ok s' => processWorklist f h fuel s'

/-- `z3_helper::substitute` with its worklist. -/
def substituteWithin (fuel : ℕ) (e : Term) (f : Decl) (h : Conjecture) :
    Option (Except Error Term) :=
  if h.vars.length = f.arity then
    match processWorklist f h fuel ⟨[e], []⟩ with
    | none => none
    | some (.error err) => some (.error err)
    | some (.ok cache) => some (cacheAt cache e)
  else some (.error .assertionFailure)

/-- The loop over the predicates of a clause (`chc_verifier.h`, lines 188–203). -/
def substituteAllWithin (fuel : ℕ) (conjectures : ConjectureMap) :
    List Decl → Term → Option (Except Error Term)
  | [], chcExpr => some (.ok chcExpr)
  | decl :: rest, chcExpr =>
    match conjectures decl with
    | none => some (.error (.runtimeError "out_of_range"))
    | some c =>
      if c.vars.length = decl.arity then
        match substituteWithin fuel chcExpr decl c with
        | none => none
        | some (.error err) => some (.error err)
        | some (.ok chcExpr) => substituteAllWithin fuel conjectures rest chcExpr
      else some (.error .assertionFailure)

/-! ## What the worklist computes -/

/-- The recursion rebuilds an application from its arguments. -/
theorem substituteLoop_eq {t : Term} (ht : isApp t = true) :
    substituteLoop f h t =
      substituteLoop.substituteArgs f h (argsOf t) >>= rebuild f h t := by
  match t with
  | .op o args => rfl
  | .app g args => rfl

theorem isApp_of_ok {t u : Term} (hu : substituteLoop f h t = .ok u) : isApp t = true := by
  match t with
  | .op o args => rfl
  | .app g args => rfl

theorem substituteArgs_ok {ts : List Term} :
    ∀ {us : List Term}, substituteLoop.substituteArgs f h ts = .ok us →
      List.Forall₂ (fun t u => substituteLoop f h t = .ok u) ts us := by
  induction ts with
  | nil =>
    intro us h
    rw [← Except.ok.inj h]
    exact .nil
  | cons t ts ih =>
    intro us h
    obtain ⟨u, hu, h⟩ := bind_ok.mp h
    obtain ⟨us', hus, h⟩ := bind_ok.mp h
    rw [← Except.ok.inj h]
    exact .cons hu (ih hus)

/-- The entries of the cache are results of the recursion. -/
def Sound (f : Decl) (h : Conjecture) (cache : List (Term × Term)) : Prop :=
  ∀ t u, cache.lookup t = some u → substituteLoop f h t = .ok u

/-- No entry is lost. -/
def Extends (cache cache' : List (Term × Term)) : Prop :=
  ∀ t u, cache.lookup t = some u → cache'.lookup t = some u

theorem lookup_emplace {cache : List (Term × Term)} (hsound : Sound f h cache) {cur tmp : Term}
    (htmp : substituteLoop f h cur = .ok tmp) :
    (emplace cache cur tmp).lookup cur = some tmp := by
  rw [emplace]
  match hcur : cache.lookup cur with
  | none => exact List.lookup_cons_self
  | some u =>
    have heq : Except.ok u = Except.ok tmp := (hsound cur u hcur).symm.trans htmp
    rw [← Except.ok.inj heq]
    exact hcur

theorem lookup_emplace_of_ne {cache : List (Term × Term)} {cur tmp t : Term} (hne : t ≠ cur) :
    (emplace cache cur tmp).lookup t = cache.lookup t := by
  rw [emplace]
  match cache.lookup cur with
  | none => rw [List.lookup_cons, beq_eq_false_iff_ne.mpr hne]
  | some _ => rfl

theorem sound_emplace {cache : List (Term × Term)} (hsound : Sound f h cache) {cur tmp : Term}
    (htmp : substituteLoop f h cur = .ok tmp) : Sound f h (emplace cache cur tmp) := by
  intro t u htu
  by_cases ht : t = cur
  · subst ht
    rw [lookup_emplace hsound htmp] at htu
    rw [← Option.some.inj htu]
    exact htmp
  · rw [lookup_emplace_of_ne ht] at htu
    exact hsound t u htu

theorem extends_emplace {cache : List (Term × Term)} (hsound : Sound f h cache) {cur tmp : Term}
    (htmp : substituteLoop f h cur = .ok tmp) : Extends cache (emplace cache cur tmp) := by
  intro t u htu
  by_cases ht : t = cur
  · subst ht
    have heq : Except.ok u = Except.ok tmp := (hsound t u htu).symm.trans htmp
    rw [Except.ok.inj heq]
    exact lookup_emplace hsound htmp
  · rw [lookup_emplace_of_ne ht]
    exact htu

/-- An iteration of the loop that does not fail. -/
def Step (f : Decl) (h : Conjecture) (s s' : Substitution) : Prop :=
  ∃ cur rest, s.worklist = cur :: rest ∧ processBack f h cur rest s.cache = .ok s'

/-- Several iterations. -/
abbrev Steps (f : Decl) (h : Conjecture) : Substitution → Substitution → Prop :=
  Relation.ReflTransGen (Step f h)

/-- The back of the worklist has been processed. -/
def Processed (f : Decl) (h : Conjecture) (ts rest : List Term) (cache : List (Term × Term)) :
    Prop :=
  ∃ cache', Steps f h ⟨ts ++ rest, cache⟩ ⟨rest, cache'⟩ ∧ Sound f h cache' ∧
    Extends cache cache' ∧ ∀ t ∈ ts, (cache'.lookup t).isSome = true

/-- The arguments that are in the cache. -/
theorem mapM_cacheAt {cache : List (Term × Term)} (hsound : Sound f h cache) {args dest : List Term}
    (hdest : List.Forall₂ (fun t u => substituteLoop f h t = .ok u) args dest)
    (hcached : ∀ t ∈ args, (cache.lookup t).isSome = true) :
    args.mapM (cacheAt cache) = .ok dest := by
  refine mapM_returns ?_
  induction hdest with
  | nil => exact .nil
  | @cons t u ts us hu _ ih =>
    refine .cons ?_ (ih fun t' ht' => hcached t' (List.mem_cons_of_mem _ ht'))
    obtain ⟨v, hv⟩ := Option.isSome_iff_exists.mp (hcached t List.mem_cons_self)
    have heq : Except.ok v = Except.ok u := (hsound t v hv).symm.trans hu
    rw [cacheAt, hv, Except.ok.inj heq]

/-- An expression whose arguments are in the cache leaves the worklist. -/
theorem steps_of_cached {cache : List (Term × Term)} (hsound : Sound f h cache) {t u : Term}
    (hu : substituteLoop f h t = .ok u)
    (hcached : ∀ a ∈ argsOf t, (cache.lookup a).isSome = true) (rest : List Term) :
    Processed f h [t] rest cache := by
  have happ := isApp_of_ok hu
  have hrebuild := hu
  rw [substituteLoop_eq happ, bind_ok] at hrebuild
  obtain ⟨dest, hdest, hrebuild⟩ := hrebuild
  have hmissing : (argsOf t).filter (fun arg => (cache.lookup arg).isNone) = [] := by
    rw [List.filter_eq_nil_iff]
    intro a ha hnone
    rw [Option.isNone_iff_eq_none] at hnone
    have hsome := hcached a ha
    rw [hnone] at hsome
    cases hsome
  have hstep : processBack f h t rest cache = .ok ⟨rest, emplace cache t u⟩ := by
    rw [processBack, happ]
    simp only [hmissing, mapM_cacheAt hsound (substituteArgs_ok hdest) hcached, hrebuild, bind,
      Except.bind]
    rfl
  refine ⟨emplace cache t u, .single ⟨t, rest, rfl, hstep⟩, sound_emplace hsound hu,
    extends_emplace hsound hu, fun t' ht' => ?_⟩
  rw [List.mem_singleton.mp ht', lookup_emplace hsound hu]
  rfl

/-- The expressions at the back of the worklist are processed one after the other. -/
theorem steps_terms {ts : List Term}
    (hts : ∀ t ∈ ts, ∀ cache rest, Sound f h cache → Processed f h [t] rest cache) :
    ∀ {cache : List (Term × Term)} (rest : List Term), Sound f h cache →
      Processed f h ts rest cache := by
  induction ts with
  | nil =>
    intro cache rest hsound
    exact ⟨cache, .refl, hsound, fun _ _ hu => hu, by simp⟩
  | cons t ts ih =>
    intro cache rest hsound
    obtain ⟨cache₁, hsteps₁, hsound₁, hext₁, hmem₁⟩ :=
      hts t List.mem_cons_self cache (ts ++ rest) hsound
    obtain ⟨cache₂, hsteps₂, hsound₂, hext₂, hmem₂⟩ :=
      ih (fun t' ht' => hts t' (List.mem_cons_of_mem _ ht')) rest hsound₁
    refine ⟨cache₂, hsteps₁.trans hsteps₂, hsound₂, fun t' u hu => hext₂ t' u (hext₁ t' u hu), ?_⟩
    intro t' ht'
    rcases List.mem_cons.mp ht' with rfl | ht'
    · obtain ⟨u, hu⟩ := Option.isSome_iff_exists.mp (hmem₁ t' List.mem_cons_self)
      rw [hext₂ t' u hu]
      rfl
    · exact hmem₂ t' ht'

/-- An application waits on the worklist until its arguments are processed. -/
theorem steps_of_args {t u : Term} (hu : substituteLoop f h t = .ok u)
    (hargs : ∀ a ∈ argsOf t, ∀ cache rest, Sound f h cache → Processed f h [a] rest cache)
    {cache : List (Term × Term)} (rest : List Term) (hsound : Sound f h cache) :
    Processed f h [t] rest cache := by
  set missing := (argsOf t).filter fun arg => (cache.lookup arg).isNone with hmissing
  by_cases hempty : missing.isEmpty = true
  · refine steps_of_cached hsound hu (fun a ha => ?_) rest
    rw [List.isEmpty_iff, hmissing, List.filter_eq_nil_iff] at hempty
    rw [Option.isSome_iff_ne_none, Ne, ← Option.isNone_iff_eq_none]
    exact hempty a ha
  · have hstep : processBack f h t rest cache = .ok ⟨missing.reverse ++ t :: rest, cache⟩ := by
      rw [processBack, isApp_of_ok hu]
      simp only [← hmissing, bind, Except.bind, assert, if_pos, if_neg hempty]
      rfl
    have hpushed : ∀ a ∈ missing.reverse, ∀ cache rest, Sound f h cache →
        Processed f h [a] rest cache :=
      fun a ha => hargs a (List.mem_of_mem_filter (List.mem_reverse.mp ha))
    obtain ⟨cache₁, hsteps₁, hsound₁, hext₁, hmem₁⟩ := steps_terms hpushed (t :: rest) hsound
    have hcached : ∀ a ∈ argsOf t, (cache₁.lookup a).isSome = true := by
      intro a ha
      match hlook : cache.lookup a with
      | none =>
        refine hmem₁ a (List.mem_reverse.mpr (List.mem_filter.mpr ⟨ha, ?_⟩))
        rw [hlook]
        rfl
      | some v =>
        rw [hext₁ a v hlook]
        rfl
    obtain ⟨cache₂, hsteps₂, hsound₂, hext₂, hmem₂⟩ := steps_of_cached hsound₁ hu hcached rest
    exact ⟨cache₂, .head ⟨t, rest, rfl, hstep⟩ (hsteps₁.trans hsteps₂), hsound₂,
      fun a v hv => hext₂ a v (hext₁ a v hv), hmem₂⟩

/-- Every expression on which the recursion returns is processed. -/
theorem steps_term {t : Term} : ∀ {u : Term}, substituteLoop f h t = .ok u →
    ∀ {cache : List (Term × Term)} (rest : List Term), Sound f h cache →
      Processed f h [t] rest cache := by
  have hargs : ∀ {t u : Term}, (∀ a ∈ argsOf t, ∀ {u : Term}, substituteLoop f h a = .ok u →
      ∀ {cache : List (Term × Term)} (rest : List Term), Sound f h cache →
        Processed f h [a] rest cache) →
      substituteLoop f h t = .ok u → ∀ {cache : List (Term × Term)} (rest : List Term),
        Sound f h cache → Processed f h [t] rest cache := by
    intro t u ih hu cache rest hsound
    have hsplit := hu
    rw [substituteLoop_eq (isApp_of_ok hu), bind_ok] at hsplit
    obtain ⟨dest, hdest, _⟩ := hsplit
    refine steps_of_args hu (fun a ha cache' rest' hsound' => ?_) rest hsound
    obtain ⟨v, _, hv⟩ := forall₂_mem_right (substituteArgs_ok hdest).flip ha
    exact ih a ha hv rest' hsound'
  induction t using Term.induction with
  | op o args ih => exact fun hu => hargs (t := .op o args) ih hu
  | app g args ih => exact fun hu => hargs (t := .app g args) ih hu
  | var index =>
    intro u hu
    cases hu
  | quantifier q bound body _ =>
    intro u hu
    cases hu

/-- Iterations that empty the worklist end the loop. -/
theorem processWorklist_of_steps {s : Substitution} {cache : List (Term × Term)}
    (hsteps : Steps f h s ⟨[], cache⟩) :
    ∃ N, ∀ n ≥ N, processWorklist f h n s = some (.ok cache) := by
  induction hsteps using Relation.ReflTransGen.head_induction_on with
  | refl =>
    refine ⟨1, fun n hn => ?_⟩
    obtain ⟨m, rfl⟩ := Nat.exists_eq_add_of_le' hn
    rfl
  | @head s s' hstep _ ih =>
    obtain ⟨N, hN⟩ := ih
    obtain ⟨cur, rest, hwork, hprocess⟩ := hstep
    refine ⟨N + 1, fun n hn => ?_⟩
    obtain ⟨m, rfl⟩ := Nat.exists_eq_add_of_le' (Nat.le_trans (Nat.le_add_left 1 N) hn)
    rw [processWorklist, hwork]
    simp only [hprocess]
    exact hN m (by omega)

/-- With enough fuel the worklist yields the result of the recursion. -/
theorem substituteWithin_ok {e u : Term} (hu : substitute e f h = .ok u) :
    ∃ N, ∀ n ≥ N, substituteWithin n e f h = some (.ok u) := by
  obtain ⟨_, hassert, hu⟩ := bind_ok.mp hu
  have hlen : h.vars.length = f.arity := of_decide_eq_true (assert_eq_ok hassert)
  have hsound : Sound f h [] := fun t v hv => by cases hv
  obtain ⟨cache, hsteps, hsound', _, hmem⟩ := steps_term hu [] hsound
  obtain ⟨N, hN⟩ := processWorklist_of_steps hsteps
  obtain ⟨v, hv⟩ := Option.isSome_iff_exists.mp (hmem e List.mem_cons_self)
  have heq : Except.ok v = Except.ok u := (hsound' e v hv).symm.trans hu
  refine ⟨N, fun n hn => ?_⟩
  have hrun : processWorklist f h n ⟨[e], []⟩ = some (.ok cache) := hN n hn
  rw [substituteWithin, if_pos hlen, hrun]
  simp only [cacheAt, hv, Except.ok.inj heq]

/-- With enough fuel the loop over the predicates yields the result of the recursion. -/
theorem substituteAllWithin_ok {decls : List Decl} : ∀ {e u : Term},
    substituteAll conjectures decls e = .ok u →
      ∃ N, ∀ n ≥ N, substituteAllWithin n conjectures decls e = some (.ok u) := by
  induction decls with
  | nil =>
    intro e u hu
    rw [← Except.ok.inj hu]
    exact ⟨0, fun _ _ => rfl⟩
  | cons decl rest ih =>
    intro e u hu
    obtain ⟨c, hc, hu⟩ := bind_ok.mp hu
    obtain ⟨_, hassert, hu⟩ := bind_ok.mp hu
    obtain ⟨e₁, he₁, hu⟩ := bind_ok.mp hu
    have hlen : c.vars.length = decl.arity := of_decide_eq_true (assert_eq_ok hassert)
    obtain ⟨N₁, hN₁⟩ := substituteWithin_ok he₁
    obtain ⟨N₂, hN₂⟩ := ih hu
    refine ⟨max N₁ N₂, fun n hn => ?_⟩
    rw [substituteAllWithin, conjectureAt_ok.mp hc]
    simp only [if_pos hlen, hN₁ n (le_of_max_le_left hn)]
    exact hN₂ n (le_of_max_le_right hn)

/-! ## The meaning of substitution -/

/-- The values of the variables of a conjecture. -/
def valuation (xs : List Decl) (vs : List (Val α)) : Interp α := fun f _ =>
  ((xs.zip vs).lookup f).getD (.bool false)

/-- The interpretation in which the constants `xs` have the values `vs`. -/
def withArguments (I : Interp α) (xs : List Decl) (vs : List (Val α)) : Interp α := fun f args =>
  match args with
  | [] => if f ∈ xs then valuation xs vs f [] else I f []
  | _ => I f args

/-- The value of a conjecture whose variables are bound to the arguments. -/
noncomputable def Conjecture.meaning (T : Theory α) (I : Interp α) (c : Conjecture)
    (vs : List (Val α)) : Val α :=
  c.expr.eval T (withArguments I c.vars vs) []

/-- The bindings of the variables have the values of the terms. -/
theorem bindings_spec {xs : List Decl} {dest : List Term} {vs : List (Val α)}
    (h : List.Forall₂ (fun u v => ∀ ρ, Term.eval T I u ρ = v) dest vs) (x : Decl) :
    (∀ u, bindings xs dest x = some u →
      x ∈ xs ∧ ∀ ρ, u.eval T I ρ = ((xs.zip vs).lookup x).getD (.bool false)) ∧
    (xs.length = dest.length → bindings xs dest x = none → x ∉ xs) := by
  induction xs generalizing dest vs with
  | nil => exact ⟨by simp [bindings], by simp⟩
  | cons y xs ih =>
    cases h with
    | nil => exact ⟨by simp [bindings], by simp⟩
    | @cons u v us vs' hu hus =>
      obtain ⟨hsome, hnone⟩ := ih hus
      rw [bindings, List.zip_cons_cons, List.lookup_cons]
      by_cases hxy : x = y
      · rw [if_pos hxy, beq_iff_eq.mpr hxy]
        refine ⟨fun w hw => ⟨List.mem_cons.mpr (.inl hxy), fun ρ => ?_⟩, by simp⟩
        rw [← Option.some.inj hw]
        exact hu ρ
      · rw [if_neg hxy, beq_eq_false_iff_ne.mpr hxy]
        refine ⟨fun w hw => (hsome w hw).imp_left (List.mem_cons_of_mem _), fun hlen hno => ?_⟩
        rw [List.mem_cons, not_or]
        exact ⟨hxy, hnone (by simpa using hlen) hno⟩

/-- The value of a conjecture in which the variables are replaced. -/
theorem eval_replace_vars {c : Conjecture} (hc : c.expr.closed 0 = true) {dest : List Term}
    {vs : List (Val α)} (hlen : c.vars.length = dest.length)
    (h : List.Forall₂ (fun u v => ∀ ρ, Term.eval T I u ρ = v) dest vs) (ρ : List (Val α)) :
    (c.expr.replaceConsts (bindings c.vars dest)).eval T I ρ = c.meaning T I vs := by
  have hreplace : (c.expr.replaceConsts (bindings c.vars dest)).eval T I ρ =
      c.expr.eval T (withArguments I c.vars vs) ρ := by
    refine Term.eval_replaceConsts (fun f _ u hu ρ' => ?_) (fun f _ args hargs => ?_)
    · obtain ⟨hmem, hvalue⟩ := (bindings_spec h f).1 u hu
      rw [hvalue ρ', withArguments, if_pos hmem]
      rfl
    · match args with
      | [] =>
        have hnone := hargs.resolve_left (by simp)
        rw [withArguments, if_neg ((bindings_spec h f).2 hlen hnone)]
      | _ :: _ => rfl
  rw [hreplace]
  exact Term.eval_closed hc (by simp)

theorem map_eval_eq {dest : List Term} {vs : List (Val α)}
    (h : List.Forall₂ (fun u v => ∀ ρ, Term.eval T I u ρ = v) dest vs) (ρ : List (Val α)) :
    dest.map (fun u => u.eval T I ρ) = vs := by
  induction h with
  | nil => rfl
  | cons hu _ ih => rw [List.map_cons, hu ρ, ih]

theorem eval_substituteArgs {args dest : List Term} {value : Term → Val α}
    (ih : ∀ t ∈ args, ∀ {u}, substituteLoop f h t = .ok u → ∀ ρ, u.eval T I ρ = value t)
    (hdest : substituteLoop.substituteArgs f h args = .ok dest) :
    List.Forall₂ (fun u v => ∀ ρ, Term.eval T I u ρ = v) dest (args.map value) := by
  have hall := substituteArgs_ok hdest
  clear hdest
  induction hall with
  | nil => exact .nil
  | cons hu _ ih' =>
    refine .cons (ih _ List.mem_cons_self hu) (ih' fun t ht => ?_)
    exact ih t (List.mem_cons_of_mem _ ht)

/-- The substituted expression has the value of the expression where `f` stands for the
    conjecture. -/
theorem eval_substituteLoop (hc : h.expr.closed 0 = true) {t : Term} :
    ∀ {u : Term}, substituteLoop f h t = .ok u → ∀ ρ : List (Val α),
      u.eval T I ρ = t.eval T (Function.update I f (h.meaning T I)) [] := by
  induction t using Term.induction with
  | op o args ih =>
    intro u hu ρ
    rw [substituteLoop, bind_ok] at hu
    obtain ⟨dest, hdest, hu⟩ := hu
    rw [← Except.ok.inj hu, Term.eval_op, Term.eval_op, map_eval_eq (eval_substituteArgs ih hdest)]
  | app g args ih =>
    intro u hu ρ
    rw [substituteLoop, bind_ok] at hu
    obtain ⟨dest, hdest, hu⟩ := hu
    have hvals := eval_substituteArgs ih hdest
    by_cases hg : g = f
    · rw [if_pos hg, bind_ok] at hu
      obtain ⟨_, hassert, hu⟩ := hu
      have hlen : h.vars.length = dest.length := of_decide_eq_true (assert_eq_ok hassert)
      rw [← Except.ok.inj hu, eval_replace_vars hc hlen hvals, Term.eval_app, hg,
        Function.update_self]
    · rw [if_neg hg] at hu
      rw [← Except.ok.inj hu, Term.eval_app, Term.eval_app, map_eval_eq hvals,
        Function.update_of_ne hg]
  | var index =>
    intro u hu
    cases hu
  | quantifier q bound body _ =>
    intro u hu
    cases hu

/-! ## Substitution returns -/

/-- The expression is quantifier-free, and functions are applied to as many arguments as
    they are declared with. -/
def Expression (t : Term) : Prop := t.quantifierFree = true ∧ t.wellFormed = true

theorem expression_op {o : Op} {args : List Term} :
    Expression (.op o args) ↔ ∀ t ∈ args, Expression t := by
  simp only [Expression, Term.quantifierFree, Term.quantifierFreeList_eq, Term.wellFormed,
    Term.wellFormedList_eq, List.all_eq_true, forall_and]

theorem expression_app {g : Decl} {args : List Term} :
    Expression (.app g args) ↔ args.length = g.arity ∧ ∀ t ∈ args, Expression t := by
  simp only [Expression, Term.quantifierFree, Term.quantifierFreeList_eq, Term.wellFormed,
    Term.wellFormedList_eq, List.all_eq_true, forall_and, Bool.and_eq_true, decide_eq_true_eq]
  exact and_left_comm

theorem expression_replaceConsts {σ : Decl → Option Term}
    (hσ : ∀ g u, σ g = some u → Expression u) {t : Term} (ht : Expression t) :
    Expression (t.replaceConsts σ) := by
  induction t using Term.induction with
  | op o args ih =>
    rw [Term.replaceConsts_op, expression_op, List.forall_mem_map]
    exact fun t hmem => ih t hmem (expression_op.mp ht t hmem)
  | app g args ih =>
    obtain ⟨hlen, hargs⟩ := expression_app.mp ht
    by_cases hg : args ≠ [] ∨ σ g = none
    · rw [Term.replaceConsts_app hg, expression_app, List.length_map, List.forall_mem_map]
      exact ⟨hlen, fun t hmem => ih t hmem (hargs t hmem)⟩
    · push Not at hg
      obtain ⟨rfl, hg⟩ := hg
      obtain ⟨u, hu⟩ := Option.ne_none_iff_exists'.mp hg
      rw [Term.replaceConsts_const, hu]
      exact hσ g u hu
  | var index => cases ht.1
  | quantifier q bound body _ => cases ht.1

theorem mem_of_bindings {xs : List Decl} {dest : List Term} {x : Decl} {u : Term}
    (hu : bindings xs dest x = some u) : u ∈ dest := by
  induction xs generalizing dest with
  | nil => simp [bindings] at hu
  | cons y xs ih =>
    match dest with
    | [] => simp [bindings] at hu
    | t :: ts =>
      rw [bindings] at hu
      split_ifs at hu with hxy
      · rw [← Option.some.inj hu]
        exact List.mem_cons_self
      · exact List.mem_cons_of_mem _ (ih hu)

theorem substituteArgs_returns {args : List Term} {P : Term → Prop}
    (hargs : ∀ t ∈ args, ∃ u, substituteLoop f h t = .ok u ∧ P u) :
    ∃ dest, substituteLoop.substituteArgs f h args = .ok dest ∧ dest.length = args.length ∧
      ∀ u ∈ dest, P u := by
  induction args with
  | nil => exact ⟨[], rfl, rfl, by simp⟩
  | cons t ts ih =>
    obtain ⟨u, hu, hP⟩ := hargs t List.mem_cons_self
    obtain ⟨us, hus, hlen, hPs⟩ := ih fun t' ht' => hargs t' (List.mem_cons_of_mem _ ht')
    refine ⟨u :: us, ?_, by rw [List.length_cons, hlen, List.length_cons], ?_⟩
    · rw [substituteLoop.substituteArgs, hu, hus]
      rfl
    · exact List.forall_mem_cons.mpr ⟨hP, hPs⟩

/-- Substitution in an expression returns, and the result is an expression if the
    conjecture is one. -/
theorem substituteLoop_returns (hlen : h.vars.length = f.arity) {t : Term} (ht : Expression t) :
    ∃ u, substituteLoop f h t = .ok u ∧ (Expression h.expr → Expression u) := by
  induction t using Term.induction with
  | op o args ih =>
    obtain ⟨dest, hdest, _, hall⟩ :=
      substituteArgs_returns fun t hmem => ih t hmem (expression_op.mp ht t hmem)
    refine ⟨.op o dest, ?_, fun hh => expression_op.mpr fun u hu => hall u hu hh⟩
    rw [substituteLoop, hdest]
    rfl
  | app g args ih =>
    obtain ⟨harity, hargs⟩ := expression_app.mp ht
    obtain ⟨dest, hdest, hdlen, hall⟩ :=
      substituteArgs_returns fun t hmem => ih t hmem (hargs t hmem)
    by_cases hg : g = f
    · refine ⟨h.expr.replaceConsts (bindings h.vars dest), ?_, fun hh => ?_⟩
      · have heq : h.vars.length = dest.length := by rw [hlen, hdlen, harity, hg]
        rw [substituteLoop, hdest]
        simp only [bind, Except.bind, if_pos hg, heq]
        rfl
      · exact expression_replaceConsts (fun x u hu => hall u (mem_of_bindings hu) hh) hh
    · refine ⟨.app g dest, ?_, fun hh => expression_app.mpr ⟨by rw [hdlen, harity], ?_⟩⟩
      · rw [substituteLoop, hdest]
        simp only [bind, Except.bind, if_neg hg]
        rfl
      · exact fun u hu => hall u hu hh
  | var index => cases ht.1
  | quantifier q bound body _ => cases ht.1

/-! ## Successive substitutions -/

/-- The interpretation in which the predicates `decls` stand for their conjectures
    simultaneously. -/
noncomputable def simultaneous (T : Theory α) (conjectures : ConjectureMap) (decls : List Decl)
    (I : Interp α) : Interp α := fun g =>
  if g ∈ decls then ((conjectures g).map fun c => c.meaning T I).getD (I g) else I g

theorem simultaneous_of_mem {decls : List Decl} {g : Decl} {c : Conjecture} (hg : g ∈ decls)
    (hc : conjectures g = some c) : simultaneous T conjectures decls I g = c.meaning T I := by
  rw [simultaneous, if_pos hg, hc]
  rfl

theorem simultaneous_of_not_mem {decls : List Decl} {g : Decl} (hg : g ∉ decls) :
    simultaneous T conjectures decls I g = I g := by
  rw [simultaneous, if_neg hg]

/-- The conjectures for the predicates: expressions over their variables in which none of
    the predicates occurs. -/
def Conjectured (conjectures : ConjectureMap) (decls : List Decl) : Prop :=
  ∀ g ∈ decls, ∃ c, conjectures g = some c ∧ Expression c.expr ∧ c.vars.length = g.arity ∧
    ∀ g' ∈ decls, g' ∉ c.expr.symbols

/-- The meaning of a conjecture does not depend on predicates that do not occur in it. -/
theorem meaning_congr {c : Conjecture} {J : Interp α} (hIJ : ∀ g ∈ c.expr.symbols, I g = J g) :
    c.meaning T I = c.meaning T J := by
  funext vs
  refine Term.eval_congr fun g hg => ?_
  funext args
  match args with
  | [] => rw [withArguments, withArguments, hIJ g hg]
  | _ :: _ => exact congrFun (hIJ g hg) _

/-- After the first predicate, the others are substituted in the same conjectures. -/
theorem update_simultaneous {decl : Decl} {rest : List Decl} {c : Conjecture}
    (hc : conjectures decl = some c) (hfresh : ∀ g ∈ rest, g ∉ c.expr.symbols) :
    Function.update (simultaneous T conjectures rest I) decl
        (c.meaning T (simultaneous T conjectures rest I)) =
      simultaneous T conjectures (decl :: rest) I := by
  funext g
  by_cases hg : g = decl
  · subst hg
    rw [Function.update_self, simultaneous_of_mem List.mem_cons_self hc]
    refine meaning_congr fun g' hg' => simultaneous_of_not_mem fun hmem => ?_
    exact hfresh g' hmem hg'
  · rw [Function.update_of_ne hg, simultaneous, simultaneous]
    simp only [List.mem_cons, hg, false_or]

/-- The successive substitutions return an expression with the meaning of the
    simultaneous one. -/
theorem substituteAll_returns {decls : List Decl} : ∀ {e : Term}, Expression e →
    Conjectured conjectures decls → ∃ u, substituteAll conjectures decls e = .ok u ∧
      ∀ (β : Type) (T : Theory β) (I : Interp β),
        u.eval T I [] = e.eval T (simultaneous T conjectures decls I) [] := by
  induction decls with
  | nil =>
    intro e _ _
    refine ⟨e, rfl, fun β T I => Term.eval_congr fun g _ => ?_⟩
    exact (simultaneous_of_not_mem (by simp)).symm
  | cons decl rest ih =>
    intro e he hconj
    obtain ⟨c, hc, hexpr, hlen, hfresh⟩ := hconj decl List.mem_cons_self
    obtain ⟨e₁, he₁, hexpr₁⟩ := substituteLoop_returns hlen he
    have hrest : Conjectured conjectures rest := by
      intro g hg
      obtain ⟨c', hc', hexpr', hlen', hfresh'⟩ := hconj g (List.mem_cons_of_mem _ hg)
      exact ⟨c', hc', hexpr', hlen', fun g' hg' => hfresh' g' (List.mem_cons_of_mem _ hg')⟩
    obtain ⟨u, hu, hvalue⟩ := ih (hexpr₁ hexpr) hrest
    refine ⟨u, ?_, fun β T I => ?_⟩
    · rw [substituteAll, conjectureAt_ok.mpr hc]
      simp only [bind, Except.bind, hlen, substitute, assert_true, decide_true, he₁]
      exact hu
    · rw [hvalue, eval_substituteLoop (Term.closed_of_quantifierFree hexpr.1 0) he₁,
        update_simultaneous hc fun g hg => hfresh g (List.mem_cons_of_mem _ hg)]

/-- Substitution returns an expression with the value of `e` where `f` stands for `h`. -/
def SubstitutionCorrect (e : Term) (f : Decl) (h : Conjecture) : Prop :=
  ∃ u N, (∀ n ≥ N, substituteWithin n e f h = some (.ok u)) ∧
    ∀ (β : Type) (T : Theory β) (I : Interp β),
      u.eval T I [] = e.eval T (Function.update I f (h.meaning T I)) []

/-- The loop over the predicates, in any order, returns an expression with the value of
    `e` where all predicates stand for their conjectures. -/
def SimultaneousCorrect (conjectures : ConjectureMap) (decls : List Decl) (e : Term) : Prop :=
  ∀ order : List Decl, order.Perm decls →
    ∃ u N, (∀ n ≥ N, substituteAllWithin n conjectures order e = some (.ok u)) ∧
      ∀ (β : Type) (T : Theory β) (I : Interp β),
        u.eval T I [] = e.eval T (simultaneous T conjectures decls I) []

theorem simultaneous_perm {order decls : List Decl} (hperm : order.Perm decls) :
    simultaneous T conjectures order I = simultaneous T conjectures decls I := by
  funext g
  simp only [simultaneous, hperm.mem_iff]

theorem Conjectured.perm {order decls : List Decl} (hconj : Conjectured conjectures decls)
    (hperm : order.Perm decls) : Conjectured conjectures order := by
  intro g hg
  obtain ⟨c, hc, hexpr, hlen, hfresh⟩ := hconj g (hperm.mem_iff.mp hg)
  exact ⟨c, hc, hexpr, hlen, fun g' hg' => hfresh g' (hperm.mem_iff.mp hg')⟩

/-- `z3_helper::substitute` is correct on every quantifier-free expression, and the
    successive substitutions of `check_chc` are the simultaneous one. -/
theorem substitute_correct :
    (∀ (e : Term) (f : Decl) (h : Conjecture), Expression e → h.expr.closed 0 = true →
      h.vars.length = f.arity → SubstitutionCorrect e f h) ∧
    ∀ (conjectures : ConjectureMap) (decls : List Decl) (e : Term), Expression e →
      Conjectured conjectures decls → SimultaneousCorrect conjectures decls e := by
  refine ⟨fun e f h he hclosed hlen => ?_, fun conjectures decls e he hconj order hperm => ?_⟩
  · obtain ⟨u, hu, _⟩ := substituteLoop_returns hlen he
    have hsub : substitute e f h = .ok u := by
      simp only [substitute, hlen, decide_true, assert_true, bind, Except.bind, hu]
    obtain ⟨N, hN⟩ := substituteWithin_ok hsub
    exact ⟨u, N, hN, fun β T I => eval_substituteLoop hclosed hu []⟩
  · obtain ⟨u, hu, hvalue⟩ := substituteAll_returns he (hconj.perm hperm)
    obtain ⟨N, hN⟩ := substituteAllWithin_ok hu
    refine ⟨u, N, hN, fun β T I => ?_⟩
    rw [hvalue, simultaneous_perm hperm]

/-- The conjecture that negates its argument `x`. -/
def negation : Conjecture :=
  ⟨.op .not [.app ⟨.str "x", [], .bool⟩ []], [⟨.str "x", [], .bool⟩]⟩

/-- A predicate with two arguments. -/
def twoPlaces : Decl := ⟨.str "g", [.bool, .bool], .bool⟩

/-- A predicate below itself, in both arguments of another one. -/
def nested : Term :=
  .app twoPlaces [.app flag [.app flag [.op (.bool true) []]],
    .app flag [.app flag [.op (.bool true) []]]]

/-- The conjecture that the second argument holds and the first one does not. -/
def swapped : Conjecture :=
  ⟨.op .and [.app ⟨.str "y", [], .bool⟩ [], .op .not [.app ⟨.str "x", [], .bool⟩ []]],
    [⟨.str "x", [], .bool⟩, ⟨.str "y", [], .bool⟩]⟩

/-- The conjectures for the two predicates. -/
def nestedConjectures : ConjectureMap := fun f =>
  if f = flag then some negation else if f = twoPlaces then some swapped else none

/-- Nested and shared applications are replaced, in either order of the predicates. -/
theorem substitute_correct_nested : SubstitutionCorrect nested flag negation ∧
    SubstitutionCorrect nested twoPlaces swapped ∧
    SimultaneousCorrect nestedConjectures [flag, twoPlaces] nested := by
  refine ⟨substitute_correct.1 nested flag negation ⟨by decide, by decide⟩ (by decide) rfl,
    substitute_correct.1 nested twoPlaces swapped ⟨by decide, by decide⟩ (by decide) rfl,
    substitute_correct.2 _ _ _ ⟨by decide, by decide⟩ fun g hg => ?_⟩
  simp only [List.mem_cons, List.not_mem_nil, or_false] at hg
  rcases hg with rfl | rfl
  · exact ⟨negation, rfl, ⟨by decide, by decide⟩, rfl, by decide⟩
  · exact ⟨swapped, rfl, ⟨by decide, by decide⟩, rfl, by decide⟩

end HiceDt.Smt
