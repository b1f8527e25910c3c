import Mathlib.Data.Int.Notation
import Mathlib.Data.List.Forall2
import Mathlib.Data.List.GetD

/-!
# First-order terms

Terms over declared functions and interpreted operators with sorts and de Bruijn
indices, as an SMT solver represents formulas. The operators other than the
connectives, and the values of sorts other than `Bool` and `Int`, are parameters.

Results:

* `Term.induction`: induction over terms.
* `Term.eval_replaceConsts`: the value of a term in which constants are replaced.
* `Term.eval_substituteVars`: the value of a term in which variables are replaced.
* `Term.eval_congr`, `Term.eval_overConsts`: the value depends on the symbols of the
  term only.
* `Term.eval_closed`: the value depends on the free variables only.
-/

namespace HiceDt.Fol

/-! ## Terms -/

/-- Sorts: Booleans, integers and uninterpreted ones. -/
inductive Srt where
  | bool
  | int
  | other (name : String)
deriving DecidableEq, Repr

/-- Names are strings or numbers. -/
inductive Symbol where
  | str (s : String)
  | int (n : ℕ)
deriving DecidableEq, Repr

/-- The declaration of an uninterpreted function. -/
structure Decl where
  name : Symbol
  domain : List Srt
  range : Srt
deriving DecidableEq, Repr

/-- The number of arguments. -/
def Decl.arity (f : Decl) : ℕ := f.domain.length

/-- The interpreted operators; arithmetic is among the other ones. -/
inductive Op where
  | bool (b : Bool)
  | int (n : ℤ)
  | not
  | and
  | or
  | implies
  | other (name : String)
deriving DecidableEq, Repr

/-- The two quantifiers. -/
inductive Quantifier where
  | all
  | ex
deriving DecidableEq, Repr

/-- A quantifier lists the sorts of its variables; index 0 is the last one. -/
inductive Term where
  | op (o : Op) (args : List Term)
  | app (f : Decl) (args : List Term)
  | var (index : ℕ)
  | quantifier (q : Quantifier) (bound : List Srt) (body : Term)
deriving Repr

/-- The constant of a declaration without arguments. -/
def Decl.const (f : Decl) : Term := .app f []

namespace Term

/-- Induction over terms. -/
theorem induction {P : Term → Prop} (op : ∀ o args, (∀ t ∈ args, P t) → P (.op o args))
    (app : ∀ f args, (∀ t ∈ args, P t) → P (.app f args))
    (var : ∀ index, P (.var index))
    (quantifier : ∀ q bound body, P body → P (.quantifier q bound body)) (t : Term) : P t := by
  refine Term.rec (motive_1 := P) (motive_2 := fun ts => ∀ t ∈ ts, P t) op app var
    quantifier ?_ ?_ t
  · intro t ht
    simp at ht
  · intro t ts ht hts u hu
    rcases List.mem_cons.mp hu with rfl | hu
    · exact ht
    · exact hts u hu

mutual

/-- Equality of terms is decidable. -/
def decEq : (t u : Term) → Decidable (t = u)
  | .op o ts, .op o' us =>
    match decEq_list ts us with
    | .isTrue h => if ho : o = o' then .isTrue (by rw [ho, h]) else .isFalse (by simp [ho])
    | .isFalse h => .isFalse (by simp [h])
  | .app f ts, .app g us =>
    match decEq_list ts us with
    | .isTrue h => if hf : f = g then .isTrue (by rw [hf, h]) else .isFalse (by simp [hf])
    | .isFalse h => .isFalse (by simp [h])
  | .var i, .var j => if h : i = j then .isTrue (by rw [h]) else .isFalse (by simp [h])
  | .quantifier q b t, .quantifier q' b' u =>
    match decEq t u with
    | .isTrue h =>
      if hb : q = q' ∧ b = b' then .isTrue (by rw [hb.1, hb.2, h]) else .isFalse (by
        intro e
        injection e with h1 h2 h3
        exact hb ⟨h1, h2⟩)
    | .isFalse h => .isFalse (by simp [h])
  | .op _ _, .app _ _ => .isFalse (by simp)
  | .op _ _, .var _ => .isFalse (by simp)
  | .op _ _, .quantifier _ _ _ => .isFalse (by simp)
  | .app _ _, .op _ _ => .isFalse (by simp)
  | .app _ _, .var _ => .isFalse (by simp)
  | .app _ _, .quantifier _ _ _ => .isFalse (by simp)
  | .var _, .op _ _ => .isFalse (by simp)
  | .var _, .app _ _ => .isFalse (by simp)
  | .var _, .quantifier _ _ _ => .isFalse (by simp)
  | .quantifier _ _ _, .op _ _ => .isFalse (by simp)
  | .quantifier _ _ _, .app _ _ => .isFalse (by simp)
  | .quantifier _ _ _, .var _ => .isFalse (by simp)

/-- The arguments are compared one by one. -/
def decEq_list : (ts us : List Term) → Decidable (ts = us)
  | [], [] => .isTrue rfl
  | t :: ts, u :: us =>
    match decEq t u, decEq_list ts us with
    | .isTrue h, .isTrue h' => .isTrue (by rw [h, h'])
    | .isFalse h, _ => .isFalse (by simp [h])
    | _, .isFalse h' => .isFalse (by simp [h'])
  | [], _ :: _ => .isFalse (by simp)
  | _ :: _, [] => .isFalse (by simp)

end

instance : DecidableEq Term := decEq

end Term

/-! ## Meaning -/

variable {α : Type}

/-- Values; `α` has the values of sorts other than `Bool` and `Int`. -/
inductive Val (α : Type) where
  | bool (b : Bool)
  | int (n : ℤ)
  | other (sort : String) (a : α)

/-- The sort of a value. -/
def Val.sort : Val α → Srt
  | .bool _ => .bool
  | .int _ => .int
  | .other s _ => .other s

/-- Whether a value is true; what is not Boolean is not. -/
def Val.truth : Val α → Bool
  | .bool b => b
  | _ => false

@[simp] theorem Val.truth_bool (b : Bool) : (Val.bool b : Val α).truth = b := rfl

/-- The meaning of the other operators. -/
abbrev Theory (α : Type) := String → List (Val α) → Val α

/-- The meaning of an operator. -/
def Op.eval (T : Theory α) : Op → List (Val α) → Val α
  | .bool b, _ => .bool b
  | .int n, _ => .int n
  | .not, vs => .bool (vs.all fun v => !v.truth)
  | .and, vs => .bool (vs.all Val.truth)
  | .or, vs => .bool (vs.any Val.truth)
  | .implies, [a, b] => .bool (!a.truth || b.truth)
  | .implies, _ => .bool false
  | .other name, vs => T name vs

/-- The meaning of the uninterpreted functions. -/
abbrev Interp (α : Type) := Decl → List (Val α) → Val α

/-- The values have the sorts of the functions. -/
def Interp.Sorted (I : Interp α) : Prop := ∀ f vs, (I f vs).sort = f.range

namespace Term

open Classical in
/-- The value of a term; `ρ` has the values of the variables. -/
noncomputable def eval (T : Theory α) (I : Interp α) : Term → List (Val α) → Val α
  | .op o args, ρ => o.eval T (evalList args ρ)
  | .app f args, ρ => I f (evalList args ρ)
  | .var index, ρ => ρ.getD index (.bool false)
  | .quantifier .all bound body, ρ =>
    .bool (decide (∀ vs : List (Val α), vs.map Val.sort = bound →
      (eval T I body (vs.reverse ++ ρ)).truth = true))
  | .quantifier .ex bound body, ρ =>
    .bool (decide (∃ vs : List (Val α), vs.map Val.sort = bound ∧
      (eval T I body (vs.reverse ++ ρ)).truth = true))
where
  /-- The values of a list of terms. -/
  evalList : List Term → List (Val α) → List (Val α)
    | [], _ => []
    | t :: ts, ρ => eval T I t ρ :: evalList ts ρ

variable {T : Theory α} {I J : Interp α}

theorem evalList_eq (ts : List Term) (ρ : List (Val α)) :
    eval.evalList T I ts ρ = ts.map fun t => t.eval T I ρ := by
  induction ts with
  | nil => rfl
  | cons t ts ih =>
    rw [eval.evalList, ih]
    rfl

@[simp] theorem eval_op (o : Op) (args : List Term) (ρ : List (Val α)) :
    (Term.op o args).eval T I ρ = o.eval T (args.map fun t => t.eval T I ρ) := by
  rw [eval, evalList_eq]

@[simp] theorem eval_app (f : Decl) (args : List Term) (ρ : List (Val α)) :
    (Term.app f args).eval T I ρ = I f (args.map fun t => t.eval T I ρ) := by
  rw [eval, evalList_eq]

@[simp] theorem eval_var (i : ℕ) (ρ : List (Val α)) :
    (Term.var i).eval T I ρ = ρ.getD i (.bool false) := rfl

theorem eval_quantifier_congr {q : Quantifier} {bound : List Srt} {t u : Term} {ρ ρ' : List (Val α)}
    (h : ∀ vs : List (Val α), vs.map Val.sort = bound →
      t.eval T I (vs.reverse ++ ρ) = u.eval T J (vs.reverse ++ ρ')) :
    (Term.quantifier q bound t).eval T I ρ = (Term.quantifier q bound u).eval T J ρ' := by
  cases q with
  | all =>
    rw [eval, eval]
    congr 2
    refine propext (forall_congr' fun vs => imp_congr_right fun hvs => ?_)
    rw [h vs hvs]
  | ex =>
    rw [eval, eval]
    congr 2
    refine propext (exists_congr fun vs => and_congr_right fun hvs => ?_)
    rw [h vs hvs]

theorem eval_all {bound : List Srt} {t : Term} {ρ : List (Val α)} :
    ((Term.quantifier .all bound t).eval T I ρ).truth = true ↔
      ∀ vs : List (Val α), vs.map Val.sort = bound →
        (t.eval T I (vs.reverse ++ ρ)).truth = true := by
  classical
  rw [eval, Val.truth_bool]
  exact decide_eq_true_iff

/-! ## Symbols -/

/-- The functions that occur in a term. -/
def symbols : Term → List Decl
  | .op _ args => symbolsList args
  | .app f args => f :: symbolsList args
  | .var _ => []
  | .quantifier _ _ body => symbols body
where
  /-- The functions that occur in a list of terms. -/
  symbolsList : List Term → List Decl
    | [] => []
    | t :: ts => symbols t ++ symbolsList ts

theorem symbolsList_eq (ts : List Term) : symbols.symbolsList ts = ts.flatMap symbols := by
  induction ts with
  | nil => rfl
  | cons t ts ih => rw [symbols.symbolsList, ih, List.flatMap_cons]

@[simp] theorem mem_symbols_op {o : Op} {args : List Term} {f : Decl} :
    f ∈ (Term.op o args).symbols ↔ ∃ t ∈ args, f ∈ t.symbols := by
  rw [symbols, symbolsList_eq, List.mem_flatMap]

@[simp] theorem mem_symbols_app {g : Decl} {args : List Term} {f : Decl} :
    f ∈ (Term.app g args).symbols ↔ f = g ∨ ∃ t ∈ args, f ∈ t.symbols := by
  rw [symbols, symbolsList_eq, List.mem_cons, List.mem_flatMap]

/-- The value of a term depends on the functions that occur in it. -/
theorem eval_congr {t : Term} : ∀ {ρ : List (Val α)}, (∀ f ∈ t.symbols, I f = J f) →
    t.eval T I ρ = t.eval T J ρ := by
  induction t using Term.induction with
  | op o args ih =>
    intro ρ h
    rw [eval_op, eval_op]
    congr 1
    refine List.map_congr_left fun t ht => ih t ht fun f hf => h f ?_
    exact mem_symbols_op.mpr ⟨t, ht, hf⟩
  | app g args ih =>
    intro ρ h
    rw [eval_app, eval_app, h g (mem_symbols_app.mpr (.inl rfl))]
    congr 1
    refine List.map_congr_left fun t ht => ih t ht fun f hf => h f ?_
    exact mem_symbols_app.mpr (.inr ⟨t, ht, hf⟩)
  | var index =>
    intro ρ _
    rfl
  | quantifier q bound body ih =>
    intro ρ h
    exact eval_quantifier_congr fun vs _ => ih fun f hf => h f hf

/-- Functions are applied to as many arguments as they are declared with. -/
def wellFormed : Term → Bool
  | .op _ args => wellFormedList args
  | .app f args => decide (args.length = f.arity) && wellFormedList args
  | .var _ => true
  | .quantifier _ _ body => wellFormed body
where
  /-- All terms of a list are well-formed. -/
  wellFormedList : List Term → Bool
    | [] => true
    | t :: ts => wellFormed t && wellFormedList ts

theorem wellFormedList_eq (ts : List Term) : wellFormed.wellFormedList ts = ts.all wellFormed := by
  induction ts with
  | nil => rfl
  | cons t ts ih => rw [wellFormed.wellFormedList, ih, List.all_cons]

/-- In a well-formed term only the values for the right number of arguments count. -/
theorem eval_congr_of_wellFormed {t : Term} : ∀ {ρ : List (Val α)}, t.wellFormed = true →
    (∀ f ∈ t.symbols, ∀ vs, vs.length = f.arity → I f vs = J f vs) →
    t.eval T I ρ = t.eval T J ρ := by
  induction t using Term.induction with
  | op o args ih =>
    intro ρ hwf h
    rw [wellFormed, wellFormedList_eq, List.all_eq_true] at hwf
    rw [eval_op, eval_op]
    congr 1
    refine List.map_congr_left fun t ht => ih t ht (hwf t ht) fun f hf => h f ?_
    exact mem_symbols_op.mpr ⟨t, ht, hf⟩
  | app g args ih =>
    intro ρ hwf h
    rw [wellFormed, wellFormedList_eq, Bool.and_eq_true, decide_eq_true_eq, List.all_eq_true] at hwf
    have hargs : args.map (fun t => t.eval T I ρ) = args.map fun t => t.eval T J ρ := by
      refine List.map_congr_left fun t ht => ih t ht (hwf.2 t ht) fun f hf => h f ?_
      exact mem_symbols_app.mpr (.inr ⟨t, ht, hf⟩)
    rw [eval_app, eval_app, hargs]
    exact h g (mem_symbols_app.mpr (.inl rfl)) _ (by rw [List.length_map, hwf.1])
  | var index =>
    intro ρ _ _
    rfl
  | quantifier q bound body ih =>
    intro ρ hwf h
    exact eval_quantifier_congr fun vs _ => ih hwf fun f hf => h f hf

/-! ## Replacing constants -/

/-- Replaces every constant `f` with `σ f = some t` by the closed term `t`. -/
def replaceConsts (σ : Decl → Option Term) : Term → Term
  | .op o args => .op o (replaceList σ args)
  | .app f [] => (σ f).getD (.app f [])
  | .app f (t :: ts) => .app f (replaceConsts σ t :: replaceList σ ts)
  | .var index => .var index
  | .quantifier q bound body => .quantifier q bound (replaceConsts σ body)
where
  /-- Replaces the constants of a list of terms. -/
  replaceList (σ : Decl → Option Term) : List Term → List Term
    | [] => []
    | t :: ts => replaceConsts σ t :: replaceList σ ts

variable {σ : Decl → Option Term}

theorem replaceList_eq (ts : List Term) :
    replaceConsts.replaceList σ ts = ts.map (replaceConsts σ) := by
  induction ts with
  | nil => rfl
  | cons t ts ih => rw [replaceConsts.replaceList, ih, List.map_cons]

@[simp] theorem replaceConsts_op (o : Op) (args : List Term) :
    (Term.op o args).replaceConsts σ = .op o (args.map (replaceConsts σ)) := by
  rw [replaceConsts, replaceList_eq]

theorem replaceConsts_const (f : Decl) : (Term.app f []).replaceConsts σ =
    (σ f).getD (.app f []) := by
  rw [replaceConsts]

theorem replaceConsts_app {f : Decl} {args : List Term} (h : args ≠ [] ∨ σ f = none) :
    (Term.app f args).replaceConsts σ = .app f (args.map (replaceConsts σ)) := by
  match args with
  | [] =>
    rw [replaceConsts_const, h.resolve_left (by simp)]
    rfl
  | t :: ts => rw [replaceConsts, replaceList_eq, List.map_cons]

/-- The functions of a well-formed term in which constants are replaced. -/
theorem mem_symbols_replaceConsts {t : Term} {f : Decl} (hwf : t.wellFormed = true)
    (hf : f ∈ (t.replaceConsts σ).symbols) :
    f ∈ t.symbols ∧ (σ f = none ∨ 0 < f.arity) ∨ ∃ g u, σ g = some u ∧ f ∈ u.symbols := by
  induction t using Term.induction with
  | op o args ih =>
    rw [wellFormed, wellFormedList_eq, List.all_eq_true] at hwf
    rw [replaceConsts_op, mem_symbols_op] at hf
    obtain ⟨u, hu, hf⟩ := hf
    obtain ⟨t, ht, rfl⟩ := List.mem_map.mp hu
    exact (ih t ht (hwf t ht) hf).imp_left fun hf => ⟨mem_symbols_op.mpr ⟨t, ht, hf.1⟩, hf.2⟩
  | app g args ih =>
    rw [wellFormed, wellFormedList_eq, Bool.and_eq_true, decide_eq_true_eq, List.all_eq_true] at hwf
    by_cases hg : args ≠ [] ∨ σ g = none
    · rw [replaceConsts_app hg, mem_symbols_app] at hf
      obtain rfl | ⟨u, hu, hf⟩ := hf
      · refine .inl ⟨mem_symbols_app.mpr (.inl rfl), hg.symm.imp_right fun hne => ?_⟩
        rw [← hwf.1]
        exact List.length_pos_of_ne_nil hne
      · obtain ⟨t, ht, rfl⟩ := List.mem_map.mp hu
        exact (ih t ht (hwf.2 t ht) hf).imp_left
          fun hf => ⟨mem_symbols_app.mpr (.inr ⟨t, ht, hf.1⟩), hf.2⟩
    · push Not at hg
      obtain ⟨rfl, hg⟩ := hg
      obtain ⟨u, hu⟩ := Option.ne_none_iff_exists'.mp hg
      rw [replaceConsts_const, hu] at hf
      exact .inr ⟨g, u, hu, hf⟩
  | var index => simp [replaceConsts, symbols] at hf
  | quantifier q bound body ih => exact ih hwf hf

/-- The value of a term in which constants are replaced. -/
theorem eval_replaceConsts {t : Term} : ∀ {ρ : List (Val α)},
    (∀ f ∈ t.symbols, ∀ u, σ f = some u → ∀ ρ, u.eval T I ρ = J f []) →
    (∀ f ∈ t.symbols, ∀ vs, vs ≠ [] ∨ σ f = none → I f vs = J f vs) →
    (t.replaceConsts σ).eval T I ρ = t.eval T J ρ := by
  induction t using Term.induction with
  | op o args ih =>
    intro ρ hσ h
    have hmem : ∀ t ∈ args, ∀ f ∈ t.symbols, f ∈ (Term.op o args).symbols :=
      fun t ht f hf => mem_symbols_op.mpr ⟨t, ht, hf⟩
    rw [replaceConsts_op, eval_op, eval_op, List.map_map]
    congr 1
    exact List.map_congr_left fun t ht =>
      ih t ht (fun f hf => hσ f (hmem t ht f hf)) fun f hf => h f (hmem t ht f hf)
  | app g args ih =>
    intro ρ hσ h
    have hmem : ∀ t ∈ args, ∀ f ∈ t.symbols, f ∈ (Term.app g args).symbols :=
      fun t ht f hf => mem_symbols_app.mpr (.inr ⟨t, ht, hf⟩)
    have hself : g ∈ (Term.app g args).symbols := mem_symbols_app.mpr (.inl rfl)
    by_cases hg : args ≠ [] ∨ σ g = none
    · rw [replaceConsts_app hg, eval_app, eval_app, List.map_map]
      have hargs : args.map ((fun t => t.eval T I ρ) ∘ replaceConsts σ) =
          args.map fun t => t.eval T J ρ :=
        List.map_congr_left fun t ht =>
          ih t ht (fun f hf => hσ f (hmem t ht f hf)) fun f hf => h f (hmem t ht f hf)
      rw [hargs]
      refine h g hself _ (hg.imp_left fun hne => ?_)
      simpa using hne
    · push Not at hg
      obtain ⟨rfl, hg⟩ := hg
      obtain ⟨u, hu⟩ := Option.ne_none_iff_exists'.mp hg
      rw [replaceConsts_const, hu, eval_app]
      exact hσ g hself u hu ρ
  | var index =>
    intro ρ _ _
    rfl
  | quantifier q bound body ih =>
    intro ρ hσ h
    exact eval_quantifier_congr fun vs _ => ih hσ h

/-! ## Replacing variables -/

/-- Replaces the free variable with index `i` by the closed term `dst[i]`; `depth` is
    the number of enclosing binders. -/
def substituteVars (dst : List Term) : ℕ → Term → Term
  | depth, .op o args => .op o (substituteList dst depth args)
  | depth, .app f args => .app f (substituteList dst depth args)
  | depth, .var index =>
    if index < depth then .var index else dst.getD (index - depth) (.var index)
  | depth, .quantifier q bound body =>
    .quantifier q bound (substituteVars dst (depth + bound.length) body)
where
  /-- Replaces the variables of a list of terms. -/
  substituteList (dst : List Term) (depth : ℕ) : List Term → List Term
    | [] => []
    | t :: ts => substituteVars dst depth t :: substituteList dst depth ts

theorem substituteList_eq (dst : List Term) (depth : ℕ) (ts : List Term) :
    substituteVars.substituteList dst depth ts = ts.map (substituteVars dst depth) := by
  induction ts with
  | nil => rfl
  | cons t ts ih => rw [substituteVars.substituteList, ih, List.map_cons]

@[simp] theorem substituteVars_op (dst : List Term) (depth : ℕ) (o : Op) (args : List Term) :
    (Term.op o args).substituteVars dst depth = .op o (args.map (substituteVars dst depth)) := by
  rw [substituteVars, substituteList_eq]

@[simp] theorem substituteVars_app (dst : List Term) (depth : ℕ) (f : Decl) (args : List Term) :
    (Term.app f args).substituteVars dst depth = .app f (args.map (substituteVars dst depth)) := by
  rw [substituteVars, substituteList_eq]

/-- The functions of a term in which variables are replaced. -/
theorem mem_symbols_substituteVars {t : Term} {dst : List Term} {f : Decl} :
    ∀ {depth : ℕ}, f ∈ (t.substituteVars dst depth).symbols →
      f ∈ t.symbols ∨ ∃ u ∈ dst, f ∈ u.symbols := by
  induction t using Term.induction with
  | op o args ih =>
    intro depth hf
    rw [substituteVars_op, mem_symbols_op] at hf
    obtain ⟨u, hu, hf⟩ := hf
    obtain ⟨t, ht, rfl⟩ := List.mem_map.mp hu
    exact (ih t ht hf).imp_left fun hf => mem_symbols_op.mpr ⟨t, ht, hf⟩
  | app g args ih =>
    intro depth hf
    rw [substituteVars_app, mem_symbols_app] at hf
    obtain rfl | ⟨u, hu, hf⟩ := hf
    · exact .inl (mem_symbols_app.mpr (.inl rfl))
    · obtain ⟨t, ht, rfl⟩ := List.mem_map.mp hu
      exact (ih t ht hf).imp_left fun hf => mem_symbols_app.mpr (.inr ⟨t, ht, hf⟩)
  | var index =>
    intro depth hf
    rw [substituteVars] at hf
    split_ifs at hf
    · simp [symbols] at hf
    · rw [List.getD_eq_getElem?_getD] at hf
      cases hu : dst[index - depth]? with
      | none =>
        rw [hu] at hf
        simp [symbols] at hf
      | some u =>
        rw [hu] at hf
        exact .inr ⟨u, List.mem_of_getElem? hu, hf⟩
  | quantifier q bound body ih =>
    intro depth hf
    exact ih hf

/-- The value of a term in which variables are replaced. -/
theorem eval_substituteVars {t : Term} {dst : List Term} {ws : List (Val α)}
    (hto : List.Forall₂ (fun u w => ∀ ρ, u.eval T I ρ = w) dst ws) :
    ∀ {depth : ℕ} {ρ : List (Val α)}, ρ.length = depth →
      (t.substituteVars dst depth).eval T I ρ = t.eval T I (ρ ++ ws) := by
  induction t using Term.induction with
  | op o args ih =>
    intro depth ρ hρ
    rw [substituteVars_op, eval_op, eval_op, List.map_map]
    congr 1
    exact List.map_congr_left fun t ht => ih t ht hρ
  | app g args ih =>
    intro depth ρ hρ
    rw [substituteVars_app, eval_app, eval_app, List.map_map]
    congr 1
    exact List.map_congr_left fun t ht => ih t ht hρ
  | var index =>
    intro depth ρ hρ
    rw [substituteVars, eval_var]
    by_cases hi : index < depth
    · rw [if_pos hi, eval_var, List.getD_append _ _ _ _ (hρ ▸ hi)]
    · rw [if_neg hi, List.getD_append_right _ _ _ _ (by omega), hρ]
      by_cases hlt : index - depth < dst.length
      · have hw : index - depth < ws.length := hto.length_eq ▸ hlt
        rw [List.getD_eq_getElem _ _ hlt, List.getD_eq_getElem _ _ hw]
        exact hto.get hlt hw ρ
      · have hw : ws.length ≤ index - depth := by
          rw [← hto.length_eq]
          omega
        rw [List.getD_eq_default _ _ (by omega), List.getD_eq_default _ _ hw, eval_var,
          List.getD_eq_default _ _ (by omega)]
  | quantifier q bound body ih =>
    intro depth ρ hρ
    rw [substituteVars]
    refine eval_quantifier_congr fun vs hvs => ?_
    have hlen : (vs.reverse ++ ρ).length = depth + bound.length := by
      rw [List.length_append, List.length_reverse, hρ, ← hvs, List.length_map, Nat.add_comm]
    rw [ih hlen, List.append_assoc]

/-! ## Terms over constants -/

/-- The term applies only the constants `xs`, and its free variables are below
    `depth`. -/
def overConsts (xs : List Decl) : ℕ → Term → Bool
  | depth, .op _ args => overList xs depth args
  | _, .app f args => decide (f ∈ xs) && args.isEmpty
  | depth, .var index => decide (index < depth)
  | depth, .quantifier _ bound body => overConsts xs (depth + bound.length) body
where
  /-- All terms of a list are over the constants. -/
  overList (xs : List Decl) (depth : ℕ) : List Term → Bool
    | [] => true
    | t :: ts => overConsts xs depth t && overList xs depth ts

theorem overList_eq (xs : List Decl) (depth : ℕ) (ts : List Term) :
    overConsts.overList xs depth ts = ts.all (overConsts xs depth) := by
  induction ts with
  | nil => rfl
  | cons t ts ih => rw [overConsts.overList, ih, List.all_cons]

theorem getD_append_congr {vs ρ ρ' : List (Val α)} {n depth i : ℕ} (hn : vs.length = n)
    (hρ : ∀ i < depth, ρ.getD i (.bool false) = ρ'.getD i (.bool false)) (hi : i < depth + n) :
    (vs ++ ρ).getD i (.bool false) = (vs ++ ρ').getD i (.bool false) := by
  by_cases hlt : i < vs.length
  · rw [List.getD_append _ _ _ _ hlt, List.getD_append _ _ _ _ hlt]
  · rw [List.getD_append_right _ _ _ _ (by omega), List.getD_append_right _ _ _ _ (by omega)]
    exact hρ _ (by omega)

/-- The value of a term over constants depends on these constants and on the
    variables below `depth`. -/
theorem eval_overConsts {xs : List Decl} {t : Term} (hIJ : ∀ x ∈ xs, I x [] = J x []) :
    ∀ {depth : ℕ} {ρ ρ' : List (Val α)}, t.overConsts xs depth = true →
      (∀ i < depth, ρ.getD i (.bool false) = ρ'.getD i (.bool false)) →
      t.eval T I ρ = t.eval T J ρ' := by
  induction t using Term.induction with
  | op o args ih =>
    intro depth ρ ρ' ht hρ
    rw [overConsts, overList_eq, List.all_eq_true] at ht
    rw [eval_op, eval_op]
    congr 1
    exact List.map_congr_left fun t hmem => ih t hmem (ht t hmem) hρ
  | app f args _ =>
    intro depth ρ ρ' ht _
    simp only [overConsts, Bool.and_eq_true, decide_eq_true_eq, List.isEmpty_iff] at ht
    obtain ⟨hf, rfl⟩ := ht
    rw [eval_app, eval_app]
    exact hIJ f hf
  | var index =>
    intro depth ρ ρ' ht hρ
    exact hρ index (of_decide_eq_true ht)
  | quantifier q bound body ih =>
    intro depth ρ ρ' ht hρ
    refine eval_quantifier_congr fun vs hvs => ih ht fun i hi => ?_
    exact getD_append_congr (by rw [List.length_reverse, ← hvs, List.length_map]) hρ hi

/-! ## Closed and quantifier-free terms -/

/-- The free variables of the term are below `depth`. -/
def closed : ℕ → Term → Bool
  | depth, .op _ args => closedList depth args
  | depth, .app _ args => closedList depth args
  | depth, .var index => decide (index < depth)
  | depth, .quantifier _ bound body => closed (depth + bound.length) body
where
  /-- The free variables of all terms of a list are below `depth`. -/
  closedList (depth : ℕ) : List Term → Bool
    | [] => true
    | t :: ts => closed depth t && closedList depth ts

theorem closedList_eq (depth : ℕ) (ts : List Term) :
    closed.closedList depth ts = ts.all (closed depth) := by
  induction ts with
  | nil => rfl
  | cons t ts ih => rw [closed.closedList, ih, List.all_cons]

theorem closed_of_overConsts {xs : List Decl} {t : Term} :
    ∀ {depth : ℕ}, t.overConsts xs depth = true → t.closed depth = true := by
  induction t using Term.induction with
  | op o args ih =>
    intro depth ht
    rw [overConsts, overList_eq, List.all_eq_true] at ht
    rw [closed, closedList_eq, List.all_eq_true]
    exact fun t hmem => ih t hmem (ht t hmem)
  | app f args _ =>
    intro depth ht
    simp only [overConsts, Bool.and_eq_true, List.isEmpty_iff] at ht
    rw [closed, ht.2]
    rfl
  | var index => exact fun ht => ht
  | quantifier q bound body ih => exact fun ht => ih ht

/-- The value of a term depends on its free variables. -/
theorem eval_closed {t : Term} : ∀ {depth : ℕ} {ρ ρ' : List (Val α)}, t.closed depth = true →
    (∀ i < depth, ρ.getD i (.bool false) = ρ'.getD i (.bool false)) →
    t.eval T I ρ = t.eval T I ρ' := by
  induction t using Term.induction with
  | op o args ih =>
    intro depth ρ ρ' ht hρ
    rw [closed, closedList_eq, List.all_eq_true] at ht
    rw [eval_op, eval_op]
    congr 1
    exact List.map_congr_left fun t hmem => ih t hmem (ht t hmem) hρ
  | app f args ih =>
    intro depth ρ ρ' ht hρ
    rw [closed, closedList_eq, List.all_eq_true] at ht
    rw [eval_app, eval_app]
    congr 1
    exact List.map_congr_left fun t hmem => ih t hmem (ht t hmem) hρ
  | var index =>
    intro depth ρ ρ' ht hρ
    exact hρ index (of_decide_eq_true ht)
  | quantifier q bound body ih =>
    intro depth ρ ρ' ht hρ
    refine eval_quantifier_congr fun vs hvs => ih ht fun i hi => ?_
    exact getD_append_congr (by rw [List.length_reverse, ← hvs, List.length_map]) hρ hi

/-- The term consists of applications: it has no quantifiers and no variables. -/
def quantifierFree : Term → Bool
  | .op _ args => quantifierFreeList args
  | .app _ args => quantifierFreeList args
  | .var _ => false
  | .quantifier _ _ _ => false
where
  /-- All terms of a list consist of applications. -/
  quantifierFreeList : List Term → Bool
    | [] => true
    | t :: ts => quantifierFree t && quantifierFreeList ts

theorem quantifierFreeList_eq (ts : List Term) :
    quantifierFree.quantifierFreeList ts = ts.all quantifierFree := by
  induction ts with
  | nil => rfl
  | cons t ts ih => rw [quantifierFree.quantifierFreeList, ih, List.all_cons]

theorem closed_of_quantifierFree {t : Term} (h : t.quantifierFree = true) (depth : ℕ) :
    t.closed depth = true := by
  induction t using Term.induction with
  | op o args ih =>
    rw [quantifierFree, quantifierFreeList_eq, List.all_eq_true] at h
    rw [closed, closedList_eq, List.all_eq_true]
    exact fun t ht => ih t ht (h t ht)
  | app f args ih =>
    rw [quantifierFree, quantifierFreeList_eq, List.all_eq_true] at h
    rw [closed, closedList_eq, List.all_eq_true]
    exact fun t ht => ih t ht (h t ht)
  | var index => cases h
  | quantifier q bound body _ => cases h

end Term

end HiceDt.Fol
