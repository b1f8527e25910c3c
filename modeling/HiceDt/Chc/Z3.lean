import Mathlib.Data.List.Forall2
import HiceDt.Learner.DecisionTree

/-!
# Z3 expressions

The expressions that the CHC teacher builds for its conjectures, with their
standard meaning, and the class `conjecture` (`chc_verifier/include/conjecture.h`).

Results:

* `lookup_zip`: the values of the variables of a conjecture.
-/

namespace HiceDt.Chc

open HiceDt

/-- The sorts of the arguments of a relation. -/
inductive Z3Sort where
  | bool
  | int
deriving DecidableEq, Repr

/-- A value of one of these sorts. -/
inductive Value where
  | bool (b : Bool)
  | int (n : ℤ)
deriving DecidableEq, Repr

/-- The sort of a value. -/
def Value.sort : Value → Z3Sort
  | .bool _ => .bool
  | .int _ => .int

/-- `z3::func_decl` of a relation. -/
structure FuncDecl where
  name : String
  domain : List Z3Sort
deriving DecidableEq, Repr

/-- `arity`. -/
def FuncDecl.arity (decl : FuncDecl) : ℕ := decl.domain.length

/-- The constant named `relation#index`. -/
structure Const where
  relation : String
  index : ℕ
  sort : Z3Sort
deriving DecidableEq, Repr

/-- `z3::expr`. -/
inductive Expr where
  | boolVal (b : Bool)
  | const (c : Const)
  | add (a b : Expr)
  | sub (a b : Expr)
  | le (a : Expr) (n : ℤ)
  | gt (a : Expr) (n : ℤ)
  | and (a b : Expr)
  | or (a b : Expr)
deriving DecidableEq, Repr

/-! ## Meaning -/

/-- Values of constants. -/
abbrev Env := Const → Option Value

namespace Expr

/-- `is_bool`. -/
def isBool : Expr → Bool
  | .const c => c.sort = .bool
  | .add _ _ => false
  | .sub _ _ => false
  | _ => true

/-- The value of an expression of sort `Int`; constants without a value count as
    zero. -/
def evalInt (ρ : Env) : Expr → ℤ
  | .const c => match ρ c with
    | some (.int n) => n
    | _ => 0
  | .add a b => a.evalInt ρ + b.evalInt ρ
  | .sub a b => a.evalInt ρ - b.evalInt ρ
  | _ => 0

/-- The value of an expression of sort `Bool`; constants without a value count as
    false. -/
def evalBool (ρ : Env) : Expr → Bool
  | .boolVal b => b
  | .const c => match ρ c with
    | some (.bool b) => b
    | _ => false
  | .le a n => a.evalInt ρ ≤ n
  | .gt a n => n < a.evalInt ρ
  | .and a b => a.evalBool ρ && b.evalBool ρ
  | .or a b => a.evalBool ρ || b.evalBool ρ
  | _ => false

end Expr

/-! ## Conjectures -/

/-- `conjecture`; `vars` is the field `variables`. -/
structure Conjecture where
  expr : Expr
  vars : List Const
deriving DecidableEq, Repr

/-- The meaning of a conjecture on arguments for its variables. -/
def Conjecture.eval (c : Conjecture) (args : List Value) : Bool :=
  c.expr.evalBool fun x => (c.vars.zip args).lookup x

/-- In a list of pairs with different keys every pair is found. -/
theorem lookup_zip {α β : Type} [BEq α] [LawfulBEq α] : ∀ {xs : List α} {vs : List β},
    xs.Nodup → ∀ p ∈ xs.zip vs, (xs.zip vs).lookup p.1 = some p.2 := by
  intro xs
  induction xs with
  | nil => simp
  | cons x xs ih =>
    intro vs hnd p hp
    match vs with
    | v :: vs =>
      obtain ⟨hx, hnd'⟩ := List.nodup_cons.mp hnd
      rw [List.zip_cons_cons] at hp ⊢
      rcases List.mem_cons.mp hp with rfl | hp
      · exact List.lookup_cons_self
      · have hmem : p.1 ∈ xs := (List.of_mem_zip hp).1
        have hne : (p.1 == x) = false := by
          rw [beq_eq_false_iff_ne]
          exact fun e => hx (e ▸ hmem)
        rw [List.lookup_cons, hne]
        exact ih hnd' p hp

end HiceDt.Chc
