import Mathlib.Tactic.NormNum
import Mathlib.Algebra.Order.Group.Unbundled.Int
import HiceDt.Lib.Loop

/-!
# Machine integers

The types `int` and `unsigned` of 32 bits, as integers in their ranges: arithmetic is
done in `ℤ` and brought back into the range of the type.

Results:

* `wrap32_eq_iff`: when arithmetic on `int` is exact.
* `unsigned32_eq`: conversions to `unsigned` that keep the value.
* `forInclusive_eq`, `forInclusive_eq_none`: when a loop with an inclusive bound ends.
* `forBelow_ensures`, `forBelow_returns`, `forBelow_throws`: rules for a loop over the indices of
  a container.
-/

namespace HiceDt.Machine

/-- The result of 32-bit arithmetic. -/
def wrap32 (n : ℤ) : ℤ := n.bmod (2 ^ 32)

/-- A value of type `int`. -/
def IsInt32 (n : ℤ) : Prop := -2 ^ 31 ≤ n ∧ n < 2 ^ 31

instance (n : ℤ) : Decidable (IsInt32 n) := inferInstanceAs (Decidable (_ ∧ _))

/-- `std::abs`. -/
def abs32 (n : ℤ) : ℤ := wrap32 |n|

/-- The conversion to `unsigned`. -/
def unsigned32 (n : ℤ) : ℤ := n % 2 ^ 32

theorem wrap32_eq_iff (n : ℤ) : wrap32 n = n ↔ IsInt32 n := by
  constructor
  · intro h
    have hlow := Int.le_bmod (x := n) (m := 2 ^ 32) (by decide)
    have hhigh := Int.bmod_lt (x := n) (m := 2 ^ 32) (by decide)
    rw [wrap32] at h
    rw [h] at hlow hhigh
    constructor
    · norm_num at hlow ⊢
      exact hlow
    · norm_num at hhigh ⊢
      exact hhigh
  · rintro ⟨hlow, hhigh⟩
    refine Int.bmod_eq_of_le ?_ ?_
    · norm_num at hlow ⊢
      exact hlow
    · norm_num at hhigh ⊢
      exact hhigh

/-- The results of 32-bit arithmetic are 32-bit numbers. -/
theorem wrap32_isInt32 (n : ℤ) : IsInt32 (wrap32 n) := by
  rw [← wrap32_eq_iff, wrap32, wrap32, Int.bmod_bmod]

theorem unsigned32_eq {n : ℤ} (h : 0 ≤ n) (h' : n < 2 ^ 32) : unsigned32 n = n :=
  Int.emod_eq_of_lt h h'

/-! ## Loops with an inclusive bound -/

variable {σ : Type*} {body : σ → ℕ → σ} {w last : ℕ}

/-- `for (unsigned i = first; i <= last; ++i) s = body (s, i);` with numbers of `w` bits;
    `fuel` bounds the number of tests. -/
def forInclusive (w : ℕ) (body : σ → ℕ → σ) (last : ℕ) : ℕ → ℕ → σ → Option σ
  | 0, _, _ => none
  | fuel + 1, i, s =>
    if i ≤ last then forInclusive w body last fuel ((i + 1) % 2 ^ w) (body s i) else some s

/-- A loop up to a number that is not the largest one. -/
theorem forInclusive_eq (hlast : last + 1 < 2 ^ w) {fuel first : ℕ} (s : σ)
    (hfuel : last + 1 - first < fuel) :
    forInclusive w body last fuel first s =
      some ((List.range' first (last + 1 - first)).foldl body s) := by
  induction fuel generalizing first s with
  | zero => omega
  | succ fuel ih =>
    rw [forInclusive]
    split_ifs with hle
    · have hcount : last + 1 - first = last + 1 - (first + 1) + 1 := by omega
      rw [Nat.mod_eq_of_lt (by omega), ih _ (by omega), hcount, List.range'_succ, List.foldl_cons]
    · rw [show last + 1 - first = 0 by omega]
      rfl

/-- No number is greater than the largest one. -/
theorem forInclusive_eq_none (hlast : 2 ^ w ≤ last + 1) {fuel first : ℕ} (hfirst : first < 2 ^ w)
    (s : σ) : forInclusive w body last fuel first s = none := by
  induction fuel generalizing first s with
  | zero => rfl
  | succ fuel ih =>
    rw [forInclusive, if_pos (by omega)]
    exact ih (Nat.mod_lt _ (Nat.two_pow_pos w)) _

/-- The result of a loop that ends. -/
theorem forInclusive_some {fuel first : ℕ} (hfirst : first < 2 ^ w) {s s' : σ}
    (h : forInclusive w body last fuel first s = some s') :
    last + 1 < 2 ^ w ∧ s' = (List.range' first (last + 1 - first)).foldl body s := by
  have hlast : last + 1 < 2 ^ w := by
    by_contra hnot
    rw [forInclusive_eq_none (by omega) hfirst] at h
    cases h
  refine ⟨hlast, ?_⟩
  induction fuel generalizing first s with
  | zero => cases h
  | succ fuel ih =>
    rw [forInclusive] at h
    split_ifs at h with hle
    · have hcount : last + 1 - first = last + 1 - (first + 1) + 1 := by omega
      rw [Nat.mod_eq_of_lt (by omega)] at h
      rw [ih (by omega) h, hcount, List.range'_succ, List.foldl_cons]
    · rw [← Option.some.inj h, show last + 1 - first = 0 by omega]
      rfl

/-! ## Loops over indices -/

variable {ε : Type*} {α : Type*}

/-- `for (unsigned i = first; i < size; ++i) s = body (s, i);` where the size may have more than
    `w` bits, and the body may throw; `outOfFuel` is the result after `fuel` tests. -/
def forBelow (w : ℕ) (outOfFuel : ε) (body : α → ℕ → Except ε α) (size : ℕ) :
    ℕ → ℕ → α → Except ε α
  | 0, _, _ => .error outOfFuel
  | fuel + 1, i, s =>
    if i < size then
      match body s i with
      | .ok s => forBelow w outOfFuel body size fuel ((i + 1) % 2 ^ w) s
      | .error e => .error e
    else .ok s

/-- Invariant rule: `I i s` holds before the test of `i`. -/
theorem forBelow_ensures {outOfFuel : ε} {body : α → ℕ → Except ε α} {size : ℕ} {P : ε → Prop}
    {I : ℕ → α → Prop} (hfuel : P outOfFuel)
    (step : ∀ i s, i < size → i < 2 ^ w → I i s →
      Loop.Ensures P (I ((i + 1) % 2 ^ w)) (body s i)) {fuel i : ℕ} {s : α} (hi : i < 2 ^ w)
    (h : I i s) : Loop.Ensures P (fun s => ∃ i, size ≤ i ∧ i < 2 ^ w ∧ I i s)
      (forBelow w outOfFuel body size fuel i s) := by
  induction fuel generalizing i s with
  | zero => exact hfuel
  | succ fuel ih =>
    rw [forBelow]
    split_ifs with hlt
    · have hstep := step i s hlt hi h
      cases hbody : body s i with
      | error e =>
        rw [hbody] at hstep
        exact hstep
      | ok s' =>
        rw [hbody] at hstep
        exact ih (Nat.mod_lt _ (Nat.two_pow_pos w)) hstep
    · exact ⟨i, by omega, hi, h⟩

/-- Rule for a loop that returns because every iteration does. -/
theorem forBelow_returns {outOfFuel : ε} {body : α → ℕ → Except ε α} {size : ℕ} {I : ℕ → α → Prop}
    (hsize : size < 2 ^ w)
    (step : ∀ i s, i < size → I i s → ∃ s', body s i = .ok s' ∧ I (i + 1) s') {fuel i : ℕ} {s : α}
    (hi : i ≤ size) (hfuel : size - i < fuel) (h : I i s) :
    ∃ s', forBelow w outOfFuel body size fuel i s = .ok s' ∧ I size s' := by
  induction fuel generalizing i s with
  | zero => omega
  | succ fuel ih =>
    rw [forBelow]
    split_ifs with hlt
    · obtain ⟨s', hbody, h'⟩ := step i s hlt h
      rw [hbody, Nat.mod_eq_of_lt (by omega)]
      exact ih (by omega) (by omega) h'
    · obtain rfl : i = size := by omega
      exact ⟨s, rfl, h⟩

/-- The loop throws if an iteration does and the ones before it do not throw another error. -/
theorem forBelow_throws {outOfFuel e : ε} {body : α → ℕ → Except ε α} {size last : ℕ}
    (hlast : last < size) (hlast' : last < 2 ^ w)
    (hbefore : ∀ s i, i < last → ∀ e', body s i = .error e' → e' = e)
    (hthrows : ∀ s, body s last = .error e) {fuel i : ℕ} (hi : i ≤ last) (hfuel : last - i < fuel)
    (s : α) : forBelow w outOfFuel body size fuel i s = .error e := by
  induction fuel generalizing i s with
  | zero => omega
  | succ fuel ih =>
    rw [forBelow, if_pos (by omega)]
    by_cases heq : i = last
    · rw [heq, hthrows]
    · cases hbody : body s i with
      | error e' => rw [hbefore s i (by omega) e' hbody]
      | ok s' =>
        rw [Nat.mod_eq_of_lt (by omega)]
        exact ih (by omega) (by omega) s'

end HiceDt.Machine
