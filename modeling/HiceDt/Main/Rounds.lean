import HiceDt.Horndini.Model
import HiceDt.Learner.Completeness
import HiceDt.Learner.Separation

/-!
# Rounds

Model of an invocation of hice-dt (`main` in `hice-dt/src/hice-dt.cpp`, lines
186–463) after the input files have been read, and of the sequence of invocations
that a teacher makes on the same file stem. A round hands its bound over to the next
one in the file with extension `bound`.

Results:

* `boundLoop_eq`: the search is the bound loop, with the bound at which it ends.
* `bound_handedOver_iff`: the bound is handed over as intended in all rounds iff no
  pre-phase succeeds after a search that has raised the bound, and every search ends
  with a bound that is in use.
* `bound_lost`: a search that ends without a bound leaves no file for the next round.
-/

namespace HiceDt.Main

open HiceDt Learner Horndini

/-! ## An invocation -/

/-- The options and the contents of the input files of one invocation: the number of
    integer attributes, the sample and the interval of each annotation. The platform may
    behave differently in each attempt; `steps`, `attempts` and `iterations` bound the
    iterations of the loops. -/
structure Invocation where
  useBounds : Bool
  doHorndiniPrephase : Bool
  intAttributes : ℕ
  sample : Sample
  intervals : List (ℕ × ℕ)
  env : ℕ → Environment
  steps : ℕ
  attempts : ℕ
  iterations : ℕ

/-- `boogie_io::read_status_file` (`boogie_io.cpp`, lines 18–49) on a file that holds
    a number, if it exists. -/
def readStatusFile (filename : String) : Option ℤ → Except Error ℤ
  | some number => .ok number
  | none => .error (.runtimeError ("Error opening " ++ filename))

/-- The contents of the bound file after `write_bound_file`, which is called if the
    bound is in use (lines 257–260 and 417–420). -/
def writeBoundFile (curBound : Bound) (file : Option ℤ) : Option ℤ :=
  if curBound.useBound then some curBound.bound else file

/-- The checks of the meta data (lines 189–201). The second one compares a size with
    `< 0` and never throws; the access to the first categorical attribute comes after
    it. -/
def checkMetadata (inv : Invocation) : Except Error Unit :=
  match inv.sample.numberOfCategories with
  | [] =>
    if inv.intAttributes = 0 then .error (.runtimeError "No attributes defined")
    else .error .undefinedBehaviour
  | n :: _ =>
    if n ≠ inv.intervals.length then
      .error (.runtimeError "Intervals file does not match number of annotations to synthesize")
    else .ok ()

/-- The body of the `try` block of the pre-phase (lines 241–265): its tree if that is
    consistent. -/
def tryHorndini (inv : Invocation) : Except Error (Option Tree) := do
  assert (inv.sample.numberOfCategories.length = 1)
  let tree ← horndiniPrephase inv.sample.mem inv.sample.datapoints inv.sample.hornConstraints
    (inv.sample.numberOfCategories.getD 0 0) inv.intervals inv.iterations
  let consistent ← isConsistent tree inv.sample.datapoints inv.sample.hornConstraints inv.sample.mem
  return if consistent then some tree else none

/-- The pre-phase, if desired (lines 215–275). There might not be a conjunctive
    invariant. -/
def prephase (inv : Invocation) : Except Error (Option Tree) :=
  if inv.doHorndiniPrephase then
    match tryHorndini inv with
    | .ok result => .ok result
    | .error (.noConjunctionExistsException _) => .ok none
    | .error e => .error e
  else .ok none

/-- The bound with which the search starts (lines 290–303): it is read from the file
    unless this is the first round. -/
def startBound (curBound : Bound) (status : ℕ) (file : Option ℤ) : Except Error Bound :=
  if curBound.useBound ∧ status > 1 then do
    let number ← readStatusFile "bound" file
    return { curBound with bound := number }
  else .ok curBound

/-- The `do … while` loop (lines 309–463), with the bound of the attempt that
    succeeds. -/
def boundSearch (F : Type) [Score F] (env : ℕ → Environment) (sample : Sample) (steps : ℕ) :
    ℕ → Bound → Except Error (Tree × Bound)
  | 0, _ => .error .outOfFuel
  | fuel + 1, b =>
    match attempt F (env fuel) sample steps b.threshold with
    | .ok tree => .ok (tree, b)
    | .error (.sampleError what) =>
      if b.useBound then boundSearch F env sample steps fuel b.increase
      else .error (.sampleError what)
    | .error (.splitNotPossibleError what) =>
      if b.useBound then boundSearch F env sample steps fuel b.increase
      else .error (.splitNotPossibleError what)
    | .error e => .error e

/-- What a successful invocation leaves: the tree, the bound file and, if it has run
    the bound loop, the bound at which that has ended. -/
structure Finished where
  tree : Tree
  boundFile : Option ℤ
  searchEnd : Option Bound

/-- The learner after the pre-phase. -/
def runLearner (F : Type) [Score F] (inv : Invocation) (curBound : Bound) (status : ℕ)
    (file : Option ℤ) : Except Error Finished := do
  let curBound ← startBound curBound status file
  let (tree, curBound) ← boundSearch F inv.env inv.sample inv.steps inv.attempts curBound
  return ⟨tree, writeBoundFile curBound file, some curBound⟩

/-- `main`, started with the given status and bound file. -/
def main (F : Type) [Score F] (inv : Invocation) (status : ℕ) (file : Option ℤ) :
    Except Error Finished := do
  checkMetadata inv
  let curBound : Bound := ⟨1, inv.useBounds⟩
  match ← prephase inv with
  | some tree => return ⟨tree, writeBoundFile curBound file, none⟩
  | none => runLearner F inv curBound status file

/-! ## A sequence of rounds -/

/-- The bound file, and the bound at which the most recent search has ended. -/
structure History where
  boundFile : Option ℤ := none
  searchEnd : Option Bound := none

/-- The first `k` rounds if they are successful; round `k` has status `k`, and there
    is no bound file before round 1. -/
def rounds (F : Type) [Score F] (inputs : ℕ → Invocation) : ℕ → Except Error History
  | 0 => .ok {}
  | k + 1 => do
    let h ← rounds F inputs k
    let r ← main F (inputs (k + 1)) (k + 1) h.boundFile
    return ⟨r.boundFile, r.searchEnd <|> h.searchEnd⟩

/-- The search of round `k + 1` finds the bound at which the most recent search has
    ended; without such a search it starts from 1. -/
def HandedOver (k : ℕ) (h : History) : Prop :=
  startBound ⟨1, true⟩ (k + 1) h.boundFile = .ok (h.searchEnd.getD ⟨1, true⟩)

/-- The persisted bound is neither lost nor decreased. -/
def Kept (h h' : History) : Prop :=
  ∀ b, h.boundFile = some b → ∃ b', h'.boundFile = some b' ∧ b ≤ b'

/-- The condition on an invocation and the bound file that it finds: if the pre-phase
    has a consistent tree, the bound has not been raised; otherwise some attempt whose
    bound is at most `MAX_BOUND` returns a tree. -/
def KeepsBound (F : Type) [Score F] (inv : Invocation) (status : ℕ) (file : Option ℤ) : Prop :=
  (∀ tree, prephase inv = .ok (some tree) → ∀ b, file = some b → b ≤ 1) ∧
  (prephase inv = .ok none → ∀ start, startBound ⟨1, true⟩ status file = .ok start →
    ∃ i < inv.attempts, start.bound * 2 ^ i ≤ maxBound ∧
      ∃ tree, attempt F (inv.env (inv.attempts - 1 - i)) inv.sample inv.steps
        (some (start.bound * 2 ^ i)) = .ok tree)

variable {F : Type} [Score F] {env : ℕ → Environment} {sample : Sample} {steps : ℕ}
  {inv : Invocation} {status : ℕ} {file : Option ℤ}

/-! ## The search -/

theorem boundLoop_eq (F : Type) [Score F] (env : ℕ → Environment) (sample : Sample) (steps fuel : ℕ)
    (b : Bound) :
    boundLoop F env sample steps fuel b = (boundSearch F env sample steps fuel b).map Prod.fst := by
  induction fuel generalizing b with
  | zero => rfl
  | succ fuel ih =>
    have hretry : ∀ err : Error,
        (if b.useBound then boundLoop F env sample steps fuel b.increase else .error err) =
          (if b.useBound then boundSearch F env sample steps fuel b.increase
            else .error err).map Prod.fst := by
      intro err
      split
      · exact ih b.increase
      · rfl
    unfold boundLoop boundSearch
    cases attempt F (env fuel) sample steps b.threshold with
    | ok tree => rfl
    | error e =>
      cases e with
      | sampleError what => exact hretry _
      | splitNotPossibleError what => exact hretry _
      | internalError what => rfl
      | runtimeError what => rfl
      | noConjunctionExistsException what => rfl
      | assertionFailure => rfl
      | undefinedBehaviour => rfl
      | outOfFuel => rfl

/-- The bound of the attempt after `i` failed ones. -/
def Bound.raised (b : Bound) (i : ℕ) : Bound := { b with bound := b.bound * 2 ^ i }

theorem Bound.raised_zero (b : Bound) : Bound.raised b 0 = b := by
  simp [Bound.raised]

theorem Bound.raised_succ (b : Bound) (i : ℕ) :
    Bound.raised b (i + 1) = Bound.raised b.increase i := by
  unfold Bound.raised Bound.increase
  rw [pow_succ', ← mul_assoc]

/-- The attempts of a search that returns: the last one returns the tree, the ones
    before it fail with a bound that is in use. -/
theorem boundSearch_ok {fuel : ℕ} {b e : Bound} {tree : Tree}
    (h : boundSearch F env sample steps fuel b = .ok (tree, e)) :
    ∃ i < fuel, e = Bound.raised b i ∧
      attempt F (env (fuel - 1 - i)) sample steps e.threshold = .ok tree ∧
      ∀ j < i, (Bound.raised b j).useBound = true ∧
        ∃ err, attempt F (env (fuel - 1 - j)) sample steps (Bound.raised b j).threshold =
          .error err := by
  induction fuel generalizing b with
  | zero => simp [boundSearch] at h
  | succ fuel ih =>
    have hlater : ∀ err, attempt F (env fuel) sample steps b.threshold = .error err →
        b.useBound = true → boundSearch F env sample steps fuel b.increase = .ok (tree, e) →
        ∃ i < fuel + 1, e = Bound.raised b i ∧
          attempt F (env (fuel + 1 - 1 - i)) sample steps e.threshold = .ok tree ∧
          ∀ j < i, (Bound.raised b j).useBound = true ∧ ∃ err, attempt F (env (fuel + 1 - 1 - j))
            sample steps (Bound.raised b j).threshold = .error err := by
      intro err herr hb hrun
      obtain ⟨i, hi, he, hok, hbefore⟩ := ih hrun
      refine ⟨i + 1, by omega, by rw [he, Bound.raised_succ], ?_, fun j hj => ?_⟩
      · rw [show fuel + 1 - 1 - (i + 1) = fuel - 1 - i by omega]
        exact hok
      · match j with
        | 0 =>
          rw [Bound.raised_zero]
          exact ⟨hb, err, herr⟩
        | j + 1 =>
          rw [Bound.raised_succ, show fuel + 1 - 1 - (j + 1) = fuel - 1 - j by omega]
          exact hbefore j (by omega)
    rw [boundSearch] at h
    split at h
    · rename_i tree' hok
      obtain ⟨rfl, rfl⟩ := Prod.mk.inj (Except.ok.inj h)
      refine ⟨0, by omega, (Bound.raised_zero b).symm, hok, fun j hj => ?_⟩
      exact absurd hj (Nat.not_lt_zero j)
    · rename_i what herr
      split at h
      · rename_i hb
        exact hlater _ herr hb h
      · simp at h
    · rename_i what herr
      split at h
      · rename_i hb
        exact hlater _ herr hb h
      · simp at h
    · simp at h

/-- The search ends with a bound that is in use iff some attempt with such a bound
    returns a tree. -/
theorem boundSearch_useBound {fuel : ℕ} {b e : Bound} {tree : Tree} (hflag : b.useBoundFlag = true)
    (hb : 1 ≤ b.bound) (h : boundSearch F env sample steps fuel b = .ok (tree, e)) :
    b.bound ≤ e.bound ∧ e.useBoundFlag = true ∧
    (e.useBound = true ↔ ∃ i < fuel, b.bound * 2 ^ i ≤ maxBound ∧
      ∃ tree, attempt F (env (fuel - 1 - i)) sample steps (some (b.bound * 2 ^ i)) = .ok tree) := by
  have huse : ∀ i, (Bound.raised b i).useBound = true ↔ b.bound * 2 ^ i ≤ maxBound := by
    intro i
    simp [Bound.useBound, Bound.raised, hflag]
  have hthr : ∀ i, b.bound * 2 ^ i ≤ maxBound →
      (Bound.raised b i).threshold = some (b.bound * 2 ^ i) := by
    intro i hi
    unfold Bound.threshold
    rw [if_pos ((huse i).mpr hi)]
    rfl
  obtain ⟨i, hi, rfl, hok, hbefore⟩ := boundSearch_ok h
  refine ⟨?_, hflag, fun hu => ⟨i, hi, (huse i).mp hu, tree, ?_⟩, ?_⟩
  · exact le_mul_of_one_le_right (by omega) (one_le_pow₀ (by norm_num))
  · rw [← hthr i ((huse i).mp hu)]
    exact hok
  · rintro ⟨i', hi', hle, tree', hok'⟩
    rw [huse]
    by_cases hlt : i' < i
    · obtain ⟨-, err, herr⟩ := hbefore i' hlt
      rw [hthr i' hle, hok'] at herr
      simp at herr
    · refine le_trans ?_ hle
      exact mul_le_mul_of_nonneg_left (pow_le_pow_right₀ (by norm_num) (by omega)) (by omega)

/-! ## One round -/

/-- The ways in which a round with bounds succeeds. -/
theorem main_ok {r : Finished} (hb : inv.useBounds = true) (h : main F inv status file = .ok r) :
    (∃ tree, prephase inv = .ok (some tree) ∧ r.boundFile = some 1 ∧ r.searchEnd = none) ∨
      (prephase inv = .ok none ∧ ∃ start tree e, startBound ⟨1, true⟩ status file = .ok start ∧
        boundSearch F inv.env inv.sample inv.steps inv.attempts start = .ok (tree, e) ∧
        r.boundFile = writeBoundFile e file ∧ r.searchEnd = some e) := by
  unfold main at h
  rw [hb] at h
  obtain ⟨-, -, h⟩ := Loop.bind_ok.mp h
  obtain ⟨pre, hpre, h⟩ := Loop.bind_ok.mp h
  cases pre with
  | some tree =>
    obtain rfl := Except.ok.inj h
    exact .inl ⟨tree, hpre, rfl, rfl⟩
  | none =>
    obtain ⟨start, hstart, h⟩ := Loop.bind_ok.mp h
    obtain ⟨⟨tree, e⟩, hsearch, h⟩ := Loop.bind_ok.mp h
    obtain rfl := Except.ok.inj h
    exact .inr ⟨hpre, start, tree, e, hstart, hsearch, rfl, rfl⟩

/-- The start of a search in a later round. -/
theorem startBound_later {b : Bound} (hstatus : 1 < status) :
    startBound ⟨1, true⟩ status file = .ok b ↔ file = some b.bound ∧ b.useBoundFlag = true := by
  have huse : (⟨1, true⟩ : Bound).useBound = true := rfl
  unfold startBound
  rw [if_pos ⟨huse, hstatus⟩]
  obtain ⟨n, flag⟩ := b
  cases file with
  | none => simp [readStatusFile, bind, Except.bind]
  | some c => simp [readStatusFile, bind, Except.bind, pure, Except.pure, eq_comm]

theorem startBound_first (file : Option ℤ) : startBound ⟨1, true⟩ 1 file = .ok ⟨1, true⟩ := rfl

/-! ## All rounds -/

variable {inputs : ℕ → Invocation} {k : ℕ} {h h' : History}

theorem rounds_succ (hk : rounds F inputs (k + 1) = .ok h') :
    ∃ h r, rounds F inputs k = .ok h ∧ main F (inputs (k + 1)) (k + 1) h.boundFile = .ok r ∧
      h' = ⟨r.boundFile, r.searchEnd <|> h.searchEnd⟩ := by
  obtain ⟨h, hrun, hk⟩ := Loop.bind_ok.mp hk
  obtain ⟨r, hr, hk⟩ := Loop.bind_ok.mp hk
  exact ⟨h, r, hrun, hr, (Except.ok.inj hk).symm⟩

/-- The persisted bounds are positive and in use. -/
def FileOk (file : Option ℤ) : Prop :=
  ∀ b, file = some b → 1 ≤ b ∧ b ≤ maxBound

theorem FileOk.start (hfile : FileOk file) {start : Bound}
    (hstart : startBound ⟨1, true⟩ (k + 1) file = .ok start) :
    start.useBoundFlag = true ∧ 1 ≤ start.bound := by
  match k with
  | 0 =>
    rw [startBound_first] at hstart
    obtain rfl := Except.ok.inj hstart
    exact ⟨rfl, le_refl 1⟩
  | k + 1 =>
    obtain ⟨hsome, hflag⟩ := (startBound_later (by omega)).mp hstart
    exact ⟨hflag, (hfile _ hsome).1⟩

theorem rounds_fileOk (hb : ∀ k, (inputs k).useBounds = true) (hk : rounds F inputs k = .ok h) :
    FileOk h.boundFile := by
  induction k generalizing h with
  | zero =>
    obtain rfl := Except.ok.inj hk
    intro b hsome
    simp at hsome
  | succ k ih =>
    obtain ⟨h₀, r, hrun, hr, rfl⟩ := rounds_succ hk
    intro b hsome
    rcases main_ok (hb _) hr with ⟨-, -, hfile, -⟩ | ⟨-, start, tree, e, hstart, hsearch, hfile, -⟩
    · rw [hfile] at hsome
      obtain rfl := Option.some.inj hsome
      exact ⟨le_refl 1, by decide⟩
    · obtain ⟨hflag, hone⟩ := (ih hrun).start hstart
      obtain ⟨hle, -, -⟩ := boundSearch_useBound hflag hone hsearch
      rw [hfile, writeBoundFile] at hsome
      split at hsome
      · rename_i huse
        obtain rfl := Option.some.inj hsome
        simp only [Bound.useBound, Bool.and_eq_true, decide_eq_true_eq] at huse
        exact ⟨by omega, huse.2⟩
      · exact ih hrun b hsome

/-- A round after which the bound file has been read correctly: it is handed over
    again iff the round meets the condition. -/
theorem handedOver_step {r : Finished} (hb : (inputs (k + 1)).useBounds = true)
    (hk : rounds F inputs k = .ok h) (hfile : FileOk h.boundFile) (hover : HandedOver k h)
    (hr : main F (inputs (k + 1)) (k + 1) h.boundFile = .ok r) :
    (HandedOver (k + 1) ⟨r.boundFile, r.searchEnd <|> h.searchEnd⟩ ∧
        Kept h ⟨r.boundFile, r.searchEnd <|> h.searchEnd⟩) ↔
      KeepsBound F (inputs (k + 1)) (k + 1) h.boundFile := by
  unfold HandedOver
  rw [startBound_later (by omega)]
  rcases main_ok hb hr with
    ⟨tree, hpre, hrfile, hrend⟩ | ⟨hpre, start, tree, e, hstart, hsearch, hrfile, hrend⟩
  · rw [hrfile, hrend]
    constructor
    · rintro ⟨-, hkept⟩
      refine ⟨fun _ _ b hsome => ?_, fun hnone => ?_⟩
      · obtain ⟨b', hb', hle⟩ := hkept b hsome
        obtain rfl := Option.some.inj hb'
        exact hle
      · rw [hpre] at hnone
        simp at hnone
    · rintro ⟨hcond, -⟩
      have hend : h.searchEnd.getD ⟨1, true⟩ = ⟨1, true⟩ := by
        match k with
        | 0 =>
          obtain rfl := Except.ok.inj hk
          rfl
        | k + 1 =>
          obtain ⟨hsome, hflag⟩ := (startBound_later (by omega)).mp hover
          have hle := hcond tree hpre _ hsome
          have hge := (hfile _ hsome).1
          generalize h.searchEnd.getD ⟨1, true⟩ = b at hflag hle hge
          obtain ⟨bound, flag⟩ := b
          obtain rfl : bound = 1 := le_antisymm hle hge
          obtain rfl : flag = true := hflag
          rfl
      have hnone : (none <|> h.searchEnd) = h.searchEnd := rfl
      rw [hnone, hend]
      exact ⟨⟨rfl, rfl⟩, fun b hsome => ⟨1, rfl, hcond tree hpre b hsome⟩⟩
  · obtain ⟨hflag, hone⟩ := hfile.start hstart
    obtain ⟨hle, heflag, huse⟩ := boundSearch_useBound hflag hone hsearch
    have hcond : KeepsBound F (inputs (k + 1)) (k + 1) h.boundFile ↔ e.useBound = true := by
      rw [huse]
      constructor
      · rintro ⟨-, hsome⟩
        exact hsome hpre start hstart
      · intro hsome
        refine ⟨fun _ hpre' => ?_, fun _ start' hstart' => ?_⟩
        · rw [hpre] at hpre'
          simp at hpre'
        · rw [hstart] at hstart'
          obtain rfl := Except.ok.inj hstart'
          exact hsome
    have hsome : (some e <|> h.searchEnd) = some e := rfl
    rw [hcond, hrfile, hrend, hsome]
    simp only [Option.getD_some]
    unfold writeBoundFile Kept
    cases hu : e.useBound with
    | true =>
      refine iff_of_true ⟨⟨rfl, heflag⟩, fun b hb' => ⟨e.bound, rfl, ?_⟩⟩ rfl
      match k with
      | 0 =>
        obtain rfl := Except.ok.inj hk
        simp at hb'
      | k + 1 =>
        obtain ⟨hstart', -⟩ := (startBound_later (by omega)).mp hstart
        rw [hstart'] at hb'
        obtain rfl := Option.some.inj hb'
        exact hle
    | false =>
      refine iff_of_false ?_ (by simp)
      rintro ⟨⟨hlast, -⟩, -⟩
      have hmax := (hfile e.bound (by simpa using hlast)).2
      simp [Bound.useBound, heflag] at hu
      omega

theorem Kept.refl (h : History) : Kept h h := fun b hb => ⟨b, hb, le_refl b⟩

theorem Kept.trans {h'' : History} (hk : Kept h h') (hk' : Kept h' h'') : Kept h h'' := by
  intro b hb
  obtain ⟨b', hb', hle⟩ := hk b hb
  obtain ⟨b'', hb'', hle'⟩ := hk' b' hb'
  exact ⟨b'', hb'', hle.trans hle'⟩

/-- The bounds are handed over up to round `k`: in every round the search would start
    from the bound at which the most recent one has ended, and the persisted bound is
    never lost or decreased. -/
def BoundsKept (F : Type) [Score F] (inputs : ℕ → Invocation) (k : ℕ) : Prop :=
  ∀ j ≤ k, ∀ h, rounds F inputs j = .ok h →
    HandedOver j h ∧ ∀ i ≤ j, ∀ h₀, rounds F inputs i = .ok h₀ → Kept h₀ h

theorem BoundsKept.zero (F : Type) [Score F] (inputs : ℕ → Invocation) : BoundsKept F inputs 0 := by
  intro j hj h hrun
  obtain rfl : j = 0 := by omega
  obtain rfl := Except.ok.inj hrun
  refine ⟨rfl, fun i hi h₀ hrun₀ => ?_⟩
  obtain rfl : i = 0 := by omega
  obtain rfl := Except.ok.inj hrun₀
  exact .refl _

theorem BoundsKept.succ_iff (hk : rounds F inputs k = .ok h)
    (hk' : rounds F inputs (k + 1) = .ok h') :
    BoundsKept F inputs (k + 1) ↔ BoundsKept F inputs k ∧ HandedOver (k + 1) h' ∧ Kept h h' := by
  constructor
  · intro hall
    refine ⟨fun j hj => hall j (by omega), ?_⟩
    obtain ⟨hover, hkept⟩ := hall (k + 1) (le_refl _) h' hk'
    exact ⟨hover, hkept k (by omega) h hk⟩
  · rintro ⟨hall, hover, hstep⟩ j hj h₁ hrun
    by_cases hjk : j ≤ k
    · exact hall j hjk h₁ hrun
    obtain rfl : j = k + 1 := by omega
    rw [hk'] at hrun
    obtain rfl := Except.ok.inj hrun
    refine ⟨hover, fun i hi h₀ hrun₀ => ?_⟩
    by_cases hik : i ≤ k
    · exact ((hall k (le_refl k) h hk).2 i hik h₀ hrun₀).trans hstep
    · obtain rfl : i = k + 1 := by omega
      rw [hk'] at hrun₀
      obtain rfl := Except.ok.inj hrun₀
      exact .refl _

/-- In rounds with bounds that are all successful the bound is handed over as
    intended iff every round meets the condition. -/
theorem bound_handedOver_iff (F : Type) [Score F] (inputs : ℕ → Invocation)
    (hb : ∀ k, (inputs k).useBounds = true) (k : ℕ) (h : History)
    (hk : rounds F inputs k = .ok h) :
    BoundsKept F inputs k ↔
      ∀ j < k, ∀ hj, rounds F inputs j = .ok hj →
        KeepsBound F (inputs (j + 1)) (j + 1) hj.boundFile := by
  induction k generalizing h with
  | zero => exact iff_of_true (.zero F inputs) fun j hj => absurd hj (Nat.not_lt_zero j)
  | succ k ih =>
    obtain ⟨h₀, r, hrun, hr, rfl⟩ := rounds_succ hk
    have hstep : BoundsKept F inputs k → _ := fun hall =>
      handedOver_step (hb _) hrun (rounds_fileOk hb hrun) (hall k (le_refl k) h₀ hrun).1 hr
    rw [BoundsKept.succ_iff hrun hk]
    constructor
    · rintro ⟨hall, hlast⟩ j hj hj' hrunj
      by_cases hjk : j < k
      · exact (ih h₀ hrun).mp hall j hjk hj' hrunj
      · obtain rfl : j = k := by omega
        rw [hrun] at hrunj
        obtain rfl := Except.ok.inj hrunj
        exact (hstep hall).mp hlast
    · intro hcond
      have hall := (ih h₀ hrun).mpr fun j hj => hcond j (by omega)
      exact ⟨hall, (hstep hall).mpr (hcond k (by omega) h₀ hrun)⟩

/-! ## A bound that is raised -/

/-- Two rounds with the values 2 and 3. -/
def twice (_ : ℕ) : Invocation :=
  { useBounds := true, doHorndiniPrephase := false, intAttributes := 1
    sample := twoThree, intervals := [(0, 1)], env := fun _ => .stable
    steps := 5, attempts := 6, iterations := 0 }

/-- With bound 2 there is a tree. -/
theorem attempt_twoThree : ∃ tree, attempt ℝ .stable twoThree 5 (some 2) = .ok tree := by
  refine attempt_of_cutsSuffice twoThree_ok (pair_boundConstraints (by decide))
    ⟨_, pair_consistent _ _⟩ (by decide) (pair_ratiosOk twoThree_ok .stable (some 2)) ?_
  intro x hx y hy _ hdist
  refine ⟨0, by decide, ?_⟩
  simp only [twoThree, pair, List.mem_cons, List.not_mem_nil, or_false] at hx hy
  rcases hx with rfl | rfl <;> rcases hy with rfl | rfl <;> revert hdist <;> decide

/-- The search comes to bound 2 from there and from bound 1. -/
theorem boundSearch_twoThree : ∃ tree,
    boundSearch ℝ (fun _ => .stable) twoThree 5 6 ⟨1, true⟩ = .ok (tree, ⟨2, true⟩) ∧
      boundSearch ℝ (fun _ => .stable) twoThree 5 6 ⟨2, true⟩ = .ok (tree, ⟨2, true⟩) := by
  have herr : attempt ℝ .stable twoThree 5 (some 1) = .error contradictory :=
    pair_contradictory twoThree_ok .stable (by decide) (by decide)
  obtain ⟨tree, hrun⟩ := attempt_twoThree
  have htwo : ∀ fuel, boundSearch ℝ (fun _ => .stable) twoThree 5 (fuel + 1) ⟨2, true⟩ =
      .ok (tree, ⟨2, true⟩) := by
    intro fuel
    rw [boundSearch, show (⟨2, true⟩ : Bound).threshold = some 2 from rfl, hrun]
  refine ⟨tree, ?_, htwo 5⟩
  rw [boundSearch, show (⟨1, true⟩ : Bound).threshold = some 1 from rfl, herr]
  exact htwo 4

theorem rounds_twice : rounds ℝ twice 1 = .ok ⟨some 2, some ⟨2, true⟩⟩ ∧
    rounds ℝ twice 2 = .ok ⟨some 2, some ⟨2, true⟩⟩ := by
  obtain ⟨tree, hone, htwo⟩ := boundSearch_twoThree
  have hfirst : main ℝ (twice 1) 1 none = .ok ⟨tree, some 2, some ⟨2, true⟩⟩ := by
    simp only [main, checkMetadata, prephase, runLearner, twice, startBound_first, hone, bind,
      Except.bind]
    rfl
  have hstart : startBound ⟨1, true⟩ 2 (some 2) = .ok ⟨2, true⟩ := rfl
  have hsecond : main ℝ (twice 2) 2 (some 2) = .ok ⟨tree, some 2, some ⟨2, true⟩⟩ := by
    simp only [main, checkMetadata, prephase, runLearner, twice, hstart, htwo, bind, Except.bind]
    rfl
  have hround : rounds ℝ twice 1 = .ok ⟨some 2, some ⟨2, true⟩⟩ := by
    simp only [rounds, hfirst, bind, Except.bind]
    rfl
  refine ⟨hround, ?_⟩
  rw [rounds, hround]
  simp only [hsecond, bind, Except.bind]
  rfl

/-- Round 1 raises the bound to 2, and round 2 starts from there. -/
theorem bound_handedOver_iff_twice : BoundsKept ℝ twice 2 := by
  obtain ⟨hone, htwo⟩ := rounds_twice
  refine (bound_handedOver_iff ℝ twice (fun _ => rfl) 2 _ htwo).mpr fun j hj h hrun => ?_
  refine ⟨fun tree hpre => (by cases hpre), fun _ start hstart => ?_⟩
  obtain rfl | rfl : j = 0 ∨ j = 1 := by omega
  · obtain rfl := Except.ok.inj hrun
    obtain rfl := Except.ok.inj hstart
    exact ⟨1, by decide, by decide, attempt_twoThree⟩
  · obtain rfl := Except.ok.inj (hone.symm.trans hrun)
    obtain rfl := Except.ok.inj hstart
    exact ⟨0, by decide, by decide, attempt_twoThree⟩

/-! ## A bound that is lost -/

def thirty : Datapoint := { categoricalData := [0], intData := [30] }

def thirtyOne : Datapoint := { categoricalData := [0], intData := [31] }

theorem thirty_ok : (pair thirty thirtyOne).Ok 1 := pair_ok ⟨rfl, rfl⟩ ⟨rfl, rfl⟩ rfl

/-- With a bound in use the two points cannot be told apart. -/
theorem attempt_thirty {T : ℤ} (hT : T ≤ maxBound) :
    attempt ℝ .stable (pair thirty thirtyOne) 5 (some T) = .error contradictory := by
  refine pair_contradictory thirty_ok .stable ?_ (by decide)
  unfold maxBound at hT
  have hno : ¬ (30 : ℤ) ≤ T := by omega
  simp [Distinguishable, pair, thirty, thirtyOne, Datapoint.category, Datapoint.int,
    valuesDistinguishable, hno]

/-- Without a bound it can. -/
theorem attempt_thirty_unbounded :
    ∃ tree, attempt ℝ .stable (pair thirty thirtyOne) 5 none = .ok tree := by
  rcases attempt_unbounded thirty_ok (by simp [Sample.Distinct, pair, thirty, thirtyOne])
    (show 2 * 2 < 5 by decide) (pair_ratiosOk thirty_ok .stable none) with
    ⟨hno, -⟩ | ⟨tree, hrun, -⟩
  · exact absurd (pair_satisfiable thirty thirtyOne) hno
  · exact ⟨tree, hrun⟩

/-- The same input in every round. -/
def again (_ : ℕ) : Invocation :=
  { useBounds := true, doHorndiniPrephase := false, intAttributes := 1
    sample := pair thirty thirtyOne, intervals := [(0, 1)], env := fun _ => .stable
    steps := 5, attempts := 6, iterations := 0 }

/-- The search passes over the bounds 1 to 16. -/
theorem boundSearch_thirty : ∃ tree, boundSearch ℝ (fun _ => .stable) (pair thirty thirtyOne) 5 6
    ⟨1, true⟩ = .ok (tree, ⟨32, true⟩) := by
  have hstep : ∀ (fuel : ℕ) (b : ℤ), b ≤ maxBound →
      boundSearch ℝ (fun _ => .stable) (pair thirty thirtyOne) 5 (fuel + 1) ⟨b, true⟩ =
        boundSearch ℝ (fun _ => .stable) (pair thirty thirtyOne) 5 fuel ⟨b * 2, true⟩ := by
    intro fuel b hb
    have huse : (⟨b, true⟩ : Bound).useBound = true := by simp [Bound.useBound, hb]
    have hthr : (⟨b, true⟩ : Bound).threshold = some b := by
      unfold Bound.threshold
      rw [if_pos huse]
    rw [boundSearch, hthr, attempt_thirty hb]
    exact if_pos huse
  obtain ⟨tree, hrun⟩ := attempt_thirty_unbounded
  refine ⟨tree, ?_⟩
  rw [hstep 5 1 (by decide), hstep 4 (1 * 2) (by decide), hstep 3 (1 * 2 * 2) (by decide),
    hstep 2 (1 * 2 * 2 * 2) (by decide), hstep 1 (1 * 2 * 2 * 2 * 2) (by decide), boundSearch,
    show (⟨1 * 2 * 2 * 2 * 2 * 2, true⟩ : Bound).threshold = none from rfl, hrun]
  rfl

theorem rounds_again : rounds ℝ again 1 = .ok ⟨none, some ⟨32, true⟩⟩ := by
  obtain ⟨tree, hsearch⟩ := boundSearch_thirty
  have hround : main ℝ (again 1) 1 none = .ok ⟨tree, none, some ⟨32, true⟩⟩ := by
    simp only [main, checkMetadata, prephase, runLearner, again, startBound_first, hsearch, bind,
      Except.bind]
    rfl
  simp only [rounds, hround, bind, Except.bind]
  rfl

theorem not_handedOver_again : ¬ HandedOver 1 ⟨none, some ⟨32, true⟩⟩ := by
  unfold HandedOver
  rw [startBound_later (by decide)]
  simp

/-- Round 1 succeeds, but it writes no bound file, and round 2 cannot open it. -/
theorem bound_lost :
    (∀ k, (again k).useBounds = true) ∧ rounds ℝ again 1 = .ok ⟨none, some ⟨32, true⟩⟩ ∧
      ¬ BoundsKept ℝ again 1 ∧
      rounds ℝ again 2 = .error (.runtimeError "Error opening bound") := by
  refine ⟨fun _ => rfl, rounds_again, fun h => ?_, ?_⟩
  · exact not_handedOver_again (h 1 (le_refl 1) _ rounds_again).1
  · rw [rounds, rounds_again]
    rfl

end HiceDt.Main
