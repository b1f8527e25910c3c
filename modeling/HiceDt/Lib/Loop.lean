import Mathlib.Data.List.Forall2

/-!
# Rules for loops with early exit

`forEach body l s` runs `body` on the elements of `l` in order, threading the
state, and leaves the loop as soon as `body` answers `false`. The outer `Option`
is `none` when a loop inside `body` ran out of fuel.

Results:

* `forEach_spec`: the invariant rule for `forEach`; the invariant may speak
  about the elements processed so far.
* `foldlM_spec`: the invariant rule for `List.foldlM` in `Option`.
* `forEach_keeps`, `foldlM_keeps`: what every iteration keeps.
* `bind_ok`, `bind_ne_error`, `foldlM_ok_spec`, `foldlM_ok`, `mapM_ok`: computations in `Except`
that return.
* `foldlM_returns`, `foldlM_bind_returns`, `mapM_returns`: a loop in `Except` returns if every
iteration does.
* `Ensures`: a computation in `Except` with a postcondition for its result and one for its
  error; rules for sequences and loops.
* `forall₂_replicate`, `forall₂_trans`, `forall₂_mem_right`: lists in relation.
-/

namespace HiceDt.Loop

universe u

variable {β σ : Type*}

/-- `for (b : l) if (!body(b)) return false; return true;` -/
def forEach (body : β → σ → Option (Bool × σ)) : List β → σ → Option (Bool × σ)
  | [], s => some (true, s)
  | b :: bs, s =>
    match body b s with
    | none => none
    | some (false, s') => some (false, s')
    | some (true, s') => forEach body bs s'

/-- Invariant rule: `I done s` holds before the element after `done` is
    processed; an early exit establishes `Q`. -/
theorem forEach_spec {f : β → σ → Option (Bool × σ)} {l : List β} {I : List β → σ → Prop}
    {Q : σ → Prop}
    (step : ∀ done b rest s, l = done ++ b :: rest → I done s →
      ∃ r s', f b s = some (r, s') ∧ (r = true → I (done ++ [b]) s') ∧ (r = false → Q s'))
    {s : σ} (h : I [] s) :
    ∃ r s', forEach f l s = some (r, s') ∧ (r = true → I l s') ∧ (r = false → Q s') := by
  suffices H : ∀ rest done s, l = done ++ rest → I done s →
      ∃ r s', forEach f rest s = some (r, s') ∧ (r = true → I l s') ∧ (r = false → Q s') from
    H l [] s (by simp) h
  intro rest
  induction rest with
  | nil =>
    intro done s hl hI
    exact ⟨true, s, rfl, fun _ => by simpa [hl] using hI, by simp⟩
  | cons b bs ih =>
    intro done s hl hI
    obtain ⟨r, s', hb, hT, hF⟩ := step done b bs s hl hI
    cases r with
    | true =>
      obtain ⟨r', s'', hr, hT', hF'⟩ := ih (done ++ [b]) s' (by simp [hl]) (hT rfl)
      exact ⟨r', s'', by simp [forEach, hb, hr], hT', hF'⟩
    | false => exact ⟨false, s', by simp [forEach, hb], by simp, hF⟩

/-- Invariant rule for a fold that may run out of fuel. -/
theorem foldlM_spec {f : σ → β → Option σ} {l : List β} {I : List β → σ → Prop}
    (step : ∀ done b rest s, l = done ++ b :: rest → I done s →
      ∃ s', f s b = some s' ∧ I (done ++ [b]) s')
    {s : σ} (h : I [] s) : ∃ s', l.foldlM f s = some s' ∧ I l s' := by
  suffices H : ∀ rest done s, l = done ++ rest → I done s →
      ∃ s', rest.foldlM f s = some s' ∧ I l s' from H l [] s (by simp) h
  intro rest
  induction rest with
  | nil =>
    intro done s hl hI
    exact ⟨s, rfl, by simpa [hl] using hI⟩
  | cons b bs ih =>
    intro done s hl hI
    obtain ⟨s', hb, hI'⟩ := step done b bs s hl hI
    obtain ⟨s'', hr, hI''⟩ := ih (done ++ [b]) s' (by simp [hl]) hI'
    exact ⟨s'', by simp [List.foldlM_cons, hb, hr], hI''⟩

/-- A property that every iteration keeps holds when the loop is left. -/
theorem forEach_keeps {f : β → σ → Option (Bool × σ)} {I : σ → Prop} {l : List β}
    (step : ∀ b ∈ l, ∀ s r s', I s → f b s = some (r, s') → I s') :
    ∀ {s : σ} {r : Bool} {s' : σ}, I s → forEach f l s = some (r, s') → I s' := by
  induction l with
  | nil =>
    intro s r s' h hrun
    rw [forEach, Option.some.injEq, Prod.mk.injEq] at hrun
    rw [← hrun.2]
    exact h
  | cons b bs ih =>
    intro s r s' h hrun
    rw [forEach] at hrun
    match hb : f b s with
    | none =>
      rw [hb] at hrun
      simp at hrun
    | some (false, t) =>
      have ht : I t := step b List.mem_cons_self s false t h hb
      rw [hb] at hrun
      simp only [Option.some.injEq, Prod.mk.injEq] at hrun
      rw [← hrun.2]
      exact ht
    | some (true, t) =>
      have ht : I t := step b List.mem_cons_self s true t h hb
      rw [hb] at hrun
      exact ih (fun b' hb' => step b' (List.mem_cons_of_mem _ hb')) ht hrun

/-- A property that every iteration of a fold keeps. -/
theorem foldlM_keeps {f : σ → β → Option σ} {I : σ → Prop} {l : List β}
    (step : ∀ s, ∀ b ∈ l, ∀ s', I s → f s b = some s' → I s') :
    ∀ {s s' : σ}, I s → l.foldlM f s = some s' → I s' := by
  induction l with
  | nil =>
    intro s s' h hrun
    rw [List.foldlM_nil] at hrun
    rw [← Option.some.inj hrun]
    exact h
  | cons b bs ih =>
    intro s s' h hrun
    rw [List.foldlM_cons, Option.bind_eq_bind, Option.bind_eq_some_iff] at hrun
    obtain ⟨t, hb, hrest⟩ := hrun
    have ht : I t := step s b List.mem_cons_self t h hb
    exact ih (fun s b' hb' => step s b' (List.mem_cons_of_mem _ hb')) ht hrest

/-! ## Computations that may throw -/

variable {ε : Type*}

/-- A sequence of two computations returns iff both do. -/
theorem bind_ok {α γ : Type u} {x : Except ε α} {f : α → Except ε γ} {b : γ} :
    (x >>= f) = .ok b ↔ ∃ a, x = .ok a ∧ f a = .ok b := by
  cases x with
  | error e => simp [bind, Except.bind]
  | ok a => simp [bind, Except.bind]

/-- A sequence of two computations throws only what one of them throws. -/
theorem bind_ne_error {α γ : Type u} {x : Except ε α} {f : α → Except ε γ} {e : ε}
    (hx : x ≠ .error e) (hf : ∀ a, x = .ok a → f a ≠ .error e) : (x >>= f) ≠ .error e := by
  cases x with
  | error e' => exact fun herror => hx (congrArg _ (Except.error.inj herror))
  | ok a => exact hf a rfl

theorem toOption_eq_some {α : Type u} {x : Except ε α} {a : α} : x.toOption = some a ↔
    x = .ok a := by
  cases x with
  | error e => exact iff_of_false (fun h => by cases h) fun h => by cases h
  | ok b => exact ⟨fun h => congrArg _ (Option.some.inj h), fun h => congrArg _ (Except.ok.inj h)⟩

/-- Invariant rule for a fold that returns; the invariant may speak about the elements
    processed so far. -/
theorem foldlM_ok_spec {f : σ → β → Except ε σ} {l : List β} {I : List β → σ → Prop}
    (step : ∀ done b rest s s', l = done ++ b :: rest → I done s → f s b = .ok s' →
      I (done ++ [b]) s')
    {s s' : σ} (h : I [] s) (hrun : l.foldlM f s = .ok s') : I l s' := by
  suffices H : ∀ rest done s, l = done ++ rest → I done s → rest.foldlM f s = .ok s' → I l s' from
    H l [] s rfl h hrun
  intro rest
  induction rest with
  | nil =>
    intro done s hl hI hrun
    rw [List.foldlM_nil] at hrun
    rw [hl, List.append_nil, ← Except.ok.inj hrun]
    exact hI
  | cons b bs ih =>
    intro done s hl hI hrun
    rw [List.foldlM_cons, bind_ok] at hrun
    obtain ⟨t, hb, hrest⟩ := hrun
    exact ih (done ++ [b]) t (by simp [hl]) (step done b bs s t hl hI hb) hrest

/-- What every iteration of a fold that returns keeps. -/
theorem foldlM_ok {f : σ → β → Except ε σ} {I : σ → Prop}
    (step : ∀ s b s', I s → f s b = .ok s' → I s') {l : List β} {s s' : σ} (h : I s)
    (hrun : l.foldlM f s = .ok s') : I s' :=
  foldlM_ok_spec (I := fun _ => I) (fun _ b _ s s' _ hs hb => step s b s' hs hb) h hrun

/-- The results of a map that returns. -/
theorem mapM_ok {α : Type*} {f : α → Except ε β} :
    ∀ {l : List α} {r : List β}, l.mapM f = .ok r → List.Forall₂ (fun a b => f a = .ok b) l r := by
  intro l
  induction l with
  | nil =>
    intro r hrun
    rw [List.mapM_nil] at hrun
    rw [← Except.ok.inj hrun]
    exact .nil
  | cons a l ih =>
    intro r hrun
    rw [List.mapM_cons, bind_ok] at hrun
    obtain ⟨b, hb, hrest⟩ := hrun
    rw [bind_ok] at hrest
    obtain ⟨bs, hbs, hret⟩ := hrest
    rw [← Except.ok.inj hret]
    exact .cons hb (ih hbs)

/-- A map returns if it does on every element. -/
theorem mapM_returns {α : Type*} {f : α → Except ε β} {l : List α} {r : List β}
    (h : List.Forall₂ (fun a b => f a = .ok b) l r) : l.mapM f = .ok r := by
  induction h with
  | nil => rfl
  | cons hab _ ih =>
    rw [List.mapM_cons, hab, ih]
    rfl

/-- Rule for a fold that returns because every iteration does; the iterations may
    use that the ones before them have returned. -/
theorem foldlM_returns {f : σ → β → Except ε σ} {l : List β} {I : List β → σ → Prop} {s : σ}
    (step : ∀ done b rest t, l = done ++ b :: rest → done.foldlM f s = .ok t → I done t →
      ∃ t', f t b = .ok t' ∧ I (done ++ [b]) t')
    (h : I [] s) : ∃ t, l.foldlM f s = .ok t ∧ I l t := by
  suffices H : ∀ rest done t, l = done ++ rest → done.foldlM f s = .ok t → I done t →
      ∃ t', rest.foldlM f t = .ok t' ∧ I l t' from H l [] s (by simp) rfl h
  intro rest
  induction rest with
  | nil =>
    intro done t hl _ hI
    exact ⟨t, rfl, by simpa [hl] using hI⟩
  | cons b bs ih =>
    intro done t hl hrun hI
    obtain ⟨t', hb, hI'⟩ := step done b bs t hl hrun hI
    have hrun' : (done ++ [b]).foldlM f s = .ok t' := by
      rw [List.foldlM_append, hrun]
      show [b].foldlM f t = .ok t'
      rw [List.foldlM_cons, hb]
      rfl
    obtain ⟨t'', hr, hI''⟩ := ih (done ++ [b]) t' (by simp [hl]) hrun' hI'
    refine ⟨t'', ?_, hI''⟩
    rw [List.foldlM_cons, hb]
    exact hr

/-- A fold that returns because its body does, and what is done with the result. -/
theorem foldlM_bind_returns {α γ σ : Type u} {body : σ → α → Except ε σ} {k : σ → Except ε γ}
    {l : List α} (hbody : ∀ s, ∀ a ∈ l, ∃ s', body s a = .ok s') (hk : ∀ s, ∃ c, k s = .ok c)
    {s : σ} : ∃ c, (l.foldlM body s >>= k) = .ok c := by
  obtain ⟨s', hrun, -⟩ := foldlM_returns (f := body) (l := l) (s := s) (I := fun _ _ => True)
    (fun done a rest b hl _ _ => by
      obtain ⟨b', hb'⟩ := hbody b a (by rw [hl]; simp)
      exact ⟨b', hb', trivial⟩) trivial
  obtain ⟨c, hc⟩ := hk s'
  exact ⟨c, bind_ok.mpr ⟨s', hrun, hc⟩⟩

/-! ## Results and errors -/

/-- The result satisfies `Q`, or the computation throws an error that satisfies `P`. -/
def Ensures {α : Type*} (P : ε → Prop) (Q : α → Prop) : Except ε α → Prop
  | .ok a => Q a
  | .error e => P e

section Ensures

variable {α γ : Type u} {P : ε → Prop} {Q Q' : α → Prop} {R : γ → Prop} {x : Except ε α}

theorem ensures_iff : Ensures P Q x ↔ (∀ a, x = .ok a → Q a) ∧ ∀ e, x = .error e → P e := by
  cases x with
  | error e => simp [Ensures]
  | ok a => simp [Ensures]

theorem Ensures.imp (h : Ensures P Q x) (himp : ∀ a, Q a → Q' a) : Ensures P Q' x := by
  cases x with
  | error e => exact h
  | ok a => exact himp a h

theorem Ensures.bind {f : α → Except ε γ} (hx : Ensures P Q x)
    (hf : ∀ a, Q a → Ensures P R (f a)) : Ensures P R (x >>= f) := by
  cases x with
  | error e => exact hx
  | ok a => exact hf a hx

/-- The results of a map in relation to the elements. -/
theorem ensures_mapM {f : γ → Except ε α} {S : γ → α → Prop} {l : List γ}
    (h : ∀ c ∈ l, Ensures P (S c) (f c)) : Ensures P (List.Forall₂ S l) (l.mapM f) := by
  induction l with
  | nil => exact List.Forall₂.nil
  | cons c l ih =>
    rw [List.mapM_cons]
    refine (h c List.mem_cons_self).bind fun a ha => ?_
    refine (ih fun c' hc' => h c' (List.mem_cons_of_mem _ hc')).bind fun as has => ?_
    exact List.Forall₂.cons ha has

/-- Invariant rule for a fold. -/
theorem ensures_foldlM {f : α → β → Except ε α} {l : List β} {a : α}
    (h : ∀ a, ∀ b ∈ l, Q a → Ensures P Q (f a b)) (ha : Q a) : Ensures P Q (l.foldlM f a) := by
  induction l generalizing a with
  | nil => exact ha
  | cons b l ih =>
    rw [List.foldlM_cons]
    refine (h a b List.mem_cons_self ha).bind fun a' ha' => ?_
    exact ih (fun a b' hb' => h a b' (List.mem_cons_of_mem _ hb')) ha'

end Ensures

/-! ## Lists in relation -/

theorem forall₂_replicate {α β : Type*} {R : α → β → Prop} {l : List α} {b : β} {n : ℕ}
    (hn : n = l.length) (h : ∀ a ∈ l, R a b) : List.Forall₂ R l (List.replicate n b) := by
  subst hn
  induction l with
  | nil => exact .nil
  | cons a l ih =>
    exact .cons (h a List.mem_cons_self) (ih fun a' ha' => h a' (List.mem_cons_of_mem _ ha'))

theorem forall₂_trans {α β γ : Type*} {R : α → β → Prop} {S : β → γ → Prop} {T : α → γ → Prop}
    (hT : ∀ a b c, R a b → S b c → T a c) {l : List α} {l' : List β} {l'' : List γ}
    (h : List.Forall₂ R l l') (h' : List.Forall₂ S l' l'') : List.Forall₂ T l l'' := by
  induction h generalizing l'' with
  | nil =>
    rw [List.forall₂_nil_left_iff.mp h']
    exact .nil
  | cons hab _ ih =>
    obtain ⟨c, l₃, hbc, hl, rfl⟩ := List.forall₂_cons_left_iff.mp h'
    exact .cons (hT _ _ _ hab hbc) (ih hl)

theorem forall₂_mem_right {β γ : Type*} {R : β → γ → Prop} {l : List β} {l' : List γ}
    (h : List.Forall₂ R l l') {c : γ} (hc : c ∈ l') : ∃ b ∈ l, R b c := by
  induction h with
  | nil => simp at hc
  | @cons b c' l l' hb _ ih =>
    rcases List.mem_cons.mp hc with rfl | hc
    · exact ⟨b, List.mem_cons_self, hb⟩
    · obtain ⟨b', hb', hR⟩ := ih hc
      exact ⟨b', List.mem_cons_of_mem _ hb', hR⟩

end HiceDt.Loop
