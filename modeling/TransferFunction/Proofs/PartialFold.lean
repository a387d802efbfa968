import Mathlib.Data.List.Basic

/-! # Folds that may fail

The stages read a list from the left and stop at the first error. What one step keeps, a run that succeeds keeps. Two folds
of one list whose steps go alike end alike.
-/

namespace TransferFunction.PartialFold

variable {ε σ α β : Type}

theorem bind_eq_ok {x : Except ε α} {f : α → Except ε β} {b : β} :
    x >>= f = .ok b ↔ ∃ a, x = .ok a ∧ f a = .ok b := by
  cases x <;> simp [bind, Except.bind]

theorem bind_eq_error {x : Except ε α} {f : α → Except ε β} {e : ε} :
    x >>= f = .error e ↔ x = .error e ∨ ∃ a, x = .ok a ∧ f a = .error e := by
  cases x <;> simp [bind, Except.bind]

theorem map_eq_ok {x : Except ε α} {f : α → β} {b : β} : f <$> x = .ok b ↔ ∃ a, x = .ok a ∧ f a = b := by
  cases x <;> simp [Functor.map, Except.map]

theorem map_eq_error {x : Except ε α} {f : α → β} {e : ε} : f <$> x = .error e ↔ x = .error e := by
  cases x <;> simp [Functor.map, Except.map]

variable {f : σ → α → Except ε σ}

theorem cons_eq_ok {x : α} {xs : List α} {s r : σ} :
    (x :: xs).foldlM f s = .ok r ↔ ∃ s', f s x = .ok s' ∧ xs.foldlM f s' = .ok r := by
  rw [List.foldlM_cons, bind_eq_ok]

theorem append_eq_ok {xs ys : List α} {s r : σ} :
    (xs ++ ys).foldlM f s = .ok r ↔ ∃ s', xs.foldlM f s = .ok s' ∧ ys.foldlM f s' = .ok r := by
  rw [List.foldlM_append, bind_eq_ok]

theorem cons_of_ok {x : α} {xs : List α} {s s' : σ} (h : f s x = .ok s') :
    (x :: xs).foldlM f s = xs.foldlM f s' := by
  rw [List.foldlM_cons, h]
  rfl

theorem append_of_ok {xs ys : List α} {s s' : σ} (h : xs.foldlM f s = .ok s') :
    (xs ++ ys).foldlM f s = ys.foldlM f s' := by
  rw [List.foldlM_append, h]
  rfl

/-- A run fails in one of its steps. -/
theorem exists_step_of_error {xs : List α} {s : σ} {e : ε} (h : xs.foldlM f s = .error e) :
    ∃ before x after s', xs = before ++ x :: after ∧ before.foldlM f s = .ok s' ∧ f s' x = .error e := by
  induction xs generalizing s with
  | nil => cases h
  | cons x xs ih =>
    rcases bind_eq_error.mp h with hx | ⟨s₁, hx, hxs⟩
    · exact ⟨[], x, xs, s, rfl, rfl, hx⟩
    · obtain ⟨before, y, after, s', rfl, hbefore, hy⟩ := ih hxs
      exact ⟨x :: before, y, after, s', rfl, (cons_of_ok hx).trans hbefore, hy⟩

/-- An invariant may speak of what has been read. -/
theorem invariant {P : List α → σ → Prop}
    (step : ∀ {before s x s'}, P before s → f s x = .ok s' → P (before ++ [x]) s')
    (before : List α) {xs : List α} {s s' : σ} (start : P before s) (run : xs.foldlM f s = .ok s') :
    P (before ++ xs) s' := by
  induction xs generalizing before s with
  | nil =>
    cases run
    rwa [List.append_nil]
  | cons x xs ih =>
    obtain ⟨s₁, hx, hxs⟩ := cons_eq_ok.mp run
    have h := ih (before ++ [x]) (step start hx) hxs
    rwa [List.append_assoc, List.singleton_append] at h

/-- Two outcomes are alike: results that `R` relates, or the same error. -/
inductive Alike {α β : Type} (R : α → β → Prop) : Except ε α → Except ε β → Prop
  | ok {a : α} {b : β} (h : R a b) : Alike R (.ok a) (.ok b)
  | error (e : ε) : Alike R (.error e) (.error e)

variable {τ δ : Type} {R : σ → τ → Prop} {S : α → δ → Prop}

theorem Alike.bind {x : Except ε σ} {y : Except ε τ} {f : σ → Except ε α} {g : τ → Except ε δ} (h : Alike R x y)
    (hnext : ∀ {s t}, R s t → Alike S (f s) (g t)) : Alike S (x >>= f) (y >>= g) := by
  cases h with
  | ok h => exact hnext h
  | error e => exact .error e

theorem Alike.foldlM {f : σ → β → Except ε σ} {g : τ → β → Except ε τ}
    (step : ∀ {s t}, R s t → ∀ x, Alike R (f s x) (g t x)) (xs : List β) {s : σ} {t : τ} (h : R s t) :
    Alike R (xs.foldlM f s) (xs.foldlM g t) := by
  induction xs generalizing s t with
  | nil => exact .ok h
  | cons x xs ih =>
    rw [List.foldlM_cons, List.foldlM_cons]
    exact (step h x).bind fun hnext => ih hnext

theorem Alike.exists_ok {x : Except ε σ} {y : Except ε τ} (h : Alike R x y) {t : τ} (hy : y = .ok t) :
    ∃ s, x = .ok s ∧ R s t := by
  cases h with
  | ok h =>
    cases hy
    exact ⟨_, rfl, h⟩
  | error e => cases hy

theorem Alike.exists_ok_iff {x : Except ε σ} {y : Except ε τ} (h : Alike R x y) :
    (∃ s, x = .ok s) ↔ ∃ t, y = .ok t := by
  cases h with
  | ok h => simp
  | error e => simp

theorem Alike.error_iff {x : Except ε σ} {y : Except ε τ} (h : Alike R x y) (e : ε) : x = .error e ↔ y = .error e := by
  cases h with
  | ok h => simp
  | error e' => simp

section MapError

variable {ε' : Type} (k : ε → ε')

theorem map_mapError (f : α → β) (x : Except ε α) : f <$> x.mapError k = (f <$> x).mapError k := by
  cases x <;> rfl

theorem bind_mapError (x : Except ε α) (f : α → Except ε β) :
    (x >>= f).mapError k = x.mapError k >>= fun a => (f a).mapError k := by
  cases x <;> rfl

theorem foldlM_mapError (f : σ → α → Except ε σ) (xs : List α) (s : σ) :
    (xs.foldlM f s).mapError k = xs.foldlM (fun s x => (f s x).mapError k) s := by
  induction xs generalizing s with
  | nil => rfl
  | cons x xs ih =>
    rw [List.foldlM_cons, List.foldlM_cons, bind_mapError]
    exact congrArg (_ >>= ·) (funext ih)

end MapError

end TransferFunction.PartialFold
