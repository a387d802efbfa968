import TransferFunction.Proofs.Outline

/-! # Errors come at the first token that rules a formula out

As long as a pass goes on, what has been read is the beginning of a formula: an operand, if one has to follow, and all the
closing parentheses complete it. And once a pass stops at a token, nothing behind that token is looked at.
-/

namespace TransferFunction.ExplicitForm
open PartialFold

namespace Outline

/-- What completes a formula. -/
def completion (o : Outline) : List Symbol :=
  (if o.expects then [.argument] else []) ++ List.replicate o.depth .closing

theorem run_replicate_closing (n : Nat) : run ⟨n, false⟩ (List.replicate n .closing) = .ok .complete := by
  induction n with
  | zero => rfl
  | succ n ih =>
    have hclose : step ⟨n + 1, false⟩ .closing = .ok ⟨n, false⟩ :=
      step_closing_eq_ok.mpr ⟨Nat.succ_ne_zero n, rfl, rfl⟩
    rw [List.replicate_succ, run_cons_of_ok hclose, ih]

theorem run_completion (o : Outline) : o.run o.completion = .ok .complete := by
  obtain ⟨n, expects⟩ := o
  cases expects with
  | false => exact run_replicate_closing n
  | true =>
    have hoperand : step ⟨n, true⟩ .argument = .ok ⟨n, false⟩ := rfl
    exact (run_cons_of_ok hoperand).trans (run_replicate_closing n)

theorem cause_of_step_error {o : Outline} {s : Symbol} {c : Cause} (h : o.step s = .error c) :
    c ∈ [.unmatchedClosing, .noOperandBeforeClosing, .noOperandBeforeOperator] := by
  cases s with
  | number _ | argument | imaginaryUnit | opening => cases h
  | closing => rcases step_closing_eq_error.mp h with ⟨-, rfl⟩ | ⟨-, -, rfl⟩ <;> decide
  | operator op =>
    obtain ⟨-, -, -, rfl⟩ := step_operator_eq_error.mp h
    decide

end Outline

/-- A pass reads the tokens `before` and stops at the next one, `t`. -/
def StopsAt (before : List Token) (t : Token) (e : CompileError) : Prop :=
  ∃ s, before.foldlM step .start = .ok s ∧ step s t = .error e

/-- A pass reads all tokens, and then misses something. -/
def StopsAtEnd (ts : List Token) (e : CompileError) : Prop := ∃ s, ts.foldlM step .start = .ok s ∧ finish s = .error e

/-- What follows the token at which a pass stops makes no difference. -/
theorem StopsAt.ofTokens_eq {before : List Token} {t : Token} {e : CompileError} (h : StopsAt before t e)
    (after : List Token) : ofTokens (before ++ t :: after) = .error e := by
  obtain ⟨s, hs, ht⟩ := h
  have hrun : (before ++ t :: after).foldlM step .start = .error e := by
    rw [append_of_ok hs, List.foldlM_cons, ht]
    rfl
  exact bind_eq_error.mpr (.inl hrun)

theorem ofTokens_eq_error {ts : List Token} {e : CompileError} :
    ofTokens ts = .error e ↔ (∃ before t after, ts = before ++ t :: after ∧ StopsAt before t e) ∨ StopsAtEnd ts e := by
  constructor
  · intro h
    rcases bind_eq_error.mp h with hrun | hend
    · obtain ⟨before, t, after, s, hts, hs, ht⟩ := exists_step_of_error hrun
      exact .inl ⟨before, t, after, hts, s, hs, ht⟩
    · exact .inr hend
  · rintro (⟨before, t, after, rfl, hstops⟩ | hend)
    · exact hstops.ofTokens_eq after
    · exact bind_eq_error.mpr (.inr hend)

/-- What has been read can be completed. -/
theorem exists_completion {ts : List Token} {s : State} (h : ts.foldlM step .start = .ok s) :
    ∃ after out, ofTokens (ts ++ after) = .ok out := by
  let after : List Token := s.outline.completion.map (Token.mk · 0)
  have hafter : after.map Token.symbol = s.outline.completion := by simp [after, Function.comp_def]
  refine ⟨after, _, ofTokens_of_run ?_⟩
  rw [List.map_append, hafter]
  exact (Outline.run_append_of_ok (run_of_foldlM_step h)).trans s.outline.run_completion

theorem cause_of_finish_error {s : State} {e : CompileError} (h : finish s = .error e) :
    e.cause ∈ [.empty, .noOperandAfterOperator, .unclosed] := by
  unfold finish at h
  split at h
  · cases h
    decide
  · cases h
    simp
  · split at h
    · cases h
      simp
    · cases h

/-- A pass fails at a token or at the end. Where it stops at a token, it gives the same error whatever follows, and what it
has read before can be completed to a formula. Where it fails at the end, all that it has read can be completed. -/
theorem stops_earliest (e : CompileError) :
    (∀ ts, ofTokens ts = .error e ↔
      (∃ before t after, ts = before ++ t :: after ∧ StopsAt before t e) ∨ StopsAtEnd ts e) ∧
    (∀ before t, StopsAt before t e →
      e.cause ∈ [.unmatchedClosing, .noOperandBeforeClosing, .noOperandBeforeOperator] ∧
        (∀ after, ofTokens (before ++ t :: after) = .error e) ∧ ∃ after out, ofTokens (before ++ after) = .ok out) ∧
    ∀ ts, StopsAtEnd ts e →
      e.cause ∈ [.empty, .noOperandAfterOperator, .unclosed] ∧ ∃ after out, ofTokens (ts ++ after) = .ok out := by
  refine ⟨fun ts => ofTokens_eq_error, ?_, ?_⟩
  · intro before t h
    obtain ⟨s, hs, ht⟩ := h
    obtain ⟨c, hc, rfl⟩ := step_eq_error ht
    exact ⟨Outline.cause_of_step_error hc, fun after => StopsAt.ofTokens_eq ⟨s, hs, ht⟩ after, exists_completion hs⟩
  · rintro ts ⟨s, hs, hend⟩
    exact ⟨cause_of_finish_error hend, exists_completion hs⟩

/-- In `(x*)` the parenthesis comes too early, whatever may follow; `(x*` can still become a formula. -/
theorem stops_earliest_closing :
    (∀ after, ofTokens ([⟨.opening, 0⟩, ⟨.argument, 1⟩, ⟨.operator .mul, 2⟩] ++ ⟨.closing, 3⟩ :: after) =
      .error ⟨3, .noOperandBeforeClosing⟩) ∧
    ∃ after out, ofTokens ([⟨.opening, 0⟩, ⟨.argument, 1⟩, ⟨.operator .mul, 2⟩] ++ after) = .ok out := by
  have hstops : StopsAt [⟨.opening, 0⟩, ⟨.argument, 1⟩, ⟨.operator .mul, 2⟩] ⟨.closing, 3⟩ ⟨3, .noOperandBeforeClosing⟩ :=
    ⟨_, rfl, rfl⟩
  have hend : StopsAtEnd [⟨.opening, 0⟩, ⟨.argument, 1⟩, ⟨.operator .mul, 2⟩] ⟨2, .noOperandAfterOperator⟩ :=
    ⟨_, rfl, rfl⟩
  exact ⟨((stops_earliest _).2.1 _ _ hstops).2.1, ((stops_earliest _).2.2 _ hend).2⟩

end TransferFunction.ExplicitForm
