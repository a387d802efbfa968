import TransferFunction.Proofs.Completion
import TransferFunction.Proofs.EndOfInput

/-! # Which token an error is about

A pass that fails points at a token of its input: the one at which it stops, or one that it has passed and that was never
completed. What it has inserted keeps the offset of the token it stems from, so this holds at the end of the input as well.
-/

namespace TransferFunction.ExplicitForm
open PartialFold

/-- The causes for which a pass refuses a list: all structural ones except that of a list which orders to no program. -/
def Refuses (c : Cause) : Prop := c.kind = .structural ∧ c ≠ .invalid

/-- The token that an error of each cause is about. -/
inductive Blames : Cause → Symbol → Prop
  | unmatchedClosing : Blames .unmatchedClosing .closing
  | noOperandBeforeClosing : Blames .noOperandBeforeClosing .closing
  | noOperandBeforeOperator {op} : op ≠ .add → op ≠ .sub → Blames .noOperandBeforeOperator (.operator op)
  | noOperandAfterOperator (op : Operator) : Blames .noOperandAfterOperator (.operator op)
  | unclosed : Blames .unclosed .opening

theorem Blames.refuses {c : Cause} {s : Symbol} (h : Blames c s) : Refuses c := by cases h <;> exact ⟨rfl, nofun⟩

theorem Outline.blames_of_step_error {o : Outline} {s : Symbol} {c : Cause} (h : o.step s = .error c) : Blames c s := by
  cases s with
  | number _ | argument | imaginaryUnit | opening => cases h
  | closing =>
    rcases step_closing_eq_error.mp h with ⟨-, rfl⟩ | ⟨-, -, rfl⟩
    · exact .unmatchedClosing
    · exact .noOperandBeforeClosing
  | operator op =>
    obtain ⟨-, hadd, hsub, rfl⟩ := step_operator_eq_error.mp h
    exact .noOperandBeforeOperator hadd hsub

/-- What an error is about: a token of the list, or that there are no tokens but unary pluses. -/
inductive Concerns (ts : List Token) : CompileError → Prop
  | token {t c} : t ∈ ts → Blames c t.symbol → Concerns ts ⟨t.offset, c⟩
  | empty : (∀ t ∈ ts, t.symbol = .operator .add) → Concerns ts ⟨0, .empty⟩

theorem Concerns.refuses {ts : List Token} {e : CompileError} (h : Concerns ts e) : Refuses e.cause := by
  cases h with
  | token _ hblames => exact hblames.refuses
  | empty _ => exact ⟨rfl, nofun⟩

theorem Concerns.offset_of_empty {ts : List Token} {e : CompileError} (h : Concerns ts e) (he : e.cause = .empty) :
    e.offset = 0 := by
  cases h with
  | token _ hblames =>
    cases he
    cases hblames
  | empty _ => rfl

/-- Every error of a pass is about its tokens. -/
theorem concerns_of_ofTokens_error {ts : List Token} {e : CompileError} (h : ofTokens ts = .error e) : Concerns ts e := by
  rcases ofTokens_eq_error.mp h with ⟨before, t, after, rfl, s, -, ht⟩ | ⟨s, hs, -⟩
  · obtain ⟨c, hc, rfl⟩ := step_eq_error ht
    exact .token (List.mem_append_right before List.mem_cons_self) (Outline.blames_of_step_error hc)
  · rcases verdict_of_foldlM hs with ⟨hk, ha⟩ | ⟨op, o, hk, ha⟩ | ⟨-, o, hfirst, ha⟩ | ⟨-, -, out, ha⟩
    · obtain rfl := Except.error.inj (h.symm.trans ha)
      exact .empty (symbol_eq_add_of_trimPluses_eq_nil hk)
    · obtain rfl := Except.error.inj (h.symm.trans ha)
      exact .token ((trimPluses_isPrefix ts).mem (List.mem_of_getLast? hk)) (.noOperandAfterOperator op)
    · obtain rfl := Except.error.inj (h.symm.trans ha)
      exact .token hfirst.mem .unclosed
    · cases h.symm.trans ha

end TransferFunction.ExplicitForm
