import TransferFunction.Proofs.OpenParentheses
import TransferFunction.Proofs.PostfixOrder

/-! # What a token does to the operator stack

Operators leave the stack in runs: those that yield to the next operator, or all down to the innermost parenthesis, or all at
the end. A move says which run a token releases, without the recursion that releases it.
-/

namespace TransferFunction

namespace Element

def isOperand : Element → Bool
  | .constant _ | .argument => true
  | .operator _ => false

end Element

/-- The element that a symbol becomes. Parentheses leave none. -/
def Symbol.element? : Symbol → Option Element
  | .number value => some (.constant ⟨value, 0⟩)
  | .argument => some .argument
  | .imaginaryUnit => some (.constant ⟨0, 1⟩)
  | .operator op => some (.operator op)
  | .opening | .closing => none

namespace OperatorStack

theorem yields_eq_false_iff {op w : Operator} : yields op w = false ↔
    w.precedence ≤ op.precedence ∧ (op.precedence = w.precedence → op.isLeftAssociative = false) := by
  simp only [yields, Bool.or_eq_false_iff, decide_eq_false_iff_not, Nat.not_lt, Bool.and_eq_false_imp, beq_iff_eq]

theorem keeps_of_not_yields {op w : Operator} (h : yields op w = false) (rest : List Pending) :
    Keeps op.precedence (.operator w :: rest) := by
  obtain ⟨hle, hright⟩ := yields_eq_false_iff.mp h
  by_cases heq : op.precedence = w.precedence
  · have hw : w.isLeftAssociative = false := by
      rw [← Operator.isLeftAssociative_of_precedence_eq heq]
      exact hright heq
    exact (keeps_right hw rest).of_le (Nat.le_of_eq heq.symm)
  · exact (keeps_tighter w rest).of_le (by omega)

/-- An operator waits on what keeps its place, and all above that yields to it. -/
theorem exists_pushOperator (op : Operator) (output : List Element) (pending : List Pending) :
    ∃ released rest, pending = released.map Pending.operator ++ rest ∧
      pushOperator op output pending = ⟨releasing released output, .operator op :: rest⟩ ∧
      (∀ w ∈ released, yields op w = true) ∧ Keeps op.precedence rest := by
  fun_induction pushOperator op output pending with
  | case1 output waiting rest hyields ih =>
    obtain ⟨released, rest', rfl, hpush, hreleased, hkeeps⟩ := ih
    refine ⟨waiting :: released, rest', rfl, ?_, List.forall_mem_cons.mpr ⟨hyields, hreleased⟩, hkeeps⟩
    rw [hpush, releasing_cons]
  | case2 output waiting rest hyields =>
    exact ⟨[], _, rfl, rfl, List.forall_mem_nil _, keeps_of_not_yields (eq_false_of_ne_true hyields) rest⟩
  | case3 output pending hnot => exact ⟨[], pending, rfl, rfl, List.forall_mem_nil _, fun w rest h => absurd h (hnot w rest)⟩

theorem exists_of_close {offset : Nat} {output : List Element} {pending : List Pending} {s : State}
    (h : close offset output pending = .ok s) :
    ∃ released o rest, pending = released.map Pending.operator ++ .opening o :: rest ∧
      s = ⟨releasing released output, rest⟩ := by
  fun_induction close offset output pending with
  | case1 output waiting rest ih =>
    obtain ⟨released, o, rest', rfl, rfl⟩ := ih h
    exact ⟨waiting :: released, o, rest', rfl, by rw [releasing_cons]⟩
  | case2 output o rest =>
    cases h
    exact ⟨[], o, rest, rfl, rfl⟩
  | case3 => cases h

theorem exists_of_release {output es : List Element} {pending : List Pending} (h : release output pending = .ok es) :
    ∃ released, pending = released.map Pending.operator ∧ es = (releasing released output).reverse := by
  fun_induction release output pending with
  | case1 output waiting rest ih =>
    obtain ⟨released, rfl, rfl⟩ := ih h
    exact ⟨waiting :: released, rfl, by rw [releasing_cons]⟩
  | case2 => cases h
  | case3 output =>
    cases h
    exact ⟨[], rfl, rfl⟩

inductive Move : State → Token → State → Prop
  | operand {output pending t e} : t.symbol.element? = some e → e.isOperand = true →
      Move ⟨output, pending⟩ t ⟨e :: output, pending⟩
  | operator {output released rest t op} : t.symbol = .operator op → (∀ w ∈ released, yields op w = true) →
      Keeps op.precedence rest →
      Move ⟨output, released.map Pending.operator ++ rest⟩ t ⟨releasing released output, .operator op :: rest⟩
  | opening {output pending t} : t.symbol = .opening → Move ⟨output, pending⟩ t ⟨output, .opening t.offset :: pending⟩
  | closing {output released o rest t} : t.symbol = .closing →
      Move ⟨output, released.map Pending.operator ++ .opening o :: rest⟩ t ⟨releasing released output, rest⟩

theorem move_of_step {s s' : State} {t : Token} (h : step s t = .ok s') : Move s t s' := by
  obtain ⟨output, pending⟩ := s
  obtain ⟨symbol, offset⟩ := t
  cases symbol with
  | number _ | argument | imaginaryUnit =>
    cases h
    exact .operand rfl rfl
  | opening =>
    cases h
    exact .opening rfl
  | closing =>
    obtain ⟨released, o, rest, rfl, rfl⟩ := exists_of_close h
    exact .closing rfl
  | operator op =>
    obtain ⟨released, rest, rfl, hpush, hreleased, hkeeps⟩ := exists_pushOperator op output pending
    have hs : Except.ok (pushOperator op output (released.map Pending.operator ++ rest)) = .ok s' := h
    rw [hpush] at hs
    cases hs
    exact .operator rfl hreleased hkeeps

end OperatorStack
end TransferFunction
