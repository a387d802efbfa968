import TransferFunction.Program

/-! # Constant folding

In a postfix list two constants just before an operator are its operands, so the three are replaced by one constant.
-/

namespace TransferFunction.Program

/-- Appends an element to a folded list, latest first. -/
def foldStep [Arithmetic] (folded : List Element) (e : Element) : List Element :=
  match e, folded with
  | .operator op, .constant right :: .constant left :: rest => .constant (Arithmetic.compute op left right) :: rest
  | e, folded => e :: folded

/-- An operator that meets its two operands, latest first, as constants. -/
inductive Meets : Element → List Element → Prop
  | operands (op : Operator) (left right : ComplexFloat) (rest : List Element) :
    Meets (.operator op) (.constant right :: .constant left :: rest)

theorem meets_operator_iff {op : Operator} {folded : List Element} :
    Meets (.operator op) folded ↔ ∃ left right rest, folded = .constant right :: .constant left :: rest := by
  constructor
  · rintro ⟨_, left, right, rest⟩
    exact ⟨left, right, rest, rfl⟩
  · rintro ⟨left, right, rest, rfl⟩
    exact .operands op left right rest

/-- All else is just appended. -/
theorem foldStep_of_not_meets [Arithmetic] {folded : List Element} {e : Element} (h : ¬Meets e folded) :
    foldStep folded e = e :: folded := by
  unfold foldStep
  split
  · next op right left rest => exact absurd (.operands op left right rest) h
  · rfl

def foldElements [Arithmetic] (es : List Element) : List Element := (es.foldl foldStep []).reverse

/-- Folding never makes the stack deeper, so the depth stays as a bound. -/
def fold [Arithmetic] (p : Program) : Program := { p with elements := foldElements p.elements }

end TransferFunction.Program
