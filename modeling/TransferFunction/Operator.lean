import TransferFunction.ComplexFloat.Power

/-! # The binary operators

`sign` is the multiplication by the `-1` that stands for a unary minus. It binds like a power, so that `-2^2` is `-(2^2)`.
-/

namespace TransferFunction

inductive Operator | add | sub | mul | div | pow | sign deriving DecidableEq

namespace Operator

/-- The tighter an operator binds, the larger its precedence. -/
def precedence : Operator → Nat
  | .add | .sub => 1
  | .mul | .div => 2
  | .pow | .sign => 3

def isLeftAssociative : Operator → Bool
  | .add | .sub | .mul | .div => true
  | .pow | .sign => false

def isRightAssociative (op : Operator) : Bool := !op.isLeftAssociative

def apply : Operator → ComplexFloat → ComplexFloat → ComplexFloat
  | .add, left, right => left + right
  | .sub, left, right => left - right
  | .mul, left, right | .sign, left, right => left * right
  | .div, left, right => left / right
  | .pow, left, right => left.power right

def text : Operator → String
  | .add => "+"
  | .sub => "-"
  | .mul => "*"
  | .div => "/"
  | .pow => "^"
  | .sign => "*-"

/-- Associativity is one for all operators of a precedence, so the incoming operator alone decides between equals. -/
theorem isLeftAssociative_of_precedence_eq {o p : Operator} (h : o.precedence = p.precedence) :
    o.isLeftAssociative = p.isLeftAssociative := by
  revert h; cases o <;> cases p <;> decide

end Operator

/-- What the operators compute. Nothing that is compiled or evaluated asks for more of it. -/
class Arithmetic where
  compute : Operator → ComplexFloat → ComplexFloat → ComplexFloat

/-- The arithmetic of doubles, where no other is given. -/
instance : Arithmetic := ⟨Operator.apply⟩

end TransferFunction
