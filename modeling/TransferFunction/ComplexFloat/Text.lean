import TransferFunction.ComplexFloat
import TransferFunction.Decimal.Shortest

/-! # The text of a complex number -/

namespace TransferFunction.ComplexFloat
open Binary64

/-- Real part, sign, absolute imaginary part, `i`. The sign is `-` only for an imaginary part below zero, which a negative
zero is not: that one keeps its own sign behind the `+`. -/
def text (z : ComplexFloat) : String :=
  if z.im < 0 then Binary64.text z.re ++ "-" ++ Binary64.text (-z.im) ++ "i"
  else Binary64.text z.re ++ "+" ++ Binary64.text z.im ++ "i"

end TransferFunction.ComplexFloat
