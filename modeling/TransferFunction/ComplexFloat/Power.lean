import TransferFunction.Binary64
import TransferFunction.ComplexFloat

/-! # Powers of complex numbers

An integral exponent means repeated multiplication, which keeps small powers of `j` and of real numbers exact. Any other
power is the principal one, `exp (exponent · log base)`.
-/

namespace TransferFunction.ComplexFloat
open Binary64

/-- The product `acc · b ^ e`, taking the factors from the low bits of `e` upwards. -/
def accumulate (acc b : ComplexFloat) (e : Nat) : ComplexFloat :=
  if e = 0 then acc else accumulate (if e % 2 = 1 then acc * b else acc) (b * b) (e / 2)
termination_by e

/-- The power `b ^ e` for positive `e`, by squaring. Low zero bits of `e` only square the base. -/
def powNat (b : ComplexFloat) (e : Nat) : ComplexFloat :=
  if e ≤ 1 then b
  else if e % 2 = 0 then powNat (b * b) (e / 2)
  else accumulate b (b * b) (e / 2)
termination_by e

/-- A negative exponent takes the power of the inverse. -/
def powInt (z : ComplexFloat) (n : Int) : ComplexFloat :=
  if n = 0 then ofReal 1 else powNat (if n < 0 then z.inv else z) n.natAbs

/-- The principal logarithm. -/
def log (z : ComplexFloat) : ComplexFloat := ⟨(hypot z.re z.im).log, Float.atan2 z.im z.re⟩

/-- The exponential. At infinite or NaN real parts the limit is taken, so that no `∞ · 0` arises. -/
def exp (z : ComplexFloat) : ComplexFloat :=
  if z.re == -infinity && !z.im.isFinite then ofReal 0
  else if z.re == infinity && (z.im == 0 || !z.im.isFinite) then ⟨z.re, if z.im.isInf then nan else z.im⟩
  else if z.re.isNaN && z.im == 0 then z
  else ⟨z.re.exp * z.im.cos, z.re.exp * z.im.sin⟩

/-- Integral exponents up to this size are taken by repeated multiplication. -/
def maxIntegralExponent : Nat := Nat.pow 2 31 - 1

/-- The exponent as an integer, when it is a real one of moderate size. -/
def integralExponent? (w : ComplexFloat) : Option Int :=
  if w.im == 0 then (integer? w.re).filter (·.natAbs ≤ maxIntegralExponent) else none

/-- The principal value of `base ^ exponent`. A zero base has a power only when the exponent has a positive real part. -/
def power (base exponent : ComplexFloat) : ComplexFloat :=
  if base.re == 0 && base.im == 0 then
    if exponent.re > 0 then ofReal 0 else ⟨nan, nan⟩
  else match integralExponent? exponent with
    | some n => powInt base n
    | none =>
      if exponent.im == 0 && base.im == 0 && base.re > 0 then ofReal (base.re.pow exponent.re)
      else (exponent * log base).exp

end TransferFunction.ComplexFloat
