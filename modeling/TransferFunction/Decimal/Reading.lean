import TransferFunction.Binary64
import TransferFunction.Decimal

/-! # Reading a decimal as a double

A positional text is read exactly, as a decimal, and then rounded once, to the nearest double with ties to even. The bits of
the doubles that are not negative count them in the order of their size. So a significand that is rounded up to the next power
of two carries into the exponent by itself.
-/

namespace TransferFunction

/-- The decimal of a row of digits with at most one point in it. A text without a digit has none. -/
def Decimal.ofText? (cs : List Char) : Option Decimal :=
  let whole := cs.takeWhile Char.isDigit
  match cs.dropWhile Char.isDigit with
  | [] => if whole.isEmpty then none else some ⟨Nat.ofDigitChars 10 whole 0, 0⟩
  | point :: fraction =>
    if point == '.' && fraction.all Char.isDigit && !(whole.isEmpty && fraction.isEmpty) then
      some ⟨Nat.ofDigitChars 10 (whole ++ fraction) 0, -(fraction.length : Int)⟩
    else none

namespace Binary64

/-- The natural number nearest to `a / b`, of two equally near ones the even one. -/
def roundDiv (a b : Nat) : Nat :=
  if 2 * (a % b) < b ∨ 2 * (a % b) = b ∧ a / b % 2 = 0 then a / b else a / b + 1

/-- The double with the bits `n`, or infinity if `n` is beyond its bits. -/
def ofRank (n : Nat) : Float := Float.ofBits (UInt64.ofNat (min n (2047 * Nat.pow 2 52)))

/-- The double nearest to `a / b`. Of this many smallest doubles, `2 ^ (-1074)` each, a significand has no room for the lowest
`p` bits. -/
def nearest (a b : Nat) : Float :=
  let p := (a <<< 1074 / b).log2 - 52
  ofRank (p * Nat.pow 2 52 + roundDiv (a <<< 1074) (b <<< p))

def ofDecimal (d : Decimal) : Float :=
  nearest (d.significand * Nat.pow 10 d.exponent.toNat) (Nat.pow 10 (-d.exponent).toNat)

def ofText? (cs : List Char) : Option Float := (Decimal.ofText? cs).map ofDecimal

end Binary64
end TransferFunction
