/-! # Decimals and their positional text

A decimal is `significand · 10 ^ exponent`. Its positional text has no exponent, no superfluous zero and a point only
before a fraction.
-/

namespace TransferFunction

structure Decimal where
  significand : Nat
  exponent : Int
deriving DecidableEq

namespace Decimal

/-- The digits of `r / 10 ^ n` behind the point, for `r` below `10 ^ n`, up to the last one that is not zero. -/
def fractionDigits : Nat → Nat → List Char
  | 0, _ => []
  | n + 1, r => if r = 0 then [] else (r / Nat.pow 10 n).digitChar :: fractionDigits n (r % Nat.pow 10 n)

def positional (d : Decimal) : List Char :=
  if 0 ≤ d.exponent then Nat.toDigits 10 (d.significand * Nat.pow 10 d.exponent.toNat)
  else
    let places := (-d.exponent).toNat
    let whole := Nat.toDigits 10 (d.significand / Nat.pow 10 places)
    match fractionDigits places (d.significand % Nat.pow 10 places) with
    | [] => whole
    | fraction => whole ++ '.' :: fraction

end Decimal
end TransferFunction
