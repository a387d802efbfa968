import TransferFunction.Binary64
import TransferFunction.Decimal

/-! # The shortest decimal of a double

Among the decimals that round to a double, one with the fewest digits is written, of these the nearest one, and of two
equally near ones the larger. All tests are exact, on natural numbers.
-/

namespace TransferFunction.Decimal

/-- How `a · 2 ^ q` compares to the decimal `d`. -/
def compareDyadic (a : Nat) (q : Int) (d : Decimal) : Ordering :=
  compare (a * Nat.pow 2 q.toNat * Nat.pow 10 (-d.exponent).toNat)
    (d.significand * Nat.pow 10 d.exponent.toNat * Nat.pow 2 (-q).toNat)

/-- Whether `d` rounds to the double `m · 2 ^ q`. The neighbours of the double are `2 ^ q` away, but below a power of two
half of that; halfway between two doubles an even significand wins. -/
def roundsTo (d : Decimal) (m : Nat) (q : Int) : Bool :=
  let below := if m = Nat.pow 2 52 ∧ q ≠ -1074 then 1 else 2
  let low := compareDyadic (4 * m - below) (q - 2) d
  let high := compareDyadic (4 * m + 2) (q - 2) d
  if m % 2 = 0 then low != .gt && high != .lt else low == .lt && high == .gt

/-- The largest decimal with exponent `e` that is not above `m · 2 ^ q`. -/
def floor (m : Nat) (q e : Int) : Decimal :=
  ⟨m * Nat.pow 2 q.toNat * Nat.pow 10 (-e).toNat / (Nat.pow 2 (-q).toNat * Nat.pow 10 e.toNat), e⟩

/-- The decimal of exponent `e` nearest to `m · 2 ^ q`, of those that round to it. -/
def nearest? (m : Nat) (q e : Int) : Option Decimal :=
  let lower := floor m q e
  let upper : Decimal := ⟨lower.significand + 1, e⟩
  let middle : Decimal := ⟨10 * lower.significand + 5, e - 1⟩
  if upper.roundsTo m q && (compareDyadic m q middle != .lt || !lower.roundsTo m q) then some upper
  else if lower.roundsTo m q then some lower
  else none

/-- All digits of `m · 2 ^ q`. -/
def exact (m : Nat) (q : Int) : Decimal := ⟨m * Nat.pow 2 q.toNat * Nat.pow 5 (-q).toNat, min q 0⟩

/-- Tries the exponents `e`, `e - 1`, … for a decimal that rounds to `m · 2 ^ q`. -/
def search (m : Nat) (q : Int) : Nat → Int → Decimal
  | 0, _ => exact m q
  | n + 1, e => (nearest? m q e).getD (search m q n (e - 1))

/-- The shortest decimal of `m · 2 ^ q`. The first exponent tried is that of a power of ten about as large as the double or
larger, the first digit comes at most a few exponents later, and 17 digits always suffice. -/
def shortest (m : Nat) (q : Int) : Decimal := search m q 24 ((m.log2 + q) * 3 / 10 + 2)

end TransferFunction.Decimal

namespace TransferFunction.Binary64

/-- The text of a double: no exponent, no point in an integer, a sign also before a negative zero. -/
def text (x : Float) : String :=
  let signed (negative : Bool) (digits : List Char) := String.ofList (if negative then '-' :: digits else digits)
  match decode x with
  | .nan => "NaN"
  | .infinite negative => signed negative ['i', 'n', 'f']
  | .finite negative m q => signed negative (if m = 0 then ['0'] else (Decimal.shortest m q).positional)

end TransferFunction.Binary64
