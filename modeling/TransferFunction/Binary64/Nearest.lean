import Mathlib.Algebra.Order.Field.Rat
import Mathlib.Algebra.Order.Group.Abs
import TransferFunction.Binary64

/-! # The double nearest to a number

A number is rounded as if exponents had no upper bound, and what comes out too large for a double is infinite. A text of digits
with at most one point is read as the double nearest to the number that it denotes.
-/

namespace TransferFunction.Binary64

/-- The significands and exponents that finite doubles have, but for the upper bound of the exponents. -/
structure Canonical (m : Nat) (q : Int) : Prop where
  lt : m < Nat.pow 2 53
  le : -1074 ≤ q
  full : q = -1074 ∨ Nat.pow 2 52 ≤ m

/-- Nothing is nearer to `r` than `m · 2 ^ q`, and if anything else is as near, then `m` is even. -/
structure Closest (r : ℚ) (m : Nat) (q : Int) : Prop where
  canonical : Canonical m q
  le : ∀ {n k}, Canonical n k → |m * 2 ^ q - r| ≤ |n * 2 ^ k - r|
  even : ∀ {n k}, Canonical n k → |m * 2 ^ q - r| = |n * 2 ^ k - r| → n = m ∧ k = q ∨ m % 2 = 0

/-- The double `x` is nearest to `r`, which is not negative. The largest finite double has the exponent 971. -/
inductive Nearest (r : ℚ) (x : Float) : Prop
  | finite {m q} : Closest r m q → q ≤ 971 → decode x = .finite false m q → Nearest r x
  | infinite {m q} : Closest r m q → 971 < q → decode x = .infinite false → Nearest r x

/-- What a text of digits with at most one point is read as. -/
inductive Reads : List Char → Float → Prop
  | whole {ds x} : (∀ d ∈ ds, d.isDigit = true) → ds ≠ [] → Nearest (Nat.ofDigitChars 10 ds 0) x → Reads ds x
  | fraction {ds es x} : (∀ d ∈ ds, d.isDigit = true) → (∀ e ∈ es, e.isDigit = true) → ds ≠ [] ∨ es ≠ [] →
      Nearest (Nat.ofDigitChars 10 (ds ++ es) 0 / 10 ^ es.length) x → Reads (ds ++ '.' :: es) x

end TransferFunction.Binary64
