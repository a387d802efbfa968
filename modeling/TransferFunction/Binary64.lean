/-! # What a double stands for

A finite double is `± m · 2 ^ q` with natural `m` and integer `q`; `decode` gives the three from the bits. Everything that
needs the exact value of a double (its decimal digits, whether it is an integer, a rounded norm) starts from `decode`.
Powers of natural numbers are written `Nat.pow`, which means the same whatever is imported.
-/

namespace TransferFunction.Binary64

inductive Value
  | nan
  | infinite (negative : Bool)
  | finite (negative : Bool) (significand : Nat) (exponent : Int)
deriving DecidableEq

/-- One sign bit, eleven exponent bits, 52 fraction bits. The leading one of the significand is stored only for the
exponent field zero, where there is none. -/
def decode (x : Float) : Value :=
  let bits : Nat := x.toBits.toNat
  let negative : Bool := Nat.pow 2 63 ≤ bits
  let exponent : Nat := bits / Nat.pow 2 52 % Nat.pow 2 11
  let fraction : Nat := bits % Nat.pow 2 52
  if exponent = 2047 then
    if fraction = 0 then .infinite negative else .nan
  else if exponent = 0 then .finite negative fraction (-1074)
  else .finite negative (Nat.pow 2 52 + fraction) ((exponent : Int) - 1075)

/-- The integer that a double is, if it is one. -/
def integer? (x : Float) : Option Int :=
  match decode x with
  | .finite negative m q =>
    let signed (n : Nat) : Int := if negative then -n else n
    if 0 ≤ q then some (signed (m * Nat.pow 2 q.toNat))
    else if m % Nat.pow 2 (-q).toNat = 0 then some (signed (m / Nat.pow 2 (-q).toNat))
    else none
  | _ => none

def nan : Float := Float.ofBits 0x7FF8000000000000

def infinity : Float := Float.ofBits 0x7FF0000000000000

/-- The square root of `n · 2 ^ e`, rounded once to the nearest double. -/
def sqrtOf (n : Nat) (e : Int) : Float :=
  if h : 0 < n then
    ⟨Float.Model.pack (Float.Model.UnpackedFloat.sqrt Float.Model.Format.binary64 (.finite .positive n e h))⟩
  else 0

/-- The length of the vector `(x, y)`, rounded once. An infinite coordinate makes it infinite, whatever the other is. -/
def hypot (x y : Float) : Float :=
  match decode x, decode y with
  | .infinite _, _ | _, .infinite _ => infinity
  | .nan, _ | _, .nan => nan
  | .finite _ m p, .finite _ n q =>
    let r := min p q
    let a := m * Nat.pow 2 (p - r).toNat
    let b := n * Nat.pow 2 (q - r).toNat
    sqrtOf (a * a + b * b) (2 * r)

end TransferFunction.Binary64
