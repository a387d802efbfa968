import TransferFunction.Decimal.Reading

/-! # Numerals

A numeral is a run of digits with at most one separator in it, a point or a comma; there is a digit on one side of it at
least. It is read as the decimal with a point for the separator.
-/

namespace TransferFunction

structure Numeral where
  whole : List Char
  fraction : Option (List Char)
deriving DecidableEq

namespace Numeral

def isSeparator (c : Char) : Bool := c == '.' || c == ','

def isStart (c : Char) : Bool := c.isDigit || isSeparator c

/-- Why a text that starts like a numeral is none. -/
inductive Fault
  /-- A second separator, after so many characters. -/
  | secondSeparator (position : Nat)
  | noDigits
deriving DecidableEq

/-- How many characters the numeral takes. -/
def length (n : Numeral) : Nat := n.whole.length + (n.fraction.map (·.length + 1)).getD 0

/-- The longest numeral at the start of `cs`. -/
def read (cs : List Char) : Except Fault Numeral :=
  let whole := cs.takeWhile Char.isDigit
  match cs.dropWhile Char.isDigit with
  | [] => .ok ⟨whole, none⟩
  | c :: rest =>
    if isSeparator c then
      let fraction := rest.takeWhile Char.isDigit
      if (rest.dropWhile Char.isDigit).head?.any isSeparator then
        .error (.secondSeparator (whole.length + 1 + fraction.length))
      else if whole.isEmpty && fraction.isEmpty then .error .noDigits
      else .ok ⟨whole, some fraction⟩
    else .ok ⟨whole, none⟩

/-- The numeral with a point for its separator. -/
def literal (n : Numeral) : String := String.ofList (n.whole ++ (n.fraction.map ('.' :: ·)).getD [])

/-- A row of characters without a digit stands for no number. -/
def value? (n : Numeral) : Option Float := Binary64.ofText? n.literal.toList

end Numeral
end TransferFunction
