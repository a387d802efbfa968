import TransferFunction.WhiteSpace

/-! # The free variable

A formula has one free variable, named by an ASCII letter. The letter `j` is taken by the imaginary unit.
-/

namespace TransferFunction

def imaginaryUnit : Char := 'j'

structure Variable where
  letter : Char
  isAlpha : letter.isAlpha = true
  ne_imaginaryUnit : letter ≠ imaginaryUnit
deriving DecidableEq

/-- The character that was refused as a variable. -/
structure InvalidVariable where
  char : Char
deriving DecidableEq

def InvalidVariable.message (e : InvalidVariable) : String :=
  "ConfigError: `" ++ e.char.toString ++ "` can not be used as the variable, expected an ASCII letter other than `" ++
    imaginaryUnit.toString ++ "`"

namespace Variable

/-- The letter `s`, the variable of a transfer function `W(s)`. -/
def standard : Variable := ⟨'s', by decide, by decide⟩

def ofChar (c : Char) : Except InvalidVariable Variable :=
  if h : c.isAlpha = true ∧ c ≠ imaginaryUnit then .ok ⟨c, h.1, h.2⟩ else .error ⟨c⟩

/-- The text of a variable is its letter, in any white space. Of a longer text the first character is refused, of an
empty one the blank. -/
def ofText (text : String) : Except InvalidVariable Variable :=
  match trimWhiteSpace text.toList with
  | [] => .error ⟨' '⟩
  | [c] => ofChar c
  | c :: _ => .error ⟨c⟩

def text (x : Variable) : String := x.letter.toString

end Variable
end TransferFunction
