import TransferFunction.CompileError
import TransferFunction.Decimal.Numeral
import TransferFunction.Token

/-! # From characters to tokens

Gaps are skipped, each symbol takes one character and a numeral as many as it can. Every character of a gap or a token is
one byte long, so that counting characters counts bytes.
-/

namespace TransferFunction.Token

/-- Blanks and control characters separate tokens. -/
def isGap (c : Char) : Bool := c ≤ ' '

/-- The symbol of a single character. -/
def symbol? (x : Variable) (c : Char) : Option Symbol :=
  match c with
  | '(' => some .opening
  | ')' => some .closing
  | '+' => some (.operator .add)
  | '-' => some (.operator .sub)
  | '*' => some (.operator .mul)
  | '/' => some (.operator .div)
  | '^' => some (.operator .pow)
  | _ => if c = x.letter then some .argument else if c = imaginaryUnit then some .imaginaryUnit else none

/-- The error for a numeral that starts at `offset`. -/
def numeralError (offset : Nat) : Numeral.Fault → CompileError
  | .secondSeparator position => ⟨offset + position, .secondSeparator⟩
  | .noDigits => ⟨offset, .noDigits⟩

/-- The tokens of `cs`, whose first character stands at `offset`. -/
def scanFrom (x : Variable) (offset : Nat) : List Char → Except CompileError (List Token)
  | [] => .ok []
  | c :: cs =>
    if isGap c then scanFrom x (offset + 1) cs
    else if Numeral.isStart c then
      match Numeral.read (c :: cs) with
      | .error fault => .error (numeralError offset fault)
      | .ok n => match n.value? with
        | some value => (⟨.number value, offset⟩ :: ·) <$> scanFrom x (offset + n.length) (cs.drop (n.length - 1))
        | none => .error ⟨offset, .invalidNumber n.literal⟩
    else match symbol? x c with
      | some s => (⟨s, offset⟩ :: ·) <$> scanFrom x (offset + 1) cs
      | none => .error ⟨offset, .unexpectedCharacter x⟩
termination_by cs => cs.length

def scan (x : Variable) (source : String) : Except CompileError (List Token) := scanFrom x 0 source.toList

end TransferFunction.Token
