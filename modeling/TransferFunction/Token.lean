import TransferFunction.Decimal.Shortest
import TransferFunction.Operator
import TransferFunction.Variable

/-! # Tokens

A token is a symbol and the byte offset in the source at which it was written.
-/

namespace TransferFunction

inductive Symbol
  | number (value : Float)
  | argument
  | imaginaryUnit
  | opening
  | closing
  | operator (op : Operator)
deriving DecidableEq

structure Token where
  symbol : Symbol
  offset : Nat
deriving DecidableEq

namespace Symbol

/-- An operand starts with a value or an opening parenthesis. -/
def startsOperand : Symbol → Bool
  | .number _ | .argument | .imaginaryUnit | .opening => true
  | .closing | .operator _ => false

/-- An operand ends with a value or a closing parenthesis. -/
def endsOperand : Symbol → Bool
  | .number _ | .argument | .imaginaryUnit | .closing => true
  | .opening | .operator _ => false

def text : Symbol → String
  | .number value => Binary64.text value
  | .argument => "<var>"
  | .imaginaryUnit => TransferFunction.imaginaryUnit.toString
  | .opening => "("
  | .closing => ")"
  | .operator op => op.text

end Symbol

namespace Token

def startsOperand (t : Token) : Bool := t.symbol.startsOperand

def endsOperand (t : Token) : Bool := t.symbol.endsOperand

end Token
end TransferFunction
