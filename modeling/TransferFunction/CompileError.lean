import TransferFunction.Variable

/-! # Why a formula does not compile -/

namespace TransferFunction

/-- What is wrong with a source. -/
inductive Cause
  | secondSeparator
  | noDigits
  | invalidNumber (literal : String)
  | unexpectedCharacter (x : Variable)
  | unmatchedClosing
  | noOperandBeforeClosing
  | noOperandBeforeOperator
  | noOperandAfterOperator
  | unclosed
  | empty
  | invalid
deriving DecidableEq

/-- The two families of causes: single characters, and the order of the tokens. -/
inductive ErrorKind | lexical | structural deriving DecidableEq

/-- A cause and the byte offset of the character that it is about. -/
structure CompileError where
  offset : Nat
  cause : Cause
deriving DecidableEq

namespace ErrorKind

def text : ErrorKind → String
  | .lexical => "LexicalError"
  | .structural => "SyntaxError"

end ErrorKind

namespace Cause

def kind : Cause → ErrorKind
  | .secondSeparator | .noDigits | .invalidNumber _ | .unexpectedCharacter _ => .lexical
  | _ => .structural

def text : Cause → String
  | .secondSeparator => "more than one decimal point"
  | .noDigits => "digits expected before and/or after the point"
  | .invalidNumber literal => "invalid number " ++ literal
  | .unexpectedCharacter x =>
    "expected a number, the variable `" ++ x.text ++ "`, the imaginary unit `" ++ imaginaryUnit.toString ++
      "`, a parenthesis or an operator"
  | .unmatchedClosing => "unmatched closing parenthesis"
  | .noOperandBeforeClosing => "expected operand before closing parenthesis"
  | .noOperandBeforeOperator => "expected operand before operator"
  | .noOperandAfterOperator => "expected operand after operator"
  | .unclosed => "parenthesis not closed"
  | .empty => "empty expression"
  | .invalid => "invalid expression"

end Cause

namespace CompileError

def kind (e : CompileError) : ErrorKind := e.cause.kind

def message (e : CompileError) : String :=
  e.kind.text ++ ": " ++ e.cause.text ++ " (at offset " ++ toString e.offset ++ ")"

end CompileError
end TransferFunction
