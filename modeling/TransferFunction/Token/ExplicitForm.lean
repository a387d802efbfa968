import TransferFunction.CompileError
import TransferFunction.Token

/-! # The explicit form of a token list

In the explicit form operands and binary operators alternate inside balanced parentheses. Juxtaposed operands get the
operator that they imply: a power when the second one is a number, a product otherwise. A unary plus is dropped, a unary
minus becomes the number `-1` and the operator `sign`. What is inserted gets the offset of the token it stems from.
-/

namespace TransferFunction.ExplicitForm

/-- The tokens written so far, latest first, and the offsets of the parentheses still open, innermost first. -/
structure State where
  written : List Token
  unclosed : List Nat
deriving DecidableEq

namespace State

def start : State := ⟨[], []⟩

def push (s : State) (t : Token) : State := { s with written := t :: s.written }

/-- At the start, after an opening parenthesis and after an operator an operand has to follow. -/
def expectsOperand (s : State) : Bool := !s.written.head?.any Token.endsOperand

/-- Writes the first token of an operand, and before it the operator that its juxtaposition to another one implies. -/
def pushOperand (s : State) (implied : Operator) (t : Token) : State :=
  if s.expectsOperand then s.push t else (s.push ⟨.operator implied, t.offset⟩).push t

end State

/-- An operator at a place where an operand is expected: only the two signs are allowed. -/
def readSign (s : State) (op : Operator) (offset : Nat) : Except CompileError State :=
  match op with
  | .add => .ok s
  | .sub => .ok ((s.push ⟨.number (-1), offset⟩).push ⟨.operator .sign, offset⟩)
  | _ => .error ⟨offset, .noOperandBeforeOperator⟩

def step (s : State) (t : Token) : Except CompileError State :=
  match t.symbol with
  | .number _ => .ok (s.pushOperand .pow t)
  | .argument | .imaginaryUnit => .ok (s.pushOperand .mul t)
  | .opening => .ok { s.pushOperand .mul t with unclosed := t.offset :: s.unclosed }
  | .closing =>
    match s.unclosed with
    | [] => .error ⟨t.offset, .unmatchedClosing⟩
    | _ :: outer =>
      if s.expectsOperand then .error ⟨t.offset, .noOperandBeforeClosing⟩ else .ok ⟨t :: s.written, outer⟩
  | .operator op => if s.expectsOperand then readSign s op t.offset else .ok (s.push t)

/-- The end of the input: the last operand must be there and no parenthesis open. The outermost open one is reported. -/
def finish (s : State) : Except CompileError (List Token) :=
  match s.written with
  | [] => .error ⟨0, .empty⟩
  | ⟨.operator _, offset⟩ :: _ => .error ⟨offset, .noOperandAfterOperator⟩
  | _ => match s.unclosed.getLast? with
    | some offset => .error ⟨offset, .unclosed⟩
    | none => .ok s.written.reverse

def ofTokens (ts : List Token) : Except CompileError (List Token) := ts.foldlM step .start >>= finish

end TransferFunction.ExplicitForm
