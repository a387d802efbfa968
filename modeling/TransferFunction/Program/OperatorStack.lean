import TransferFunction.CompileError
import TransferFunction.Program
import TransferFunction.Token

/-! # From tokens to postfix

Operands go straight to the output. Operators and opening parentheses wait on a stack, from which an operator is released
to the output by the next one that binds no tighter.
-/

namespace TransferFunction.OperatorStack

inductive Pending | operator (op : Operator) | opening (offset : Nat) deriving DecidableEq

/-- The output, latest element first, and what waits, latest first. -/
structure State where
  output : List Element
  pending : List Pending

def State.start : State := ⟨[], []⟩

/-- Whether `incoming` lets `waiting` go first: it binds less tightly, or equally and groups to the left. -/
def yields (incoming waiting : Operator) : Bool :=
  incoming.precedence < waiting.precedence ||
    (incoming.precedence == waiting.precedence && incoming.isLeftAssociative)

/-- Releases the operators to which `op` yields, and lets `op` wait. -/
def pushOperator (op : Operator) (output : List Element) : List Pending → State
  | .operator waiting :: rest =>
    if yields op waiting then pushOperator op (.operator waiting :: output) rest
    else ⟨output, .operator op :: .operator waiting :: rest⟩
  | rest => ⟨output, .operator op :: rest⟩

/-- Releases the operators down to the innermost opening parenthesis, and drops that. -/
def close (offset : Nat) (output : List Element) : List Pending → Except CompileError State
  | .operator waiting :: rest => close offset (.operator waiting :: output) rest
  | .opening _ :: rest => .ok ⟨output, rest⟩
  | [] => .error ⟨offset, .invalid⟩

def step (s : State) (t : Token) : Except CompileError State :=
  match t.symbol with
  | .number value => .ok { s with output := .constant (.ofReal value) :: s.output }
  | .imaginaryUnit => .ok { s with output := .constant .i :: s.output }
  | .argument => .ok { s with output := .argument :: s.output }
  | .operator op => .ok (pushOperator op s.output s.pending)
  | .opening => .ok { s with pending := .opening t.offset :: s.pending }
  | .closing => close t.offset s.output s.pending

/-- Releases all operators. A parenthesis that still waits was never closed. -/
def release (output : List Element) : List Pending → Except CompileError (List Element)
  | .operator waiting :: rest => release (.operator waiting :: output) rest
  | .opening offset :: _ => .error ⟨offset, .invalid⟩
  | [] => .ok output.reverse

/-- The elements in postfix order. -/
def postfixOf (ts : List Token) : Except CompileError (List Element) := do
  let s ← ts.foldlM step .start
  release s.output s.pending

/-- The program of a token list. Lists that are not in explicit form may order to no program at all. -/
def programOf (ts : List Token) : Except CompileError Program := do
  match Program.ofElements (← postfixOf ts) with
  | .ok p => .ok p
  | .error _ => .error ⟨0, .invalid⟩

end TransferFunction.OperatorStack
