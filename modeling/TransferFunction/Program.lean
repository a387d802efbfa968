import TransferFunction.ComplexFloat.Text
import TransferFunction.Operator

/-! # Postfix programs

A program lists operands before their operator, for a machine with a stack of values. Whether every operator finds its two
operands and one value is left at the end is checked beforehand, from the heights of the stack alone.
-/

namespace TransferFunction

inductive Element
  | constant (value : ComplexFloat)
  | argument
  | operator (op : Operator)
deriving BEq

inductive EvalError
  /-- An operator found so many operands only. -/
  | underflow (operands : Nat)
  /-- So many values were left, not one. -/
  | leftover (values : Nat)
  | noExpression
deriving DecidableEq

def EvalError.message : EvalError → String
  | .underflow n => "evaluation error: operator applied to " ++ toString n ++ " operand(s)"
  | .leftover n => "evaluation error: " ++ toString n ++ " value(s) left on the stack"
  | .noExpression => "evaluation error: no expression"

/-- The elements and the greatest height that the stack of values reaches. -/
structure Program where
  elements : List Element
  depth : Nat
deriving BEq

namespace Element

/-- A real constant is written as its real part, any other one in parentheses. -/
def text : Element → String
  | .constant z => if z.im == 0 then Binary64.text z.re else "(" ++ z.text ++ ")"
  | .argument => "<var>"
  | .operator op => op.text

end Element

/-- The height of the stack, and the greatest one so far. -/
structure Heights where
  current : Nat
  greatest : Nat
deriving DecidableEq

namespace Heights

def empty : Heights := ⟨0, 0⟩

def step (h : Heights) : Element → Except EvalError Heights
  | .constant _ | .argument => .ok ⟨h.current + 1, max h.greatest (h.current + 1)⟩
  | .operator _ => if h.current < 2 then .error (.underflow h.current) else .ok ⟨h.current - 1, h.greatest⟩

def finish (h : Heights) : Except EvalError Nat :=
  if h.current = 1 then .ok h.greatest else .error (.leftover h.current)

end Heights

namespace Machine

/-- One element on a stack of values, the top first. The top is the right operand. -/
def step [Arithmetic] (v : ComplexFloat) (stack : List ComplexFloat) : Element → Except EvalError (List ComplexFloat)
  | .constant z => .ok (z :: stack)
  | .argument => .ok (v :: stack)
  | .operator op =>
    match stack with
    | right :: left :: rest => .ok (Arithmetic.compute op left right :: rest)
    | rest => .error (.underflow rest.length)

def finish : List ComplexFloat → Except EvalError ComplexFloat
  | [z] => .ok z
  | stack => .error (.leftover stack.length)

/-- Runs any list of elements, checked or not, at the argument `v`. -/
def run [Arithmetic] (v : ComplexFloat) (es : List Element) : Except EvalError ComplexFloat :=
  es.foldlM (step v) [] >>= finish

end Machine

namespace Program

/-- The depth of a list of elements that is a program. -/
def depthOf (es : List Element) : Except EvalError Nat := es.foldlM Heights.step .empty >>= Heights.finish

def ofElements (es : List Element) : Except EvalError Program := (⟨es, ·⟩) <$> depthOf es

def length (p : Program) : Nat := p.elements.length

def isEmpty (p : Program) : Bool := p.elements.isEmpty

def eval [Arithmetic] (p : Program) (v : ComplexFloat) : Except EvalError ComplexFloat := Machine.run v p.elements

/-- The value of a program that is a single constant. -/
def constant? (p : Program) : Option ComplexFloat :=
  match p.elements with
  | [.constant z] => some z
  | _ => none

def text (p : Program) : String := " ".intercalate (p.elements.map Element.text)

end Program
end TransferFunction
