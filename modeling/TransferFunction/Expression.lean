import TransferFunction.Program.Fold
import TransferFunction.Program.OperatorStack
import TransferFunction.Token.ExplicitForm
import TransferFunction.Token.Scan

/-! # Expressions

An expression is a compiled formula, or empty: what is kept when nothing compiles, so that nothing stale is evaluated.
-/

namespace TransferFunction

structure Expression where
  program : Option Program
deriving BEq

namespace Expression

def empty : Expression := ⟨none⟩

def isEmpty (e : Expression) : Bool := e.program.isNone

/-- The folded program of a source text. -/
def programOf [Arithmetic] (x : Variable) (source : String) : Except CompileError Program := do
  let tokens ← Token.scan x source
  let explicit ← ExplicitForm.ofTokens tokens
  let program ← OperatorStack.programOf explicit
  return program.fold

def compile [Arithmetic] (x : Variable) (source : String) : Except CompileError Expression :=
  (⟨some ·⟩) <$> programOf x source

def eval [Arithmetic] (e : Expression) (v : ComplexFloat) : Except EvalError ComplexFloat :=
  match e.program with
  | some p => p.eval v
  | none => .error .noExpression

/-- The value at `j · omega`: for a transfer function its frequency response. -/
def frequencyResponse [Arithmetic] (e : Expression) (omega : Float) : Except EvalError ComplexFloat := e.eval ⟨0, omega⟩

end Expression

/-- Why a formula has no value at a point. -/
inductive Failure | compile (e : CompileError) | eval (e : EvalError) deriving DecidableEq

/-- Compiles a formula and evaluates it once. -/
def evalSource [Arithmetic] (x : Variable) (source : String) (v : ComplexFloat) : Except Failure ComplexFloat := do
  let e ← (Expression.compile x source).mapError .compile
  (e.eval v).mapError .eval

end TransferFunction
