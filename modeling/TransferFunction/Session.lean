import TransferFunction.Expression

/-! # Editing sessions

Every edit compiles the source anew. A source that does not compile leaves the empty expression and its error.
-/

namespace TransferFunction

structure Session where
  argument : Variable
  source : String
  expression : Expression
  diagnostic : Option CompileError

/-- What is drawn of a frequency response `W(jt)`: its path in the plane, or one part of it against `t`. -/
inductive Curve | nyquist | real | imaginary deriving DecidableEq

def Curve.point (t : Float) (w : ComplexFloat) : Curve → Float × Float
  | .nyquist => (w.re, w.im)
  | .real => (t, w.re)
  | .imaginary => (t, w.im)

namespace Session

/-- The source that a session starts with. -/
def startingSource : String := "0"

/-- Puts `source` in the place of the old text and compiles it. The answer is the diagnostic of the new session. -/
def submit [Arithmetic] (s : Session) (source : String) : Session × Option CompileError :=
  let s := { s with source }
  let s := match Expression.compile s.argument s.source with
    | .ok e => { s with expression := e, diagnostic := none }
    | .error e => { s with expression := .empty, diagnostic := some e }
  (s, s.diagnostic)

def edit [Arithmetic] (s : Session) (source : String) : Session := (s.submit source).1

def start [Arithmetic] (x : Variable) : Session := edit ⟨x, "", .empty, none⟩ startingSource

/-- The point of a curve at `t`. Points that have no value or are not finite are left out. -/
def sample [Arithmetic] (s : Session) (curve : Curve) (t : Float) : Option (Float × Float) :=
  match s.expression.frequencyResponse t with
  | .ok w => some (curve.point t w) |>.filter fun p => p.1.isFinite && p.2.isFinite
  | .error _ => none

end Session
end TransferFunction
