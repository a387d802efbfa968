/-! # Complex numbers with double components

The components are rounded at every step, so the formulas fix the order of the operations. `==` compares components as
doubles do: a NaN differs from itself and the two zeros agree.
-/

namespace TransferFunction

structure ComplexFloat where
  re : Float
  im : Float
deriving BEq

namespace ComplexFloat

def ofReal (x : Float) : ComplexFloat := ⟨x, 0⟩

def i : ComplexFloat := ⟨0, 1⟩

instance : Add ComplexFloat := ⟨fun z w => ⟨z.re + w.re, z.im + w.im⟩⟩

instance : Sub ComplexFloat := ⟨fun z w => ⟨z.re - w.re, z.im - w.im⟩⟩

instance : Mul ComplexFloat := ⟨fun z w => ⟨z.re * w.re - z.im * w.im, z.re * w.im + z.im * w.re⟩⟩

/-- The square of the absolute value. -/
def normSq (z : ComplexFloat) : Float := z.re * z.re + z.im * z.im

instance : Div ComplexFloat := ⟨fun z w =>
  ⟨(z.re * w.re + z.im * w.im) / w.normSq, (z.im * w.re - z.re * w.im) / w.normSq⟩⟩

def inv (z : ComplexFloat) : ComplexFloat := ⟨z.re / z.normSq, -z.im / z.normSq⟩

end ComplexFloat
end TransferFunction
