import TransferFunction.Program
import TransferFunction.Proofs.PartialFold

/-! # The count of the check and the stack of the machine

The check counts how high the stack is, the machine keeps the values on it. On any list, well-formed or not, the two go on
with equal heights and stop at the same element with the same error.
-/

namespace TransferFunction
open PartialFold

namespace Machine

/-- A stack is as high as the count says. -/
def Counted (stack : List ComplexFloat) (h : Heights) : Prop := stack.length = h.current

theorem Counted.step [Arithmetic] {stack : List ComplexFloat} {h : Heights} (hs : Counted stack h) (v : ComplexFloat) (e : Element) :
    Alike Counted (Machine.step v stack e) (h.step e) := by
  obtain ⟨current, greatest⟩ := h
  cases e with
  | constant z => exact .ok (congrArg (· + 1) hs)
  | argument => exact .ok (congrArg (· + 1) hs)
  | operator op =>
    -- the number of operands that are there decides
    match stack, hs with
    | [], hs =>
      cases hs
      exact .error _
    | [_], hs =>
      cases hs
      exact .error _
    | right :: left :: rest, hs =>
      cases hs
      exact .ok rfl

theorem Counted.foldlM [Arithmetic] {stack : List ComplexFloat} {h : Heights} (hs : Counted stack h) (v : ComplexFloat)
    (es : List Element) : Alike Counted (es.foldlM (Machine.step v) stack) (es.foldlM Heights.step h) :=
  Alike.foldlM (fun hst e => hst.step v e) es hs

theorem Counted.finish {stack : List ComplexFloat} {h : Heights} (hs : Counted stack h) :
    Alike (fun _ _ => True) (Machine.finish stack) h.finish := by
  obtain ⟨current, greatest⟩ := h
  match stack, hs with
  | [], hs =>
    cases hs
    exact .error _
  | [_], hs =>
    cases hs
    exact .ok trivial
  | _ :: _ :: _, hs =>
    cases hs
    exact .error _

theorem counted_nil : Counted [] .empty := rfl

/-- A run and the check of its elements fail alike, or both succeed. -/
theorem run_alike [Arithmetic] (v : ComplexFloat) (es : List Element) :
    Alike (fun _ _ => True) (run v es) (Program.depthOf es) :=
  (counted_nil.foldlM v es).bind Counted.finish

end Machine

namespace Program

theorem depthOf_of_ofElements {es : List Element} {p : Program} (h : ofElements es = .ok p) :
    depthOf es = .ok p.depth ∧ p.elements = es := by
  obtain ⟨d, hd, rfl⟩ := map_eq_ok.mp h
  exact ⟨hd, rfl⟩

/-- What the check has passed ends at height one. -/
theorem heights_of_depthOf {es : List Element} {d : Nat} (h : depthOf es = .ok d) :
    es.foldlM Heights.step .empty = .ok ⟨1, d⟩ := by
  obtain ⟨⟨current, greatest⟩, hh, hf⟩ := bind_eq_ok.mp h
  simp only [Heights.finish] at hf
  split at hf
  · next hone =>
    cases hf
    rw [hh, hone]
  · cases hf

end Program
end TransferFunction
