import TransferFunction.Program.Fold
import TransferFunction.Proofs.StackHeights

/-! # Folding keeps what a program computes

A folded list runs as the list itself does, from the empty stack, at every argument. This is a simulation: after any number
of elements the folded part leaves the stack that the elements leave, so two constants at its end are the two values on top
of the stack.
-/

namespace TransferFunction
open PartialFold

namespace Machine

variable [Arithmetic]

/-- One more element, folded in or run, has the same effect on the stack. -/
theorem foldlM_foldStep (v : ComplexFloat) (folded : List Element) (e : Element) :
    (Program.foldStep folded e).reverse.foldlM (step v) [] = (folded.reverse ++ [e]).foldlM (step v) [] := by
  by_cases hmeets : Program.Meets e folded
  · obtain ⟨op, left, right, rest⟩ := hmeets
    -- both sides run `rest`; then one pushes the result, the other the operands and applies the operator
    simp only [Program.foldStep, List.reverse_cons, List.append_assoc, List.foldlM_append]
    rfl
  · rw [Program.foldStep_of_not_meets hmeets, List.reverse_cons]

theorem foldlM_foldl_foldStep (v : ComplexFloat) (es folded : List Element) :
    (es.foldl Program.foldStep folded).reverse.foldlM (step v) [] = (folded.reverse ++ es).foldlM (step v) [] := by
  induction es generalizing folded with
  | nil => rw [List.foldl_nil, List.append_nil]
  | cons e es ih =>
    rw [List.foldl_cons, ih, List.foldlM_append, foldlM_foldStep, ← List.foldlM_append, List.append_assoc,
      List.singleton_append]

/-- The stack after a list is the stack after what folding makes of it. -/
theorem foldlM_foldElements (v : ComplexFloat) (es : List Element) :
    (Program.foldElements es).foldlM (step v) [] = es.foldlM (step v) [] := by
  have h := foldlM_foldl_foldStep v es []
  rwa [List.reverse_nil, List.nil_append] at h

theorem run_foldElements (v : ComplexFloat) (es : List Element) : run v (Program.foldElements es) = run v es := by
  rw [run, foldlM_foldElements, run]

/-- Where folding finds two constants, a run of the plain list has the two values on top of its stack. -/
theorem exists_stack_of_foldl_eq {v : ComplexFloat} {es rest : List Element} {left right : ComplexFloat}
    {stack : List ComplexFloat} (hf : es.foldl Program.foldStep [] = .constant right :: .constant left :: rest)
    (hs : es.foldlM (step v) [] = .ok stack) : ∃ below, stack = right :: left :: below := by
  have h := foldlM_foldl_foldStep v es []
  rw [hf, List.reverse_nil, List.nil_append, hs, List.reverse_cons, List.reverse_cons, List.append_assoc,
    append_eq_ok] at h
  obtain ⟨below, -, hb⟩ := h
  exact ⟨below, (Except.ok.inj hb).symm⟩

end Machine

namespace Program

/-- A checked list runs to a value at every argument, and every part of it runs to a stack. -/
theorem run_of_depthOf [Arithmetic] (v : ComplexFloat) {es : List Element} {d : Nat} (h : depthOf es = .ok d) :
    ∃ z, Machine.run v es = .ok z ∧ es.foldlM (Machine.step v) [] = .ok [z] := by
  obtain ⟨stack, hs, hcounted⟩ := (Machine.counted_nil.foldlM v es).exists_ok (heights_of_depthOf h)
  obtain ⟨z, rfl⟩ := List.length_eq_one_iff.mp hcounted
  refine ⟨z, ?_, hs⟩
  rw [Machine.run, hs]
  rfl

/-- Folding keeps the value of a checked program at every argument. Where it replaces two constants and an operator, the
constants are the operands that the operator pops when the program is run as it stands. -/
theorem eval_fold_eq_eval [Arithmetic] {es : List Element} {p : Program} (h : ofElements es = .ok p) (v : ComplexFloat) :
    (∃ z, p.fold.eval v = .ok z ∧ p.eval v = .ok z) ∧
      ∀ before op after left right rest, es = before ++ .operator op :: after →
        before.foldl foldStep [] = .constant right :: .constant left :: rest →
          ∃ below, before.foldlM (Machine.step v) [] = .ok (right :: left :: below) := by
  obtain ⟨hd, rfl⟩ := depthOf_of_ofElements h
  obtain ⟨z, hz, hstack⟩ := run_of_depthOf v hd
  refine ⟨⟨z, ?_, hz⟩, ?_⟩
  · rw [eval, fold, Machine.run_foldElements, hz]
  · intro before op after left right rest he hf
    rw [he, append_eq_ok] at hstack
    obtain ⟨stack, hs, -⟩ := hstack
    obtain ⟨below, rfl⟩ := Machine.exists_stack_of_foldl_eq hf hs
    exact ⟨below, hs⟩

/-- In `x + j * j` the product is folded, and its operands lie above the argument on the stack. -/
theorem eval_fold_argument_add_square : ofElements [.argument, .constant .i, .constant .i, .operator .mul, .operator .add] =
      .ok ⟨[.argument, .constant .i, .constant .i, .operator .mul, .operator .add], 3⟩ ∧
    (∀ v, ∃ z, (fold ⟨[.argument, .constant .i, .constant .i, .operator .mul, .operator .add], 3⟩).eval v = .ok z ∧
      eval ⟨[.argument, .constant .i, .constant .i, .operator .mul, .operator .add], 3⟩ v = .ok z) ∧
    ∀ v, ∃ below, [.argument, .constant .i, .constant .i].foldlM (Machine.step v) [] = .ok (.i :: .i :: below) := by
  have h : ofElements [.argument, .constant .i, .constant .i, .operator .mul, .operator .add] =
      .ok ⟨[.argument, .constant .i, .constant .i, .operator .mul, .operator .add], 3⟩ := rfl
  refine ⟨h, fun v => (eval_fold_eq_eval h v).1, fun v => ?_⟩
  exact (eval_fold_eq_eval h v).2 [.argument, .constant .i, .constant .i] .mul [.operator .add] .i .i [.argument] rfl rfl

end Program
end TransferFunction
