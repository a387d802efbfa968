import Mathlib.Order.Bounds.Basic
import TransferFunction.Proofs.CheckedPrograms

/-! # How high the stack gets

The depth that the check records is the greatest height of the stack in a run, whatever the argument. Folding puts constants
in the place of subtrees, which makes no tree deeper. So the depth that a folded program keeps still bounds its runs: a stack
of this capacity never grows beyond it.
-/

namespace TransferFunction
open PartialFold

theorem Heights.greatest_of_step {h h' : Heights} {e : Element} (hle : h.current ≤ h.greatest)
    (hstep : h.step e = .ok h') : h'.greatest = max h'.current h.greatest := by
  cases e with
  | constant z | argument =>
    cases hstep
    exact Nat.max_comm _ _
  | operator op =>
    simp only [step] at hstep
    split at hstep
    · cases hstep
    · cases hstep
      exact (Nat.max_eq_right (Nat.le_trans (Nat.sub_le _ 1) hle)).symm

namespace Machine

variable [Arithmetic]

/-- The heights of the stack in a run at `v`: the one it starts with, and one behind each element that has been run. -/
def heights (v : ComplexFloat) (es : List Element) : Set Nat :=
  {n | ∃ part stack, part <+: es ∧ part.foldlM (step v) [] = .ok stack ∧ stack.length = n}

theorem heights_nil (v : ComplexFloat) : heights v [] = {0} := by
  ext n
  simp [heights, pure, Except.pure, eq_comm]

/-- One more element adds the height to which it leads. -/
theorem heights_concat {v : ComplexFloat} {es : List Element} {e : Element} {stack : List ComplexFloat}
    (h : (es ++ [e]).foldlM (step v) [] = .ok stack) :
    heights v (es ++ [e]) = insert stack.length (heights v es) := by
  ext n
  simp only [heights, List.prefix_concat_iff, Set.mem_insert_iff, Set.mem_ofPred_eq]
  constructor
  · rintro ⟨part, stack', rfl | hpart, hrun, rfl⟩
    · rw [h] at hrun
      cases hrun
      exact .inl rfl
    · exact .inr ⟨part, stack', hpart, hrun, rfl⟩
  · rintro (rfl | ⟨part, stack', hpart, hrun, hn⟩)
    · exact ⟨_, stack, .inl rfl, h, rfl⟩
    · exact ⟨part, stack', .inr hpart, hrun, hn⟩

/-- What the count says after the elements `read` is so of a run. -/
structure Tracks (v : ComplexFloat) (read : List Element) (h : Heights) : Prop where
  current : ∃ stack, read.foldlM (step v) [] = .ok stack ∧ Counted stack h
  greatest : IsGreatest (heights v read) h.greatest

theorem tracks_nil (v : ComplexFloat) : Tracks v [] .empty where
  current := ⟨[], rfl, counted_nil⟩
  greatest := by
    rw [heights_nil]
    exact isGreatest_singleton

theorem Tracks.step {v : ComplexFloat} {read : List Element} {h h' : Heights} {e : Element} (ht : Tracks v read h)
    (hstep : h.step e = .ok h') : Tracks v (read ++ [e]) h' := by
  obtain ⟨stack, hrun, hcounted⟩ := ht.current
  obtain ⟨stack', hstack, hcounted'⟩ := (hcounted.step v e).exists_ok hstep
  have hrun' : (read ++ [e]).foldlM (Machine.step v) [] = .ok stack' :=
    append_eq_ok.mpr ⟨stack, hrun, cons_eq_ok.mpr ⟨stack', hstack, rfl⟩⟩
  refine ⟨⟨stack', hrun', hcounted'⟩, ?_⟩
  have hle : h.current ≤ h.greatest := ht.greatest.2 ⟨read, stack, List.prefix_refl read, hrun, hcounted⟩
  rw [heights_concat hrun', hcounted', Heights.greatest_of_step hle hstep]
  exact ht.greatest.insert h'.current

theorem tracks_of_heights {es : List Element} {h : Heights} (hh : es.foldlM Heights.step .empty = .ok h)
    (v : ComplexFloat) : Tracks v es h :=
  PartialFold.invariant (fun ht hstep => ht.step hstep) [] (tracks_nil v) hh

theorem isGreatest_heights {es : List Element} {d : Nat} (h : Program.depthOf es = .ok d) (v : ComplexFloat) :
    IsGreatest (heights v es) d :=
  (tracks_of_heights (Program.heights_of_depthOf h) v).greatest

/-- A checked list runs on from each of its parts, and no stack on the way is higher than its depth. -/
theorem exists_stack_of_isPrefix {es part : List Element} {d : Nat} (h : Program.depthOf es = .ok d) (v : ComplexFloat)
    (hpart : part <+: es) : ∃ stack, part.foldlM (step v) [] = .ok stack ∧ stack.length ≤ d := by
  obtain ⟨rest, rfl⟩ := hpart
  obtain ⟨z, -, hrun⟩ := Program.run_of_depthOf v h
  obtain ⟨stack, hstack, -⟩ := append_eq_ok.mp hrun
  exact ⟨stack, hstack, (isGreatest_heights h v).2 ⟨part, stack, List.prefix_append part rest, hstack, rfl⟩⟩

end Machine

namespace Tree

/-- Every operand that waits on the stack needs an operator of its own later on. -/
theorem two_mul_depth_le (t : Tree) : 2 * t.depth ≤ t.elements.length + 1 := by
  induction t with
  | constant _ | argument => exact Nat.le_refl 2
  | node op l r ihl ihr =>
    have hl := one_le_depth l
    simp only [depth, elements, List.length_append, List.length_singleton]
    omega

theorem depth_fold_le [Arithmetic] (t : Tree) : t.fold.depth ≤ t.depth := by
  induction t with
  | constant _ | argument => exact Nat.le_refl 1
  | node op l r ihl ihr =>
    by_cases h : (∃ a, l.fold = .constant a) ∧ ∃ b, r.fold = .constant b
    · obtain ⟨⟨a, ha⟩, b, hb⟩ := h
      have hfold : (node op l r).fold = .constant (Arithmetic.compute op a b) := by simp [fold, ha, hb]
      rw [hfold]
      exact one_le_depth _
    · rw [fold_node_of_not_constant op h]
      simp only [depth]
      omega

end Tree

namespace Program

/-- The depth of a checked program is the greatest height of the stack in a run, and at most half of its elements, rounded
up. A folded program keeps the depth. Its elements still pass the check, which finds no larger depth for them, and at every
step of a run the stack stays within the depth that was kept. -/
theorem depth_bounds_stack [Arithmetic] {es : List Element} {p : Program} (h : ofElements es = .ok p) (v : ComplexFloat) :
    IsGreatest (Machine.heights v p.elements) p.depth ∧ p.depth ≤ (p.length + 1) / 2 ∧ p.fold.depth = p.depth ∧
      (∃ q, ofElements p.fold.elements = .ok q ∧ q.depth ≤ p.fold.depth) ∧
      ∀ part, part <+: p.fold.elements →
        ∃ stack, part.foldlM (Machine.step v) [] = .ok stack ∧ stack.length ≤ p.fold.depth := by
  obtain ⟨t, rfl, rfl⟩ := exists_tree_of_ofElements h
  have hfold : (fold ⟨t.elements, t.depth⟩).elements = t.fold.elements := Tree.foldElements_elements t
  have hle : t.fold.depth ≤ (fold ⟨t.elements, t.depth⟩).depth := t.depth_fold_le
  refine ⟨Machine.isGreatest_heights t.depthOf_elements v, ?_, rfl, ?_, ?_⟩
  · have hhalf := t.two_mul_depth_le
    simp only [length]
    omega
  · rw [hfold]
    exact ⟨_, ofElements_elements t.fold, hle⟩
  · intro part hpart
    rw [hfold] at hpart
    obtain ⟨stack, hstack, hlength⟩ := Machine.exists_stack_of_isPrefix t.fold.depthOf_elements v hpart
    exact ⟨stack, hstack, Nat.le_trans hlength hle⟩

/-- Four operands of `s + (j + j * j)` are on the stack at once. Folding leaves two, and the depth of four is kept. -/
theorem depth_bounds_nested_sum :
    IsGreatest (Machine.heights .i [.argument, .constant .i, .constant .i, .constant .i, .operator .mul, .operator .add,
      .operator .add]) 4 ∧
    ∃ q, ofElements [.argument, .constant (Operator.add.apply .i (Operator.mul.apply .i .i)), .operator .add] = .ok q ∧
      q.depth ≤ 4 := by
  have h : ofElements [.argument, .constant .i, .constant .i, .constant .i, .operator .mul, .operator .add, .operator .add] =
      .ok ⟨[.argument, .constant .i, .constant .i, .constant .i, .operator .mul, .operator .add, .operator .add], 4⟩ := rfl
  obtain ⟨hgreatest, -, -, hfolded, -⟩ := depth_bounds_stack h .i
  exact ⟨hgreatest, hfolded⟩

end Program
end TransferFunction
