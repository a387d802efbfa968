import TransferFunction.Program.Fold

/-! # Expression trees

What a program computes, with its structure in the open: the postfix listing of a tree is a program, the machine computes
the value of the tree, and the height of its stack is the depth of the tree. Folding replaces the subtrees without an
argument by their values.
-/

namespace TransferFunction

inductive Tree
  | constant (value : ComplexFloat)
  | argument
  | node (op : Operator) (left right : Tree)

namespace Tree

/-- A unary minus multiplies by `-1`. -/
def negation (t : Tree) : Tree := .node .sign (.constant ⟨-1, 0⟩) t

/-- The postfix listing. -/
def elements : Tree → List Element
  | .constant z => [.constant z]
  | .argument => [.argument]
  | .node op l r => l.elements ++ r.elements ++ [.operator op]

def eval [Arithmetic] (v : ComplexFloat) : Tree → ComplexFloat
  | .constant z => z
  | .argument => v
  | .node op l r => Arithmetic.compute op (l.eval v) (r.eval v)

/-- The right operand is computed while the value of the left one waits on the stack. -/
def depth : Tree → Nat
  | .constant _ | .argument => 1
  | .node _ l r => max l.depth (r.depth + 1)

def hasArgument : Tree → Bool
  | .constant _ => false
  | .argument => true
  | .node _ l r => l.hasArgument || r.hasArgument

def fold [Arithmetic] : Tree → Tree
  | .node op l r =>
    match l.fold, r.fold with
    | .constant a, .constant b => .constant (Arithmetic.compute op a b)
    | l, r => .node op l r
  | t => t

theorem foldlM_machine_elements [Arithmetic] (v : ComplexFloat) (t : Tree) (es : List Element) (stack : List ComplexFloat) :
    (t.elements ++ es).foldlM (Machine.step v) stack = es.foldlM (Machine.step v) (t.eval v :: stack) := by
  induction t generalizing es stack with
  | constant z => rfl
  | argument => rfl
  | node op l r ihl ihr =>
    simp only [elements, List.append_assoc]
    rw [ihl, ihr]
    rfl

theorem run_elements [Arithmetic] (v : ComplexFloat) (t : Tree) : Machine.run v t.elements = .ok (t.eval v) := by
  have h := foldlM_machine_elements v t [] []
  rw [List.append_nil] at h
  rw [Machine.run, h]
  rfl

theorem one_le_depth (t : Tree) : 1 ≤ t.depth := by
  induction t with
  | constant _ | argument => exact Nat.le_refl 1
  | node op l r ihl ihr => exact Nat.le_trans ihl (Nat.le_max_left _ _)

theorem foldlM_heights_elements (t : Tree) (es : List Element) (n g : Nat) (h : n ≤ g) :
    (t.elements ++ es).foldlM Heights.step ⟨n, g⟩ = es.foldlM Heights.step ⟨n + 1, max g (n + t.depth)⟩ := by
  induction t generalizing es n g with
  | constant z => rfl
  | argument => rfl
  | node op l r ihl ihr =>
    have hl := one_le_depth l
    simp only [elements, List.append_assoc]
    rw [ihl _ _ _ h, ihr _ _ _ (by omega)]
    have hm : max (max g (n + l.depth)) (n + 1 + r.depth) = max g (n + (Tree.node op l r).depth) := by
      simp only [depth]
      omega
    rw [hm]
    rfl

theorem depthOf_elements (t : Tree) : Program.depthOf t.elements = .ok t.depth := by
  have h := foldlM_heights_elements t [] 0 0 (Nat.le_refl 0)
  rw [List.append_nil] at h
  rw [Program.depthOf, Heights.empty, h]
  simp [bind, Except.bind, pure, Except.pure, Heights.finish]

/-- Behind the listings of two trees an operator meets constants only if both trees are constants. -/
theorem meets_listings_iff {op : Operator} {l r : Tree} {folded : List Element} :
    Program.Meets (.operator op) (r.elements.reverse ++ (l.elements.reverse ++ folded)) ↔
      (∃ a, l = .constant a) ∧ ∃ b, r = .constant b := by
  rw [Program.meets_operator_iff]
  cases r with
  | argument | node _ _ _ => simp [elements]
  | constant b =>
    cases l with
    | constant a | argument | node _ _ _ => simp [elements]

theorem fold_node_of_not_constant [Arithmetic] (op : Operator) {l r : Tree}
    (h : ¬((∃ a, l.fold = .constant a) ∧ ∃ b, r.fold = .constant b)) : (node op l r).fold = .node op l.fold r.fold := by
  simp only [fold]
  split
  · next a b ha hb => exact absurd ⟨⟨a, ha⟩, b, hb⟩ h
  · rfl

theorem foldl_foldStep_elements [Arithmetic] (t : Tree) (folded : List Element) :
    t.elements.foldl Program.foldStep folded = t.fold.elements.reverse ++ folded := by
  induction t generalizing folded with
  | constant z => rfl
  | argument => rfl
  | node op l r ihl ihr =>
    simp only [elements, List.foldl_append, ihl, ihr, List.foldl_cons, List.foldl_nil]
    by_cases h : (∃ a, l.fold = .constant a) ∧ ∃ b, r.fold = .constant b
    · obtain ⟨⟨a, ha⟩, b, hb⟩ := h
      simp [fold, ha, hb, elements, Program.foldStep]
    · rw [Program.foldStep_of_not_meets (mt meets_listings_iff.mp h), fold_node_of_not_constant op h]
      simp [elements]

theorem foldElements_elements [Arithmetic] (t : Tree) : Program.foldElements t.elements = t.fold.elements := by
  simp [Program.foldElements, foldl_foldStep_elements]

theorem eval_fold [Arithmetic] (v : ComplexFloat) (t : Tree) : t.fold.eval v = t.eval v := by
  induction t with
  | constant z => rfl
  | argument => rfl
  | node op l r ihl ihr =>
    simp only [fold, eval, ← ihl, ← ihr]
    split
    · next a b ha hb => simp [ha, hb, eval]
    · rfl

end Tree
end TransferFunction
