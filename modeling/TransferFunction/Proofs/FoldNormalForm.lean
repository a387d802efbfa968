import TransferFunction.Proofs.CheckedPrograms

/-! # The normal form of folding

One pass folds all that can be folded: no operator is left behind two constants, so a second pass finds nothing to do. What
becomes of a single element is told by a mark that it carries through the pass. An operator stays exactly if the argument
occurs in the listing that it ends, and every argument stays, so a program without one becomes a single constant.
-/

namespace TransferFunction
open PartialFold

def Element.isArgument : Element → Bool
  | .argument => true
  | .constant _ | .operator _ => false

namespace Program

theorem not_meets_argument (folded : List Element) : ¬Meets .argument folded := nofun

theorem not_meets_constant (z : ComplexFloat) (folded : List Element) : ¬Meets (.constant z) folded := nofun

/-- No operator stands directly behind two constants. -/
def Settled (es : List Element) : Prop :=
  ∀ left right op, ¬[.constant left, .constant right, .operator op] <:+: es

theorem settled_nil : Settled [] := by simp [Settled]

theorem settled_reverse_cons {e : Element} {folded : List Element} :
    Settled (e :: folded).reverse ↔ ¬Meets e folded ∧ Settled folded.reverse := by
  -- read from the end the three elements are those that an operator meets
  have hreverse (left right : ComplexFloat) (op : Operator) (xs : List Element) :
      [.constant left, .constant right, .operator op] <:+: xs.reverse ↔
        [.operator op, .constant right, .constant left] <:+: xs := by
    rw [← List.reverse_infix]
    simp
  simp only [Settled, hreverse, List.infix_cons_iff, not_or]
  constructor
  · intro h
    refine ⟨?_, fun left right op => (h left right op).2⟩
    rintro ⟨op, left, right, rest⟩
    exact (h left right op).1 ⟨rest, rfl⟩
  · rintro ⟨hmeets, hfolded⟩ left right op
    refine ⟨?_, hfolded left right op⟩
    rintro ⟨rest, heq⟩
    cases heq
    exact hmeets (.operands op left right rest)

theorem exists_operands_of_meets {folded : List (Element × Bool)} {e : Element × Bool}
    (h : Meets e.1 (folded.map Prod.fst)) : ∃ op mark left leftMark right rightMark rest,
      e = (.operator op, mark) ∧ folded = (.constant right, rightMark) :: (.constant left, leftMark) :: rest := by
  obtain ⟨e, mark⟩ := e
  match folded with
  | [] => cases h
  | [(_, _)] => cases h
  | (a, rightMark) :: (b, leftMark) :: rest =>
    cases h with
    | operands op left right _ => exact ⟨op, mark, left, leftMark, right, rightMark, rest, rfl, rfl⟩

variable [Arithmetic]

theorem settled_foldStep {folded : List Element} (h : Settled folded.reverse) (e : Element) :
    Settled (foldStep folded e).reverse := by
  by_cases hmeets : Meets e folded
  · obtain ⟨op, left, right, rest⟩ := hmeets
    have hleft : Settled (.constant left :: rest).reverse := (settled_reverse_cons.mp h).2
    have hrest : Settled rest.reverse := (settled_reverse_cons.mp hleft).2
    exact settled_reverse_cons.mpr ⟨not_meets_constant _ rest, hrest⟩
  · rw [foldStep_of_not_meets hmeets]
    exact settled_reverse_cons.mpr ⟨hmeets, h⟩

theorem settled_foldl_foldStep (es : List Element) {folded : List Element} (h : Settled folded.reverse) :
    Settled (es.foldl foldStep folded).reverse := by
  induction es generalizing folded with
  | nil => exact h
  | cons e es ih => exact ih (settled_foldStep h e)

theorem settled_foldElements (es : List Element) : Settled (foldElements es) :=
  settled_foldl_foldStep es settled_nil

theorem foldl_foldStep_of_settled {folded es : List Element} (h : Settled (folded.reverse ++ es)) :
    es.foldl foldStep folded = es.reverse ++ folded := by
  induction es generalizing folded with
  | nil => rfl
  | cons e es ih =>
    have hnext : Settled ((e :: folded).reverse ++ es) := by simpa using h
    have hpart : Settled (e :: folded).reverse := fun left right op hpart =>
      hnext left right op (hpart.trans (List.prefix_append _ es).isInfix)
    have hstep : foldStep folded e = e :: folded := foldStep_of_not_meets (settled_reverse_cons.mp hpart).1
    rw [List.foldl_cons, hstep, ih hnext]
    simp

theorem foldElements_of_settled {es : List Element} (h : Settled es) : foldElements es = es := by
  have hfold : es.foldl foldStep [] = es.reverse ++ [] := foldl_foldStep_of_settled h
  simp [foldElements, hfold]

theorem countP_isArgument_foldStep (folded : List Element) (e : Element) :
    (foldStep folded e).countP Element.isArgument = (e :: folded).countP Element.isArgument := by
  by_cases hmeets : Meets e folded
  · obtain ⟨op, left, right, rest⟩ := hmeets
    simp [foldStep, Element.isArgument]
  · rw [foldStep_of_not_meets hmeets]

theorem countP_isArgument_foldl_foldStep (es folded : List Element) :
    (es.foldl foldStep folded).countP Element.isArgument =
      folded.countP Element.isArgument + es.countP Element.isArgument := by
  induction es generalizing folded with
  | nil => simp
  | cons e es ih =>
    rw [List.foldl_cons, ih, countP_isArgument_foldStep, List.countP_cons, List.countP_cons]
    omega

/-- `foldStep` on elements that may carry a mark. The constant that takes the place of an operator carries none. -/
def markedFoldStep (folded : List (Element × Bool)) (e : Element × Bool) : List (Element × Bool) :=
  match e, folded with
  | (.operator op, _), (.constant right, _) :: (.constant left, _) :: rest =>
    (.constant (Arithmetic.compute op left right), false) :: rest
  | e, folded => e :: folded

/-- What folding makes of a list, with a mark on its element `e` between `before` and `after`. -/
def followed (before : List Element) (e : Element) (after : List Element) : List (Element × Bool) :=
  ((before.map (·, false) ++ (e, true) :: after.map (·, false)).foldl markedFoldStep []).reverse

/-- The element `e` between `before` and `after` is still there when the list is folded. -/
def Survives (before : List Element) (e : Element) (after : List Element) : Prop := (e, true) ∈ followed before e after

theorem markedFoldStep_of_not_meets {folded : List (Element × Bool)} {e : Element × Bool}
    (h : ¬Meets e.1 (folded.map Prod.fst)) : markedFoldStep folded e = e :: folded := by
  unfold markedFoldStep
  split
  · next op _ right _ left _ rest => exact absurd (.operands op left right _) h
  · rfl

/-- Marks do not take part in folding. -/
theorem map_fst_markedFoldStep (folded : List (Element × Bool)) (e : Element × Bool) :
    (markedFoldStep folded e).map Prod.fst = foldStep (folded.map Prod.fst) e.1 := by
  by_cases hmeets : Meets e.1 (folded.map Prod.fst)
  · obtain ⟨op, mark, left, leftMark, right, rightMark, rest, rfl, rfl⟩ := exists_operands_of_meets hmeets
    rfl
  · rw [markedFoldStep_of_not_meets hmeets, foldStep_of_not_meets hmeets, List.map_cons]

theorem map_fst_foldl_markedFoldStep (es folded : List (Element × Bool)) :
    (es.foldl markedFoldStep folded).map Prod.fst = (es.map Prod.fst).foldl foldStep (folded.map Prod.fst) := by
  induction es generalizing folded with
  | nil => rfl
  | cons e es ih => rw [List.foldl_cons, ih, map_fst_markedFoldStep, List.map_cons, List.foldl_cons]

theorem map_fst_followed (before : List Element) (e : Element) (after : List Element) :
    (followed before e after).map Prod.fst = foldElements (before ++ e :: after) := by
  rw [followed, List.map_reverse, map_fst_foldl_markedFoldStep]
  simp [foldElements, Function.comp_def]

/-- No mark comes from nothing. -/
theorem foldl_markedFoldStep_unmarked (es folded : List Element) :
    (es.map (·, false)).foldl markedFoldStep (folded.map (·, false)) = (es.foldl foldStep folded).map (·, false) := by
  induction es generalizing folded with
  | nil => rfl
  | cons e es ih =>
    have hstep : markedFoldStep (folded.map (·, false)) (e, false) = (foldStep folded e).map (·, false) := by
      by_cases hmeets : Meets e folded
      · obtain ⟨op, left, right, rest⟩ := hmeets
        rfl
      · rw [foldStep_of_not_meets hmeets, markedFoldStep_of_not_meets (by simpa [Function.comp_def] using hmeets),
          List.map_cons]
    rw [List.map_cons, List.foldl_cons, hstep, ih, List.foldl_cons]

/-- What has been written stays, constants apart. -/
theorem mem_foldl_markedFoldStep {e : Element} (he : ∀ z, e ≠ .constant z) {mark : Bool}
    (es : List (Element × Bool)) {folded : List (Element × Bool)} (h : (e, mark) ∈ folded) :
    (e, mark) ∈ es.foldl markedFoldStep folded := by
  induction es generalizing folded with
  | nil => exact h
  | cons x es ih =>
    apply ih
    by_cases hmeets : Meets x.1 (folded.map Prod.fst)
    · obtain ⟨op, _, left, _, right, _, rest, rfl, rfl⟩ := exists_operands_of_meets hmeets
      have hrest : (e, mark) ∈ rest := by simpa [he] using h
      exact List.mem_cons_of_mem _ hrest
    · rw [markedFoldStep_of_not_meets hmeets]
      exact List.mem_cons_of_mem _ h

/-- An operator or an argument survives unless it meets its operands as constants. -/
theorem survives_iff {before : List Element} {e : Element} {after : List Element} (he : ∀ z, e ≠ .constant z) :
    Survives before e after ↔ ¬Meets e (before.foldl foldStep []) := by
  have hbefore : (before.map (·, false)).foldl markedFoldStep [] = (before.foldl foldStep []).map (·, false) :=
    foldl_markedFoldStep_unmarked before []
  rw [Survives, followed, List.mem_reverse, List.foldl_append, hbefore, List.foldl_cons]
  generalize before.foldl foldStep [] = folded
  constructor
  · rintro h ⟨op, left, right, rest⟩
    -- the constant in the place of the operator has no mark, nor has anything else
    have hstep : markedFoldStep ((.constant right :: .constant left :: rest).map (·, false)) (.operator op, true) =
        (.constant (Arithmetic.compute op left right) :: rest).map (·, false) := rfl
    rw [hstep, foldl_markedFoldStep_unmarked] at h
    simp at h
  · intro hmeets
    have hmarked : ¬Meets (e, true).1 ((folded.map (·, false)).map Prod.fst) := by
      simpa [Function.comp_def] using hmeets
    rw [markedFoldStep_of_not_meets hmarked]
    exact mem_foldl_markedFoldStep he _ List.mem_cons_self

end Program

namespace Tree
open Program

theorem argument_mem_elements {t : Tree} : .argument ∈ t.elements ↔ t.hasArgument = true := by
  induction t with
  | constant z => simp [elements, hasArgument]
  | argument => simp [elements, hasArgument]
  | node op l r ihl ihr => simp [elements, hasArgument, ihl, ihr]

theorem constant?_eq_some_iff {t : Tree} {d : Nat} {z : ComplexFloat} :
    (⟨t.elements, d⟩ : Program).constant? = some z ↔ t = .constant z := by
  constructor
  · intro h
    simp only [constant?] at h
    split at h
    · next w hw =>
      cases h
      exact elements_injective hw
    · cases h
  · rintro rfl
    rfl

variable [Arithmetic]

theorem exists_fold_eq_constant_iff {t : Tree} : (∃ z, t.fold = .constant z) ↔ t.hasArgument = false := by
  induction t with
  | constant z => simp [fold, hasArgument]
  | argument => simp [fold, hasArgument]
  | node op l r ihl ihr =>
    rw [hasArgument, Bool.or_eq_false_iff, ← ihl, ← ihr]
    by_cases h : (∃ a, l.fold = .constant a) ∧ ∃ b, r.fold = .constant b
    · obtain ⟨⟨a, ha⟩, b, hb⟩ := h
      simp [fold, ha, hb]
    · rw [fold_node_of_not_constant op h]
      simp [h]

/-- An operator meets its operands as constants exactly if the argument does not occur in them. -/
theorem meets_operands_iff (op : Operator) (l r : Tree) (front : List Element) :
    Meets (.operator op) ((front ++ l.elements ++ r.elements).foldl foldStep []) ↔
      (node op l r).hasArgument = false := by
  rw [List.foldl_append, List.foldl_append, foldl_foldStep_elements, foldl_foldStep_elements, meets_listings_iff,
    exists_fold_eq_constant_iff, exists_fold_eq_constant_iff, hasArgument, Bool.or_eq_false_iff]

end Tree

namespace Program

/-- Every operator of a checked list ends the listing of a tree. -/
theorem exists_listing_of_operator {before after : List Element} {op : Operator} {p : Program}
    (h : ofElements (before ++ .operator op :: after) = .ok p) :
    ∃ (front : List Element) (l r : Tree), before = front ++ l.elements ++ r.elements := by
  obtain ⟨hd, -⟩ := depthOf_of_ofElements h
  obtain ⟨heights, hbefore, hrest⟩ := append_eq_ok.mp (heights_of_depthOf hd)
  obtain ⟨_, hstep, -⟩ := cons_eq_ok.mp hrest
  obtain ⟨ts, hlength, rfl⟩ := Tree.exists_listings_of_heights hbefore
  have htwo : 2 ≤ ts.length := by
    rw [hlength]
    by_contra hlt
    simp [Heights.step, Nat.lt_of_not_le hlt] at hstep
  rcases ts with _ | ⟨r, _ | ⟨l, rest⟩⟩
  · simp at htwo
  · simp at htwo
  · exact ⟨Tree.listings rest, l, r, by simp⟩

/-- Folding leaves no operator behind two constants, so it is complete after one pass. Followed through the pass, an operator
survives exactly if the argument occurs in the listing that it ends, and all arguments survive. A single constant is left
exactly if there are none, and it is the value at every point. -/
theorem fold_normal_form [Arithmetic] {es : List Element} {p : Program} (h : ofElements es = .ok p) :
    Settled p.fold.elements ∧ p.fold.fold = p.fold ∧
      (∀ before e after, p.elements = before ++ e :: after →
        (followed before e after).map Prod.fst = p.fold.elements) ∧
      (∀ before op after, p.elements = before ++ .operator op :: after →
        ∃ (front : List Element) (t : Tree), before ++ [.operator op] = front ++ t.elements ∧
          (Survives before (.operator op) after ↔ .argument ∈ t.elements)) ∧
      (∀ before after, p.elements = before ++ .argument :: after → Survives before .argument after) ∧
      p.fold.elements.countP Element.isArgument = p.elements.countP Element.isArgument ∧
      ((∃ z, p.fold.constant? = some z) ↔ .argument ∉ p.elements) ∧
      ∀ z, p.fold.constant? = some z → ∀ v, p.eval v = .ok z := by
  obtain ⟨t, rfl, rfl⟩ := exists_tree_of_ofElements h
  have hsettled : Settled (foldElements t.elements) := settled_foldElements t.elements
  have hconstant {z : ComplexFloat} : (fold ⟨t.elements, t.depth⟩).constant? = some z ↔ t.fold = .constant z := by
    rw [fold, Tree.foldElements_elements, Tree.constant?_eq_some_iff]
  refine ⟨hsettled, ?twice, ?marks, ?operators, ?arguments, ?count, ?single, ?value⟩
  case twice => simp [fold, foldElements_of_settled hsettled]
  case marks =>
    intro before e after he
    rw [map_fst_followed, ← he]
    rfl
  case operators =>
    intro before op after he
    have hchecked : ofElements (before ++ .operator op :: after) = .ok ⟨t.elements, t.depth⟩ := he ▸ h
    obtain ⟨front, l, r, rfl⟩ := exists_listing_of_operator hchecked
    refine ⟨front, .node op l r, by simp [Tree.elements], ?_⟩
    rw [survives_iff (by simp), Tree.meets_operands_iff, Tree.argument_mem_elements, Bool.not_eq_false]
  case arguments =>
    intro before after _
    exact (survives_iff (by simp)).mpr (not_meets_argument _)
  case count => simp [fold, foldElements, countP_isArgument_foldl_foldStep]
  case single =>
    simp only [hconstant, Tree.exists_fold_eq_constant_iff, Tree.argument_mem_elements, Bool.not_eq_true]
  case value =>
    intro z hz v
    have heval : Tree.eval v t = z := by rw [← Tree.eval_fold, hconstant.mp hz, Tree.eval]
    rw [← heval]
    exact Tree.run_elements v t

/-- In `s + j * j` the product goes, and the sum stays. -/
theorem survives_sum : Survives [.argument, .constant .i, .constant .i, .operator .mul] (.operator .add) [] ∧
    ¬Survives [.argument, .constant .i, .constant .i] (.operator .mul) [.operator .add] := by
  have h : ofElements [.argument, .constant .i, .constant .i, .operator .mul, .operator .add] =
      .ok ⟨[.argument, .constant .i, .constant .i, .operator .mul, .operator .add], 3⟩ := rfl
  obtain ⟨-, -, -, hoperators, -⟩ := fold_normal_form h
  let product : Tree := .node .mul (.constant .i) (.constant .i)
  let sum : Tree := .node .add .argument product
  constructor
  · obtain ⟨front, t, ht, hiff⟩ := hoperators [.argument, .constant .i, .constant .i, .operator .mul] .add [] rfl
    have hsum : [] ++ sum.elements = front ++ t.elements := ht
    obtain ⟨-, rfl⟩ := Tree.append_elements_inj hsum
    exact hiff.mpr List.mem_cons_self
  · obtain ⟨front, t, ht, hiff⟩ := hoperators [.argument, .constant .i, .constant .i] .mul [.operator .add] rfl
    have hproduct : [.argument] ++ product.elements = front ++ t.elements := ht
    obtain ⟨-, rfl⟩ := Tree.append_elements_inj hproduct
    rw [hiff, Tree.argument_mem_elements]
    decide

end Program
end TransferFunction
