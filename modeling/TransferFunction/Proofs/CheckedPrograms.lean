import Mathlib.Logic.ExistsUnique
import Mathlib.Logic.Function.Iterate
import TransferFunction.Proofs.FoldEvaluation
import TransferFunction.Tree

/-! # What the check accepts

The check of a list of elements gives the verdict of its run, at every point and with the same error. The lists that pass are
the listings of trees: what stands before any element of such a list is a row of listings, one for each value on the stack.
A listing read from its end fixes its tree, so the tree of a program is unique.
-/

namespace TransferFunction
open PartialFold

namespace Program

/-- Folding a program any number of times keeps what its elements run to. -/
theorem run_iterate_fold [Arithmetic] (v : ComplexFloat) (p : Program) (n : Nat) :
    Machine.run v (fold^[n] p).elements = Machine.run v p.elements := by
  induction n generalizing p with
  | zero => rfl
  | succ n ih =>
    have hfold : Machine.run v p.fold.elements = Machine.run v p.elements := Machine.run_foldElements v p.elements
    rw [Function.iterate_succ_apply, ih, hfold]

/-- On any list the machine and the check come to the same end, with the same error. So what has passed the check has a value
at every point, however often it is folded. -/
theorem run_agrees_with_check [Arithmetic] (v : ComplexFloat) (es : List Element) :
    (∀ e, Machine.run v es = .error e ↔ ofElements es = .error e) ∧
      ((∃ z, Machine.run v es = .ok z) ↔ ∃ p, ofElements es = .ok p) ∧
      ∀ p, ofElements es = .ok p → ∃ z, ∀ n, (fold^[n] p).eval v = .ok z := by
  have halike := Machine.run_alike v es
  have hok : (∃ z, Machine.run v es = .ok z) ↔ ∃ p, ofElements es = .ok p := by
    simp [halike.exists_ok_iff, ofElements, map_eq_ok]
  refine ⟨?_, hok, ?_⟩
  · intro e
    rw [halike.error_iff, ofElements, map_eq_error]
  · intro p h
    obtain ⟨z, hz⟩ := hok.mpr ⟨p, h⟩
    obtain ⟨-, rfl⟩ := depthOf_of_ofElements h
    refine ⟨z, fun n => ?_⟩
    rw [eval, run_iterate_fold, hz]

/-- An operator with one operand stops the machine and the check at the count of one. A square passes, and its value
outlasts all folding. -/
theorem run_lone_operand : Machine.run .i [.argument, .operator .mul] = .error (.underflow 1) ∧
    ∃ z, ∀ n, (fold^[n] ⟨[.constant .i, .constant .i, .operator .mul], 2⟩).eval .i = .ok z := by
  constructor
  · exact ((run_agrees_with_check .i [.argument, .operator .mul]).1 (.underflow 1)).mpr rfl
  · exact (run_agrees_with_check .i [.constant .i, .constant .i, .operator .mul]).2.2 _ rfl

end Program

namespace Tree

/-- The listings of some trees in a row, that of the first tree last: what a stack with the first on top has been read from. -/
def listings (ts : List Tree) : List Element := ts.reverse.flatMap elements

@[simp] theorem listings_nil : listings [] = [] := rfl

@[simp] theorem listings_cons (t : Tree) (ts : List Tree) : listings (t :: ts) = listings ts ++ t.elements := by
  simp [listings]

/-- What the count has passed is a row of as many listings as it has counted. -/
theorem exists_listings_of_heights {es : List Element} {h : Heights} (hh : es.foldlM Heights.step .empty = .ok h) :
    ∃ ts : List Tree, ts.length = h.current ∧ listings ts = es := by
  refine invariant (P := fun read h => ∃ ts : List Tree, ts.length = h.current ∧ listings ts = read) ?_ []
    ⟨[], rfl, rfl⟩ hh
  rintro read h e h' ⟨ts, hlength, hread⟩ hstep
  cases e with
  | constant z =>
    cases hstep
    exact ⟨.constant z :: ts, by simp [hlength], by simp [hread, elements]⟩
  | argument =>
    cases hstep
    exact ⟨.argument :: ts, by simp [hlength], by simp [hread, elements]⟩
  | operator op =>
    simp only [Heights.step] at hstep
    split at hstep
    · cases hstep
    · next hlt =>
      cases hstep
      -- the two trees on top become the operands of a new one
      rcases ts with _ | ⟨r, _ | ⟨l, rest⟩⟩
      · simp at hlength
        omega
      · simp at hlength
        omega
      · refine ⟨.node op l r :: rest, ?_, ?_⟩
        · simp at hlength ⊢
          omega
        · simp [← hread, elements]

/-- Read from its end, a list fixes the tree whose listing stands there. -/
theorem append_elements_inj {t u : Tree} {xs ys : List Element} (h : xs ++ t.elements = ys ++ u.elements) :
    xs = ys ∧ t = u := by
  induction t generalizing u xs ys with
  | constant z =>
    cases u with
    | constant w => simpa [elements] using h
    | argument | node _ _ _ => simp [elements, ← List.append_assoc] at h
  | argument =>
    cases u with
    | argument => simpa [elements] using h
    | constant _ | node _ _ _ => simp [elements, ← List.append_assoc] at h
  | node op l r ihl ihr =>
    cases u with
    | node op' l' r' =>
      simp only [elements, ← List.append_assoc] at h
      obtain ⟨hoperands, hop⟩ := List.append_inj' h rfl
      obtain ⟨hleft, rfl⟩ := ihr hoperands
      obtain ⟨rfl, rfl⟩ := ihl hleft
      simpa using hop
    | constant _ | argument => simp [elements, ← List.append_assoc] at h

theorem elements_injective : Function.Injective elements := by
  intro t u h
  have happend : [] ++ t.elements = [] ++ u.elements := h
  exact (append_elements_inj happend).2

end Tree

namespace Program

theorem ofElements_elements (t : Tree) : ofElements t.elements = .ok ⟨t.elements, t.depth⟩ := by
  rw [ofElements, Tree.depthOf_elements]
  rfl

theorem exists_tree_of_ofElements {es : List Element} {p : Program} (h : ofElements es = .ok p) :
    ∃ t : Tree, t.elements = es ∧ p = ⟨t.elements, t.depth⟩ := by
  obtain ⟨hd, -⟩ := depthOf_of_ofElements h
  obtain ⟨ts, hlength, hlistings⟩ := Tree.exists_listings_of_heights (heights_of_depthOf hd)
  obtain ⟨t, rfl⟩ := List.length_eq_one_iff.mp hlength
  have ht : t.elements = es := by simpa using hlistings
  refine ⟨t, ht, ?_⟩
  have hp := ofElements_elements t
  rw [ht, h] at hp
  rw [ht]
  exact Except.ok.inj hp

/-- A list passes the check exactly if it is the listing of a tree, which is then unique. The depth of the program is that of
the tree, and so is its value at every point. -/
theorem ofElements_iff_listing [Arithmetic] (es : List Element) :
    ((∃ p, ofElements es = .ok p) ↔ ∃! t : Tree, t.elements = es) ∧
      ∀ t : Tree, t.elements = es →
        ∃ p, ofElements es = .ok p ∧ p.depth = t.depth ∧ ∀ v, p.eval v = .ok (t.eval v) := by
  refine ⟨⟨?_, ?_⟩, ?_⟩
  · rintro ⟨p, h⟩
    obtain ⟨t, ht, -⟩ := exists_tree_of_ofElements h
    exact ⟨t, ht, fun u hu => Tree.elements_injective (hu.trans ht.symm)⟩
  · rintro ⟨t, rfl, -⟩
    exact ⟨_, ofElements_elements t⟩
  · rintro t rfl
    exact ⟨_, ofElements_elements t, rfl, fun v => Tree.run_elements v t⟩

/-- In `s - s / j` the quotient is computed above the minuend, and divides its left operand by its right one. -/
theorem ofElements_nested_quotient :
    ∃ p, ofElements [.argument, .argument, .constant .i, .operator .div, .operator .sub] = .ok p ∧ p.depth = 3 ∧
      ∀ v, p.eval v = .ok (Operator.sub.apply v (Operator.div.apply v .i)) := by
  have hlisting := ofElements_iff_listing [.argument, .argument, .constant .i, .operator .div, .operator .sub]
  exact hlisting.2 (.node .sub .argument (.node .div .argument (.constant .i))) rfl

end Program
end TransferFunction
