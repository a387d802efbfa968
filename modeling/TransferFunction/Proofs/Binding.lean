import TransferFunction.Grammar

/-! # Trees of explicit formulas

In the explicit form every operator is written, so precedence and associativity alone tell the tree: each level groups the
phrases of the next tighter one. Every alternating list has such a tree.
-/

namespace TransferFunction.Grammar

/-- The tree of a phrase all of whose open operators have at least a given precedence. Operands are tighter than all. -/
inductive Binds : Nat → List Symbol → Tree → Prop
  | number (n : Float) : Binds 4 [.number n] (.constant ⟨n, 0⟩)
  | argument : Binds 4 [.argument] .argument
  | imaginaryUnit : Binds 4 [.imaginaryUnit] (.constant ⟨0, 1⟩)
  | group {ts t} : Binds 1 ts t → Binds 4 (.opening :: ts ++ [.closing]) t
  | looser {k ts t} : Binds (k + 1) ts t → Binds k ts t
  | left {op ts us t u} : op.isLeftAssociative = true → Binds op.precedence ts t → Binds (op.precedence + 1) us u →
      Binds op.precedence (ts ++ .operator op :: us) (.node op t u)
  | right {op ts us t u} : op.isLeftAssociative = false → Binds (op.precedence + 1) ts t → Binds op.precedence us u →
      Binds op.precedence (ts ++ .operator op :: us) (.node op t u)

theorem Binds.of_le {k n : Nat} {ts : List Symbol} {t : Tree} (h : Binds n ts t) (hkn : k ≤ n) : Binds k ts t := by
  induction hkn with
  | refl => exact h
  | step _ ih => exact ih h.looser

theorem Binds.node_left {k : Nat} {op : Operator} {ts us : List Symbol} {t u : Tree}
    (hop : op.precedence = k ∧ op.isLeftAssociative = true) (ht : Binds k ts t) (hu : Binds (k + 1) us u) :
    Binds k (ts ++ .operator op :: us) (.node op t u) := by
  obtain ⟨rfl, ha⟩ := hop
  exact .left ha ht hu

theorem Binds.node_right {k : Nat} {op : Operator} {ts us : List Symbol} {t u : Tree}
    (hop : op.precedence = k ∧ op.isLeftAssociative = false) (ht : Binds (k + 1) ts t) (hu : Binds k us u) :
    Binds k (ts ++ .operator op :: us) (.node op t u) := by
  obtain ⟨rfl, ha⟩ := hop
  exact .right ha ht hu

theorem precedence_lt_four (op : Operator) : op.precedence < 4 := by
  cases op <;> decide

/-- An operand may be appended to a phrase with any operator that binds tightly enough. It goes into the last phrase of the
operator's own level. -/
theorem Binds.append_operand {k : Nat} {ts us : List Symbol} {t u : Tree} {op : Operator} (h : Binds k ts t)
    (hk : k ≤ op.precedence) (hu : Binds 4 us u) : ∃ w, Binds k (ts ++ .operator op :: us) w := by
  have hlt := precedence_lt_four op
  induction h with
  | number _ | argument | imaginaryUnit | group _ => omega
  | @looser k ts t h ih =>
    by_cases hk' : k + 1 ≤ op.precedence
    · obtain ⟨w, hw⟩ := ih hk'
      exact ⟨w, hw.looser⟩
    · obtain rfl : k = op.precedence := by omega
      cases ha : op.isLeftAssociative with
      | true => exact ⟨_, .left ha h.looser (hu.of_le hlt)⟩
      | false => exact ⟨_, .right ha h (hu.of_le (Nat.le_of_lt hlt))⟩
  | @left o ts vs t v ha ht hv iht ihv =>
    by_cases hk' : o.precedence + 1 ≤ op.precedence
    · obtain ⟨w, hw⟩ := ihv hk'
      refine ⟨.node o t w, ?_⟩
      rw [List.append_assoc, List.cons_append]
      exact .left ha ht hw
    · have heq : o.precedence = op.precedence := by omega
      have ha' := Operator.isLeftAssociative_of_precedence_eq heq
      rw [ha] at ha'
      have h' : Binds o.precedence (ts ++ .operator o :: vs) (.node o t v) := .left ha ht hv
      rw [heq] at h' ⊢
      exact ⟨_, .left ha'.symm h' (hu.of_le hlt)⟩
  | @right o ts vs t v ha ht hv iht ihv =>
    obtain ⟨w, hw⟩ := ihv hk
    refine ⟨.node o t w, ?_⟩
    rw [List.append_assoc, List.cons_append]
    exact .right ha ht hw

theorem Alternates.exists_binds {single : Bool} {ts : List Symbol} (h : Alternates single ts) :
    ∃ t, Binds (if single then 4 else 1) ts t := by
  induction h with
  | operand _ ih =>
    obtain ⟨t, ht⟩ := ih
    exact ⟨t, Binds.of_le ht (by decide)⟩
  | @operator ts us op _ _ iht ihu =>
    obtain ⟨t, ht⟩ := iht
    obtain ⟨u, hu⟩ := ihu
    exact ht.append_operand (by cases op <;> decide) hu
  | number n => exact ⟨_, .number n⟩
  | argument => exact ⟨_, .argument⟩
  | imaginaryUnit => exact ⟨_, .imaginaryUnit⟩
  | group _ ih =>
    obtain ⟨t, ht⟩ := ih
    exact ⟨t, .group ht⟩

end TransferFunction.Grammar
