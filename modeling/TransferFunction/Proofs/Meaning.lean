import TransferFunction.Proofs.Compilation
import TransferFunction.Proofs.Derivability

/-! # What a formula means

The layers of the grammar and the two passes agree: the explicit form of a phrase binds as the tree of its derivation says.
So a source compiles to the folded listing of this tree, and evaluates to the value of the tree.
-/

namespace TransferFunction
open Grammar ExplicitForm

namespace Grammar

/-- A phrase ends behind an operand, at the depth at which it starts. -/
theorem Derivation.run {l : Layer} {ss : List Symbol} (d : Derivation l ss) (n : Nat) :
    Outline.run ⟨n, l.opens⟩ ss = .ok ⟨n, false⟩ := by
  induction d generalizing n with
  | sum _ _ ihf ihr | product _ _ ihf ihr | power _ _ ihf ihr =>
    exact (Outline.run_append_of_ok (ihf n)).trans (ihr n)
  | noTerm | noFactor | noExponent => rfl
  | term op _ _ _ ihn ihr | factor op _ _ _ ihn ihr =>
    have hop : Outline.step ⟨n, false⟩ (.operator op) = .ok ⟨n, true⟩ :=
      Outline.step_operator_eq_ok.mpr (.inr ⟨rfl, rfl⟩)
    exact (Outline.run_cons_of_ok hop).trans ((Outline.run_append_of_ok (ihn n)).trans (ihr n))
  | @impliedFactor s ts us hs _ _ ihn ihr =>
    have hfirst : Outline.run ⟨n, false⟩ (s :: ts) = .ok ⟨n, false⟩ := by
      rw [← ihn n]
      exact Outline.run_cons_of_startsOperand (startsOperand_of_startsFactor hs) n false ts
    exact (Outline.run_append_of_ok hfirst).trans (ihr n)
  | plus _ ih | minus _ ih | exponent _ ih | impliedExponent _ ih => exact ih n
  | number _ | argument | imaginaryUnit => rfl
  | group _ ih => exact Outline.run_group (ih (n + 1)) true

theorem Derivation.explicit_append {l : Layer} {ss : List Symbol} (d : Derivation l ss) (us : List Symbol) :
    explicit l.opens (ss ++ us) = explicit l.opens ss ++ explicit false us := by
  rw [ExplicitForm.explicit_append, expectsAfter_of_run (d.run 0)]

/-- The explicit form `ss` of a phrase binds as its tree says. A follow-up is put behind what binds tightly enough. -/
def Realizes : (l : Layer) → List Symbol → l.Meaning → Prop
  | .sum, ss, t => Binds 1 ss t
  | .terms, ss, f => ∀ {ws t}, Binds 1 ws t → Binds 1 (ws ++ ss) (f t)
  | .product, ss, t => Binds 2 ss t
  | .factors, ss, f => ∀ {ws t}, Binds 2 ws t → Binds 2 (ws ++ ss) (f t)
  | .power, ss, t => Binds 3 ss t
  | .exponent, ss, f => ∀ {ws t}, Binds 4 ws t → Binds 3 (ws ++ ss) (f t)
  | .primary, ss, t => Binds 4 ss t

/-- An operator and its right operand join what stands before them, and the rest of the follow-up joins the three. -/
theorem Derivation.binds_follow_up {l : Layer} {k : Nat} {op : Operator} {ts us ws : List Symbol} {t u : Tree}
    {rest : Tree → Tree} (next : Derivation l ts) (hl : l.opens = true)
    (hop : op.precedence = k ∧ op.isLeftAssociative = true) (hnext : Binds (k + 1) (explicit true ts) u)
    (hrest : ∀ {ws t}, Binds k ws t → Binds k (ws ++ explicit false us) (rest t)) (h : Binds k ws t) :
    Binds k (ws ++ .operator op :: explicit true (ts ++ us)) (rest (.node op t u)) := by
  have hsplit := next.explicit_append us
  rw [hl] at hsplit
  have hnode := h.node_left hop hnext
  have hall := hrest hnode
  rwa [List.append_assoc, List.cons_append, ← hsplit] at hall

theorem Derivation.realizes {l : Layer} {ss : List Symbol} (d : Derivation l ss) :
    Realizes l (explicit l.opens ss) d.tree := by
  induction d with
  | @sum ts us first rest ihf ihr =>
    have hsplit : explicit true (ts ++ us) = explicit true ts ++ explicit false us := first.explicit_append us
    change Binds 1 (explicit true (ts ++ us)) (rest.tree first.tree)
    rw [hsplit]
    exact ihr (Binds.looser ihf)
  | @product ts us first rest ihf ihr =>
    have hsplit : explicit true (ts ++ us) = explicit true ts ++ explicit false us := first.explicit_append us
    change Binds 2 (explicit true (ts ++ us)) (rest.tree first.tree)
    rw [hsplit]
    exact ihr (Binds.looser ihf)
  | noTerm | noFactor =>
    intro ws t h
    rw [explicit, List.append_nil]
    exact h
  | term op hop next _ ihn ihr =>
    intro ws t h
    have hone : op.precedence = 1 ∧ op.isLeftAssociative = true := by rcases hop with rfl | rfl <;> exact ⟨rfl, rfl⟩
    exact next.binds_follow_up rfl hone ihn ihr h
  | factor op hop next _ ihn ihr =>
    intro ws t h
    have htwo : op.precedence = 2 ∧ op.isLeftAssociative = true := by rcases hop with rfl | rfl <;> exact ⟨rfl, rfl⟩
    exact next.binds_follow_up rfl htwo ihn ihr h
  | @impliedFactor s ts us hs next rest ihn ihr =>
    intro ws t h
    change Binds 2 (ws ++ explicit false (s :: (ts ++ us))) (rest.tree (.node .mul t next.tree))
    rw [explicit_false_of_startsFactor hs]
    exact next.binds_follow_up rfl ⟨rfl, rfl⟩ ihn ihr h
  | plus _ ih => exact ih
  | minus _ ih =>
    have hsign : Operator.sign.precedence = 3 ∧ Operator.sign.isLeftAssociative = false := ⟨rfl, rfl⟩
    exact (Binds.number (-1)).node_right hsign ih
  | @power ts us base e ihb ihe =>
    have hsplit : explicit true (ts ++ us) = explicit true ts ++ explicit false us := base.explicit_append us
    change Binds 3 (explicit true (ts ++ us)) (e.tree base.tree)
    rw [hsplit]
    exact ihe ihb
  | noExponent =>
    intro ws t h
    rw [explicit, List.append_nil]
    exact h.looser
  | exponent _ ih | impliedExponent _ ih =>
    intro ws t h
    exact h.node_right ⟨rfl, rfl⟩ ih
  | number n => exact .number n
  | argument => exact .argument
  | imaginaryUnit => exact .imaginaryUnit
  | @group ts s ih =>
    change Binds 4 (explicit true (.opening :: ts ++ [.closing])) s.tree
    rw [explicit_group]
    exact .group ih

end Grammar

namespace Expression

/-- A source whose tokens have a derivation compiles to the folded listing of its tree. -/
theorem compile_of_derivation [Arithmetic] {x : Variable} {source : String} {ts : List Token}
    (hscan : Token.scan x source = .ok ts) (d : Derivation .sum (ts.map Token.symbol)) :
    compile x source = .ok ⟨some ⟨d.tree.fold.elements, d.tree.depth⟩⟩ :=
  compile_of_binds hscan (d.run 0) d.realizes

/-- What compiles has one derivation, and its value at a point is that of the tree of the derivation. -/
theorem eval_eq_derivation [Arithmetic] {x : Variable} {source : String} {e : Expression} (h : compile x source = .ok e) :
    ∃ ts, Token.scan x source = .ok ts ∧ ∃ d : Derivation .sum (ts.map Token.symbol),
      (∀ d' : Derivation .sum (ts.map Token.symbol), d' = d) ∧ ∀ v, e.eval v = .ok (d.tree.eval v) := by
  obtain ⟨ts, hscan, hformula⟩ := exists_compile_iff.mp ⟨e, h⟩
  rw [exists_ofTokens_iff (Token.written_of_scan hscan)] at hformula
  obtain ⟨d⟩ := hformula.nonempty_derivation
  refine ⟨ts, hscan, d, fun d' => d'.unique d, fun v => ?_⟩
  have hcompile := compile_of_derivation hscan d
  rw [h] at hcompile
  cases hcompile
  have heval : Machine.run v d.tree.fold.elements = .ok (d.tree.fold.eval v) := Tree.run_elements v d.tree.fold
  rw [Tree.eval_fold] at heval
  exact heval

/-- The sign takes in its operand only, the implied product the signed one. -/
theorem eval_negated_product : ∃ e, compile .standard "-sj" = .ok e ∧
    ∀ v, e.eval v = .ok (Operator.mul.apply (Operator.sign.apply ⟨-1, 0⟩ v) ⟨0, 1⟩) := by
  have hscan : Token.scan .standard "-sj" = .ok [⟨.operator .sub, 0⟩, ⟨.argument, 1⟩, ⟨.imaginaryUnit, 2⟩] := by
    decide +kernel
  let d : Derivation .sum [.operator .sub, .argument, .imaginaryUnit] :=
    .sum (.product (.minus (.power .argument .noExponent))
      (.impliedFactor rfl (.power .imaginaryUnit .noExponent) .noFactor)) .noTerm
  have hcompile := compile_of_derivation hscan d
  obtain ⟨ts, hts, d', hunique, heval⟩ := eval_eq_derivation hcompile
  rw [hscan] at hts
  cases hts
  refine ⟨_, hcompile, fun v => ?_⟩
  rw [heval, ← hunique d]
  rfl

end Expression
end TransferFunction
