import TransferFunction.Formula
import TransferFunction.Proofs.Compilation
import TransferFunction.Proofs.Layouts

/-! # Texts of a formula compile to its listing

The rules for leaving out parentheses and operators agree with what is read: a text of a formula binds as its tree. So all
texts of a formula compile to one program.
-/

namespace TransferFunction
open Grammar

namespace Formula
open ExplicitForm

/-- How tightly a formula holds together without parentheses. -/
def precedence : Formula → Nat
  | .number _ | .argument | .imaginaryUnit => 4
  | .negation _ => 3
  | .binary op _ _ _ => op.precedence

theorem isSum_iff {f : Formula} : f.isSum = true ↔ f.precedence < 2 := by
  cases f with
  | binary op _ _ _ => cases op <;> simp [isSum, precedence, Operator.precedence]
  | _ => simp [isSum, precedence]

theorem isSum_or_isProduct_iff {f : Formula} : (f.isSum || f.isProduct) = true ↔ f.precedence < 3 := by
  cases f with
  | binary op _ _ _ => cases op <;> simp [isSum, isProduct, precedence, Operator.precedence]
  | _ => simp [isSum, isProduct, precedence]

theorem isLeaf_iff {f : Formula} : (!f.isLeaf) = true ↔ f.precedence < 4 := by
  cases f with
  | binary op _ _ _ => cases op <;> simp [isLeaf, precedence, Operator.precedence]
  | _ => simp [isLeaf, precedence]

/-- How tightly a text of the formula holds together. -/
def rank (b : Bool) (f : Formula) : Nat := if b then 4 else f.precedence

theorem one_le_rank (b : Bool) (f : Formula) : 1 ≤ rank b f := by
  cases b with
  | true => exact Nat.le_add_left 1 3
  | false =>
    cases f with
    | binary op _ _ _ => cases op <;> simp [rank, precedence, Operator.precedence]
    | _ => simp [rank, precedence]

theorem le_rank {k : Nat} {enclosed b : Bool} {f : Formula} (hk : k ≤ 4) (h : enclosed = true → b = true)
    (hf : f.precedence < k → enclosed = true) : k ≤ rank b f := by
  cases b with
  | true => exact hk
  | false => exact Nat.le_of_not_lt fun hlt => Bool.false_ne_true (h (hf hlt))

/-- A left operand binds as its operator needs it. -/
theorem le_rank_left {op : Operator} {b : Bool} {f : Formula} (h : enclosedLeft op f = true → b = true) :
    (if op.isLeftAssociative then op.precedence else op.precedence + 1) ≤ rank b f := by
  cases op with
  | add | sub => exact one_le_rank b f
  | mul | div => exact le_rank (by decide) h isSum_iff.mpr
  | pow | sign => exact le_rank (by decide) h isLeaf_iff.mpr

theorem le_rank_right {op : Operator} {b : Bool} {f : Formula} (h : enclosedRight op f = true → b = true) :
    (if op.isLeftAssociative then op.precedence + 1 else op.precedence) ≤ rank b f := by
  cases op with
  | add | sub => exact le_rank (by decide) h isSum_iff.mpr
  | mul | div | pow | sign => exact le_rank (by decide) h isSum_or_isProduct_iff.mpr

/-- An operator and two operands that bind as it needs them. -/
theorem binds_node {op : Operator} {b c : Bool} {f g : Formula} {ss us : List Symbol} {t u : Tree}
    (ht : Binds (rank b f) ss t) (hleft : enclosedLeft op f = true → b = true) (hu : Binds (rank c g) us u)
    (hright : enclosedRight op g = true → c = true) : Binds op.precedence (ss ++ .operator op :: us) (.node op t u) := by
  have hl := ht.of_le (le_rank_left hleft)
  have hr := hu.of_le (le_rank_right hright)
  cases ha : op.isLeftAssociative with
  | true =>
    rw [ha] at hl hr
    exact .left ha hl hr
  | false =>
    rw [ha] at hl hr
    exact .right ha hl hr

section Joins

variable {op : Operator} {js us : List Symbol} (h : Joins op js us)
include h

/-- The right operand is reached where an operand is expected, or starts by itself. -/
theorem Joins.run (n : Nat) : Outline.run ⟨n, false⟩ (js ++ us) = Outline.run ⟨n, true⟩ us := by
  cases h with
  | written _ _ => exact Outline.run_cons_of_ok (Outline.step_operator_eq_ok.mpr (.inr ⟨rfl, rfl⟩))
  | product hs => exact Outline.run_cons_of_startsOperand (startsOperand_of_startsFactor hs) n false _
  | power _ _ => rfl

/-- An operator that is left out comes back in the explicit form. -/
theorem Joins.explicit : explicit false (js ++ us) = .operator op :: explicit true us := by
  cases h with
  | written _ _ => rfl
  | product hs => exact explicit_false_of_startsFactor hs _
  | power _ _ => rfl

end Joins

namespace Writes

variable {b : Bool} {f : Formula} {ss : List Symbol}

theorem run (h : Writes b f ss) (n : Nat) : Outline.run ⟨n, true⟩ ss = .ok ⟨n, false⟩ := by
  induction h generalizing n with
  | number _ | argument | imaginaryUnit => rfl
  | negation _ _ ih => exact ih n
  | binary _ _ hjs _ _ ihf ihg => rw [Outline.run_append_of_ok (ihf n), hjs.run, ihg]
  | group _ ih => exact Outline.run_group (ih (n + 1)) true

/-- The explicit form of a text binds as its formula. -/
theorem binds (h : Writes b f ss) : Binds (rank b f) (explicit true ss) f.tree := by
  induction h with
  | number value => exact .number value
  | argument => exact .argument
  | imaginaryUnit => exact .imaginaryUnit
  | negation _ henclosed ih =>
    have hone : Binds (rank false (.number (-1))) [.number (-1)] (.constant ⟨-1, 0⟩) := .number (-1)
    have hleft : enclosedLeft .sign (.number (-1)) = true → false = true := id
    exact binds_node hone hleft ih henclosed
  | binary hf hleft hjs _ hright ihf ihg =>
    rw [explicit_append, expectsAfter_of_run (hf.run 0), hjs.explicit]
    exact binds_node ihf hleft ihg hright
  | group _ ih =>
    rw [explicit_group]
    exact .group (ih.of_le (one_le_rank _ _))

end Writes

/-- Every formula has a text. -/
theorem writes_enclosed (f : Formula) : ∃ b, Writes b f f.enclosed := by
  induction f with
  | number value => exact ⟨false, .number value⟩
  | argument => exact ⟨false, .argument⟩
  | imaginaryUnit => exact ⟨false, .imaginaryUnit⟩
  | negation f ih =>
    obtain ⟨b, hb⟩ := ih
    exact ⟨false, .negation (.group hb) fun _ => rfl⟩
  | binary op h f g ihf ihg =>
    obtain ⟨b, hb⟩ := ihf
    obtain ⟨c, hc⟩ := ihg
    exact ⟨false, .binary (.group hb) (fun _ => rfl) (.written op _) (.group hc) fun _ => rfl⟩

theorem renders_of_scan {x : Variable} {f : Formula} {source : String} {ts : List Token} {b : Bool}
    (hscan : Token.scan x source = .ok ts) (h : Writes b f (ts.map Token.symbol)) : f.Renders x source := by
  obtain ⟨d, hd, hts⟩ := (Token.lexes_of_scanFrom hscan).exists_layout
  refine ⟨d, hd, b, ?_⟩
  rwa [← d.map_symbol_tokens, Layout.tokens, hts]

end Formula

namespace Expression

/-- What is scanned of a text of a formula binds as the formula. -/
theorem exists_scan_of_renders {x : Variable} {f : Formula} {source : String} (h : f.Renders x source) :
    ∃ ts, Token.scan x source = .ok ts ∧
      ExplicitForm.Outline.start.run (ts.map Token.symbol) = .ok .complete ∧
      Binds 1 (ExplicitForm.explicit true (ts.map Token.symbol)) f.tree := by
  obtain ⟨d, hd, b, hwrites⟩ := h
  rw [← d.map_symbol_tokens] at hwrites
  exact ⟨d.tokens, d.scan_of_text hd, hwrites.run 0, hwrites.binds.of_le (Formula.one_le_rank b f)⟩

/-- A text of a formula is ordered to the listing of its tree, and all its texts compile to one program: those that leave out
operators and parentheses as well as those in which none is left out. -/
theorem compile_rendering [Arithmetic] {x : Variable} {f : Formula} {source : String} (h : f.Renders x source) :
    (∃ ts out p, Token.scan x source = .ok ts ∧ ExplicitForm.ofTokens ts = .ok out ∧
      OperatorStack.programOf out = .ok p ∧ p.elements = f.tree.elements) ∧
    ∃ e, compile x source = .ok e ∧ (∀ source', f.Renders x source' → compile x source' = .ok e) ∧
      ∀ d : Layout x, d.symbols = f.enclosed → compile x (String.ofList d.text) = .ok e := by
  have hcompile : ∀ source', f.Renders x source' → compile x source' = .ok ⟨some ⟨f.tree.fold.elements, f.tree.depth⟩⟩ := by
    intro source' h'
    obtain ⟨ts, hts, hrun, hbinds⟩ := exists_scan_of_renders h'
    exact compile_of_binds hts hrun hbinds
  constructor
  · obtain ⟨ts, hts, hrun, hbinds⟩ := exists_scan_of_renders h
    obtain ⟨out, hout, hprogram⟩ := ExplicitForm.programOf_of_run hrun hbinds
    exact ⟨ts, out, _, hts, hout, hprogram, rfl⟩
  · refine ⟨_, hcompile source h, hcompile, fun d hd => hcompile _ ⟨d, String.toList_ofList.symm, ?_⟩⟩
    rw [hd]
    exact f.writes_enclosed

/-- Both products and the enclosing parentheses of `2(s^(-3))` are left out. -/
theorem compile_shorthand :
    let f : Formula := .binary .mul nofun
      (.binary .mul nofun (.number 2) (.binary .pow nofun .argument (.negation (.number 3))))
      (.binary .sub nofun .argument (.binary .add nofun .argument .imaginaryUnit))
    f.Renders .standard "2s^-3(s-(s+j))" ∧
      ∃ ts out p, Token.scan .standard "2s^-3(s-(s+j))" = .ok ts ∧ ExplicitForm.ofTokens ts = .ok out ∧
        OperatorStack.programOf out = .ok p ∧ p.elements = f.tree.elements := by
  intro f
  have hscan : Token.scan .standard "2s^-3(s-(s+j))" = .ok [⟨.number 2, 0⟩, ⟨.argument, 1⟩, ⟨.operator .pow, 2⟩,
      ⟨.operator .sub, 3⟩, ⟨.number 3, 4⟩, ⟨.opening, 5⟩, ⟨.argument, 6⟩, ⟨.operator .sub, 7⟩, ⟨.opening, 8⟩,
      ⟨.argument, 9⟩, ⟨.operator .add, 10⟩, ⟨.imaginaryUnit, 11⟩, ⟨.closing, 12⟩, ⟨.closing, 13⟩] := by
    decide +kernel
  have hpower : Formula.Writes false (.binary .pow nofun .argument (.negation (.number 3)))
      [.argument, .operator .pow, .operator .sub, .number 3] :=
    .binary .argument id (.written .pow _) (.negation (.number 3) id) id
  have hsum : Formula.Writes true (.binary .add nofun .argument .imaginaryUnit)
      [.opening, .argument, .operator .add, .imaginaryUnit, .closing] :=
    .group (.binary .argument id (.written .add _) .imaginaryUnit id)
  have hdifference : Formula.Writes true (.binary .sub nofun .argument (.binary .add nofun .argument .imaginaryUnit))
      [.opening, .argument, .operator .sub, .opening, .argument, .operator .add, .imaginaryUnit, .closing, .closing] :=
    .group (.binary .argument id (.written .sub _) hsum fun _ => rfl)
  have hrenders : f.Renders .standard "2s^-3(s-(s+j))" :=
    Formula.renders_of_scan hscan
      (.binary (.binary (.number 2) id (.product rfl) hpower id) id (.product rfl) hdifference fun _ => rfl)
  exact ⟨hrenders, (compile_rendering hrenders).1⟩

end Expression
end TransferFunction
