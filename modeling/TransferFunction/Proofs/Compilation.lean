import TransferFunction.Expression
import TransferFunction.Proofs.Alternation
import TransferFunction.Proofs.Blame
import TransferFunction.Proofs.FoldEvaluation
import TransferFunction.Proofs.PostfixOrder
import TransferFunction.Proofs.Scanning

/-! # Which sources compile

A source is refused for a character or for the order of its tokens. Once these are a formula, nothing can go wrong any more:
neither the ordering of the explicit form, nor an evaluation.
-/

namespace TransferFunction
open Grammar PartialFold

namespace ExplicitForm

/-- What is accepted has a tree. -/
theorem exists_binds_of_run {ss : List Symbol} (h : Outline.start.run ss = .ok .complete) :
    ∃ t : Tree, Binds 1 (explicit true ss) t := (alternates_of_run h).exists_binds

/-- What is accepted orders to the program of its tree. -/
theorem programOf_of_run {ts : List Token} {t : Tree} (h : Outline.start.run (ts.map Token.symbol) = .ok .complete)
    (ht : Binds 1 (explicit true (ts.map Token.symbol)) t) :
    ∃ out, ofTokens ts = .ok out ∧ OperatorStack.programOf out = .ok ⟨t.elements, t.depth⟩ := by
  rw [← map_symbol_explicitTokens] at ht
  exact ⟨_, ofTokens_of_run h, OperatorStack.programOf_of_binds ht⟩

/-- What a pass has written orders to the program of a tree. -/
theorem exists_programOf_of_ofTokens {ts out : List Token} (h : ofTokens ts = .ok out) :
    ∃ t : Tree, OperatorStack.programOf out = .ok ⟨t.elements, t.depth⟩ := by
  obtain ⟨hrun, -⟩ := run_of_ofTokens h
  obtain ⟨t, ht⟩ := exists_binds_of_run hrun
  obtain ⟨out', hout', hprogram⟩ := programOf_of_run hrun ht
  rw [h] at hout'
  cases hout'
  exact ⟨t, hprogram⟩

theorem exists_ofTokens_iff {binary : Operator → Prop} {ts : List Token}
    (hs : ∀ op, .operator op ∈ ts.map Token.symbol → binary op) :
    (∃ out, ofTokens ts = .ok out) ↔ Accepts binary .formula (ts.map Token.symbol) := by
  rw [accepts_iff_run hs]
  constructor
  · rintro ⟨out, h⟩
    exact (run_of_ofTokens h).1
  · intro h
    exact ⟨_, ofTokens_of_run h⟩

end ExplicitForm

theorem Cause.eq_invalid_of_text {c : Cause} (h : c.text = "invalid expression") : c = .invalid := by
  cases c with
  | invalid => rfl
  | unexpectedCharacter x =>
    -- the text is too long, whatever the variable
    have htext : (Cause.unexpectedCharacter x).text = "expected a number, the variable `" ++ x.text ++
        "`, the imaginary unit `" ++ imaginaryUnit.toString ++ "`, a parenthesis or an operator" := rfl
    have hstart : "expected a number, the variable `".length = 33 := rfl
    have hlength : (Cause.unexpectedCharacter x).text.length = 18 := congrArg String.length h
    rw [htext] at hlength
    simp only [String.length_append, hstart] at hlength
    omega
  | invalidNumber literal =>
    -- the two texts part where the second word starts
    have hchar : ("invalid number ".toList ++ literal.toList)[8]? = "invalid expression".toList[8]? := by
      rw [← String.toList_append]
      exact congrArg (fun text : String => text.toList[8]?) h
    cases hchar
  | secondSeparator | noDigits | unmatchedClosing | noOperandBeforeClosing => exact absurd h (by decide)
  | noOperandBeforeOperator | noOperandAfterOperator | unclosed | empty => exact absurd h (by decide)

namespace Expression

section Stages

variable [Arithmetic]

/-- The three stages of a compilation that succeeds. -/
theorem compile_eq_ok {x : Variable} {source : String} {e : Expression} :
    compile x source = .ok e ↔ ∃ ts out p, Token.scan x source = .ok ts ∧ ExplicitForm.ofTokens ts = .ok out ∧
      OperatorStack.programOf out = .ok p ∧ e = ⟨some p.fold⟩ := by
  simp only [compile, programOf, map_eq_ok, bind_eq_ok]
  constructor
  · rintro ⟨q, ⟨ts, hts, out, hout, p, hp, hq⟩, rfl⟩
    cases hq
    exact ⟨ts, out, p, hts, hout, hp, rfl⟩
  · rintro ⟨ts, out, p, hts, hout, hp, rfl⟩
    exact ⟨_, ⟨ts, hts, out, hout, p, hp, rfl⟩, rfl⟩

/-- A source whose tokens have a tree compiles to the folded listing of this tree. -/
theorem compile_of_binds {x : Variable} {source : String} {ts : List Token} {t : Tree}
    (hscan : Token.scan x source = .ok ts) (hrun : ExplicitForm.Outline.start.run (ts.map Token.symbol) = .ok .complete)
    (ht : Binds 1 (ExplicitForm.explicit true (ts.map Token.symbol)) t) :
    compile x source = .ok ⟨some ⟨t.fold.elements, t.depth⟩⟩ := by
  obtain ⟨out, hout, hprogram⟩ := ExplicitForm.programOf_of_run hrun ht
  refine compile_eq_ok.mpr ⟨ts, out, _, hscan, hout, hprogram, ?_⟩
  rw [Program.fold, Tree.foldElements_elements]

/-- A compilation fails in the first or in the second stage. -/
theorem compile_eq_error {x : Variable} {source : String} {e : CompileError} :
    compile x source = .error e ↔ Token.scan x source = .error e ∨
      ∃ ts, Token.scan x source = .ok ts ∧ ExplicitForm.ofTokens ts = .error e := by
  simp only [compile, programOf, map_eq_error, bind_eq_error]
  constructor
  · rintro (h | ⟨ts, hts, h | ⟨out, hout, h | ⟨p, hp, h⟩⟩⟩)
    · exact .inl h
    · exact .inr ⟨ts, hts, h⟩
    · obtain ⟨t, ht⟩ := ExplicitForm.exists_programOf_of_ofTokens hout
      rw [ht] at h
      cases h
    · cases h
  · rintro (h | ⟨ts, hts, h⟩)
    · exact .inl h
    · exact .inr ⟨ts, hts, .inl h⟩

theorem exists_compile_iff {x : Variable} {source : String} :
    (∃ e, compile x source = .ok e) ↔
      ∃ ts, Token.scan x source = .ok ts ∧ ∃ out, ExplicitForm.ofTokens ts = .ok out := by
  constructor
  · rintro ⟨e, h⟩
    obtain ⟨ts, out, p, hts, hout, -, -⟩ := compile_eq_ok.mp h
    exact ⟨ts, hts, out, hout⟩
  · rintro ⟨ts, hts, out, hout⟩
    obtain ⟨t, ht⟩ := ExplicitForm.exists_programOf_of_ofTokens hout
    exact ⟨_, compile_eq_ok.mpr ⟨ts, out, _, hts, hout, ht, rfl⟩⟩

/-- What compiles has a tree, whose folded listing is the program. -/
theorem exists_binds_of_compile {x : Variable} {source : String} {e : Expression} (h : compile x source = .ok e) :
    ∃ ts t, Token.scan x source = .ok ts ∧ ExplicitForm.Outline.start.run (ts.map Token.symbol) = .ok .complete ∧
      Binds 1 (ExplicitForm.explicit true (ts.map Token.symbol)) t ∧ e = ⟨some ⟨t.fold.elements, t.depth⟩⟩ := by
  obtain ⟨ts, out, p, hts, hout, -, -⟩ := compile_eq_ok.mp h
  obtain ⟨hrun, -⟩ := ExplicitForm.run_of_ofTokens hout
  obtain ⟨t, ht⟩ := ExplicitForm.exists_binds_of_run hrun
  rw [compile_of_binds hts hrun ht] at h
  exact ⟨ts, t, hts, hrun, ht, (Except.ok.inj h).symm⟩

theorem eval_fold_elements (t : Tree) (v : ComplexFloat) : eval ⟨some ⟨t.fold.elements, t.depth⟩⟩ v = .ok (t.eval v) := by
  have h : Machine.run v t.fold.elements = .ok (t.fold.eval v) := Tree.run_elements v t.fold
  rwa [Tree.eval_fold] at h

/-- A compiled expression has the value of a tree, at every point. -/
theorem exists_eval_of_compile {x : Variable} {source : String} {e : Expression} (h : compile x source = .ok e) :
    ∃ t : Tree, e.isEmpty = false ∧ ∀ v, e.eval v = .ok (t.eval v) := by
  obtain ⟨ts, t, -, -, -, rfl⟩ := exists_binds_of_compile h
  exact ⟨t, rfl, eval_fold_elements t⟩

/-- Compiling and evaluating in one go is the same as in two steps. -/
theorem evalSource_of_compile {x : Variable} {source : String} {e : Expression} (h : compile x source = .ok e)
    {v z : ComplexFloat} (hz : e.eval v = .ok z) : evalSource x source v = .ok z := by
  rw [evalSource, h]
  exact congrArg (Except.mapError Failure.eval) hz

theorem cause_ne_invalid_of_compile {x : Variable} {source : String} {e : CompileError}
    (h : compile x source = .error e) : e.cause ≠ .invalid := by
  rcases compile_eq_error.mp h with hscan | ⟨ts, -, hts⟩
  · have hkind := Token.kind_of_scan_error hscan
    intro hinvalid
    rw [CompileError.kind, hinvalid] at hkind
    cases hkind
  · exact (ExplicitForm.concerns_of_ofTokens_error hts).refuses.2

end Stages

/-- A pass accepts exactly the formulas and refuses all else for the order of the tokens. So a source compiles exactly if
its characters are tokens and these are a formula. -/
theorem compiles_iff_formula [Arithmetic] :
    (∀ ts : List Token, (∀ op, .operator op ∈ ts.map Token.symbol → Written op) →
      ((∃ out, ExplicitForm.ofTokens ts = .ok out) ↔ Accepts Written .formula (ts.map Token.symbol)) ∧
      (¬Accepts Written .formula (ts.map Token.symbol) →
        ∃ e, ExplicitForm.ofTokens ts = .error e ∧ e.kind = .structural)) ∧
    ∀ (x : Variable) (source : String), (∃ e, compile x source = .ok e) ↔
      ∃ ts, Token.scan x source = .ok ts ∧ Accepts Written .formula (ts.map Token.symbol) := by
  constructor
  · intro ts hs
    have hiff := ExplicitForm.exists_ofTokens_iff hs
    refine ⟨hiff, fun hnot => ?_⟩
    cases h : ExplicitForm.ofTokens ts with
    | error e => exact ⟨e, rfl, (ExplicitForm.concerns_of_ofTokens_error h).refuses.1⟩
    | ok out => exact absurd (hiff.mp ⟨out, h⟩) hnot
  · intro x source
    rw [exists_compile_iff]
    refine exists_congr fun ts => and_congr_right fun hts => ?_
    exact ExplicitForm.exists_ofTokens_iff (Token.written_of_scan hts)

/-- An operand may follow another one, so `2x` is accepted; `2*` is refused, since an operator has to be followed. -/
theorem accepts_juxtaposition : (∃ out, ExplicitForm.ofTokens [⟨.number 2, 0⟩, ⟨.argument, 1⟩] = .ok out) ∧
    ∃ e, ExplicitForm.ofTokens [⟨.number 2, 0⟩, ⟨.operator .mul, 1⟩] = .error e ∧ e.kind = .structural := by
  have hjuxtaposed : Accepts Written .formula [.number 2, .argument] :=
    .juxtaposed (.operand (.primary (.number 2))) .argument
  have hnot : ¬Accepts Written .formula [.number 2, .operator .mul] := by
    intro h
    cases h.run 0 (.inr rfl)
  constructor
  · exact (compiles_iff_formula.1 [⟨.number 2, 0⟩, ⟨.argument, 1⟩] (by simp)).1.mpr hjuxtaposed
  · exact (compiles_iff_formula.1 [⟨.number 2, 0⟩, ⟨.operator .mul, 1⟩] (by simp [Written])).2 hnot

/-- The checks of the later stages never fail: what a pass writes always orders to a program, and what compiles has a value
at every point. -/
theorem never_fails_late [Arithmetic] :
    (∀ ts out, ExplicitForm.ofTokens ts = .ok out → ∃ p, OperatorStack.programOf out = .ok p) ∧
    ∀ (x : Variable) (source : String),
      (∀ e, compile x source = .error e → e.cause.text ≠ "invalid expression") ∧
      (∀ e, compile x source = .ok e → e.isEmpty = false ∧ ∀ v, ∃ z, e.eval v = .ok z) ∧
      ∀ v f, evalSource x source v = .error f → ∃ e, f = .compile e := by
  refine ⟨?_, fun x source => ⟨?_, ?_, ?_⟩⟩
  · intro ts out h
    obtain ⟨t, ht⟩ := ExplicitForm.exists_programOf_of_ofTokens h
    exact ⟨_, ht⟩
  · intro e h htext
    exact cause_ne_invalid_of_compile h (Cause.eq_invalid_of_text htext)
  · intro e h
    obtain ⟨t, hempty, heval⟩ := exists_eval_of_compile h
    exact ⟨hempty, fun v => ⟨t.eval v, heval v⟩⟩
  · intro v f h
    cases hcompile : compile x source with
    | error e =>
      rw [evalSource, hcompile] at h
      exact ⟨e, (Except.error.inj h).symm⟩
    | ok e =>
      obtain ⟨t, -, heval⟩ := exists_eval_of_compile hcompile
      rw [evalSource_of_compile hcompile (heval v)] at h
      cases h

/-- What is written for `-x`, with the sign as an operator of its own, orders to a program. -/
theorem orders_negation : ∃ p, OperatorStack.programOf
    [⟨.number (-1), 0⟩, ⟨.operator .sign, 0⟩, ⟨.argument, 1⟩] = .ok p := by
  exact never_fails_late.1 [⟨.operator .sub, 0⟩, ⟨.argument, 1⟩] _ rfl

end Expression
end TransferFunction
