import TransferFunction.Proofs.Compilation
import TransferFunction.Session

/-! # What a session remembers

An edit replaces all that depends on the source, so of any run of edits a session keeps the variable and the last text only.
What it shows is what one compilation of this text gives, and its points are those of one evaluation.
-/

namespace TransferFunction.Session

section Edits

variable [Arithmetic]

/-- The session that a variable and a text alone determine. -/
def ofSource (x : Variable) (text : String) : Session :=
  match Expression.compile x text with
  | .ok e => ⟨x, text, e, none⟩
  | .error e => ⟨x, text, .empty, some e⟩

/-- The session after the texts `sources` have been entered, in order. -/
def after (x : Variable) (sources : List String) : Session := sources.foldl edit (start x)

theorem edit_eq_ofSource (s : Session) (text : String) : s.edit text = ofSource s.argument text := by
  cases h : Expression.compile s.argument text with
  | ok e => simp [edit, submit, ofSource, h]
  | error e => simp [edit, submit, ofSource, h]

theorem argument_ofSource (x : Variable) (text : String) : (ofSource x text).argument = x := by
  simp only [ofSource]
  split
  · rfl
  · rfl

theorem foldl_edit_ofSource (x : Variable) (text : String) (sources : List String) :
    sources.foldl edit (ofSource x text) = ofSource x (sources.getLastD text) := by
  induction sources generalizing text with
  | nil => rfl
  | cons next sources ih =>
    have hedit : (ofSource x text).edit next = ofSource x next := by rw [edit_eq_ofSource, argument_ofSource]
    rw [List.foldl_cons, hedit, ih, List.getLastD_cons]

theorem after_eq_ofSource (x : Variable) (sources : List String) :
    after x sources = ofSource x (sources.getLastD startingSource) := by
  rw [after, start, edit_eq_ofSource, foldl_edit_ofSource]

/-- What a session shows that has the variable `x` and the text `text`. -/
structure Shows (s : Session) (x : Variable) (text : String) : Prop where
  argument : s.argument = x
  source : s.source = text
  compiled : ∀ e, Expression.compile x text = .ok e → s.expression = e ∧ s.diagnostic = none
  refused : ∀ e, Expression.compile x text = .error e → s.expression = .empty ∧ s.diagnostic = some e
  /-- There is either a program or a diagnostic. -/
  exclusive : s.expression.program.isSome = !s.diagnostic.isSome
  /-- A point is made from the value at `j · t`, and left out only if a coordinate is not finite. -/
  point : ∀ e, Expression.compile x text = .ok e → ∀ t, ∃ w, evalSource x text ⟨0, t⟩ = .ok w ∧
    (s.sample .nyquist t = if w.re.isFinite && w.im.isFinite then some (w.re, w.im) else none) ∧
    (s.sample .real t = if t.isFinite && w.re.isFinite then some (t, w.re) else none) ∧
    s.sample .imaginary t = if t.isFinite && w.im.isFinite then some (t, w.im) else none
  noPoint : ∀ e, Expression.compile x text = .error e → ∀ curve t, s.sample curve t = none

theorem shows_of_compile {x : Variable} {text : String} {e : Expression} (h : Expression.compile x text = .ok e) :
    Shows ⟨x, text, e, none⟩ x text where
  argument := rfl
  source := rfl
  compiled := by simp [h]
  refused := by simp [h]
  exclusive := by
    obtain ⟨_, hempty, -⟩ := Expression.exists_eval_of_compile h
    rw [Expression.isEmpty, Option.isNone_eq_false_iff] at hempty
    exact hempty
  point := by
    intro e' h' t
    obtain ⟨tree, -, heval⟩ := Expression.exists_eval_of_compile h
    have hsample (curve : Curve) : sample ⟨x, text, e, none⟩ curve t =
        (some (curve.point t (tree.eval ⟨0, t⟩))).filter fun p => p.1.isFinite && p.2.isFinite := by
      rw [sample, Expression.frequencyResponse, heval]
    exact ⟨tree.eval ⟨0, t⟩, Expression.evalSource_of_compile h (heval _), hsample _, hsample _, hsample _⟩
  noPoint := by simp [h]

theorem shows_of_refusal {x : Variable} {text : String} {e : CompileError} (h : Expression.compile x text = .error e) :
    Shows ⟨x, text, .empty, some e⟩ x text where
  argument := rfl
  source := rfl
  compiled := by simp [h]
  refused := by simp [h]
  exclusive := rfl
  point := by simp [h]
  noPoint := fun _ _ _ _ => rfl

theorem shows_ofSource (x : Variable) (text : String) : (ofSource x text).Shows x text := by
  cases h : Expression.compile x text with
  | ok e =>
    have hs : ofSource x text = ⟨x, text, e, none⟩ := by simp [ofSource, h]
    rw [hs]
    exact shows_of_compile h
  | error e =>
    have hs : ofSource x text = ⟨x, text, .empty, some e⟩ := by simp [ofSource, h]
    rw [hs]
    exact shows_of_refusal h

end Edits

/-- Whatever has been entered, a session shows the last text and nothing older, and each edit answers with the diagnostic that
is shown from then on. So two runs of edits that end with one text lead to the same session. -/
theorem after_shows_last [Arithmetic] (x : Variable) (sources : List String) :
    (after x sources).Shows x (sources.getLastD "0") ∧
      (∀ source, ((after x sources).submit source).2 = (after x (sources ++ [source])).diagnostic) ∧
      ∀ others : List String, others.getLastD "0" = sources.getLastD "0" →
        after x others = after x sources := by
  refine ⟨?_, ?_, ?_⟩
  · rw [after_eq_ofSource]
    exact shows_ofSource x _
  · intro source
    rw [after, after, List.foldl_append]
    rfl
  · intro others hlast
    have hofSource : ofSource x (others.getLastD "0") = ofSource x (sources.getLastD "0") := by rw [hlast]
    exact (after_eq_ofSource x others).trans (hofSource.trans (after_eq_ofSource x sources).symm)

/-- A text that is refused takes the program away and leaves its error, until the next text is entered. Then the point at
`2j` is shown again. -/
theorem after_unmatched_closing :
    (after .standard ["s", ")"]).expression = .empty ∧
      (after .standard ["s", ")"]).diagnostic = some ⟨0, .unmatchedClosing⟩ ∧
      (after .standard ["s", ")"]).sample .nyquist 2 = none ∧
      after .standard [")", "s"] = after .standard ["s"] ∧
      (after .standard ["s"]).sample .nyquist 2 = some (0, 2) := by
  have hclosing : Token.scan .standard ")" = .ok [⟨.closing, 0⟩] := by decide +kernel
  have hletter : Token.scan .standard "s" = .ok [⟨.argument, 0⟩] := by decide +kernel
  have hrefused : Expression.compile .standard ")" = .error ⟨0, .unmatchedClosing⟩ :=
    Expression.compile_eq_error.mpr (.inr ⟨_, hclosing, rfl⟩)
  have hcompile := Expression.compile_of_binds hletter rfl (Grammar.Binds.argument.of_le (by decide))
  have hvalue : evalSource .standard "s" ⟨0, 2⟩ = .ok ⟨0, 2⟩ := Expression.evalSource_of_compile hcompile rfl
  obtain ⟨hempty, hdiagnostic⟩ := (after_shows_last .standard ["s", ")"]).1.refused _ hrefused
  have hnone := (after_shows_last .standard ["s", ")"]).1.noPoint _ hrefused .nyquist 2
  obtain ⟨w, hw, hpoint, -⟩ := (after_shows_last .standard ["s"]).1.point _ hcompile 2
  cases hvalue.symm.trans hw
  refine ⟨hempty, hdiagnostic, hnone, (after_shows_last .standard ["s"]).2.2 [")", "s"] rfl, ?_⟩
  rw [hpoint]
  exact if_pos (by decide +kernel)

end TransferFunction.Session
