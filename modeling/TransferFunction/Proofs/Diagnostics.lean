import TransferFunction.Proofs.Compilation

/-! # What stands where an error points

The offset of an error counts the bytes before some character of the source, and its text tells what this character is. A
source that cannot be scanned has the error where it is stuck; any other one at a token, which stands where its offset says.
-/

namespace TransferFunction

/-- What an error text says about the characters before the place of the error and about those from there on. -/
inductive Culprit (x : Variable) : String → List Char → List Char → Prop
  /-- No numeral goes on from `before` into the run of digits, separator and digits. -/
  | secondSeparator {before ds sep es sep' after} : (∀ c ∈ before.getLast?, Numeral.isStart c = false) →
      (∀ d ∈ ds, d.isDigit = true) → Numeral.isSeparator sep = true → (∀ e ∈ es, e.isDigit = true) →
      Numeral.isSeparator sep' = true →
      Culprit x "more than one decimal point" (before ++ (ds ++ sep :: es)) (sep' :: after)
  | noDigits {before sep after} : (∀ c ∈ before.getLast?, c.isDigit = false) → Numeral.isSeparator sep = true →
      (∀ c ∈ after.head?, c.isDigit = false) →
      Culprit x "digits expected before and/or after the point" before (sep :: after)
  | unexpectedCharacter {before c after} : Token.isGap c = false → (∀ s cs, ¬Symbol.Spelling x s (c :: cs)) →
      Culprit x ("expected a number, the variable `" ++ x.text ++ "`, the imaginary unit `" ++ imaginaryUnit.toString ++
        "`, a parenthesis or an operator") before (c :: after)
  | unmatchedClosing {before after} : Culprit x "unmatched closing parenthesis" before (')' :: after)
  | noOperandBeforeClosing {before after} : Culprit x "expected operand before closing parenthesis" before (')' :: after)
  | noOperandBeforeOperator {before c after} : c ∈ ['*', '/', '^'] →
      Culprit x "expected operand before operator" before (c :: after)
  | noOperandAfterOperator {before c after} : c ∈ ['+', '-', '*', '/', '^'] →
      Culprit x "expected operand after operator" before (c :: after)
  | unclosed {before after} : Culprit x "parenthesis not closed" before ('(' :: after)
  | empty {cs} : (∀ c ∈ cs, Token.isGap c = true ∨ c = '+') → Culprit x "empty expression" [] cs

/-- The place of an error in a source, and what its text says about it. -/
def CompileError.Fits (e : CompileError) (x : Variable) (cs : List Char) : Prop :=
  ∃ before rest, cs = before ++ rest ∧ byteLength before = e.offset ∧ Culprit x e.cause.text before rest

variable {x : Variable} {cs : List Char} {e : CompileError}

namespace Culprit

/-- Only a source that is empty has an error at its end. -/
theorem eq_nil_of_end {text : String} {before : List Char} (h : Culprit x text before []) : before = [] := by
  cases h
  rfl

theorem of_blames {c : Cause} {s : Symbol} {before text rest : List Char} (h : ExplicitForm.Blames c s)
    (hs : s.Spelling x text) : Culprit x c.text before (text ++ rest) := by
  cases h with
  | unmatchedClosing =>
    cases hs
    exact .unmatchedClosing
  | noOperandBeforeClosing =>
    cases hs
    exact .noOperandBeforeClosing
  | noOperandBeforeOperator hadd hsub =>
    cases hs with
    | add => exact absurd rfl hadd
    | sub => exact absurd rfl hsub
    | mul | div | pow => exact .noOperandBeforeOperator (by decide)
  | noOperandAfterOperator op => cases hs <;> exact .noOperandAfterOperator (by decide)
  | unclosed =>
    cases hs
    exact .unclosed

end Culprit

theorem Stuck.fits (h : Stuck x 0 cs e) : e.Fits x cs := by
  obtain ⟨before, rest, ts, rfl, hbefore, hrest, hbetween⟩ := h
  have hlength : byteLength before = 0 + before.length := by
    rw [byteLength_eq_length hbefore.utf8Size_eq, Nat.zero_add]
  rw [← hlength] at hrest
  -- a character of a numeral behind the place has none before it
  have hlast : ∀ c ∈ rest.head?, Numeral.isStart c = true → ∀ d ∈ before.getLast?, Numeral.isStart d = false := by
    intro c hc hstart d hd
    by_contra hd'
    exact absurd hstart (ne_true_of_eq_false (hbetween d hd (eq_true_of_ne_false hd') c hc))
  cases hrest with
  | @secondSeparator ds sep es sep' after hds hsep hes hsep' =>
    obtain ⟨c, hc, hstart⟩ : ∃ c ∈ (ds ++ sep :: es ++ sep' :: after).head?, Numeral.isStart c = true := by
      cases ds with
      | nil => exact ⟨sep, rfl, Numeral.isStart_of_isSeparator hsep⟩
      | cons d ds => exact ⟨d, rfl, Numeral.isStart_of_isDigit (hds d List.mem_cons_self)⟩
    refine ⟨before ++ (ds ++ sep :: es), sep' :: after, ?_, byteLength_append _ _, ?_⟩
    · rw [List.append_assoc before]
    · exact .secondSeparator (hlast c hc hstart) hds hsep hes hsep'
  | noDigits hsep hafter =>
    refine ⟨before, _, rfl, rfl, .noDigits (fun d hd => ?_) hsep hafter⟩
    exact (Numeral.isStart_eq_false.mp (hlast _ rfl (Numeral.isStart_of_isSeparator hsep) d hd)).1
  | unexpectedCharacter hgap hspelling => exact ⟨before, _, rfl, rfl, .unexpectedCharacter hgap hspelling⟩

namespace Lexes

variable {ts : List Token}

theorem isGap_or_eq_add {offset : Nat} (h : Lexes x offset cs ts) (hts : ∀ t ∈ ts, t.symbol = .operator .add) :
    ∀ c ∈ cs, Token.isGap c = true ∨ c = '+' := by
  induction h with
  | nil => exact List.forall_mem_nil _
  | gap hc _ ih => exact List.forall_mem_cons.mpr ⟨.inl hc, ih hts⟩
  | lexeme hs _ _ ih =>
    obtain ⟨hadd, hrest⟩ := List.forall_mem_cons.mp hts
    cases hadd
    cases hs
    exact List.forall_mem_cons.mpr ⟨.inr rfl, ih hrest⟩

theorem fits (h : Lexes x 0 cs ts) (he : ExplicitForm.ofTokens ts = .error e) : e.Fits x cs := by
  cases ExplicitForm.concerns_of_ofTokens_error he with
  | empty hadd => exact ⟨[], cs, rfl, rfl, .empty (h.isGap_or_eq_add hadd)⟩
  | token ht hblames =>
    obtain ⟨before, text, rest, rfl, hplace, hs⟩ := h.exists_of_mem ht
    have hlength : byteLength before = before.length :=
      byteLength_eq_length fun c hc => h.utf8Size_eq c (List.mem_append_left _ hc)
    exact ⟨before, text ++ rest, rfl, by rw [hlength, hplace, Nat.zero_add], .of_blames hblames hs⟩

end Lexes

namespace Expression

/-- Every error is one of nine, and it points at a character that its text is about. -/
theorem compile_error_fits [Arithmetic] {source : String} (h : compile x source = .error e) :
    (String.Pos.Raw.mk e.offset).IsValid source ∧
      (e.offset < source.utf8ByteSize ∨ source = "" ∧ e.offset = 0) ∧
      ∃ before rest, source.toList = before ++ rest ∧ byteLength before = e.offset ∧
        Culprit x e.cause.text before rest := by
  have hfits : e.Fits x source.toList := by
    rcases compile_eq_error.mp h with hscan | ⟨ts, hscan, hts⟩
    · exact (Token.stuck_of_scanFrom hscan).fits
    · exact (Token.lexes_of_scanFrom hscan).fits hts
  obtain ⟨before, rest, hsource, hoffset, hculprit⟩ := hfits
  have hsplit : source = String.ofList before ++ String.ofList rest := by
    rw [← String.ofList_append, ← hsource, String.ofList_toList]
  refine ⟨?boundary, ?bound, before, rest, hsource, hoffset, hculprit⟩
  case boundary =>
    rw [← hoffset]
    exact String.Pos.Raw.isValid_iff_exists_append.mpr ⟨_, _, hsplit, rfl⟩
  case bound =>
    cases rest with
    | nil =>
      obtain rfl := hculprit.eq_nil_of_end
      exact .inr ⟨String.toList_eq_nil_iff.mp hsource, hoffset.symm⟩
    | cons c rest =>
      have hsize : source.utf8ByteSize = byteLength before + byteLength (c :: rest) := by
        rw [hsplit, String.utf8ByteSize_append, byteLength, byteLength]
      rw [hsize, byteLength_cons, ← hoffset]
      exact .inl (Nat.lt_add_of_pos_right (Nat.add_pos_left c.utf8Size_pos _))

/-- A character of two bytes is reported where it starts. -/
theorem compile_accented : compile .standard "2s+é" = .error ⟨3, .unexpectedCharacter .standard⟩ ∧
    (String.Pos.Raw.mk 3).IsValid "2s+é" ∧
    ∃ before rest, "2s+é".toList = before ++ rest ∧ byteLength before = 3 ∧
      Culprit .standard (Cause.unexpectedCharacter .standard).text before rest := by
  have hscan : Token.scan .standard "2s+é" = .error ⟨3, .unexpectedCharacter .standard⟩ := by decide +kernel
  have hcompile := compile_eq_error.mpr (.inl hscan)
  obtain ⟨hvalid, -, hculprit⟩ := compile_error_fits hcompile
  exact ⟨hcompile, hvalid, hculprit⟩

end Expression
end TransferFunction
