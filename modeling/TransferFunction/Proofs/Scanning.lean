import TransferFunction.Grammar
import TransferFunction.Proofs.Lexing

/-! # What scanning yields

Whatever the source, no token is the sign of a unary minus, and every refusal is about single characters.
-/

namespace TransferFunction

theorem Lexes.written {x : Variable} {offset : Nat} {cs : List Char} {ts : List Token} (h : Lexes x offset cs ts) :
    ∀ op, .operator op ∈ ts.map Token.symbol → Grammar.Written op := by
  intro op hop
  induction h with
  | nil => cases hop
  | gap _ _ ih => exact ih hop
  | lexeme hs _ _ ih =>
    rcases List.mem_cons.mp hop with rfl | hop
    · cases hs <;> exact nofun
    · exact ih hop

namespace Token

/-- Among the tokens of a source are only operators that can be written. -/
theorem written_of_scan {x : Variable} {source : String} {ts : List Token} (h : scan x source = .ok ts) :
    ∀ op, .operator op ∈ ts.map Token.symbol → Grammar.Written op := (lexes_of_scanFrom h).written

theorem kind_of_scan_error {x : Variable} {source : String} {e : CompileError} (h : scan x source = .error e) :
    e.kind = .lexical := by
  obtain ⟨_, _, _, _, _, hmalformed, _⟩ := stuck_of_scanFrom h
  cases hmalformed <;> rfl

end Token
end TransferFunction
