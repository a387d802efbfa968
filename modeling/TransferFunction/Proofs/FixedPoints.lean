import TransferFunction.Proofs.Alternation

/-! # What a pass leaves as it is

In an explicit form nothing is implied and no sign stands where an operand is expected, so every token of it is written as it
is, at its offset. Hence a second pass changes nothing, and the lists that a pass leaves as they are are the explicit forms.
-/

namespace TransferFunction

namespace ExplicitForm

/-- Every symbol is its own explicit form. -/
def Verbatim : Bool → List Symbol → Prop
  | _, [] => True
  | expects, s :: ss => expand expects s = [s] ∧ Verbatim (!s.endsOperand) ss

theorem verbatim_append {expects : Bool} {ss us : List Symbol} :
    Verbatim expects (ss ++ us) ↔ Verbatim expects ss ∧ Verbatim (expectsAfter expects ss) us := by
  induction ss generalizing expects with
  | nil => exact ⟨fun h => ⟨trivial, h⟩, And.right⟩
  | cons s ss ih =>
    rw [List.cons_append, Verbatim, Verbatim, ih, and_assoc]
    rfl

theorem Verbatim.explicitTokens_eq {expects : Bool} {ts : List Token} (h : Verbatim expects (ts.map Token.symbol)) :
    explicitTokens expects ts = ts := by
  induction ts generalizing expects with
  | nil => rfl
  | cons t ts ih =>
    obtain ⟨ht, hts⟩ := h
    have htail : explicitTokens (!t.endsOperand) ts = ts := ih hts
    rw [explicitTokens, ht, htail]
    rfl

end ExplicitForm

namespace Grammar
open ExplicitForm

/-- Explicit forms are formulas themselves, once the sign of a unary minus counts as a binary operator. -/
theorem Alternates.accepts {single : Bool} {ss : List Symbol} (h : Alternates single ss) :
    Accepts (fun _ => True) (if single then .primary else .formula) ss := by
  induction h with
  | operand _ ih => exact .operand (.primary ih)
  | operator _ _ iht ihu => exact .operator iht trivial (.primary ihu)
  | number n => exact .number n
  | argument => exact .argument
  | imaginaryUnit => exact .imaginaryUnit
  | group _ ih => exact .group ih

theorem Alternates.verbatim {single : Bool} {ss : List Symbol} (h : Alternates single ss) : Verbatim true ss := by
  induction h with
  | operand _ ih => exact ih
  | operator ht _ iht ihu =>
    refine verbatim_append.mpr ⟨iht, ?_⟩
    rw [ht.accepts.expectsAfter]
    exact ⟨rfl, ihu⟩
  | number _ | argument | imaginaryUnit => exact ⟨rfl, trivial⟩
  | group _ ih => exact ⟨rfl, verbatim_append.mpr ⟨ih, rfl, trivial⟩⟩

end Grammar

namespace ExplicitForm
open Grammar

theorem alternates_of_ofTokens {ts out : List Token} (h : ofTokens ts = .ok out) :
    Alternates false (out.map Token.symbol) := by
  obtain ⟨hrun, rfl⟩ := run_of_ofTokens h
  rw [map_symbol_explicitTokens]
  exact alternates_of_run hrun

theorem ofTokens_of_alternates {ts : List Token} (h : Alternates false (ts.map Token.symbol)) : ofTokens ts = .ok ts := by
  rw [ofTokens_of_run (h.accepts.run 0 (.inr rfl)), h.verbatim.explicitTokens_eq]

/-- What a pass has written stays as it is in a second one. The lists that stay as they are are those in which operands and
operators, any of the six, take turns inside balanced parentheses. -/
theorem fixed_points_alternate :
    (∀ ts out, ofTokens ts = .ok out → ofTokens out = .ok out) ∧
      ∀ out, ofTokens out = .ok out ↔ Alternates false (out.map Token.symbol) :=
  ⟨fun _ _ h => ofTokens_of_alternates (alternates_of_ofTokens h), fun _ => ⟨alternates_of_ofTokens, ofTokens_of_alternates⟩⟩

/-- The factor that stands for the minus of `-x` stays, at the offset of the minus, and so does the sign behind it. -/
theorem fixed_point_negation :
    ofTokens [⟨.operator .sub, 0⟩, ⟨.argument, 1⟩] = .ok [⟨.number (-1), 0⟩, ⟨.operator .sign, 0⟩, ⟨.argument, 1⟩] ∧
      ofTokens [⟨.number (-1), 0⟩, ⟨.operator .sign, 0⟩, ⟨.argument, 1⟩] =
        .ok [⟨.number (-1), 0⟩, ⟨.operator .sign, 0⟩, ⟨.argument, 1⟩] := by
  have h : ofTokens [⟨.operator .sub, 0⟩, ⟨.argument, 1⟩] =
      .ok [⟨.number (-1), 0⟩, ⟨.operator .sign, 0⟩, ⟨.argument, 1⟩] := rfl
  exact ⟨h, fixed_points_alternate.1 _ _ h⟩

end ExplicitForm
end TransferFunction
