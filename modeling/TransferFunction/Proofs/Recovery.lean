import TransferFunction.Proofs.Lexing
import TransferFunction.Proofs.Outline

/-! # What a pass has read can be told from what it has written

Offsets tell what was written in a source from what a pass has inserted: as long as they grow along the source, two tokens of
the output stand at the same offset only if both were written for one token. So all can be taken back, except that unary
pluses leave nothing behind.
-/

namespace TransferFunction

def Symbol.isOperator : Symbol → Bool
  | .operator _ => true
  | .number _ | .argument | .imaginaryUnit | .opening | .closing => false

namespace ExplicitForm
open PartialFold

/-- A list without its unary pluses: those where an operand is expected. -/
def dropPluses (expects : Bool) : List Token → List Token
  | [] => []
  | t :: ts =>
    if expects = true ∧ t.symbol = .operator .add then dropPluses true ts else t :: dropPluses (!t.endsOperand) ts

/-- An operator at the offset of the token behind it was implied, and is dropped. The number `-1` with a sign at its offset
was a minus. -/
def recover : List Token → List Token
  | t :: u :: ts =>
    if t.offset ≠ u.offset then t :: recover (u :: ts)
    else if t.symbol.isOperator then recover (u :: ts)
    else if t.symbol = .number (-1) ∧ u.symbol = .operator .sign then ⟨.operator .sub, t.offset⟩ :: recover ts
    else t :: recover (u :: ts)
  | ts => ts

variable {t : Token} {ts out : List Token}

theorem recover_cons (h : ∀ u ∈ out, t.offset < u.offset) : recover (t :: out) = t :: recover out := by
  cases out with
  | nil => rfl
  | cons u out => rw [recover, if_pos (Nat.ne_of_lt (h u List.mem_cons_self))]

theorem recover_implied (op : Operator) (s : Symbol) (o : Nat) (out : List Token) :
    recover (⟨.operator op, o⟩ :: ⟨s, o⟩ :: out) = recover (⟨s, o⟩ :: out) := by
  rw [recover, if_neg (not_not_intro rfl), Symbol.isOperator, if_pos rfl]

theorem recover_negation (o : Nat) (out : List Token) :
    recover (⟨.number (-1), o⟩ :: ⟨.operator .sign, o⟩ :: out) = ⟨.operator .sub, o⟩ :: recover out := by
  rw [recover, if_neg (not_not_intro rfl), Symbol.isOperator, if_neg Bool.false_ne_true, if_pos ⟨rfl, rfl⟩]

theorem exists_of_mem_explicitTokens {expects : Bool} (h : t ∈ explicitTokens expects ts) : ∃ u ∈ ts, u.offset = t.offset := by
  induction ts generalizing expects with
  | nil => cases h
  | cons u ts ih =>
    rcases List.mem_append.mp h with h | h
    · obtain ⟨s, -, rfl⟩ := List.mem_map.mp h
      exact ⟨u, List.mem_cons_self, rfl⟩
    · obtain ⟨v, hv, hoffset⟩ := ih h
      exact ⟨v, List.mem_cons_of_mem u hv, hoffset⟩

/-- What is written for the tokens behind another one stands behind it. -/
theorem offset_lt_of_mem_explicitTokens (h : ∀ u ∈ ts, t.offset < u.offset) (expects : Bool) :
    ∀ u ∈ explicitTokens expects ts, t.offset < u.offset := by
  intro u hu
  obtain ⟨v, hv, hoffset⟩ := exists_of_mem_explicitTokens hu
  rw [← hoffset]
  exact h v hv

theorem pairwise_explicitTokens (h : ts.Pairwise fun t u => t.offset < u.offset) (expects : Bool) :
    (explicitTokens expects ts).Pairwise fun t u => t.offset ≤ u.offset := by
  induction ts generalizing expects with
  | nil => exact .nil
  | cons t ts ih =>
    obtain ⟨ht, hts⟩ := List.pairwise_cons.mp h
    refine List.pairwise_append.mpr ⟨?_, ih hts _, ?_⟩
    · exact List.pairwise_map.mpr (List.pairwise_of_forall fun _ _ => Nat.le_refl _)
    · intro u hu v hv
      obtain ⟨s, -, rfl⟩ := List.mem_map.mp hu
      exact Nat.le_of_lt (offset_lt_of_mem_explicitTokens ht _ v hv)

/-- What is written for an accepted token gives the token back, unless it is a unary plus. -/
theorem recover_expand {o o' : Outline} (hstep : o.step t.symbol = .ok o') (h : ∀ u ∈ out, t.offset < u.offset) :
    recover ((expand o.expects t.symbol).map (Token.mk · t.offset) ++ out) =
      if o.expects = true ∧ t.symbol = .operator .add then recover out else t :: recover out := by
  obtain ⟨symbol, offset⟩ := t
  obtain ⟨depth, expects⟩ := o
  have hself : recover (⟨symbol, offset⟩ :: out) = ⟨symbol, offset⟩ :: recover out := recover_cons h
  cases symbol with
  | number _ | argument | imaginaryUnit | opening =>
    rw [if_neg fun hplus => Symbol.noConfusion hplus.2]
    cases expects with
    | true => exact hself
    | false => exact (recover_implied _ _ _ _).trans hself
  | closing =>
    rw [if_neg fun hplus => Symbol.noConfusion hplus.2]
    exact hself
  | operator op =>
    rcases Outline.step_operator_eq_ok.mp hstep with ⟨he, rfl | rfl, -⟩ | ⟨he, -⟩
    · rw [if_pos ⟨he, rfl⟩, he]
      rfl
    · rw [if_neg (fun hplus => by cases hplus.2), he]
      exact recover_negation offset out
    · rw [if_neg (fun hplus => by cases he.symm.trans hplus.1), he]
      exact hself

theorem recover_explicitTokens {o o' : Outline} (hrun : o.run (ts.map Token.symbol) = .ok o')
    (h : ts.Pairwise fun t u => t.offset < u.offset) :
    recover (explicitTokens o.expects ts) = dropPluses o.expects ts := by
  induction ts generalizing o with
  | nil => rfl
  | cons t ts ih =>
    obtain ⟨o₁, hstep, hrun⟩ := cons_eq_ok.mp hrun
    obtain ⟨ht, hts⟩ := List.pairwise_cons.mp h
    have hexpects : o₁.expects = !t.endsOperand := Outline.expects_of_step hstep
    have hrest := ih hrun hts
    rw [hexpects] at hrest
    rw [explicitTokens, recover_expand hstep (offset_lt_of_mem_explicitTokens ht _), dropPluses, hrest]
    split
    · next hplus => rw [Token.endsOperand, hplus.2]; rfl
    · rfl

/-- The offsets grow along the tokens of a source. If they do along a list that a pass accepts, whatever its numbers and
operators, they never decrease in what the pass has written, all of them are offsets of the list, and the list without its
unary pluses is recovered from what was written alone. So lists for which the same is written differ in unary pluses at
most. -/
theorem recovers_tokens :
    (∀ (x : Variable) (source : String) (ts : List Token), Token.scan x source = .ok ts →
      ts.Pairwise fun t u => t.offset < u.offset) ∧
    ∀ ts out : List Token, (ts.Pairwise fun t u => t.offset < u.offset) → ofTokens ts = .ok out →
      (out.Pairwise fun t u => t.offset ≤ u.offset) ∧ (∀ t ∈ out, ∃ u ∈ ts, u.offset = t.offset) ∧
      recover out = dropPluses true ts ∧
      ∀ us : List Token, (us.Pairwise fun t u => t.offset < u.offset) → ofTokens us = .ok out →
        dropPluses true us = dropPluses true ts := by
  have hrecover : ∀ ts out : List Token, (ts.Pairwise fun t u => t.offset < u.offset) → ofTokens ts = .ok out →
      recover out = dropPluses true ts := by
    intro ts out hts h
    obtain ⟨hrun, rfl⟩ := run_of_ofTokens h
    exact recover_explicitTokens (o := .start) hrun hts
  refine ⟨fun x source ts h => (Token.lexes_of_scanFrom h).pairwise_offset, fun ts out hts h => ⟨?_, ?_, ?_, ?_⟩⟩
  · obtain ⟨-, rfl⟩ := run_of_ofTokens h
    exact pairwise_explicitTokens hts true
  · intro t ht
    obtain ⟨-, rfl⟩ := run_of_ofTokens h
    exact exists_of_mem_explicitTokens ht
  · exact hrecover ts out hts h
  · intro us hus hout
    rw [← hrecover us out hus hout, ← hrecover ts out hts h]

/-- From what is written for `-+x2` the minus and the juxtaposition come back. The plus does not. -/
theorem recovers_tokens_shorthand :
    ofTokens [⟨.operator .sub, 0⟩, ⟨.operator .add, 1⟩, ⟨.argument, 2⟩, ⟨.number 2, 3⟩] =
      .ok [⟨.number (-1), 0⟩, ⟨.operator .sign, 0⟩, ⟨.argument, 2⟩, ⟨.operator .pow, 3⟩, ⟨.number 2, 3⟩] ∧
    recover [⟨.number (-1), 0⟩, ⟨.operator .sign, 0⟩, ⟨.argument, 2⟩, ⟨.operator .pow, 3⟩, ⟨.number 2, 3⟩] =
      [⟨.operator .sub, 0⟩, ⟨.argument, 2⟩, ⟨.number 2, 3⟩] := by
  have h : ofTokens [⟨.operator .sub, 0⟩, ⟨.operator .add, 1⟩, ⟨.argument, 2⟩, ⟨.number 2, 3⟩] =
      .ok [⟨.number (-1), 0⟩, ⟨.operator .sign, 0⟩, ⟨.argument, 2⟩, ⟨.operator .pow, 3⟩, ⟨.number 2, 3⟩] := rfl
  exact ⟨h, (recovers_tokens.2 _ _ (by simp) h).2.2.1⟩

end ExplicitForm
end TransferFunction
