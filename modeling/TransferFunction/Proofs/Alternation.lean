import TransferFunction.Proofs.Language

/-! # Explicit forms alternate

What a pass writes for a formula is a list in which operands and operators take turns inside balanced parentheses.
-/

namespace TransferFunction.Grammar
open ExplicitForm

theorem Alternates.append {single : Bool} {ts us : List Symbol} (op : Operator) (ht : Alternates false ts)
    (hu : Alternates single us) : Alternates false (ts ++ .operator op :: us) := by
  induction hu with
  | operand _ ih => exact ih
  | operator _ hv iht _ =>
    rw [← List.cons_append, ← List.append_assoc]
    exact .operator iht hv
  | number n => exact .operator ht (.number n)
  | argument => exact .operator ht .argument
  | imaginaryUnit => exact .operator ht .imaginaryUnit
  | group hu _ => exact .operator ht (.group hu)

theorem startsOperand_of_startsFactor {s : Symbol} (h : startsFactor s = true) : s.startsOperand = true := by
  cases s with
  | argument | imaginaryUnit | opening => rfl
  | number _ | closing | operator _ => cases h

theorem explicit_false_of_startsFactor {s : Symbol} (hs : startsFactor s = true) (ss : List Symbol) :
    explicit false (s :: ss) = .operator .mul :: explicit true (s :: ss) := by
  rw [explicit_false_cons (startsOperand_of_startsFactor hs)]
  cases s with
  | argument | imaginaryUnit | opening => rfl
  | number _ | closing | operator _ => cases hs

variable {binary : Operator → Prop}

theorem Accepts.expectsAfter {c : Category} {ss : List Symbol} (h : Accepts binary c ss) :
    expectsAfter true ss = false := expectsAfter_of_run (h.run 0 (.inr rfl))

theorem Accepts.primary_head {ss : List Symbol} (h : Accepts binary .primary ss) :
    ∃ s us, ss = s :: us ∧ s.startsOperand = true := by
  cases h with
  | number n => exact ⟨_, _, rfl, rfl⟩
  | argument => exact ⟨_, _, rfl, rfl⟩
  | imaginaryUnit => exact ⟨_, _, rfl, rfl⟩
  | group _ => exact ⟨_, _, rfl, rfl⟩

theorem Accepts.alternates {c : Category} {ss : List Symbol} (h : Accepts binary c ss) :
    Alternates (c = .primary) (explicit true ss) := by
  induction h with
  | operand _ ih => exact ih
  | @operator ts us op ht _ _ iht ihu =>
    rw [explicit_append, ht.expectsAfter]
    exact iht.append op ihu
  | @juxtaposed ts us ht hu iht ihu =>
    obtain ⟨s, vs, rfl, hs⟩ := hu.primary_head
    rw [explicit_append, ht.expectsAfter, explicit_false_cons hs]
    exact iht.append (implied s) ihu
  | primary _ ih => exact .operand ih
  | plus _ ih => exact ih
  | minus _ ih => exact (Alternates.operand (.number (-1))).append .sign ih
  | number n => exact .number n
  | argument => exact .argument
  | imaginaryUnit => exact .imaginaryUnit
  | @group ts _ ih =>
    rw [explicit_group]
    exact .group ih

theorem alternates_of_run {ss : List Symbol} (h : Outline.start.run ss = .ok .complete) :
    Alternates false (explicit true ss) := by
  have hformula : Accepts (fun _ => True) .formula ss := (accepts_iff_run fun _ _ => trivial).mpr h
  exact hformula.alternates

end TransferFunction.Grammar
