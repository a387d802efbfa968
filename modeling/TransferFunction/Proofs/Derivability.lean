import TransferFunction.Proofs.Unambiguity

/-! # Every formula has a derivation

`Accepts` lets a formula grow at its right end, whereas the layers take it apart from the left. So the induction asks what a
phrase becomes together with all that may follow it.
-/

namespace TransferFunction.Grammar

/-- What may follow a primary: the rest of its power, then of its product, then of its sum. -/
def Follows (us : List Symbol) : Prop :=
  ∃ es fs ts, us = es ++ fs ++ ts ∧ Nonempty (Derivation .exponent es) ∧ Nonempty (Derivation .factors fs) ∧
    Nonempty (Derivation .terms ts)

/-- A formula is the beginning of a sum and an operand the beginning of a power, wherever they may end. -/
def Begins : Category → List Symbol → Prop
  | .formula, ss => ∀ us, Follows us → Nonempty (Derivation .sum (ss ++ us))
  | .operand, ss => ∀ us, Nonempty (Derivation .exponent us) → Nonempty (Derivation .power (ss ++ us))
  | .primary, ss => Nonempty (Derivation .primary ss)

theorem Follows.nil : Follows [] := ⟨[], [], [], rfl, ⟨.noExponent⟩, ⟨.noFactor⟩, ⟨.noTerm⟩⟩

theorem Follows.operator {op : Operator} {ps us : List Symbol} (hop : Written op) (hp : Begins .operand ps)
    (hu : Follows us) : Follows (.operator op :: ps ++ us) := by
  obtain ⟨es, fs, ts, rfl, he, ⟨f⟩, ⟨t⟩⟩ := hu
  obtain ⟨p⟩ := hp es he
  cases op with
  | add =>
    refine ⟨[], [], _, ?_, ⟨.noExponent⟩, ⟨.noFactor⟩, ⟨.term .add (.inl rfl) (.product p f) t⟩⟩
    simp only [List.cons_append, List.append_assoc, List.nil_append]
  | sub =>
    refine ⟨[], [], _, ?_, ⟨.noExponent⟩, ⟨.noFactor⟩, ⟨.term .sub (.inr rfl) (.product p f) t⟩⟩
    simp only [List.cons_append, List.append_assoc, List.nil_append]
  | mul =>
    refine ⟨[], _, ts, ?_, ⟨.noExponent⟩, ⟨.factor .mul (.inl rfl) p f⟩, ⟨t⟩⟩
    simp only [List.cons_append, List.append_assoc, List.nil_append]
  | div =>
    refine ⟨[], _, ts, ?_, ⟨.noExponent⟩, ⟨.factor .div (.inr rfl) p f⟩, ⟨t⟩⟩
    simp only [List.cons_append, List.append_assoc, List.nil_append]
  | pow =>
    refine ⟨_, fs, ts, ?_, ⟨.exponent p⟩, ⟨f⟩, ⟨t⟩⟩
    simp only [List.cons_append, List.append_assoc]
  | sign => exact absurd rfl hop

theorem Follows.juxtaposed {ps us : List Symbol} (hp : Begins .primary ps) (hu : Follows us) : Follows (ps ++ us) := by
  obtain ⟨es, fs, ts, rfl, ⟨e⟩, ⟨f⟩, ⟨t⟩⟩ := hu
  obtain ⟨d⟩ := hp
  obtain ⟨s, vs, rfl, hs⟩ := d.primary_head
  have p : Derivation .power (s :: (vs ++ es)) := .power d e
  cases s with
  | number n =>
    refine ⟨_, fs, ts, ?_, ⟨.impliedExponent p⟩, ⟨f⟩, ⟨t⟩⟩
    simp only [List.cons_append, List.append_assoc]
  | argument | imaginaryUnit | opening =>
    refine ⟨[], _, ts, ?_, ⟨.noExponent⟩, ⟨.impliedFactor rfl p f⟩, ⟨t⟩⟩
    simp only [List.cons_append, List.append_assoc, List.nil_append]
  | closing | operator _ => cases hs

theorem Accepts.begins {c : Category} {ss : List Symbol} (h : Accepts Written c ss) : Begins c ss := by
  induction h with
  | operand _ ih =>
    rintro us ⟨es, fs, ts, rfl, he, ⟨f⟩, ⟨t⟩⟩
    obtain ⟨p⟩ := ih es he
    rw [← List.append_assoc, ← List.append_assoc]
    exact ⟨.sum (.product p f) t⟩
  | operator _ hop _ iht ihu =>
    intro us hu
    rw [List.append_assoc]
    exact iht _ (hu.operator hop ihu)
  | juxtaposed _ _ iht ihu =>
    intro us hu
    rw [List.append_assoc]
    exact iht _ (hu.juxtaposed ihu)
  | primary _ ih =>
    rintro us ⟨e⟩
    obtain ⟨d⟩ := ih
    exact ⟨.power d e⟩
  | plus _ ih =>
    intro us hu
    obtain ⟨p⟩ := ih us hu
    exact ⟨.plus p⟩
  | minus _ ih =>
    intro us hu
    obtain ⟨p⟩ := ih us hu
    exact ⟨.minus p⟩
  | number n => exact ⟨.number n⟩
  | argument => exact ⟨.argument⟩
  | imaginaryUnit => exact ⟨.imaginaryUnit⟩
  | group _ ih =>
    obtain ⟨d⟩ := ih [] Follows.nil
    rw [List.append_nil] at d
    exact ⟨.group d⟩

theorem Accepts.nonempty_derivation {ss : List Symbol} (h : Accepts Written .formula ss) :
    Nonempty (Derivation .sum ss) := by
  have hd := h.begins [] Follows.nil
  rwa [List.append_nil] at hd

end TransferFunction.Grammar
