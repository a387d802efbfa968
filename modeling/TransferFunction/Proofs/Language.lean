import TransferFunction.Grammar
import TransferFunction.Proofs.Outline

/-! # The lists that a pass accepts

The outline of a pass runs from its start to the end of a formula exactly on the formulas. One direction follows the
grammar. For the other, what has been read at any time is taken apart at the parentheses that are still open: each of the
parts between them is the beginning of a formula, and the last one is a whole formula unless an operand has to follow.
-/

namespace TransferFunction.Grammar
open ExplicitForm PartialFold

variable {binary : Operator → Prop}

/-- A phrase takes the outline from where an operand is expected to behind an operand; a primary may stand anywhere. -/
theorem Accepts.run {c : Category} {ss : List Symbol} (h : Accepts binary c ss) (n : Nat) {expects : Bool}
    (he : c = .primary ∨ expects = true) : Outline.run ⟨n, expects⟩ ss = .ok ⟨n, false⟩ := by
  induction h generalizing n expects with
  | operand _ ih => exact ih n (he.imp_left nofun)
  | @operator ts us op _ _ _ iht ihu =>
    rw [Outline.run_append_of_ok (iht n (he.imp_left nofun)),
      Outline.run_cons_of_ok (Outline.step_operator_eq_ok.mpr (.inr ⟨rfl, rfl⟩))]
    exact ihu n (.inr rfl)
  | juxtaposed _ _ iht ihu =>
    rw [Outline.run_append_of_ok (iht n (he.imp_left nofun))]
    exact ihu n (.inl rfl)
  | primary _ ih => exact ih n (.inl rfl)
  | plus _ ih =>
    obtain rfl := he.resolve_left nofun
    rw [Outline.run_cons_of_ok (Outline.step_operator_eq_ok.mpr (.inl ⟨rfl, .inl rfl, rfl⟩))]
    exact ih n (.inr rfl)
  | minus _ ih =>
    obtain rfl := he.resolve_left nofun
    rw [Outline.run_cons_of_ok (Outline.step_operator_eq_ok.mpr (.inl ⟨rfl, .inr rfl, rfl⟩))]
    exact ih n (.inr rfl)
  | number _ | argument | imaginaryUnit => rfl
  | group _ ih => exact Outline.run_group (ih (n + 1) (.inr rfl)) expects

/-- The beginning of a formula, without open parentheses. The flag tells whether an operand has to follow. -/
inductive Segment (binary : Operator → Prop) : Bool → List Symbol → Prop
  | empty : Segment binary true []
  | formula {ts} : Accepts binary .formula ts → Segment binary false ts
  | operator {ts op} : Accepts binary .formula ts → binary op → Segment binary true (ts ++ [.operator op])
  | sign {ts op} : Segment binary true ts → op = .add ∨ op = .sub → Segment binary true (ts ++ [.operator op])

/-- Segments with an opening parenthesis between each and the next: how many of these there are, and the flag of the last
segment. -/
inductive Nested (binary : Operator → Prop) : Nat → Bool → List Symbol → Prop
  | innermost {expects ts} : Segment binary expects ts → Nested binary 0 expects ts
  | opened {n before expects ts us} : Nested binary n before ts → Segment binary expects us →
      Nested binary (n + 1) expects (ts ++ .opening :: us)

theorem Segment.accepts_append_operand {ts us : List Symbol} (h : Segment binary true ts)
    (hu : Accepts binary .operand us) : Accepts binary .formula (ts ++ us) := by
  generalize he : true = expects at h
  induction h generalizing us with
  | empty => exact .operand hu
  | formula _ => cases he
  | operator ht hop =>
    rw [List.append_assoc]
    exact .operator ht hop hu
  | sign _ hop ih =>
    rw [List.append_assoc]
    rcases hop with rfl | rfl
    · exact ih (.plus hu) he
    · exact ih (.minus hu) he

theorem Segment.append_primary {expects : Bool} {ts us : List Symbol} (h : Segment binary expects ts)
    (hu : Accepts binary .primary us) : Segment binary false (ts ++ us) := by
  cases expects with
  | true => exact .formula (h.accepts_append_operand (.primary hu))
  | false =>
    cases h with
    | formula ht => exact .formula (.juxtaposed ht hu)

/-- What extends every segment extends the innermost one. -/
theorem Nested.append {n : Nat} {before after : Bool} {ts us : List Symbol} (h : Nested binary n before ts)
    (hu : ∀ vs, Segment binary before vs → Segment binary after (vs ++ us)) : Nested binary n after (ts ++ us) := by
  cases h with
  | innermost hs => exact .innermost (hu _ hs)
  | opened ht hs =>
    rw [List.append_assoc, List.cons_append]
    exact .opened ht (hu _ hs)

/-- A closed group is a primary of the segment around it. -/
theorem Nested.close {n : Nat} {ts : List Symbol} (h : Nested binary (n + 1) false ts) :
    Nested binary n false (ts ++ [.closing]) := by
  cases h with
  | @opened _ before _ ts us ht hs =>
    cases hs with
    | formula hu =>
      rw [List.append_assoc]
      exact ht.append fun vs hv => hv.append_primary (.group hu)

theorem Nested.step {o o' : Outline} {ts : List Symbol} {s : Symbol} (h : Nested binary o.depth o.expects ts)
    (hs : ∀ op, s = .operator op → binary op) (hstep : o.step s = .ok o') :
    Nested binary o'.depth o'.expects (ts ++ [s]) := by
  cases s with
  | number n =>
    cases hstep
    exact h.append fun vs hv => hv.append_primary (.number n)
  | argument =>
    cases hstep
    exact h.append fun vs hv => hv.append_primary .argument
  | imaginaryUnit =>
    cases hstep
    exact h.append fun vs hv => hv.append_primary .imaginaryUnit
  | opening =>
    cases hstep
    exact .opened h .empty
  | closing =>
    obtain ⟨hd, he, rfl⟩ := Outline.step_closing_eq_ok.mp hstep
    rw [he, ← Nat.succ_pred_eq_of_ne_zero hd] at h
    exact h.close
  | operator op =>
    rcases Outline.step_operator_eq_ok.mp hstep with ⟨he, hop, rfl⟩ | ⟨he, rfl⟩
    · rw [he] at h ⊢
      exact h.append fun vs hv => hv.sign hop
    · rw [he] at h
      refine h.append fun vs hv => ?_
      cases hv with
      | formula hv => exact .operator hv (hs op rfl)

theorem nested_of_run {o : Outline} {ss : List Symbol} (hs : ∀ op, .operator op ∈ ss → binary op)
    (h : Outline.start.run ss = .ok o) : Nested binary o.depth o.expects ss := by
  have hrun := PartialFold.invariant (f := Outline.step)
    (P := fun read o => (∀ op, .operator op ∈ read → binary op) → Nested binary o.depth o.expects read)
    (fun hread hstep hop => (hread fun op h => hop op (List.mem_append_left _ h)).step
      (fun op h => hop op (List.mem_append_right _ (h ▸ List.mem_singleton_self _))) hstep)
    [] (fun _ => .innermost .empty) h
  exact hrun hs

/-- The pass accepts the formulas. -/
theorem accepts_iff_run {ss : List Symbol} (hs : ∀ op, .operator op ∈ ss → binary op) :
    Accepts binary .formula ss ↔ Outline.start.run ss = .ok .complete := by
  constructor
  · intro h
    exact h.run 0 (.inr rfl)
  · intro h
    cases nested_of_run hs h with
    | innermost hseg =>
      cases hseg with
      | formula h => exact h

/-- What is accepted as a whole is accepted in any parentheses. -/
theorem run_of_complete {ss : List Symbol} (h : Outline.start.run ss = .ok .complete) (n : Nat) :
    Outline.run ⟨n, true⟩ ss = .ok ⟨n, false⟩ := by
  have hformula : Accepts (fun _ => True) .formula ss := (accepts_iff_run fun _ _ => trivial).mpr h
  exact hformula.run n (.inr rfl)

end TransferFunction.Grammar
