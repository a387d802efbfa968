import Mathlib.Data.List.Chain
import TransferFunction.Proofs.StackMoves

/-! # The order of the operators that wait

An operator waits only on what does not yield to it. So between two parentheses on the stack the operators bind the tighter
the higher they are, and only such as group to the right wait on their equals. Whatever a token takes away or uncovers, this
stays: the part of an ordered stack below any entry is ordered too.
-/

namespace TransferFunction

namespace Operator

/-- Where `lower` may stay when `upper` comes to wait on it. -/
def StaysBelow (upper lower : Operator) : Prop :=
  lower.precedence < upper.precedence ∨ lower.precedence = upper.precedence ∧ lower.isRightAssociative = true

variable {upper lower : Operator}

theorem StaysBelow.precedence_le (h : upper.StaysBelow lower) : lower.precedence ≤ upper.precedence :=
  h.elim Nat.le_of_lt fun heq => Nat.le_of_eq heq.1

/-- Only the tightest operators group to the right. -/
theorem precedence_of_isRightAssociative {op : Operator} (h : op.isRightAssociative = true) : op.precedence = 3 := by
  cases op with
  | add | sub | mul | div => cases h
  | pow | sign => rfl

/-- Of two equals the upper one groups to the right as well, since associativity goes with precedence. -/
theorem StaysBelow.of_precedence_eq (h : upper.StaysBelow lower) (heq : lower.precedence = upper.precedence) :
    upper.precedence = 3 ∧ upper.isRightAssociative = true ∧ lower.isRightAssociative = true := by
  rcases h with hlt | ⟨-, hlower⟩
  · omega
  · have hupper : upper.isRightAssociative = true := by
      rw [isRightAssociative, ← isLeftAssociative_of_precedence_eq heq]
      exact hlower
    exact ⟨precedence_of_isRightAssociative hupper, hupper, hlower⟩

end Operator

namespace OperatorStack

theorem precedence_le_of_yields {op w : Operator} (h : yields op w = true) : op.precedence ≤ w.precedence := by
  simp only [yields, Bool.or_eq_true, decide_eq_true_eq, Bool.and_eq_true, beq_iff_eq] at h
  omega

theorem Keeps.staysBelow {op w : Operator} {below : List Pending} (h : Keeps op.precedence (.operator w :: below)) :
    op.StaysBelow w := by
  obtain ⟨hle, hright⟩ := yields_eq_false_iff.mp (h w below rfl op (Nat.le_refl _))
  rcases Nat.lt_or_eq_of_le hle with hlt | heq
  · exact .inl hlt
  · refine .inr ⟨heq, ?_⟩
    rw [Operator.isRightAssociative, Operator.isLeftAssociative_of_precedence_eq heq, hright heq.symm]
    rfl

/-- What each operator waits on keeps its place. -/
inductive Ordered : List Pending → Prop
  | nil : Ordered []
  | opening {offset rest} : Ordered rest → Ordered (.opening offset :: rest)
  | operator {op rest} : Keeps op.precedence rest → Ordered rest → Ordered (.operator op :: rest)

theorem Ordered.tail {p : Pending} {rest : List Pending} (h : Ordered (p :: rest)) : Ordered rest := by
  cases h with
  | opening hrest => exact hrest
  | operator _ hrest => exact hrest

theorem Ordered.of_append {above below : List Pending} (h : Ordered (above ++ below)) : Ordered below := by
  induction above with
  | nil => exact h
  | cons p above ih => exact ih h.tail

theorem Ordered.move {s s' : State} {t : Token} (h : Ordered s.pending) (hmove : Move s t s') : Ordered s'.pending := by
  cases hmove with
  | operand _ _ => exact h
  | operator _ _ hkeeps => exact .operator hkeeps h.of_append
  | opening _ => exact .opening h
  | closing _ => exact h.of_append.tail

theorem ordered_of_foldlM {ts : List Token} {s : State} (h : ts.foldlM step .start = .ok s) : Ordered s.pending :=
  PartialFold.invariant (P := fun _ s => Ordered s.pending) (fun hs hstep => hs.move (move_of_step hstep)) [] .nil h

theorem Ordered.isChain {ws : List Operator} {below : List Pending}
    (h : Ordered (ws.map Pending.operator ++ below)) : ws.IsChain Operator.StaysBelow := by
  induction ws with
  | nil => exact .nil
  | cons w ws ih =>
    have hws := ih h.tail
    cases ws with
    | nil => exact .singleton w
    | cons u us =>
      cases h with
      | operator hkeeps _ => exact .cons_cons hkeeps.staysBelow hws

/-- After any tokens, take any run of operators on the stack with no parenthesis between them. Towards the bottom their
precedence never grows, and neighbours of equal precedence both group to the right. The next operator releases only such as
bind at least as tightly; the one that it then waits on, if any, binds less tightly, or equally and groups to the right. -/
theorem pending_bind_tighter {ts : List Token} {s : State} (h : ts.foldlM step .start = .ok s) :
    (∀ (above : List Pending) (ws : List Operator) (below : List Pending),
      s.pending = above ++ (ws.map Pending.operator ++ below) →
      ws.Pairwise (fun upper lower => lower.precedence ≤ upper.precedence) ∧
        ws.IsChain fun upper lower => lower.precedence = upper.precedence →
          upper.precedence = 3 ∧ upper.isRightAssociative = true ∧ lower.isRightAssociative = true) ∧
      ∀ op offset, ∃ released rest, s.pending = released.map Pending.operator ++ rest ∧
        step s ⟨.operator op, offset⟩ = .ok ⟨releasing released s.output, .operator op :: rest⟩ ∧
        (∀ w ∈ released, op.precedence ≤ w.precedence) ∧
        ∀ w below, rest = .operator w :: below →
          w.precedence < op.precedence ∨ w.precedence = op.precedence ∧ w.isRightAssociative = true := by
  constructor
  · intro above ws below hpending
    have hordered : Ordered (above ++ (ws.map Pending.operator ++ below)) := hpending ▸ ordered_of_foldlM h
    have hchain : ws.IsChain Operator.StaysBelow := hordered.of_append.isChain
    refine ⟨?_, hchain.imp fun _ _ hstays heq => hstays.of_precedence_eq heq⟩
    have hle : ws.IsChain fun upper lower => lower.precedence ≤ upper.precedence :=
      hchain.imp fun _ _ hstays => hstays.precedence_le
    have : IsTrans Operator fun upper lower => lower.precedence ≤ upper.precedence :=
      ⟨fun _ _ _ huv hvw => Nat.le_trans hvw huv⟩
    exact hle.pairwise
  · intro op offset
    obtain ⟨released, rest, hpending, hpush, hreleased, hkeeps⟩ := exists_pushOperator op s.output s.pending
    refine ⟨released, rest, hpending, congrArg Except.ok hpush, fun w hw => precedence_le_of_yields (hreleased w hw), ?_⟩
    rintro w below rfl
    exact hkeeps.staysBelow

/-- `+ * *- ( / ^` is no formula. The parts of its stack are ordered nevertheless: `^` on `/` above the parenthesis, and `*-`
on `*` on `+` below it. Of all these a `-` can release the upper part only. -/
theorem pending_bind_tighter_nonsense : ∃ s, [⟨.operator .add, 0⟩, ⟨.operator .mul, 1⟩, ⟨.operator .sign, 2⟩, ⟨.opening, 3⟩,
      ⟨.operator .div, 4⟩, ⟨.operator .pow, 5⟩].foldlM step .start = .ok s ∧
    [Operator.sign, .mul, .add].Pairwise (fun upper lower => lower.precedence ≤ upper.precedence) ∧
      ∃ released rest, released.map Pending.operator ++ rest = [.operator .pow, .operator .div, .opening 3, .operator .sign,
          .operator .mul, .operator .add] ∧
        step s ⟨.operator .sub, 6⟩ = .ok ⟨releasing released [], .operator .sub :: rest⟩ ∧
        ∀ w ∈ released, Operator.sub.precedence ≤ w.precedence := by
  have hrun : [⟨.operator .add, 0⟩, ⟨.operator .mul, 1⟩, ⟨.operator .sign, 2⟩, ⟨.opening, 3⟩, ⟨.operator .div, 4⟩,
      ⟨.operator .pow, 5⟩].foldlM step .start = .ok ⟨[], [.operator .pow, .operator .div, .opening 3, .operator .sign,
        .operator .mul, .operator .add]⟩ := rfl
  obtain ⟨released, rest, hpending, hstep, hreleased, -⟩ := (pending_bind_tighter hrun).2 .sub 6
  have hlower := (pending_bind_tighter hrun).1 [.operator .pow, .operator .div, .opening 3] [.sign, .mul, .add] [] rfl
  exact ⟨_, hrun, hlower.1, released, rest, hpending.symm, hstep, hreleased⟩

end OperatorStack
end TransferFunction
