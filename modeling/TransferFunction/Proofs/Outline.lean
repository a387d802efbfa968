import TransferFunction.Token.ExplicitForm
import TransferFunction.Proofs.PartialFold

/-! # The outline of a pass

Whether a token is accepted, and what is written for it, depends on two things only: how many parentheses are open, and
whether an operand has to follow. These two are the outline of a state. Offsets never decide anything; they go into what
is written and into errors.
-/

namespace TransferFunction.ExplicitForm
open PartialFold

structure Outline where
  depth : Nat
  expects : Bool
deriving DecidableEq

namespace Outline

def start : Outline := ⟨0, true⟩

/-- A complete formula has been read. -/
def complete : Outline := ⟨0, false⟩

def step (o : Outline) : Symbol → Except Cause Outline
  | .number _ | .argument | .imaginaryUnit => .ok ⟨o.depth, false⟩
  | .opening => .ok ⟨o.depth + 1, true⟩
  | .closing =>
    if o.depth = 0 then .error .unmatchedClosing
    else if o.expects then .error .noOperandBeforeClosing else .ok ⟨o.depth - 1, false⟩
  | .operator op =>
    if o.expects then
      match op with
      | .add | .sub => .ok o
      | _ => .error .noOperandBeforeOperator
    else .ok ⟨o.depth, true⟩

def run (o : Outline) (ss : List Symbol) : Except Cause Outline := ss.foldlM step o

theorem run_cons_of_ok {o o' : Outline} {s : Symbol} {ss : List Symbol} (h : o.step s = .ok o') :
    o.run (s :: ss) = o'.run ss := cons_of_ok h

theorem run_append_of_ok {o o' : Outline} {ss us : List Symbol} (h : o.run ss = .ok o') :
    o.run (ss ++ us) = o'.run us := append_of_ok h

/-- An operand may start anywhere. -/
theorem run_cons_of_startsOperand {s : Symbol} (h : s.startsOperand = true) (n : Nat) (expects : Bool)
    (ss : List Symbol) : run ⟨n, expects⟩ (s :: ss) = run ⟨n, true⟩ (s :: ss) := by
  cases s with
  | number _ | argument | imaginaryUnit | opening => rfl
  | closing | operator _ => cases h

variable {o o' : Outline} {c : Cause} {op : Operator}

theorem step_closing_eq_ok :
    o.step .closing = .ok o' ↔ o.depth ≠ 0 ∧ o.expects = false ∧ o' = ⟨o.depth - 1, false⟩ := by
  unfold step
  by_cases hd : o.depth = 0 <;> cases he : o.expects <;> simp [hd, eq_comm]

theorem step_closing_eq_error :
    o.step .closing = .error c ↔ o.depth = 0 ∧ c = .unmatchedClosing ∨
      o.depth ≠ 0 ∧ o.expects = true ∧ c = .noOperandBeforeClosing := by
  unfold step
  by_cases hd : o.depth = 0 <;> cases he : o.expects <;> simp [hd, eq_comm]

theorem step_operator_eq_ok :
    o.step (.operator op) = .ok o' ↔ o.expects = true ∧ (op = .add ∨ op = .sub) ∧ o' = o ∨
      o.expects = false ∧ o' = ⟨o.depth, true⟩ := by
  unfold step
  cases he : o.expects <;> cases op <;> simp [eq_comm]

theorem step_operator_eq_error :
    o.step (.operator op) = .error c ↔ o.expects = true ∧ op ≠ .add ∧ op ≠ .sub ∧ c = .noOperandBeforeOperator := by
  unfold step
  cases he : o.expects <;> cases op <;> simp [eq_comm]

/-- A group leads behind an operand wherever it stands, if what it encloses does from its start. -/
theorem run_group {n : Nat} {ss : List Symbol} (h : run ⟨n + 1, true⟩ ss = .ok ⟨n + 1, false⟩) (expects : Bool) :
    run ⟨n, expects⟩ (.opening :: ss ++ [.closing]) = .ok ⟨n, false⟩ := by
  have hclose : step ⟨n + 1, false⟩ .closing = .ok ⟨n, false⟩ :=
    step_closing_eq_ok.mpr ⟨Nat.succ_ne_zero n, rfl, rfl⟩
  exact (run_append_of_ok h).trans (run_cons_of_ok hclose)

/-- An operand has to follow unless the last symbol ended one. -/
theorem expects_of_step {s : Symbol} (h : o.step s = .ok o') : o'.expects = !s.endsOperand := by
  cases s with
  | number _ | argument | imaginaryUnit | opening =>
    cases h
    rfl
  | closing =>
    obtain ⟨-, -, rfl⟩ := step_closing_eq_ok.mp h
    rfl
  | operator op =>
    rcases step_operator_eq_ok.mp h with ⟨he, -, rfl⟩ | ⟨-, rfl⟩
    · exact he
    · rfl

end Outline

/-- The operator between an operand and a symbol that starts another one. -/
def implied : Symbol → Operator
  | .number _ => .pow
  | _ => .mul

/-- What is written for a symbol: the operator that it implies comes before it, a unary plus vanishes, and a unary minus
becomes a factor. -/
def expand (expects : Bool) : Symbol → List Symbol
  | .closing => [.closing]
  | .operator op =>
    if expects then
      match op with
      | .sub => [.number (-1), .operator .sign]
      | _ => []
    else [.operator op]
  | s => if expects then [s] else [.operator (implied s), s]

/-- The explicit form of a list that starts where an operand is expected, or behind one. -/
def explicit (expects : Bool) : List Symbol → List Symbol
  | [] => []
  | s :: ss => expand expects s ++ explicit (!s.endsOperand) ss

/-- The tokens of the explicit form. What is written for a token stands at its offset. -/
def explicitTokens (expects : Bool) : List Token → List Token
  | [] => []
  | t :: ts => (expand expects t.symbol).map (Token.mk · t.offset) ++ explicitTokens (!t.endsOperand) ts

theorem map_symbol_explicitTokens (expects : Bool) (ts : List Token) :
    (explicitTokens expects ts).map Token.symbol = explicit expects (ts.map Token.symbol) := by
  induction ts generalizing expects with
  | nil => rfl
  | cons t ts ih => simp [explicitTokens, explicit, ih, Token.endsOperand, Function.comp_def]

/-- Whether an operand has to follow a list. -/
def expectsAfter (expects : Bool) (ss : List Symbol) : Bool := ss.foldl (fun _ s => !s.endsOperand) expects

theorem explicit_append (expects : Bool) (ss us : List Symbol) :
    explicit expects (ss ++ us) = explicit expects ss ++ explicit (expectsAfter expects ss) us := by
  induction ss generalizing expects with
  | nil => rfl
  | cons s ss ih =>
    rw [List.cons_append, explicit, explicit, ih, List.append_assoc]
    rfl

/-- An operand behind another one brings the operator that it implies. -/
theorem explicit_false_cons {s : Symbol} (h : s.startsOperand = true) (ss : List Symbol) :
    explicit false (s :: ss) = .operator (implied s) :: explicit true (s :: ss) := by
  cases s with
  | number _ | argument | imaginaryUnit | opening => rfl
  | closing | operator _ => cases h

theorem explicit_concat_closing (expects : Bool) (ss : List Symbol) :
    explicit expects (ss ++ [.closing]) = explicit expects ss ++ [.closing] := by
  rw [explicit_append]
  rfl

theorem explicit_group (ss : List Symbol) :
    explicit true (.opening :: ss ++ [.closing]) = .opening :: explicit true ss ++ [.closing] :=
  congrArg (Symbol.opening :: ·) (explicit_concat_closing true ss)

theorem expectsAfter_of_run {o o' : Outline} {ss : List Symbol} (h : o.run ss = .ok o') :
    expectsAfter o.expects ss = o'.expects := by
  induction ss generalizing o with
  | nil =>
    cases h
    rfl
  | cons s ss ih =>
    obtain ⟨o₁, h₁, h₂⟩ := cons_eq_ok.mp h
    have hs := ih h₂
    rwa [Outline.expects_of_step h₁] at hs

namespace State

def outline (s : State) : Outline := ⟨s.unclosed.length, s.expectsOperand⟩

/-- The state after a token that is accepted. -/
def advance (s : State) (t : Token) : State where
  written := ((expand s.expectsOperand t.symbol).map (Token.mk · t.offset)).reverse ++ s.written
  unclosed := match t.symbol with
    | .opening => t.offset :: s.unclosed
    | .closing => s.unclosed.tail
    | _ => s.unclosed

/-- What is written last for a token is the token itself, or the sign for a unary minus. For any other operator nothing is
written where an operand is expected. -/
theorem written_advance (s : State) (t : Token) :
    (∃ rest, (s.advance t).written = t :: rest) ∨
      (t.symbol = .operator .sub ∧ ∃ rest, (s.advance t).written = ⟨.operator .sign, t.offset⟩ :: rest) ∨
      ∃ op, t.symbol = .operator op ∧ op ≠ .sub ∧ s.expectsOperand = true ∧ (s.advance t).written = s.written := by
  obtain ⟨symbol, offset⟩ := t
  cases he : s.expectsOperand with
  | false => cases symbol <;> simp [advance, expand, he]
  | true =>
    cases symbol with
    | operator op => cases op <;> simp [advance, expand, he]
    | number _ | argument | imaginaryUnit | opening | closing => simp [advance, expand, he]

theorem expectsOperand_advance (s : State) (t : Token) : (s.advance t).expectsOperand = !t.endsOperand := by
  rcases s.written_advance t with ⟨_, hw⟩ | ⟨ht, _, hw⟩ | ⟨op, ht, -, he, hw⟩
  · rw [State.expectsOperand, hw]
    rfl
  · rw [State.expectsOperand, hw, Token.endsOperand, ht]
    rfl
  · rw [State.expectsOperand, hw, Token.endsOperand, ht]
    exact he

/-- A token is accepted if its symbol is, and then it is written. -/
theorem step_of_ok {s : State} {t : Token} {o : Outline} (h : s.outline.step t.symbol = .ok o) :
    ExplicitForm.step s t = .ok (s.advance t) := by
  obtain ⟨symbol, offset⟩ := t
  cases symbol with
  | number n | argument | imaginaryUnit | opening =>
    cases he : s.expectsOperand <;> simp only [ExplicitForm.step, advance, expand, pushOperand, he] <;> rfl
  | closing =>
    obtain ⟨hd, he, -⟩ := Outline.step_closing_eq_ok.mp h
    obtain ⟨o, outer, hu⟩ := List.exists_cons_of_length_pos (Nat.pos_of_ne_zero hd)
    have he' : s.expectsOperand = false := he
    simp only [ExplicitForm.step, advance, expand, hu, he']
    rfl
  | operator op =>
    rcases Outline.step_operator_eq_ok.mp h with ⟨he, hop, -⟩ | ⟨he, -⟩
    · have he' : s.expectsOperand = true := he
      rcases hop with rfl | rfl <;> simp only [ExplicitForm.step, readSign, advance, expand, he'] <;> rfl
    · have he' : s.expectsOperand = false := he
      simp only [ExplicitForm.step, advance, expand, he']
      rfl

theorem step_of_error {s : State} {t : Token} {c : Cause} (h : s.outline.step t.symbol = .error c) :
    ExplicitForm.step s t = .error ⟨t.offset, c⟩ := by
  obtain ⟨symbol, offset⟩ := t
  cases symbol with
  | number _ | argument | imaginaryUnit | opening => cases h
  | closing =>
    rcases Outline.step_closing_eq_error.mp h with ⟨hd, rfl⟩ | ⟨hd, he, rfl⟩
    · have hu : s.unclosed = [] := List.length_eq_zero_iff.mp hd
      simp only [ExplicitForm.step, hu]
    · obtain ⟨o, outer, hu⟩ := List.exists_cons_of_length_pos (Nat.pos_of_ne_zero hd)
      have he' : s.expectsOperand = true := he
      simp only [ExplicitForm.step, hu, he', if_true]
  | operator op =>
    obtain ⟨he, hadd, hsub, rfl⟩ := Outline.step_operator_eq_error.mp h
    have he' : s.expectsOperand = true := he
    cases op with
    | add => exact absurd rfl hadd
    | sub => exact absurd rfl hsub
    | mul | div | pow | sign => simp only [ExplicitForm.step, readSign, he', if_true]

theorem outline_advance {s : State} {t : Token} {o : Outline} (h : s.outline.step t.symbol = .ok o) :
    (s.advance t).outline = o := by
  have hd : (s.advance t).unclosed.length = o.depth := by
    obtain ⟨symbol, offset⟩ := t
    cases symbol with
    | number _ | argument | imaginaryUnit | opening =>
      cases h
      rfl
    | closing =>
      obtain ⟨-, -, rfl⟩ := Outline.step_closing_eq_ok.mp h
      exact List.length_tail
    | operator op => rcases Outline.step_operator_eq_ok.mp h with ⟨-, -, rfl⟩ | ⟨-, rfl⟩ <;> rfl
  have he : (s.advance t).expectsOperand = o.expects :=
    (expectsOperand_advance s t).trans (Outline.expects_of_step h).symm
  rw [outline, hd, he]

end State

/-- A run accepts a list if its outline does, and then writes the explicit form. -/
theorem foldlM_step_of_run {ts : List Token} {s : State} {o : Outline}
    (h : s.outline.run (ts.map Token.symbol) = .ok o) :
    ∃ s', ts.foldlM step s = .ok s' ∧ s'.outline = o ∧
      s'.written.reverse = s.written.reverse ++ explicitTokens s.expectsOperand ts := by
  induction ts generalizing s with
  | nil =>
    cases h
    exact ⟨s, rfl, rfl, by rw [explicitTokens, List.append_nil]⟩
  | cons t ts ih =>
    obtain ⟨o₁, h₁, h₂⟩ := cons_eq_ok.mp h
    obtain ⟨s', hs', ho, hw⟩ := ih (s := s.advance t) (by rwa [State.outline_advance h₁])
    refine ⟨s', by rwa [cons_of_ok (State.step_of_ok h₁)], ho, ?_⟩
    rw [hw, State.expectsOperand_advance]
    simp [State.advance, explicitTokens]

/-- An error stands at a token, and its cause is that of the outline. -/
theorem foldlM_step_of_run_error {ts : List Token} {s : State} {c : Cause}
    (h : s.outline.run (ts.map Token.symbol) = .error c) :
    ∃ t ∈ ts, ts.foldlM step s = .error ⟨t.offset, c⟩ := by
  induction ts generalizing s with
  | nil => cases h
  | cons t ts ih =>
    rcases bind_eq_error.mp h with h₁ | ⟨o₁, h₁, h₂⟩
    · refine ⟨t, List.mem_cons_self, ?_⟩
      rw [List.foldlM_cons, State.step_of_error h₁]
      rfl
    · obtain ⟨u, hu, hrun⟩ := ih (s := s.advance t) (by rwa [State.outline_advance h₁])
      exact ⟨u, List.mem_cons_of_mem t hu, by rwa [cons_of_ok (State.step_of_ok h₁)]⟩

theorem step_eq_ok {s s' : State} {t : Token} (h : step s t = .ok s') :
    s' = s.advance t ∧ s.outline.step t.symbol = .ok s'.outline := by
  cases ho : s.outline.step t.symbol with
  | error c =>
    rw [State.step_of_error ho] at h
    cases h
  | ok o =>
    rw [State.step_of_ok ho] at h
    cases h
    rw [State.outline_advance ho]
    exact ⟨rfl, rfl⟩

theorem step_eq_error {s : State} {t : Token} {e : CompileError} (h : step s t = .error e) :
    ∃ c, s.outline.step t.symbol = .error c ∧ e = ⟨t.offset, c⟩ := by
  cases ho : s.outline.step t.symbol with
  | error c =>
    rw [State.step_of_error ho] at h
    exact ⟨c, rfl, (Except.error.inj h).symm⟩
  | ok o =>
    rw [State.step_of_ok ho] at h
    cases h

theorem run_of_foldlM_step {ts : List Token} {s s' : State} (h : ts.foldlM step s = .ok s') :
    s.outline.run (ts.map Token.symbol) = .ok s'.outline := by
  induction ts generalizing s with
  | nil =>
    cases h
    rfl
  | cons t ts ih =>
    obtain ⟨s₁, h₁, h₂⟩ := cons_eq_ok.mp h
    exact (Outline.run_cons_of_ok (step_eq_ok h₁).2).trans (ih h₂)

/-- What is written last is an opening parenthesis only while one is open. -/
def State.Balanced (s : State) : Prop := ∀ t ∈ s.written.head?, t.symbol = .opening → s.unclosed ≠ []

theorem balanced_advance {s : State} (hs : s.Balanced) (t : Token) : (s.advance t).Balanced := by
  intro u hu hopening
  rcases s.written_advance t with ⟨_, hw⟩ | ⟨-, _, hw⟩ | ⟨op, ht, -, -, hw⟩
  · rw [hw] at hu
    obtain rfl : t = u := Option.some.inj hu
    rw [State.advance, hopening]
    exact List.cons_ne_nil _ _
  · rw [hw] at hu
    cases hu
    cases hopening
  · rw [hw] at hu
    rw [State.advance, ht]
    exact hs u hu hopening

theorem balanced_of_foldlM {ts : List Token} {s : State} (h : ts.foldlM step .start = .ok s) : s.Balanced := by
  have hstart : State.Balanced .start := by
    intro t ht
    cases ht
  refine PartialFold.invariant (P := fun _ s => s.Balanced) (fun hs hstep => ?_) [] hstart h
  rw [(step_eq_ok hstep).1]
  exact balanced_advance hs _

theorem finish_of_complete {s : State} (h : s.outline = .complete) : finish s = .ok s.written.reverse := by
  have hu : s.unclosed = [] := List.length_eq_zero_iff.mp (congrArg Outline.depth h)
  have he : s.expectsOperand = false := congrArg Outline.expects h
  obtain ⟨written, unclosed⟩ := s
  subst hu
  match written, he with
  | ⟨.number _, _⟩ :: _, _ | ⟨.argument, _⟩ :: _, _ | ⟨.imaginaryUnit, _⟩ :: _, _ | ⟨.closing, _⟩ :: _, _ => rfl

theorem finish_of_not_complete {s : State} (hs : s.Balanced) (h : s.outline ≠ .complete) :
    ∃ e, finish s = .error e := by
  obtain ⟨written, unclosed⟩ := s
  match written with
  | [] => exact ⟨_, rfl⟩
  | ⟨.operator _, _⟩ :: _ => exact ⟨_, rfl⟩
  | ⟨.opening, _⟩ :: _ =>
    have hu : unclosed ≠ [] := hs _ rfl rfl
    exact ⟨⟨unclosed.getLast hu, .unclosed⟩, by simp only [finish, List.getLast?_eq_some_getLast hu]⟩
  | ⟨.number _, _⟩ :: _ | ⟨.argument, _⟩ :: _ | ⟨.imaginaryUnit, _⟩ :: _ | ⟨.closing, _⟩ :: _ =>
    have hu : unclosed ≠ [] := by
      rintro rfl
      exact h rfl
    exact ⟨⟨unclosed.getLast hu, .unclosed⟩, by simp only [finish, List.getLast?_eq_some_getLast hu]⟩

/-- A pass succeeds with the explicit form if its outline runs to the end. -/
theorem ofTokens_of_run {ts : List Token} (h : Outline.start.run (ts.map Token.symbol) = .ok .complete) :
    ofTokens ts = .ok (explicitTokens true ts) := by
  obtain ⟨s, hs, ho, hw⟩ := foldlM_step_of_run (s := .start) h
  have hwritten : s.written.reverse = explicitTokens true ts := hw
  rw [← hwritten]
  exact bind_eq_ok.mpr ⟨s, hs, finish_of_complete ho⟩

/-- All else is refused. -/
theorem ofTokens_of_run_ne {ts : List Token} (h : Outline.start.run (ts.map Token.symbol) ≠ .ok .complete) :
    ∃ e, ofTokens ts = .error e := by
  cases hrun : Outline.start.run (ts.map Token.symbol) with
  | error c =>
    obtain ⟨t, -, ht⟩ := foldlM_step_of_run_error (s := .start) hrun
    exact ⟨_, bind_eq_error.mpr (.inl ht)⟩
  | ok o =>
    obtain ⟨s, hs, ho, -⟩ := foldlM_step_of_run (s := .start) hrun
    have hne : s.outline ≠ .complete := by
      rintro heq
      rw [hrun, ← ho, heq] at h
      exact h rfl
    obtain ⟨e, he⟩ := finish_of_not_complete (balanced_of_foldlM hs) hne
    exact ⟨e, bind_eq_error.mpr (.inr ⟨s, hs, he⟩)⟩

theorem run_of_ofTokens {ts out : List Token} (h : ofTokens ts = .ok out) :
    Outline.start.run (ts.map Token.symbol) = .ok .complete ∧ out = explicitTokens true ts := by
  by_cases hrun : Outline.start.run (ts.map Token.symbol) = .ok .complete
  · rw [ofTokens_of_run hrun] at h
    exact ⟨hrun, (Except.ok.inj h).symm⟩
  · obtain ⟨e, he⟩ := ofTokens_of_run_ne hrun
    rw [h] at he
    cases he

end TransferFunction.ExplicitForm
