import TransferFunction.Proofs.Outline
import TransferFunction.Token.Parentheses

/-! # What a pass misses at the end

The verdict at the end of the input is read off the untouched list: the unary pluses at its end do not count, the last token
before them tells whether an operand is missing, and the parenthesis that is reported is the leftmost one without a partner.
-/

namespace TransferFunction.ExplicitForm
open PartialFold Parentheses

/-- `trimPluses` with the last token first. -/
def trimPlusesReversed : List Token → List Token
  | [] => []
  | t :: before =>
    if t.symbol = .operator .add ∧ !before.head?.any Token.endsOperand then trimPlusesReversed before else t :: before

/-- A list without the unary pluses at its end. A plus is unary where an operand is expected: at the start and behind a token
that ends no operand. -/
def trimPluses (ts : List Token) : List Token := (trimPlusesReversed ts.reverse).reverse

theorem trimPlusesReversed_isSuffix (ts : List Token) : trimPlusesReversed ts <:+ ts := by
  induction ts with
  | nil => exact List.suffix_refl []
  | cons t ts ih =>
    rw [trimPlusesReversed]
    split
    · exact ih.trans (List.suffix_cons t ts)
    · exact List.suffix_refl _

theorem trimPluses_isPrefix (ts : List Token) : trimPluses ts <+: ts := by
  have h := List.reverse_prefix.mpr (trimPlusesReversed_isSuffix ts.reverse)
  rwa [List.reverse_reverse] at h

theorem symbol_eq_add_of_trimPlusesReversed_eq_nil {ts : List Token} (h : trimPlusesReversed ts = []) :
    ∀ t ∈ ts, t.symbol = .operator .add := by
  induction ts with
  | nil => exact List.forall_mem_nil _
  | cons t ts ih =>
    rw [trimPlusesReversed] at h
    split at h
    · next hplus => exact List.forall_mem_cons.mpr ⟨hplus.1, ih h⟩
    · cases h

theorem symbol_eq_add_of_trimPluses_eq_nil {ts : List Token} (h : trimPluses ts = []) :
    ∀ t ∈ ts, t.symbol = .operator .add := fun t ht =>
  symbol_eq_add_of_trimPlusesReversed_eq_nil (List.reverse_eq_nil_iff.mp h) t (List.mem_reverse.mpr ht)

theorem trimPluses_concat_plus {ts : List Token} {t : Token} (ht : t.symbol = .operator .add)
    (hts : (!ts.getLast?.any Token.endsOperand) = true) : trimPluses (ts ++ [t]) = trimPluses ts := by
  rw [trimPluses, List.reverse_concat, trimPlusesReversed, if_pos ⟨ht, by rwa [List.head?_reverse]⟩, trimPluses]

theorem trimPluses_concat {ts : List Token} {t : Token}
    (h : ¬(t.symbol = .operator .add ∧ (!ts.getLast?.any Token.endsOperand) = true)) :
    trimPluses (ts ++ [t]) = ts ++ [t] := by
  rw [← List.head?_reverse] at h
  rw [trimPluses, List.reverse_concat, trimPlusesReversed, if_neg h, List.reverse_cons, List.reverse_reverse]

/-- The token `w` is written last for `t`: it is the token itself, or the sign for a minus. -/
def WrittenFor (w t : Token) : Prop :=
  w = t ∨ w.symbol = .operator .sign ∧ t.symbol = .operator .sub ∧ w.offset = t.offset

/-- What a state tells of the tokens that have been read. -/
structure State.Reflects (read : List Token) (s : State) : Prop where
  expects : s.expectsOperand = !read.getLast?.any Token.endsOperand
  last : Option.Rel WrittenFor s.written.head? (trimPluses read).getLast?
  unclosed : LeavesOpen s.unclosed read

theorem State.reflects_start : State.Reflects [] .start := ⟨rfl, .none, .balanced .nil⟩

theorem leavesOpen_advance {read : List Token} {s : State} {t : Token} {o : Outline} (h : LeavesOpen s.unclosed read)
    (hstep : s.outline.step t.symbol = .ok o) : LeavesOpen (s.advance t).unclosed (read ++ [t]) := by
  obtain ⟨symbol, offset⟩ := t
  cases symbol with
  | number _ | argument | imaginaryUnit | operator _ => exact h.append (.other nofun nofun .nil)
  | opening => exact .opening h .nil
  | closing =>
    obtain ⟨hd, -, -⟩ := Outline.step_closing_eq_ok.mp hstep
    obtain ⟨p, outer, hu⟩ := List.exists_cons_of_length_pos (Nat.pos_of_ne_zero hd)
    rw [hu] at h
    rw [State.advance, hu]
    exact h.close offset

theorem State.Reflects.step {read : List Token} {s s' : State} {t : Token} (h : s.Reflects read)
    (hstep : ExplicitForm.step s t = .ok s') : s'.Reflects (read ++ [t]) := by
  obtain ⟨rfl, houtline⟩ := step_eq_ok hstep
  refine ⟨?expects, ?last, leavesOpen_advance h.unclosed houtline⟩
  case expects =>
    rw [expectsOperand_advance, List.getLast?_concat]
    rfl
  case last =>
    by_cases hplus : t.symbol = .operator .add ∧ s.expectsOperand = true
    · obtain ⟨ht, he⟩ := hplus
      have hwritten : (s.advance t).written = s.written := by simp [advance, expand, ht, he]
      rw [hwritten, trimPluses_concat_plus ht (h.expects.symm.trans he)]
      exact h.last
    · rw [trimPluses_concat (h.expects ▸ hplus), List.getLast?_concat]
      rcases s.written_advance t with ⟨_, hw⟩ | ⟨ht, _, hw⟩ | ⟨op, ht, hne, he, -⟩
      · rw [hw]
        exact .some (.inl rfl)
      · rw [hw]
        exact .some (.inr ⟨rfl, ht, rfl⟩)
      · -- of the operators other than a minus only a plus is accepted here
        rw [ht] at houtline hplus
        rcases Outline.step_operator_eq_ok.mp houtline with ⟨-, rfl | rfl, -⟩ | ⟨he', -⟩
        · exact absurd ⟨rfl, he⟩ hplus
        · exact absurd rfl hne
        · cases he.symm.trans he'

theorem reflects_of_foldlM {ts : List Token} {s : State} (h : ts.foldlM step .start = .ok s) : s.Reflects ts :=
  PartialFold.invariant (fun hs hstep => hs.step hstep) [] State.reflects_start h

/-- Before the pluses at the end there is a token, and the last one is no operator. -/
def EndsWithoutOperator (ts : List Token) : Prop := ∃ t, (trimPluses ts).getLast? = some t ∧ ∀ op, t.symbol ≠ .operator op

theorem EndsWithoutOperator.ne_nil {ts : List Token} (h : EndsWithoutOperator ts) : trimPluses ts ≠ [] := by
  obtain ⟨t, hk, -⟩ := h
  intro hnil
  simp [hnil] at hk

theorem EndsWithoutOperator.last_ne {ts : List Token} (h : EndsWithoutOperator ts) (op : Operator) (o : Nat) :
    (trimPluses ts).getLast? ≠ some ⟨.operator op, o⟩ := by
  obtain ⟨t, hk, ht⟩ := h
  rw [hk]
  rintro ⟨⟩
  exact ht op rfl

theorem WrittenFor.offset_eq {w t : Token} (h : WrittenFor w t) : w.offset = t.offset := by
  rcases h with rfl | ⟨-, -, ho⟩
  · rfl
  · exact ho

theorem WrittenFor.operator_iff {w t : Token} (h : WrittenFor w t) :
    (∃ op, w.symbol = .operator op) ↔ ∃ op, t.symbol = .operator op := by
  rcases h with rfl | ⟨hw, ht, -⟩
  · rfl
  · simp [hw, ht]

theorem finish_of_operator {w : Token} {op : Operator} (hw : w.symbol = .operator op) (written : List Token)
    (unclosed : List Nat) : finish ⟨w :: written, unclosed⟩ = .error ⟨w.offset, .noOperandAfterOperator⟩ := by
  obtain ⟨symbol, offset⟩ := w
  cases hw
  rfl

theorem finish_of_not_operator {w : Token} (hw : ∀ op, w.symbol ≠ .operator op) (written : List Token)
    (unclosed : List Nat) : finish ⟨w :: written, unclosed⟩ = match unclosed.getLast? with
      | some offset => .error ⟨offset, .unclosed⟩
      | none => .ok (w :: written).reverse := by
  obtain ⟨symbol, offset⟩ := w
  cases symbol with
  | operator op => exact absurd rfl (hw op)
  | number _ | argument | imaginaryUnit | opening | closing => rfl

/-- The four answers at the end of a list, and when they are given. -/
theorem verdict_of_foldlM {ts : List Token} {s : State} (h : ts.foldlM step .start = .ok s) :
    (trimPluses ts = [] ∧ ofTokens ts = .error ⟨0, .empty⟩) ∨
      (∃ op o, (trimPluses ts).getLast? = some ⟨.operator op, o⟩ ∧ ofTokens ts = .error ⟨o, .noOperandAfterOperator⟩) ∨
      (EndsWithoutOperator ts ∧ ∃ o, FirstUnclosed ts o ∧ ofTokens ts = .error ⟨o, .unclosed⟩) ∨
      (EndsWithoutOperator ts ∧ AllClosed ts ∧ ∃ out, ofTokens ts = .ok out) := by
  obtain ⟨-, hlast, hunclosed⟩ := reflects_of_foldlM h
  have hfinish : ofTokens ts = finish s := by
    rw [ofTokens, h]
    rfl
  rw [hfinish]
  obtain ⟨written, unclosed⟩ := s
  cases hk : (trimPluses ts).getLast? with
  | none =>
    rw [hk] at hlast
    cases written with
    | nil => exact .inl ⟨List.getLast?_eq_none_iff.mp hk, rfl⟩
    | cons w written => cases hlast
  | some t =>
    rw [hk] at hlast
    cases written with
    | nil => cases hlast
    | cons w written =>
      obtain ⟨hw⟩ := hlast
      by_cases hop : ∃ op, w.symbol = .operator op
      · obtain ⟨op, ht⟩ := hw.operator_iff.mp hop
        obtain ⟨op', hwop⟩ := hop
        refine .inr (.inl ⟨op, t.offset, ?_, ?_⟩)
        · rw [← ht]
        · rw [finish_of_operator hwop, hw.offset_eq]
      · have hends : EndsWithoutOperator ts := ⟨t, hk, fun op ht => hop (hw.operator_iff.mpr ⟨op, ht⟩)⟩
        rw [finish_of_not_operator (fun op hwop => hop ⟨op, hwop⟩)]
        cases ho : unclosed.getLast? with
        | some o => exact .inr (.inr (.inl ⟨hends, o, hunclosed.firstUnclosed_iff.mpr ho, rfl⟩))
        | none =>
          have hnil : unclosed = [] := List.getLast?_eq_none_iff.mp ho
          exact .inr (.inr (.inr ⟨hends, hunclosed.allClosed_iff.mpr hnil, _, rfl⟩))

/-- How a list is answered that has been read to its end. If it has nothing but unary pluses, it is empty. Otherwise, if its
last token before them is an operator, an operand is missing there. Otherwise, if some opening parenthesis has no partner,
the leftmost of these is not closed. All else is accepted. -/
theorem answer_at_end {ts : List Token} {s : State} (h : ts.foldlM step .start = .ok s) :
    (ofTokens ts = .error ⟨0, .empty⟩ ↔ trimPluses ts = []) ∧
      (∀ o, ofTokens ts = .error ⟨o, .noOperandAfterOperator⟩ ↔
        ∃ op, (trimPluses ts).getLast? = some ⟨.operator op, o⟩) ∧
      (∀ o, ofTokens ts = .error ⟨o, .unclosed⟩ ↔ EndsWithoutOperator ts ∧ FirstUnclosed ts o) ∧
      (¬AllClosed ts ↔ ∃ o, FirstUnclosed ts o) ∧
      ((∃ out, ofTokens ts = .ok out) ↔ EndsWithoutOperator ts ∧ AllClosed ts) := by
  have hfirst : ¬AllClosed ts ↔ ∃ o, FirstUnclosed ts o := (reflects_of_foldlM h).unclosed.not_allClosed_iff
  rcases verdict_of_foldlM h with ⟨hk, ha⟩ | ⟨op, o, hk, ha⟩ | ⟨hends, o, ho, ha⟩ | ⟨hends, hall, out, ha⟩
  · have hnot : ¬EndsWithoutOperator ts := fun hends => hends.ne_nil hk
    simp [ha, hk, hnot, hfirst]
  · have hnot : ¬EndsWithoutOperator ts := fun hends => hends.last_ne op o hk
    have hne : trimPluses ts ≠ [] := by
      intro hnil
      simp [hnil] at hk
    simp [ha, hk, hnot, hne, hfirst]
  · have hunique : ∀ p, FirstUnclosed ts p ↔ o = p := fun p => ⟨ho.unique, fun h => h ▸ ho⟩
    simp [ha, hends, hends.ne_nil, hends.last_ne, hunique, ho.not_allClosed]
  · have hnone : ∀ p, ¬FirstUnclosed ts p := fun p hp => hp.not_allClosed hall
    simp [ha, hends, hends.ne_nil, hends.last_ne, hnone, hall]

/-- In `(x)((j)` the second parenthesis is the leftmost one that stays open. In `x-+` the minus lacks an operand. -/
theorem answer_at_end_second_group :
    FirstUnclosed [⟨.opening, 0⟩, ⟨.argument, 1⟩, ⟨.closing, 2⟩, ⟨.opening, 3⟩, ⟨.opening, 4⟩, ⟨.imaginaryUnit, 5⟩,
      ⟨.closing, 6⟩] 3 ∧
    ofTokens [⟨.argument, 0⟩, ⟨.operator .sub, 1⟩, ⟨.operator .add, 2⟩] = .error ⟨1, .noOperandAfterOperator⟩ := by
  obtain ⟨_, hgroups⟩ : ∃ s, [⟨.opening, 0⟩, ⟨.argument, 1⟩, ⟨.closing, 2⟩, ⟨.opening, 3⟩, ⟨.opening, 4⟩, ⟨.imaginaryUnit, 5⟩,
      ⟨.closing, 6⟩].foldlM step .start = .ok s := ⟨_, rfl⟩
  obtain ⟨_, hsigns⟩ : ∃ s, [⟨.argument, 0⟩, ⟨.operator .sub, 1⟩, ⟨.operator .add, 2⟩].foldlM step .start = .ok s :=
    ⟨_, rfl⟩
  constructor
  · exact (((answer_at_end hgroups).2.2.1 3).mp rfl).2
  · exact ((answer_at_end hsigns).2.1 1).mpr ⟨.sub, rfl⟩

end TransferFunction.ExplicitForm
