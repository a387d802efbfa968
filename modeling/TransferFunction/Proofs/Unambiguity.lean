import TransferFunction.Grammar

/-! # A formula has one derivation

The layered grammar can be read from the left with one symbol of lookahead: the next symbol tells whether a phrase goes on.
So two derivations of beginnings of one list, each of which ends where its layer stops, are the same.
-/

namespace TransferFunction.Grammar

/-- The precedence at which a symbol behind an operand goes on with it. -/
def joinPrecedence : Symbol → Nat
  | .operator op => op.precedence
  | .number _ => Operator.pow.precedence
  | .argument | .imaginaryUnit | .opening => Operator.mul.precedence
  | .closing => 0

/-- The precedence of the operators that a layer adds to the tighter ones. -/
def Layer.precedence : Layer → Nat
  | .sum | .terms => 1
  | .product | .factors => 2
  | .power | .exponent => 3
  | .primary => 4

/-- A phrase of the layer ends before `r`. -/
def Stops (l : Layer) (r : List Symbol) : Prop := ∀ s ∈ r.head?, joinPrecedence s < l.precedence

theorem Stops.nil (l : Layer) : Stops l [] := by
  intro s hs
  cases hs

theorem stops_cons {l : Layer} {s : Symbol} {r : List Symbol} : Stops l (s :: r) ↔ joinPrecedence s < l.precedence := by
  simp [Stops]

theorem stops_closing (l : Layer) (r : List Symbol) : Stops l (.closing :: r) := by
  rw [stops_cons]
  cases l <;> decide

theorem Stops.primary (r : List Symbol) : Stops .primary r := by
  intro s _
  cases s with
  | operator op => cases op <;> decide
  | number _ | argument | imaginaryUnit | opening | closing => exact Nat.lt_of_sub_eq_succ rfl

theorem Stops.tighter {l m : Layer} {r : List Symbol} (h : Stops l r) (hlm : l.precedence ≤ m.precedence) : Stops m r :=
  fun s hs => Nat.lt_of_lt_of_le (h s hs) hlm

theorem precedence_of_add_or_sub {op : Operator} (h : op = .add ∨ op = .sub) : op.precedence = 1 := by
  rcases h with rfl | rfl <;> rfl

theorem precedence_of_mul_or_div {op : Operator} (h : op = .mul ∨ op = .div) : op.precedence = 2 := by
  rcases h with rfl | rfl <;> rfl

theorem joinPrecedence_of_startsFactor {s : Symbol} (h : startsFactor s = true) : joinPrecedence s = 2 := by
  cases s with
  | argument | imaginaryUnit | opening => rfl
  | number _ | closing | operator _ => cases h

/-- Where the terms of a sum follow, the product before them stops. -/
theorem Derivation.stops_append_terms {us r : List Symbol} (d : Derivation .terms us) (h : Stops .sum r) :
    Stops .product (us ++ r) := by
  cases d with
  | noTerm => exact h.tighter (by decide)
  | term op hop next rest =>
    rw [List.cons_append, List.cons_append, stops_cons, joinPrecedence, precedence_of_add_or_sub hop]
    decide

/-- Where the factors of a product follow, the power before them stops. -/
theorem Derivation.stops_append_factors {us r : List Symbol} (d : Derivation .factors us) (h : Stops .product r) :
    Stops .power (us ++ r) := by
  cases d with
  | noFactor => exact h.tighter (by decide)
  | factor op hop next rest =>
    rw [List.cons_append, List.cons_append, stops_cons, joinPrecedence, precedence_of_mul_or_div hop]
    decide
  | impliedFactor hs next rest =>
    rw [List.cons_append, List.cons_append, stops_cons, joinPrecedence_of_startsFactor hs]
    decide

/-- Where a follow-up could be empty, it is. -/
theorem Derivation.eq_nil_of_stops {l : Layer} {us r r' : List Symbol} (d : Derivation l us) (hl : l.opens = false)
    (h : us ++ r = r') (hr : Stops l r') : us = [] := by
  subst h
  cases d with
  | noTerm | noFactor | noExponent => rfl
  | term op hop next rest =>
    rw [List.cons_append, List.cons_append, stops_cons, joinPrecedence, precedence_of_add_or_sub hop] at hr
    exact absurd hr (by decide)
  | factor op hop next rest =>
    rw [List.cons_append, List.cons_append, stops_cons, joinPrecedence, precedence_of_mul_or_div hop] at hr
    exact absurd hr (by decide)
  | impliedFactor hs next rest =>
    rw [List.cons_append, List.cons_append, stops_cons, joinPrecedence_of_startsFactor hs] at hr
    exact absurd hr (by decide)
  | exponent p | impliedExponent p =>
    rw [List.cons_append, stops_cons] at hr
    exact absurd hr (Nat.lt_irrefl 3)
  | sum _ _ | product _ _ | power _ _ | plus _ | minus _ | number _ | argument | imaginaryUnit | group _ => cases hl

theorem Derivation.primary_head {ts : List Symbol} (d : Derivation .primary ts) :
    ∃ s us, ts = s :: us ∧ s.startsOperand = true := by
  cases d with
  | number n => exact ⟨.number n, [], rfl, rfl⟩
  | argument => exact ⟨.argument, [], rfl, rfl⟩
  | imaginaryUnit => exact ⟨.imaginaryUnit, [], rfl, rfl⟩
  | group d => exact ⟨.opening, _, rfl, rfl⟩

theorem Derivation.primary_ne_operator {ts r r' : List Symbol} {op : Operator} (d : Derivation .primary ts) :
    ts ++ r ≠ .operator op :: r' := by
  obtain ⟨s, us, rfl, hs⟩ := d.primary_head
  rw [List.cons_append]
  intro h
  rw [(List.cons.inj h).1] at hs
  cases hs

/-- Derivations of beginnings of one list are equal if the list goes on, behind both, with something that their layer
leaves alone. -/
def Derivation.Determined {l : Layer} {ts : List Symbol} (d : Derivation l ts) : Prop :=
  ∀ {ts' r r' : List Symbol} (d' : Derivation l ts'), ts ++ r = ts' ++ r' → Stops l r → Stops l r' →
    ts = ts' ∧ HEq d d'

namespace Derivation.Determined

/-- Of two phrases in a row the first is determined, since the second one stops it, and then so is the second. -/
theorem append {l m : Layer} {ts us ts' us' r r' : List Symbol} {first : Derivation l ts} {rest : Derivation m us}
    (hfirst : first.Determined) (hrest : rest.Determined) (first' : Derivation l ts') (rest' : Derivation m us')
    (hstops : ∀ {vs r : List Symbol}, Derivation m vs → Stops m r → Stops l (vs ++ r))
    (h : ts ++ (us ++ r) = ts' ++ (us' ++ r')) (hr : Stops m r) (hr' : Stops m r') :
    ts = ts' ∧ us = us' ∧ HEq first first' ∧ HEq rest rest' := by
  obtain ⟨rfl, hf⟩ := hfirst first' h (hstops rest hr) (hstops rest' hr')
  obtain ⟨rfl, hd⟩ := hrest rest' (List.append_cancel_left h) hr hr'
  exact ⟨rfl, rfl, hf, hd⟩

variable {ts us : List Symbol}

theorem sum {first : Derivation .product ts} {rest : Derivation .terms us} (hfirst : first.Determined)
    (hrest : rest.Determined) : (Derivation.sum first rest).Determined := by
  intro ts' r r' d' h hr hr'
  cases d' with
  | sum first' rest' =>
    rw [List.append_assoc, List.append_assoc] at h
    obtain ⟨rfl, rfl, hf, hd⟩ := hfirst.append hrest first' rest' stops_append_terms h hr hr'
    cases hf
    cases hd
    exact ⟨rfl, HEq.rfl⟩

theorem product {first : Derivation .power ts} {rest : Derivation .factors us} (hfirst : first.Determined)
    (hrest : rest.Determined) : (Derivation.product first rest).Determined := by
  intro ts' r r' d' h hr hr'
  cases d' with
  | product first' rest' =>
    rw [List.append_assoc, List.append_assoc] at h
    obtain ⟨rfl, rfl, hf, hd⟩ := hfirst.append hrest first' rest' stops_append_factors h hr hr'
    cases hf
    cases hd
    exact ⟨rfl, HEq.rfl⟩

theorem power {base : Derivation .primary ts} {e : Derivation .exponent us} (hbase : base.Determined)
    (he : e.Determined) : (Derivation.power base e).Determined := by
  intro ts' r r' d' h hr hr'
  cases d' with
  | plus p' | minus p' =>
    rw [List.append_assoc] at h
    exact absurd h base.primary_ne_operator
  | power base' e' =>
    rw [List.append_assoc, List.append_assoc] at h
    obtain ⟨rfl, rfl, hb, hd⟩ := hbase.append he base' e' (fun _ _ => .primary _) h hr hr'
    cases hb
    cases hd
    exact ⟨rfl, HEq.rfl⟩

theorem term {op : Operator} (hop : op = .add ∨ op = .sub) {next : Derivation .product ts} {rest : Derivation .terms us}
    (hnext : next.Determined) (hrest : rest.Determined) : (Derivation.term op hop next rest).Determined := by
  intro ts' r r' d' h hr hr'
  cases d' with
  | noTerm => cases (Derivation.term op hop next rest).eq_nil_of_stops rfl h hr'
  | term op' hop' next' rest' =>
    simp only [List.cons_append, List.append_assoc, List.cons.injEq, Symbol.operator.injEq] at h
    obtain ⟨rfl, h⟩ := h
    obtain ⟨rfl, rfl, hn, hd⟩ := hnext.append hrest next' rest' stops_append_terms h hr hr'
    cases hn
    cases hd
    exact ⟨rfl, HEq.rfl⟩

theorem factor {op : Operator} (hop : op = .mul ∨ op = .div) {next : Derivation .power ts}
    {rest : Derivation .factors us} (hnext : next.Determined) (hrest : rest.Determined) :
    (Derivation.factor op hop next rest).Determined := by
  intro ts' r r' d' h hr hr'
  cases d' with
  | noFactor => cases (Derivation.factor op hop next rest).eq_nil_of_stops rfl h hr'
  | factor op' hop' next' rest' =>
    simp only [List.cons_append, List.append_assoc, List.cons.injEq, Symbol.operator.injEq] at h
    obtain ⟨rfl, h⟩ := h
    obtain ⟨rfl, rfl, hn, hd⟩ := hnext.append hrest next' rest' stops_append_factors h hr hr'
    cases hn
    cases hd
    exact ⟨rfl, HEq.rfl⟩
  | impliedFactor hs' next' rest' =>
    rw [← (List.cons.inj h).1] at hs'
    cases hs'

theorem impliedFactor {s : Symbol} (hs : startsFactor s) {next : Derivation .power (s :: ts)}
    {rest : Derivation .factors us} (hnext : next.Determined) (hrest : rest.Determined) :
    (Derivation.impliedFactor hs next rest).Determined := by
  intro ts' r r' d' h hr hr'
  cases d' with
  | noFactor => cases (Derivation.impliedFactor hs next rest).eq_nil_of_stops rfl h hr'
  | factor op' hop' next' rest' =>
    rw [(List.cons.inj h).1] at hs
    cases hs
  | impliedFactor hs' next' rest' =>
    rw [List.append_assoc, List.append_assoc] at h
    obtain ⟨hts, rfl, hn, hd⟩ := hnext.append hrest next' rest' stops_append_factors h hr hr'
    cases hts
    cases hn
    cases hd
    exact ⟨rfl, HEq.rfl⟩

end Derivation.Determined

theorem Derivation.determined {l : Layer} {ts : List Symbol} (d : Derivation l ts) : d.Determined := by
  induction d with
  | sum _ _ ihf ihr => exact ihf.sum ihr
  | product _ _ ihf ihr => exact ihf.product ihr
  | power _ _ ihb ihe => exact ihb.power ihe
  | term op hop _ _ ihn ihr => exact Determined.term hop ihn ihr
  | factor op hop _ _ ihn ihr => exact Determined.factor hop ihn ihr
  | impliedFactor hs _ _ ihn ihr => exact Determined.impliedFactor hs ihn ihr
  | noTerm =>
    intro ts' r r' d' h hr hr'
    have hts' := d'.eq_nil_of_stops rfl h.symm hr
    cases d' with
    | noTerm => exact ⟨rfl, HEq.rfl⟩
    | term _ _ _ _ => cases hts'
  | noFactor =>
    intro ts' r r' d' h hr hr'
    have hts' := d'.eq_nil_of_stops rfl h.symm hr
    cases d' with
    | noFactor => exact ⟨rfl, HEq.rfl⟩
    | factor _ _ _ _ | impliedFactor _ _ _ => cases hts'
  | noExponent =>
    intro ts' r r' d' h hr hr'
    have hts' := d'.eq_nil_of_stops rfl h.symm hr
    cases d' with
    | noExponent => exact ⟨rfl, HEq.rfl⟩
    | exponent _ | impliedExponent _ => cases hts'
  | plus p ih =>
    intro ts' r r' d' h hr hr'
    cases d' with
    | plus p' =>
      obtain ⟨rfl, hp⟩ := ih p' (List.cons.inj h).2 hr hr'
      cases hp
      exact ⟨rfl, HEq.rfl⟩
    | minus p' => cases (List.cons.inj h).1
    | power base' e' =>
      rw [List.append_assoc] at h
      exact absurd h.symm base'.primary_ne_operator
  | minus p ih =>
    intro ts' r r' d' h hr hr'
    cases d' with
    | plus p' => cases (List.cons.inj h).1
    | minus p' =>
      obtain ⟨rfl, hp⟩ := ih p' (List.cons.inj h).2 hr hr'
      cases hp
      exact ⟨rfl, HEq.rfl⟩
    | power base' e' =>
      rw [List.append_assoc] at h
      exact absurd h.symm base'.primary_ne_operator
  | exponent p ih =>
    intro ts' r r' d' h hr hr'
    cases d' with
    | noExponent => cases (Derivation.exponent p).eq_nil_of_stops rfl h hr'
    | exponent p' =>
      obtain ⟨rfl, hp⟩ := ih p' (List.cons.inj h).2 hr hr'
      cases hp
      exact ⟨rfl, HEq.rfl⟩
    | impliedExponent p' => cases (List.cons.inj h).1
  | impliedExponent p ih =>
    intro ts' r r' d' h hr hr'
    cases d' with
    | noExponent => cases (Derivation.impliedExponent p).eq_nil_of_stops rfl h hr'
    | exponent p' => cases (List.cons.inj h).1
    | impliedExponent p' =>
      cases (List.cons.inj h).1
      obtain ⟨hts, hp⟩ := ih p' h hr hr'
      cases hts
      cases hp
      exact ⟨rfl, HEq.rfl⟩
  | number n =>
    intro ts' r r' d' h hr hr'
    cases d' with
    | number n' =>
      cases (List.cons.inj h).1
      exact ⟨rfl, HEq.rfl⟩
    | argument | imaginaryUnit | group _ => cases (List.cons.inj h).1
  | argument =>
    intro ts' r r' d' h hr hr'
    cases d' with
    | argument => exact ⟨rfl, HEq.rfl⟩
    | number _ | imaginaryUnit | group _ => cases (List.cons.inj h).1
  | imaginaryUnit =>
    intro ts' r r' d' h hr hr'
    cases d' with
    | imaginaryUnit => exact ⟨rfl, HEq.rfl⟩
    | number _ | argument | group _ => cases (List.cons.inj h).1
  | group s ih =>
    intro ts' r r' d' h hr hr'
    cases d' with
    | number _ | argument | imaginaryUnit => cases (List.cons.inj h).1
    | group s' =>
      simp only [List.cons_append, List.append_assoc, List.cons.injEq, true_and] at h
      obtain ⟨rfl, hs⟩ := ih s' h (stops_closing _ _) (stops_closing _ _)
      cases hs
      exact ⟨rfl, HEq.rfl⟩

/-- A formula has at most one derivation. -/
theorem Derivation.unique {l : Layer} {ts : List Symbol} (d d' : Derivation l ts) : d = d' :=
  eq_of_heq (d.determined d' rfl (.nil l) (.nil l)).2

end TransferFunction.Grammar
