import TransferFunction.Program.OperatorStack
import TransferFunction.Proofs.Binding
import TransferFunction.Proofs.PartialFold

/-! # The operator stack lists trees

Reading an explicit phrase of some precedence leaves its operands in the output and some of its operators waiting, all of
which bind at least that tightly. Releasing these completes the postfix listing of the tree of the phrase. What waited
before stays untouched, since nothing in the phrase lets it go.
-/

namespace TransferFunction.OperatorStack
open Grammar PartialFold

/-- The output after the operators `ws`, latest first, have been released. -/
def releasing (ws : List Operator) (output : List Element) : List Element :=
  (ws.map Element.operator).reverse ++ output

theorem releasing_cons (w : Operator) (ws : List Operator) (output : List Element) :
    releasing (w :: ws) output = releasing ws (.operator w :: output) := by
  simp [releasing]

theorem releasing_append (ws us : List Operator) (output : List Element) :
    releasing (ws ++ us) output = releasing us (releasing ws output) := by
  simp [releasing]

/-- No operator of precedence `k` or more lets the operator on top go. -/
def Keeps (k : Nat) (pending : List Pending) : Prop :=
  ∀ w rest, pending = .operator w :: rest → ∀ op : Operator, k ≤ op.precedence → yields op w = false

theorem Keeps.nil (k : Nat) : Keeps k [] := by
  intro w rest h
  cases h

theorem Keeps.opening (k offset : Nat) (rest : List Pending) : Keeps k (.opening offset :: rest) := by
  intro w rest' h
  cases h

theorem Keeps.of_le {k n : Nat} {pending : List Pending} (h : Keeps k pending) (hkn : k ≤ n) : Keeps n pending :=
  fun w rest hp op hn => h w rest hp op (Nat.le_trans hkn hn)

theorem keeps_tighter (w : Operator) (rest : List Pending) : Keeps (w.precedence + 1) (.operator w :: rest) := by
  rintro w' rest' h op hop
  cases h
  simp only [yields, Bool.or_eq_false_iff, decide_eq_false_iff_not, Bool.and_eq_false_iff, beq_eq_false_iff_ne]
  omega

theorem keeps_right {w : Operator} (hw : w.isLeftAssociative = false) (rest : List Pending) :
    Keeps w.precedence (.operator w :: rest) := by
  rintro w' rest' h op hop
  cases h
  by_cases heq : op.precedence = w.precedence
  · rw [yields, Operator.isLeftAssociative_of_precedence_eq heq, hw, Bool.and_false, Bool.or_false,
      decide_eq_false_iff_not]
    omega
  · exact keeps_tighter w rest w rest rfl op (by omega)

theorem yields_of_lt {op w : Operator} (h : op.precedence < w.precedence) : yields op w = true := by
  simp [yields, h]

theorem yields_of_left {op w : Operator} (ha : op.isLeftAssociative = true) (h : op.precedence ≤ w.precedence) :
    yields op w = true := by
  rcases Nat.lt_or_eq_of_le h with hlt | heq
  · exact yields_of_lt hlt
  · simp [yields, ha, heq]

/-- An operator releases exactly the operators that yield to it. -/
theorem pushOperator_append {op : Operator} {ws : List Operator} {pending : List Pending} (output : List Element)
    (hws : ∀ w ∈ ws, yields op w = true) (hp : Keeps op.precedence pending) :
    pushOperator op output (ws.map Pending.operator ++ pending) = ⟨releasing ws output, .operator op :: pending⟩ := by
  induction ws generalizing output with
  | nil =>
    match pending, hp with
    | [], _ => rfl
    | .opening _ :: _, _ => rfl
    | .operator w :: rest, hp => simp [pushOperator, hp w rest rfl op (Nat.le_refl _), releasing]
  | cons w ws ih =>
    rw [List.map_cons, List.cons_append, pushOperator, if_pos (hws w List.mem_cons_self), releasing_cons]
    exact ih _ fun u hu => hws u (List.mem_cons_of_mem w hu)

theorem close_append (offset o : Nat) (ws : List Operator) (output : List Element) (pending : List Pending) :
    close offset output (ws.map Pending.operator ++ .opening o :: pending) = .ok ⟨releasing ws output, pending⟩ := by
  induction ws generalizing output with
  | nil => rfl
  | cons w ws ih =>
    rw [List.map_cons, List.cons_append, close, ih, releasing_cons]

theorem release_map (ws : List Operator) (output : List Element) :
    release output (ws.map Pending.operator) = .ok (releasing ws output).reverse := by
  induction ws generalizing output with
  | nil => rfl
  | cons w ws ih =>
    rw [List.map_cons, release, ih, releasing_cons]

/-- Reading `ts` adds the listing `es` to the output, the end of which may still wait: operators of precedence `k` or
more. -/
def Lists (k : Nat) (ts : List Token) (es output : List Element) (pending : List Pending) : Prop :=
  ∃ output' ws, ts.foldlM step ⟨output, pending⟩ = .ok ⟨output', ws.map Pending.operator ++ pending⟩ ∧
    releasing ws output' = es.reverse ++ output ∧ ∀ w ∈ ws, k ≤ w.precedence

theorem Lists.of_le {k n : Nat} {ts : List Token} {es output : List Element} {pending : List Pending}
    (h : Lists n ts es output pending) (hkn : k ≤ n) : Lists k ts es output pending := by
  obtain ⟨output', ws, hrun, hout, hws⟩ := h
  exact ⟨output', ws, hrun, hout, fun w hw => Nat.le_trans hkn (hws w hw)⟩

theorem lists_operand {t : Token} {e : Element} {output : List Element} {pending : List Pending}
    (h : step ⟨output, pending⟩ t = .ok ⟨e :: output, pending⟩) : Lists 4 [t] [e] output pending := by
  refine ⟨e :: output, [], ?_, rfl, by simp⟩
  rw [cons_of_ok h]
  rfl

theorem lists_group {o c : Token} {ts : List Token} {es output : List Element} {pending : List Pending}
    (ho : o.symbol = .opening) (hc : c.symbol = .closing) (h : Lists 1 ts es output (.opening o.offset :: pending)) :
    Lists 4 (o :: ts ++ [c]) es output pending := by
  obtain ⟨output', ws, hrun, hout, -⟩ := h
  have hopen : step ⟨output, pending⟩ o = .ok ⟨output, .opening o.offset :: pending⟩ := by rw [step, ho]
  have hclose : step ⟨output', ws.map Pending.operator ++ .opening o.offset :: pending⟩ c =
      .ok ⟨releasing ws output', pending⟩ := by
    rw [step, hc]
    exact close_append c.offset o.offset ws output' pending
  refine ⟨releasing ws output', [], ?_, hout, by simp⟩
  rw [List.cons_append, cons_of_ok hopen, append_of_ok hrun, cons_of_ok hclose]
  rfl

/-- The operator releases all that waits from its left operand, and then waits below its right one. -/
theorem lists_node {m n : Nat} {o : Token} {op : Operator} {ts us : List Token} {es fs output : List Element}
    {pending : List Pending} (ho : o.symbol = .operator op) (hm : ∀ w : Operator, m ≤ w.precedence → yields op w = true)
    (hn : op.precedence ≤ n) (hp : Keeps op.precedence pending) (hl : Lists m ts es output pending)
    (hr : ∀ output, Lists n us fs output (.operator op :: pending)) :
    Lists op.precedence (ts ++ o :: us) (es ++ fs ++ [.operator op]) output pending := by
  obtain ⟨output₁, ws, hrun, hout, hws⟩ := hl
  have hop : step ⟨output₁, ws.map Pending.operator ++ pending⟩ o =
      .ok ⟨releasing ws output₁, .operator op :: pending⟩ := by
    rw [step, ho]
    exact congrArg _ (pushOperator_append output₁ (fun w hw => hm w (hws w hw)) hp)
  obtain ⟨output₂, vs, hrun', hout', hvs⟩ := hr (releasing ws output₁)
  refine ⟨output₂, vs ++ [op], ?_, ?_, ?_⟩
  · rw [append_of_ok hrun, cons_of_ok hop, hrun', List.map_append, List.append_assoc]
    rfl
  · rw [releasing_append, hout', hout]
    simp [releasing]
  · intro w hw
    rcases List.mem_append.mp hw with hw | hw
    · exact Nat.le_trans hn (hvs w hw)
    · obtain rfl := List.mem_singleton.mp hw
      exact Nat.le_refl _

/-- A phrase adds the listing of its tree. -/
theorem lists_of_binds {k : Nat} {ss : List Symbol} {t : Tree} (h : Binds k ss t) {ts : List Token}
    (hts : ts.map Token.symbol = ss) {output : List Element} {pending : List Pending} (hp : Keeps k pending) :
    Lists k ts t.elements output pending := by
  induction h generalizing ts output pending with
  | number n =>
    obtain ⟨tok, rfl, htok⟩ := List.map_eq_singleton_iff.mp hts
    refine lists_operand ?_
    rw [step, htok]
    rfl
  | argument =>
    obtain ⟨tok, rfl, htok⟩ := List.map_eq_singleton_iff.mp hts
    exact lists_operand (by rw [step, htok])
  | imaginaryUnit =>
    obtain ⟨tok, rfl, htok⟩ := List.map_eq_singleton_iff.mp hts
    refine lists_operand ?_
    rw [step, htok]
    rfl
  | group _ ih =>
    obtain ⟨front, back, rfl, hfront, hback⟩ := List.map_eq_append_iff.mp hts
    obtain ⟨o, inner, rfl, ho, hinner⟩ := List.map_eq_cons_iff.mp hfront
    obtain ⟨c, rfl, hc⟩ := List.map_eq_singleton_iff.mp hback
    exact lists_group ho hc (ih hinner (Keeps.opening 1 o.offset pending))
  | looser _ ih => exact (ih hts (hp.of_le (Nat.le_succ _))).of_le (Nat.le_succ _)
  | left ha _ _ iht ihu =>
    obtain ⟨front, back, rfl, hfront, hback⟩ := List.map_eq_append_iff.mp hts
    obtain ⟨o, rest, rfl, ho, hrest⟩ := List.map_eq_cons_iff.mp hback
    exact lists_node ho (fun w hw => yields_of_left ha hw) (Nat.le_succ _) hp (iht hfront hp)
      fun _ => ihu hrest (keeps_tighter _ pending)
  | right ha _ _ iht ihu =>
    obtain ⟨front, back, rfl, hfront, hback⟩ := List.map_eq_append_iff.mp hts
    obtain ⟨o, rest, rfl, ho, hrest⟩ := List.map_eq_cons_iff.mp hback
    exact lists_node ho (fun w hw => yields_of_lt hw) (Nat.le_refl _) hp (iht hfront (hp.of_le (Nat.le_succ _)))
      fun _ => ihu hrest (keeps_right ha pending)

/-- An explicit formula orders to the listing of its tree. -/
theorem postfixOf_of_binds {ts : List Token} {t : Tree} (h : Binds 1 (ts.map Token.symbol) t) :
    postfixOf ts = .ok t.elements := by
  obtain ⟨output, ws, hrun, hout, -⟩ : Lists 1 ts t.elements [] [] := lists_of_binds h rfl (Keeps.nil 1)
  have hrelease : release output (ws.map Pending.operator ++ []) = .ok t.elements := by
    rw [List.append_nil, release_map, hout, List.append_nil, List.reverse_reverse]
  exact bind_eq_ok.mpr ⟨_, hrun, hrelease⟩

theorem programOf_of_binds {ts : List Token} {t : Tree} (h : Binds 1 (ts.map Token.symbol) t) :
    programOf ts = .ok ⟨t.elements, t.depth⟩ := by
  have hp : Program.ofElements t.elements = .ok ⟨t.elements, t.depth⟩ := by
    rw [Program.ofElements, Tree.depthOf_elements]
    rfl
  exact bind_eq_ok.mpr ⟨_, postfixOf_of_binds h, by rw [hp]⟩

end TransferFunction.OperatorStack
