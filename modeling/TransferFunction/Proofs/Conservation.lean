import Mathlib.Data.List.Perm.Basic
import TransferFunction.Proofs.CheckedPrograms
import TransferFunction.Proofs.StackMoves

/-! # Nothing is lost on the operator stack

Each element of the output and each operator that waits stems from one token of its own. Operands are listed as they are read,
operators wait a while, so an operator can only come later among the operands. This holds along any list of tokens, in explicit
form or not, and at the end nothing waits any more.
-/

namespace TransferFunction

def elementsOf (ts : List Token) : List Element := ts.filterMap fun t => t.symbol.element?

/-- The elements that tokens become, each with the place of its token. -/
def placed (ts : List Token) : List (Element × Nat) :=
  ts.zipIdx.filterMap fun t => t.1.symbol.element?.map (·, t.2)

theorem placed_concat (ts : List Token) (t : Token) :
    placed (ts ++ [t]) = placed ts ++ (t.symbol.element?.map (·, ts.length)).toList := by
  rw [placed, List.zipIdx_append, List.filterMap_append, ← placed]
  cases h : t.symbol.element? <;> simp [h]

theorem map_fst_placed (ts : List Token) : (placed ts).map Prod.fst = elementsOf ts := by
  have htokens : elementsOf (ts.zipIdx.map Prod.fst) = elementsOf ts := by rw [List.zipIdx_map_fst]
  rw [← htokens, elementsOf, placed, List.map_filterMap, List.filterMap_map]
  congr 1
  funext t
  simp [Option.map_map, Function.comp_def]

theorem lt_length_of_mem_placed {ts : List Token} {e : Element × Nat} (h : e ∈ placed ts) : e.2 < ts.length := by
  obtain ⟨t, ht, he⟩ := List.mem_filterMap.mp h
  obtain ⟨f, -, rfl⟩ := Option.map_eq_some_iff.mp he
  exact List.snd_lt_of_mem_zipIdx ht

theorem pairwise_placed (ts : List Token) : (placed ts).Pairwise fun e f => e.2 < f.2 := by
  have hplaces : ts.zipIdx.Pairwise fun t u => t.2 < u.2 := by
    rw [← List.pairwise_map, List.zipIdx_map_snd]
    exact List.pairwise_lt_range'
  refine hplaces.filterMap _ fun t u htu e he f hf => ?_
  obtain ⟨_, -, rfl⟩ := Option.map_eq_some_iff.mp he
  obtain ⟨_, -, rfl⟩ := Option.map_eq_some_iff.mp hf
  exact htu

namespace OperatorStack
open PartialFold

/-- The operator that waits, as the element that it will be. -/
def Pending.element? : Pending → Option Element
  | .operator op => some (.operator op)
  | .opening _ => none

theorem filterMap_element? (ws : List Operator) (rest : List Pending) :
    (ws.map Pending.operator ++ rest).filterMap Pending.element? =
      ws.map Element.operator ++ rest.filterMap Pending.element? := by
  rw [List.filterMap_append, List.filterMap_map]
  congr 1
  exact congrFun List.filterMap_eq_map ws

theorem isOperand_of_element? {w : Pending} {e : Element} (h : w.element? = some e) : e.isOperand = false := by
  cases w with
  | operator op =>
    cases h
    rfl
  | opening o => cases h

/-- What is listed and what waits, latest first, with the places of the tokens that they stem from. -/
structure Traces (read : List Token) (s : State) (listed waiting : List (Element × Nat)) : Prop where
  perm : (listed ++ waiting).Perm (placed read)
  output : listed.map Prod.fst = s.output
  pending : waiting.map Prod.fst = s.pending.filterMap Pending.element?
  inOrder : listed.Pairwise fun later earlier => later.1.isOperand = true → earlier.2 < later.2

section Traces

variable {read : List Token} {output : List Element} {pending rest : List Pending} {listed waiting : List (Element × Nat)}

/-- An operator that is released may follow anything. -/
theorem Traces.release {released : List Operator}
    (h : Traces read ⟨output, released.map Pending.operator ++ rest⟩ listed waiting) :
    ∃ listed' waiting', Traces read ⟨releasing released output, rest⟩ listed' waiting' := by
  have hpending := h.pending
  rw [filterMap_element?] at hpending
  obtain ⟨leaving, staying, rfl, hleaving, hstaying⟩ := List.map_eq_append_iff.mp hpending
  have hoperator : ∀ e ∈ leaving, e.1.isOperand = false := by
    intro e he
    obtain ⟨op, -, hop⟩ := List.mem_map.mp (hleaving ▸ List.mem_map_of_mem he)
    rw [← hop]
    rfl
  refine ⟨leaving.reverse ++ listed, staying, ?_, ?_, hstaying, ?_⟩
  · have hmoved : (leaving.reverse ++ listed).Perm (listed ++ leaving) :=
      ((List.reverse_perm leaving).append_right listed).trans List.perm_append_comm
    refine (hmoved.append_right staying).trans ?_
    rw [List.append_assoc]
    exact h.perm
  · rw [List.map_append, List.map_reverse, hleaving, h.output, releasing]
  · have hvacuous : ∀ e ∈ leaving.reverse, ∀ f : Element × Nat, e.1.isOperand = true → f.2 < e.2 := by
      intro e he f hoperand
      rw [hoperator e (List.mem_reverse.mp he)] at hoperand
      cases hoperand
    exact List.pairwise_append.mpr
      ⟨List.pairwise_of_forall_mem_list fun e he f _ => hvacuous e he f, h.inOrder, fun e he f _ => hvacuous e he f⟩

theorem Traces.operand (h : Traces read ⟨output, pending⟩ listed waiting) {t : Token} {e : Element}
    (ht : t.symbol.element? = some e) :
    Traces (read ++ [t]) ⟨e :: output, pending⟩ ((e, read.length) :: listed) waiting where
  perm := by
    rw [placed_concat, ht]
    exact (h.perm.cons _).trans (List.perm_append_singleton _ _).symm
  output := congrArg (e :: ·) h.output
  pending := h.pending
  inOrder := by
    refine List.pairwise_cons.mpr ⟨fun f hf _ => ?_, h.inOrder⟩
    exact lt_length_of_mem_placed (h.perm.mem_iff.mp (List.mem_append_left waiting hf))

theorem Traces.operator (h : Traces read ⟨output, pending⟩ listed waiting) {t : Token} {op : Operator}
    (ht : t.symbol = .operator op) :
    Traces (read ++ [t]) ⟨output, .operator op :: pending⟩ listed ((.operator op, read.length) :: waiting) where
  perm := by
    rw [placed_concat, ht]
    exact (List.perm_middle.trans (h.perm.cons _)).trans (List.perm_append_singleton _ _).symm
  output := h.output
  pending := congrArg (Element.operator op :: ·) h.pending
  inOrder := h.inOrder

/-- A parenthesis may come to the stack or leave it. -/
theorem Traces.parenthesis (h : Traces read ⟨output, pending⟩ listed waiting) {t : Token} (ht : t.symbol.element? = none)
    (hrest : rest.filterMap Pending.element? = pending.filterMap Pending.element?) :
    Traces (read ++ [t]) ⟨output, rest⟩ listed waiting where
  perm := by
    rw [placed_concat, ht, Option.map_none, Option.toList_none, List.append_nil]
    exact h.perm
  output := h.output
  pending := h.pending.trans hrest.symm
  inOrder := h.inOrder

theorem Traces.move {s s' : State} {t : Token} (h : Traces read s listed waiting) (hmove : Move s t s') :
    ∃ listed' waiting', Traces (read ++ [t]) s' listed' waiting' := by
  cases hmove with
  | operand he _ => exact ⟨_, _, h.operand he⟩
  | operator ht _ _ =>
    obtain ⟨listed', waiting', h'⟩ := h.release
    exact ⟨_, _, h'.operator ht⟩
  | opening ht => exact ⟨_, _, h.parenthesis (by rw [ht]; rfl) rfl⟩
  | closing ht =>
    obtain ⟨listed', waiting', h'⟩ := h.release
    exact ⟨_, _, h'.parenthesis (by rw [ht]; rfl) rfl⟩

theorem Traces.perm_elementsOf {s : State} (h : Traces read s listed waiting) :
    (s.output ++ s.pending.filterMap Pending.element?).Perm (elementsOf read) := by
  rw [← h.output, ← h.pending, ← List.map_append, ← map_fst_placed]
  exact h.perm.map Prod.fst

/-- All operands that have been read are listed, in their order: none of them waits. -/
theorem Traces.filter_isOperand {s : State} (h : Traces read s listed waiting) :
    s.output.reverse.filter Element.isOperand = (elementsOf read).filter Element.isOperand := by
  have hwaiting : (waiting.filter fun e => e.1.isOperand) = [] := by
    refine List.filter_eq_nil_iff.mpr fun e he => ?_
    obtain ⟨w, -, hw⟩ := List.mem_filterMap.mp (h.pending ▸ List.mem_map_of_mem he)
    rw [isOperand_of_element? hw]
    exact Bool.false_ne_true
  have hperm : (listed.reverse.filter fun e => e.1.isOperand).Perm ((placed read).filter fun e => e.1.isOperand) := by
    refine ((List.reverse_perm listed).filter _).trans ?_
    rw [← List.append_nil (listed.filter _), ← hwaiting, ← List.filter_append]
    exact h.perm.filter _
  have hlisted : (listed.reverse.filter fun e => e.1.isOperand).Pairwise fun e f => e.2 < f.2 :=
    List.pairwise_filter.mpr ((List.pairwise_reverse.mpr h.inOrder).imp fun hef _ hf => hef hf)
  have heq : (listed.reverse.filter fun e => e.1.isOperand) = (placed read).filter fun e => e.1.isOperand := by
    refine hperm.eq_of_pairwise (fun e f _ _ hef hfe => ?_) hlisted ((pairwise_placed read).filter _)
    omega
  rw [← h.output, ← List.map_reverse, ← map_fst_placed, List.filter_map, List.filter_map]
  exact congrArg (List.map Prod.fst) heq

end Traces

theorem exists_traces_of_foldlM {ts : List Token} {s : State} (h : ts.foldlM step .start = .ok s) :
    ∃ listed waiting, Traces ts s listed waiting := by
  refine invariant (P := fun read s => ∃ listed waiting, Traces read s listed waiting) ?_ []
    ⟨[], [], .nil, rfl, rfl, .nil⟩ h
  rintro read s t s' ⟨listed, waiting, hs⟩ hstep
  exact hs.move (move_of_step hstep)

theorem suffix_releasing (ws : List Operator) (output : List Element) : output <:+ releasing ws output :=
  List.suffix_append _ _

/-- What has been listed stays. -/
theorem output_suffix_of_foldlM {ts : List Token} {s s' : State} (h : ts.foldlM step s = .ok s') : s.output <:+ s'.output := by
  refine invariant (P := fun _ r => s.output <:+ r.output) ?_ [] (List.suffix_refl s.output) h
  intro read r t r' hr hstep
  cases move_of_step hstep with
  | operand _ _ => exact hr.trans (List.suffix_cons _ _)
  | operator _ _ _ | closing _ => exact hr.trans (suffix_releasing _ _)
  | opening _ => exact hr

/-- The elements of an ordering are those of the tokens, rearranged. What is before an operand was so among the tokens. -/
theorem exists_listed_of_postfixOf {ts : List Token} {es : List Element} (h : postfixOf ts = .ok es) :
    ∃ listed : List (Element × Nat), listed.map Prod.fst = es ∧ listed.Perm (placed ts) ∧
      listed.Pairwise fun earlier later => later.1.isOperand = true → earlier.2 < later.2 := by
  obtain ⟨⟨output, pending⟩, hrun, hrelease⟩ := bind_eq_ok.mp h
  obtain ⟨released, rfl, rfl⟩ := exists_of_release hrelease
  obtain ⟨listed, waiting, htraces⟩ := exists_traces_of_foldlM hrun
  rw [← List.append_nil (released.map Pending.operator)] at htraces
  obtain ⟨listed', waiting', hend⟩ := htraces.release
  obtain rfl : waiting' = [] := List.map_eq_nil_iff.mp hend.pending
  refine ⟨listed'.reverse, ?_, ?_, List.pairwise_reverse.mpr hend.inOrder⟩
  · rw [List.map_reverse, hend.output]
  · have hperm := hend.perm
    rw [List.append_nil] at hperm
    exact (List.reverse_perm listed').trans hperm

theorem filter_isOperand_of_postfixOf {ts : List Token} {es : List Element} (h : postfixOf ts = .ok es) :
    es.filter Element.isOperand = (elementsOf ts).filter Element.isOperand := by
  obtain ⟨⟨output, pending⟩, hrun, hrelease⟩ := bind_eq_ok.mp h
  obtain ⟨released, rfl, rfl⟩ := exists_of_release hrelease
  obtain ⟨listed, waiting, htraces⟩ := exists_traces_of_foldlM hrun
  have hreleased : (released.map Element.operator).filter Element.isOperand = [] :=
    List.filter_eq_nil_iff.mpr (List.forall_mem_map.mpr fun _ _ => Bool.false_ne_true)
  rw [← htraces.filter_isOperand, releasing, List.reverse_append, List.reverse_reverse, List.filter_append, hreleased,
    List.append_nil]

/-- What has been listed behind the tokens `before` is the start of the ordering. -/
theorem output_prefix_of_postfixOf {before after : List Token} {es : List Element} {s : State}
    (h : postfixOf (before ++ after) = .ok es) (hs : before.foldlM step .start = .ok s) : s.output.reverse <+: es := by
  obtain ⟨⟨output, pending⟩, hrun, hrelease⟩ := bind_eq_ok.mp h
  obtain ⟨released, rfl, rfl⟩ := exists_of_release hrelease
  rw [append_of_ok hs] at hrun
  exact List.reverse_prefix.mpr ((output_suffix_of_foldlM hrun).trans (suffix_releasing released output))

end OperatorStack

theorem Tree.countP_isOperand (t : Tree) :
    t.elements.countP Element.isOperand = t.elements.countP (fun e => !e.isOperand) + 1 := by
  induction t with
  | constant _ | argument => rfl
  | node op l r ihl ihr =>
    simp only [elements, List.countP_append, ihl, ihr, List.countP_singleton, Element.isOperand, Bool.not_false,
      Bool.false_eq_true, if_true, if_false]
    omega

theorem Symbol.isSome_element? (s : Symbol) : s.element?.isSome = !s.isParenthesis := by
  cases s <;> rfl

namespace OperatorStack
open PartialFold

theorem exists_ordering_of_programOf {ts : List Token} {p : Program} (h : programOf ts = .ok p) :
    ∃ es, postfixOf ts = .ok es ∧ Program.ofElements es = .ok p := by
  obtain ⟨es, hordered, hchecked⟩ := bind_eq_ok.mp h
  refine ⟨es, hordered, ?_⟩
  cases hes : Program.ofElements es with
  | error e =>
    rw [hes] at hchecked
    cases hchecked
  | ok q =>
    rw [hes] at hchecked
    cases hchecked
    rfl

/-- The elements of a program are the tokens that are no parentheses, rearranged: the operands in their order, the operators
each once and after every operand that precedes its token. There is one operand more than there are operators. Behind any of
the tokens all operands so far are listed, the operators so far are listed or wait, and what is listed stays where it is. -/
theorem programOf_rearranges {ts : List Token} {p : Program} (h : programOf ts = .ok p) :
    (∃ listed : List (Element × Nat), listed.map Prod.fst = p.elements ∧ listed.Perm (placed ts) ∧
        listed.Pairwise fun earlier later => later.1.isOperand = true → earlier.2 < later.2) ∧
      p.elements.filter Element.isOperand = (elementsOf ts).filter Element.isOperand ∧
      (p.elements.filter fun e => !e.isOperand).Perm ((elementsOf ts).filter fun e => !e.isOperand) ∧
      p.length = (ts.filter fun t => !t.symbol.isParenthesis).length ∧
      p.elements.countP Element.isOperand = p.elements.countP (fun e => !e.isOperand) + 1 ∧
      ∀ before after, ts = before ++ after → ∃ s, before.foldlM step .start = .ok s ∧ s.output.reverse <+: p.elements ∧
        s.output.reverse.filter Element.isOperand = (elementsOf before).filter Element.isOperand ∧
        (s.output ++ s.pending.filterMap Pending.element?).Perm (elementsOf before) := by
  obtain ⟨es, hordered, hes⟩ := exists_ordering_of_programOf h
  obtain ⟨listed, hlisted, hperm, hinOrder⟩ := exists_listed_of_postfixOf hordered
  obtain ⟨t, rfl, rfl⟩ := Program.exists_tree_of_ofElements hes
  have helements : t.elements.Perm (elementsOf ts) := by
    rw [← hlisted, ← map_fst_placed]
    exact hperm.map Prod.fst
  refine ⟨⟨listed, hlisted, hperm, hinOrder⟩, filter_isOperand_of_postfixOf hordered, helements.filter _, ?_,
    t.countP_isOperand, ?_⟩
  · rw [Program.length, helements.length_eq, elementsOf, List.length_filterMap_eq_countP, List.countP_eq_length_filter]
    simp only [Symbol.isSome_element?]
  · rintro before after rfl
    obtain ⟨_, hrun, -⟩ := bind_eq_ok.mp hordered
    obtain ⟨s, hs, -⟩ := append_eq_ok.mp hrun
    obtain ⟨_, _, htraces⟩ := exists_traces_of_foldlM hs
    exact ⟨s, hs, output_prefix_of_postfixOf hordered hs, htraces.filter_isOperand, htraces.perm_elementsOf⟩

/-- In `x 2 ^ ( - ) j`, which is no formula, the parentheses let the `-` go before the `^`, and still both follow the operands
that precede them. -/
theorem programOf_rearranges_empty_group : ∃ p, programOf [⟨.argument, 0⟩, ⟨.number 2, 1⟩, ⟨.operator .pow, 2⟩,
      ⟨.opening, 3⟩, ⟨.operator .sub, 4⟩, ⟨.closing, 5⟩, ⟨.imaginaryUnit, 6⟩] = .ok p ∧
    p.elements = [.argument, .constant ⟨2, 0⟩, .operator .sub, .constant ⟨0, 1⟩, .operator .pow] ∧
      p.elements.filter Element.isOperand = [.argument, .constant ⟨2, 0⟩, .constant ⟨0, 1⟩] ∧
      (p.elements.filter fun e => !e.isOperand).Perm [.operator .pow, .operator .sub] ∧ p.length = 5 := by
  have hp : programOf [⟨.argument, 0⟩, ⟨.number 2, 1⟩, ⟨.operator .pow, 2⟩, ⟨.opening, 3⟩, ⟨.operator .sub, 4⟩, ⟨.closing, 5⟩,
      ⟨.imaginaryUnit, 6⟩] =
      .ok ⟨[.argument, .constant ⟨2, 0⟩, .operator .sub, .constant ⟨0, 1⟩, .operator .pow], 2⟩ := rfl
  obtain ⟨-, hoperands, hoperators, hlength, -⟩ := programOf_rearranges hp
  exact ⟨_, hp, rfl, hoperands, hoperators, hlength⟩

end OperatorStack
end TransferFunction
