import TransferFunction.Program.OperatorStack
import TransferFunction.Proofs.PartialFold
import TransferFunction.Token.Parentheses

/-! # Parentheses on the operator stack

Operators come and go between the parentheses that wait, but they never remove one. So an ordering keeps and refuses
parentheses as the same pass does that sees nothing else, and on any list, in explicit form or not, this pass pairs them as
they stand.
-/

namespace TransferFunction

def Symbol.isParenthesis : Symbol → Bool
  | .opening | .closing => true
  | .number _ | .argument | .imaginaryUnit | .operator _ => false

namespace OperatorStack
open Parentheses PartialFold

/-- The offsets of the parentheses that wait, the innermost first. -/
def openings : List Pending → List Nat
  | [] => []
  | .operator _ :: rest => openings rest
  | .opening offset :: rest => offset :: openings rest

/-- A step that sees the parentheses only. -/
def track (os : List Nat) (t : Token) : Except CompileError (List Nat) :=
  match t.symbol, os with
  | .opening, os => .ok (t.offset :: os)
  | .closing, _ :: outer => .ok outer
  | .closing, [] => .error ⟨t.offset, .invalid⟩
  | _, os => .ok os

/-- At the end the innermost parenthesis that is still open is refused. -/
def settle : List Nat → Except CompileError Unit
  | [] => .ok ()
  | o :: _ => .error ⟨o, .invalid⟩

def Tracked (s : State) (os : List Nat) : Prop := openings s.pending = os

theorem tracked_pushOperator (op : Operator) (output : List Element) (pending : List Pending) :
    Tracked (pushOperator op output pending) (openings pending) := by
  fun_induction pushOperator op output pending with
  | case1 _ waiting rest _ ih => exact ih
  | case2 | case3 => rfl

theorem close_alike (offset : Nat) (output : List Element) (pending : List Pending) :
    Alike Tracked (close offset output pending) (track (openings pending) ⟨.closing, offset⟩) := by
  fun_induction close offset output pending with
  | case1 _ waiting rest ih => exact ih
  | case2 => exact .ok rfl
  | case3 => exact .error _

theorem Tracked.step {s : State} {os : List Nat} (h : Tracked s os) (t : Token) :
    Alike Tracked (OperatorStack.step s t) (track os t) := by
  obtain rfl := h
  obtain ⟨symbol, offset⟩ := t
  cases symbol with
  | number _ | argument | imaginaryUnit | opening => exact .ok rfl
  | operator op => exact .ok (tracked_pushOperator op s.output s.pending)
  | closing => exact close_alike offset s.output s.pending

theorem release_alike (output : List Element) (pending : List Pending) :
    Alike (fun _ _ => True) (release output pending) (settle (openings pending)) := by
  fun_induction release output pending with
  | case1 _ waiting rest ih => exact ih
  | case2 => exact .error _
  | case3 => exact .ok trivial

/-- An ordering fails as the pass does that sees the parentheses only. -/
theorem postfixOf_alike (ts : List Token) :
    Alike (fun _ _ => True) (postfixOf ts) (ts.foldlM track [] >>= settle) := by
  have hstart : Tracked .start [] := rfl
  refine (Alike.foldlM (fun h t => h.step t) ts hstart).bind fun {s os} h => ?_
  obtain rfl := h
  exact release_alike s.output s.pending

theorem track_of_not_isParenthesis {t : Token} (h : t.symbol.isParenthesis = false) (os : List Nat) :
    track os t = .ok os := by
  obtain ⟨symbol, offset⟩ := t
  cases symbol with
  | number _ | argument | imaginaryUnit | operator _ => rfl
  | opening | closing => cases h

theorem foldlM_track_filter (ts : List Token) (os : List Nat) :
    (ts.filter fun t => t.symbol.isParenthesis).foldlM track os = ts.foldlM track os := by
  rw [List.foldlM_filter]
  congr 1
  funext os t
  split
  · rfl
  · next h => exact (track_of_not_isParenthesis (eq_false_of_ne_true h) os).symm

/-- The parentheses that are open are those without a partner so far, and all closing ones have theirs. -/
structure Pairs (read : List Token) (os : List Nat) : Prop where
  leavesOpen : LeavesOpen os read
  allOpened : AllOpened read

theorem Pairs.step {os os' : List Nat} {read : List Token} {t : Token} (h : Pairs read os) (ht : track os t = .ok os') :
    Pairs (read ++ [t]) os' := by
  obtain ⟨symbol, offset⟩ := t
  cases symbol with
  | number _ | argument | imaginaryUnit | operator _ =>
    cases ht
    exact ⟨h.leavesOpen.append (.other nofun nofun .nil), h.allOpened.concat nofun⟩
  | opening =>
    cases ht
    exact ⟨.opening h.leavesOpen .nil, h.allOpened.concat nofun⟩
  | closing =>
    cases os with
    | nil => cases ht
    | cons o outer =>
      cases ht
      exact ⟨h.leavesOpen.close offset, h.allOpened.concat fun _ => h.leavesOpen.opened_iff.mpr (List.cons_ne_nil o _)⟩

theorem pairs_of_foldlM {ts : List Token} {os : List Nat} (h : ts.foldlM track [] = .ok os) : Pairs ts os :=
  PartialFold.invariant (fun hs hstep => hs.step hstep) [] ⟨.balanced .nil, allOpened_nil⟩ h

theorem track_eq_error {os : List Nat} {t : Token} {e : CompileError} (h : track os t = .error e) :
    os = [] ∧ t = ⟨.closing, t.offset⟩ ∧ e = ⟨t.offset, .invalid⟩ := by
  obtain ⟨symbol, offset⟩ := t
  cases symbol with
  | number _ | argument | imaginaryUnit | operator _ | opening => cases h
  | closing =>
    cases os with
    | nil =>
      cases h
      exact ⟨rfl, rfl, rfl⟩
    | cons o outer => cases h

theorem firstUnopened_of_foldlM_error {ts : List Token} {e : CompileError} (h : ts.foldlM track [] = .error e) :
    ∃ c, FirstUnopened ts c ∧ e = ⟨c, .invalid⟩ := by
  obtain ⟨before, t, behind, os, rfl, hbefore, ht⟩ := exists_step_of_error h
  obtain ⟨rfl, hclosing, rfl⟩ := track_eq_error ht
  have hpairs := pairs_of_foldlM hbefore
  refine ⟨t.offset, ⟨before, behind, by rw [← hclosing], ?_, hpairs.allOpened⟩, rfl⟩
  exact fun hopened => hpairs.leavesOpen.opened_iff.mp hopened rfl

/-- The three outcomes of an ordering, and when they occur. -/
theorem postfixOf_verdict (ts : List Token) :
    (∃ c, FirstUnopened ts c ∧ postfixOf ts = .error ⟨c, .invalid⟩) ∨
      (AllOpened ts ∧ ∃ o, LastUnclosed ts o ∧ postfixOf ts = .error ⟨o, .invalid⟩) ∨
      (AllOpened ts ∧ AllClosed ts ∧ ∃ es, postfixOf ts = .ok es) := by
  have halike := postfixOf_alike ts
  cases hrun : ts.foldlM track [] with
  | error e =>
    obtain ⟨c, hc, rfl⟩ := firstUnopened_of_foldlM_error hrun
    exact .inl ⟨c, hc, (halike.error_iff _).mpr (bind_eq_error.mpr (.inl hrun))⟩
  | ok os =>
    obtain ⟨hopen, hall⟩ := pairs_of_foldlM hrun
    cases os with
    | nil =>
      obtain ⟨es, hes, -⟩ := halike.exists_ok (bind_eq_ok.mpr ⟨[], hrun, rfl⟩)
      exact .inr (.inr ⟨hall, hopen.allClosed_iff.mpr rfl, es, hes⟩)
    | cons o os =>
      exact .inr (.inl ⟨hall, o, hopen.lastUnclosed, (halike.error_iff _).mpr (bind_eq_error.mpr (.inr ⟨_, hrun, rfl⟩))⟩)

theorem programOf_of_postfixOf_error {ts : List Token} {e : CompileError} (h : postfixOf ts = .error e) :
    programOf ts = .error e := bind_eq_error.mpr (.inl h)

/-- Beyond what the ordering refuses, only a list of elements that is no program is. -/
theorem programOf_of_postfixOf {ts : List Token} {es : List Element} (h : postfixOf ts = .ok es) :
    (∃ p, programOf ts = .ok p) ∨ programOf ts = .error ⟨0, .invalid⟩ := by
  cases hp : Program.ofElements es with
  | ok p => exact .inl ⟨p, bind_eq_ok.mpr ⟨es, h, by rw [hp]⟩⟩
  | error e => exact .inr (bind_eq_error.mpr (.inr ⟨es, h, by rw [hp]⟩))

theorem programOf_of_firstUnopened {ts : List Token} {c : Nat} (h : FirstUnopened ts c) :
    programOf ts = .error ⟨c, .invalid⟩ := by
  rcases postfixOf_verdict ts with ⟨d, hd, hordered⟩ | ⟨hall, -⟩ | ⟨hall, -⟩
  · rw [h.unique hd]
    exact programOf_of_postfixOf_error hordered
  · exact absurd hall h.not_allOpened
  · exact absurd hall h.not_allOpened

theorem programOf_of_lastUnclosed {ts : List Token} {o : Nat} (hopened : AllOpened ts) (h : LastUnclosed ts o) :
    programOf ts = .error ⟨o, .invalid⟩ := by
  rcases postfixOf_verdict ts with ⟨c, hc, -⟩ | ⟨-, p, hp, hordered⟩ | ⟨-, hall, -⟩
  · exact absurd hopened hc.not_allOpened
  · rw [h.unique hp]
    exact programOf_of_postfixOf_error hordered
  · exact absurd hall h.not_allClosed

theorem not_allOpened_iff (ts : List Token) : ¬AllOpened ts ↔ ∃ c, FirstUnopened ts c := by
  refine ⟨fun hnot => ?_, fun ⟨_, hc⟩ => hc.not_allOpened⟩
  rcases postfixOf_verdict ts with ⟨c, hc, -⟩ | ⟨hall, -⟩ | ⟨hall, -⟩
  · exact ⟨c, hc⟩
  · exact absurd hall hnot
  · exact absurd hall hnot

theorem not_allClosed_iff {ts : List Token} (hopened : AllOpened ts) : ¬AllClosed ts ↔ ∃ o, LastUnclosed ts o := by
  refine ⟨fun hnot => ?_, fun ⟨_, ho⟩ => ho.not_allClosed⟩
  rcases postfixOf_verdict ts with ⟨c, hc, -⟩ | ⟨-, o, ho, -⟩ | ⟨-, hall, -⟩
  · exact absurd hopened hc.not_allOpened
  · exact ⟨o, ho⟩
  · exact absurd hall hnot

theorem exists_postfixOf_iff (ts : List Token) : (∃ es, postfixOf ts = .ok es) ↔ AllOpened ts ∧ AllClosed ts := by
  rcases postfixOf_verdict ts with ⟨c, hc, hordered⟩ | ⟨-, o, ho, hordered⟩ | ⟨hopened, hclosed, hordered⟩
  · simp [hordered, hc.not_allOpened]
  · simp [hordered, ho.not_allClosed]
  · simp [hordered, hopened, hclosed]

theorem cause_of_programOf_error {ts : List Token} {e : CompileError} (h : programOf ts = .error e) : e.cause = .invalid := by
  have hinvalid : ∀ o, programOf ts = .error ⟨o, .invalid⟩ → e.cause = .invalid := by
    intro o ho
    rw [Except.error.inj (h.symm.trans ho)]
  rcases postfixOf_verdict ts with ⟨c, -, hordered⟩ | ⟨-, o, -, hordered⟩ | ⟨-, -, es, hordered⟩
  · exact hinvalid c (programOf_of_postfixOf_error hordered)
  · exact hinvalid o (programOf_of_postfixOf_error hordered)
  · rcases programOf_of_postfixOf hordered with ⟨p, hp⟩ | hzero
    · cases h.symm.trans hp
    · exact hinvalid 0 hzero

/-- Two lists with the same parentheses are ordered alike as far as errors go. -/
theorem postfixOf_alike_of_filter_eq {ts us : List Token}
    (h : (us.filter fun t => t.symbol.isParenthesis) = ts.filter fun t => t.symbol.isParenthesis) :
    (∃ e, postfixOf ts = .error e ∧ postfixOf us = .error e) ∨
      (∃ es, postfixOf ts = .ok es) ∧ ∃ es, postfixOf us = .ok es := by
  have hts := postfixOf_alike ts
  have hus := postfixOf_alike us
  rw [← foldlM_track_filter us, h, foldlM_track_filter] at hus
  cases hrun : ts.foldlM track [] >>= settle with
  | error e => exact .inl ⟨e, (hts.error_iff e).mpr hrun, (hus.error_iff e).mpr hrun⟩
  | ok u => exact .inr ⟨hts.exists_ok_iff.mpr ⟨u, hrun⟩, hus.exists_ok_iff.mpr ⟨u, hrun⟩⟩

/-- How a list is answered whose parentheses are not balanced, whatever else it contains. If some closing parenthesis has no
partner, the leftmost of these is refused. Otherwise, if some opening one has none, the last of these is. All other lists are
programs, or refused at the start. The text of the error is always the same, and tokens other than parentheses have no part in
whether and where one of them is refused. -/
theorem refuses_unbalanced (ts : List Token) :
    (¬AllOpened ts ↔ ∃ c, FirstUnopened ts c) ∧
      (∀ c, FirstUnopened ts c → programOf ts = .error ⟨c, .invalid⟩) ∧
      (AllOpened ts → (¬AllClosed ts ↔ ∃ o, LastUnclosed ts o) ∧
        ∀ o, LastUnclosed ts o → programOf ts = .error ⟨o, .invalid⟩) ∧
      (AllOpened ts → AllClosed ts → (∃ p, programOf ts = .ok p) ∨ programOf ts = .error ⟨0, .invalid⟩) ∧
      (∀ e, programOf ts = .error e → e.kind = .structural ∧ e.cause.text = "invalid expression") ∧
      ∀ us : List Token, (us.filter fun t => t.symbol.isParenthesis) = (ts.filter fun t => t.symbol.isParenthesis) →
        (AllOpened us ∧ AllClosed us ↔ AllOpened ts ∧ AllClosed ts) ∧
          (¬(AllOpened ts ∧ AllClosed ts) → programOf us = programOf ts) := by
  refine ⟨not_allOpened_iff ts, fun c hc => programOf_of_firstUnopened hc, fun hopened => ⟨not_allClosed_iff hopened,
    fun o ho => programOf_of_lastUnclosed hopened ho⟩, fun hopened hclosed => ?_, fun e he => ?_, fun us hus => ?_⟩
  · obtain ⟨es, hes⟩ := (exists_postfixOf_iff ts).mpr ⟨hopened, hclosed⟩
    exact programOf_of_postfixOf hes
  · rw [CompileError.kind, cause_of_programOf_error he]
    exact ⟨rfl, rfl⟩
  · rw [← exists_postfixOf_iff us, ← exists_postfixOf_iff ts]
    rcases postfixOf_alike_of_filter_eq hus with ⟨e, hts, hus⟩ | ⟨hts, hus⟩
    · rw [programOf_of_postfixOf_error hts, programOf_of_postfixOf_error hus]
      simp [hts, hus]
    · exact ⟨iff_of_true hus hts, fun hnot => absurd hts hnot⟩

/-- In `*()+))` the second closing parenthesis is the leftmost without a partner, and in `(x(+)(` the last opening one is not
closed: neither list is anything like a formula. -/
theorem refuses_unbalanced_nonsense :
    programOf [⟨.operator .mul, 0⟩, ⟨.opening, 1⟩, ⟨.closing, 2⟩, ⟨.operator .add, 3⟩, ⟨.closing, 4⟩, ⟨.closing, 5⟩] =
      .error ⟨4, .invalid⟩ ∧
    programOf [⟨.opening, 0⟩, ⟨.argument, 1⟩, ⟨.opening, 2⟩, ⟨.operator .add, 3⟩, ⟨.closing, 4⟩, ⟨.opening, 5⟩] =
      .error ⟨5, .invalid⟩ := by
  have hread : Pairs [⟨.operator .mul, 0⟩, ⟨.opening, 1⟩, ⟨.closing, 2⟩, ⟨.operator .add, 3⟩] [] := pairs_of_foldlM rfl
  have hfirst : FirstUnopened [⟨.operator .mul, 0⟩, ⟨.opening, 1⟩, ⟨.closing, 2⟩, ⟨.operator .add, 3⟩, ⟨.closing, 4⟩,
      ⟨.closing, 5⟩] 4 :=
    ⟨_, [⟨.closing, 5⟩], rfl, fun h => hread.leavesOpen.opened_iff.mp h rfl, hread.allOpened⟩
  have hopen : Pairs [⟨.opening, 0⟩, ⟨.argument, 1⟩, ⟨.opening, 2⟩, ⟨.operator .add, 3⟩, ⟨.closing, 4⟩, ⟨.opening, 5⟩]
      [5, 0] := pairs_of_foldlM rfl
  exact ⟨(refuses_unbalanced _).2.1 4 hfirst, ((refuses_unbalanced _).2.2.1 hopen.allOpened).2 5 hopen.leavesOpen.lastUnclosed⟩

end OperatorStack
end TransferFunction
