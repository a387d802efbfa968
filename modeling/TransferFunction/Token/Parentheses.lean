import TransferFunction.Token

/-! # Partners of parentheses

Which parentheses belong together is a matter of the list alone: between the two of a pair all others are paired. Any list
without a superfluous closing parenthesis is balanced lists with unpaired opening ones between them.
-/

namespace TransferFunction.Parentheses

/-- Every parenthesis has its partner. -/
inductive Balanced : List Token → Prop
  | nil : Balanced []
  | other {t ts} : t.symbol ≠ .opening → t.symbol ≠ .closing → Balanced ts → Balanced (t :: ts)
  | group {o c ts us} : Balanced ts → Balanced us → Balanced (⟨.opening, o⟩ :: ts ++ ⟨.closing, c⟩ :: us)

/-- An opening parenthesis has its partner among the tokens behind it. -/
def Closed (behind : List Token) : Prop := ∃ inside c rest, behind = inside ++ ⟨.closing, c⟩ :: rest ∧ Balanced inside

def AllClosed (ts : List Token) : Prop := ∀ before o behind, ts = before ++ ⟨.opening, o⟩ :: behind → Closed behind

/-- The leftmost opening parenthesis without a partner has the offset `o`. -/
def FirstUnclosed (ts : List Token) (o : Nat) : Prop :=
  ∃ before behind, ts = before ++ ⟨.opening, o⟩ :: behind ∧ ¬Closed behind ∧
    ∀ front o' between, before = front ++ ⟨.opening, o'⟩ :: between → Closed (between ++ ⟨.opening, o⟩ :: behind)

/-- The last opening parenthesis without a partner has the offset `o`. -/
def LastUnclosed (ts : List Token) (o : Nat) : Prop :=
  ∃ before behind, ts = before ++ ⟨.opening, o⟩ :: behind ∧ ¬Closed behind ∧ AllClosed behind

/-- A closing parenthesis has its partner among the tokens before it. -/
def Opened (before : List Token) : Prop := ∃ front o inside, before = front ++ ⟨.opening, o⟩ :: inside ∧ Balanced inside

def AllOpened (ts : List Token) : Prop := ∀ before c behind, ts = before ++ ⟨.closing, c⟩ :: behind → Opened before

/-- The leftmost closing parenthesis without a partner has the offset `c`. -/
def FirstUnopened (ts : List Token) (c : Nat) : Prop :=
  ∃ before behind, ts = before ++ ⟨.closing, c⟩ :: behind ∧ ¬Opened before ∧ AllOpened before

/-- Balanced lists with an opening parenthesis between each and the next, and the offsets of these, the last one first. -/
inductive LeavesOpen : List Nat → List Token → Prop
  | balanced {ts} : Balanced ts → LeavesOpen [] ts
  | opening {os ts o us} : LeavesOpen os ts → Balanced us → LeavesOpen (o :: os) (ts ++ ⟨.opening, o⟩ :: us)

/-- Of two places in a list one is before the other, unless they are the same. -/
theorem place_cases {before before' behind behind' : List Token} {t t' : Token}
    (h : before ++ t :: behind = before' ++ t' :: behind') :
    (before = before' ∧ t = t' ∧ behind = behind') ∨
      (∃ between, before' = before ++ t :: between ∧ behind = between ++ t' :: behind') ∨
      ∃ between, before = before' ++ t' :: between ∧ behind' = between ++ t :: behind := by
  rcases List.append_eq_append_iff.mp h with ⟨between, rfl, hrest⟩ | ⟨between, rfl, hrest⟩
  · cases between with
    | nil =>
      obtain ⟨rfl, rfl⟩ := List.cons.inj hrest
      exact .inl ⟨(List.append_nil before).symm, rfl, rfl⟩
    | cons b between =>
      obtain ⟨rfl, rfl⟩ := List.cons.inj hrest
      exact .inr (.inl ⟨between, rfl, rfl⟩)
  · cases between with
    | nil =>
      obtain ⟨rfl, rfl⟩ := List.cons.inj hrest
      exact .inl ⟨List.append_nil before', rfl, rfl⟩
    | cons b between =>
      obtain ⟨rfl, rfl⟩ := List.cons.inj hrest
      exact .inr (.inr ⟨between, rfl, rfl⟩)

theorem Balanced.append {ts us : List Token} (ht : Balanced ts) (hu : Balanced us) : Balanced (ts ++ us) := by
  induction ht with
  | nil => exact hu
  | other ho hc _ ih => exact .other ho hc ih
  | group hts _ _ ih =>
    rw [List.append_assoc, List.cons_append]
    exact .group hts ih

theorem Closed.append {ts : List Token} (h : Closed ts) (us : List Token) : Closed (ts ++ us) := by
  obtain ⟨inside, c, rest, rfl, hinside⟩ := h
  refine ⟨inside, c, rest ++ us, ?_, hinside⟩
  rw [List.append_assoc, List.cons_append]

theorem Balanced.allClosed {ts : List Token} (h : Balanced ts) : AllClosed ts := by
  induction h with
  | nil =>
    intro before o behind h
    exact absurd h.symm (List.append_ne_nil_of_right_ne_nil _ (List.cons_ne_nil _ _))
  | other ho _ _ ih =>
    intro before o behind h
    cases before with
    | nil =>
      cases h
      exact absurd rfl ho
    | cons b before => exact ih before o behind (List.cons.inj h).2
  | @group _ c ts us hts _ iht ihu =>
    intro before o behind h
    cases before with
    | nil =>
      obtain rfl := (List.cons.inj h).2
      exact ⟨ts, c, us, rfl, hts⟩
    | cons b before =>
      -- the parenthesis stands behind the group or inside it
      rcases List.append_eq_append_iff.mp (List.cons.inj h).2 with ⟨between, -, hrest⟩ | ⟨inside, hinside, hrest⟩
      · cases between with
        | nil => cases hrest
        | cons b between => exact ihu between o behind (List.cons.inj hrest).2
      · cases inside with
        | nil => cases hrest
        | cons b inside =>
          obtain ⟨rfl, rfl⟩ := List.cons.inj hrest
          exact (iht before o inside hinside).append _

/-- How deep in parentheses a token leads. -/
def level (n : Nat) (t : Token) : Option Nat :=
  match t.symbol with
  | .opening => some (n + 1)
  | .closing => if n = 0 then none else some (n - 1)
  | _ => some n

theorem Balanced.foldlM_level {ts : List Token} (h : Balanced ts) (n : Nat) : ts.foldlM level n = some n := by
  induction h generalizing n with
  | nil => rfl
  | @other t _ ho hc _ ih =>
    have ht : level n t = some n := by
      unfold level
      split
      · next hopening => exact absurd hopening ho
      · next hclosing => exact absurd hclosing hc
      · rfl
    rw [List.foldlM_cons, ht]
    exact ih n
  | group _ _ iht ihu => simp [List.foldlM_append, level, iht, ihu]

theorem Closed.foldlM_level {ts : List Token} (h : Closed ts) : ts.foldlM level 0 = none := by
  obtain ⟨inside, c, rest, rfl, hinside⟩ := h
  rw [List.foldlM_append, hinside.foldlM_level]
  rfl

namespace LeavesOpen

variable {os : List Nat} {ts : List Token} {o : Nat}

theorem foldlM_level (h : LeavesOpen os ts) : ts.foldlM level 0 = some os.length := by
  induction h with
  | balanced hts => exact hts.foldlM_level 0
  | opening _ hus ih => simp [List.foldlM_append, ih, level, hus.foldlM_level]

theorem not_closed (h : LeavesOpen os ts) : ¬Closed ts := by
  intro hclosed
  have hlevel := hclosed.foldlM_level
  rw [h.foldlM_level] at hlevel
  cases hlevel

/-- Anything balanced may follow. -/
theorem append (h : LeavesOpen os ts) {us : List Token} (hu : Balanced us) : LeavesOpen os (ts ++ us) := by
  cases h with
  | balanced hts => exact .balanced (hts.append hu)
  | opening hts hvs =>
    rw [List.append_assoc, List.cons_append]
    exact .opening hts (hvs.append hu)

/-- A closing parenthesis is the partner of the last opening one that had none. -/
theorem close (h : LeavesOpen (o :: os) ts) (c : Nat) : LeavesOpen os (ts ++ [⟨.closing, c⟩]) := by
  cases h with
  | opening hts hus =>
    rw [List.append_assoc]
    exact hts.append (.group hus .nil)

theorem exists_first (h : LeavesOpen os ts) (ho : os.getLast? = some o) :
    ∃ before behind os', ts = before ++ ⟨.opening, o⟩ :: behind ∧ Balanced before ∧ LeavesOpen os' behind := by
  induction h with
  | balanced _ => cases ho
  | @opening os ts p us hts hus ih =>
    cases os with
    | nil =>
      cases ho
      cases hts with
      | balanced hts => exact ⟨ts, us, [], rfl, hts, .balanced hus⟩
    | cons q os =>
      obtain ⟨before, behind, os', rfl, hbefore, hbehind⟩ := ih ho
      refine ⟨before, behind ++ ⟨.opening, p⟩ :: us, p :: os', ?_, hbefore, .opening hbehind hus⟩
      rw [List.append_assoc, List.cons_append]

end LeavesOpen

theorem FirstUnclosed.mem {ts : List Token} {o : Nat} (h : FirstUnclosed ts o) : ⟨.opening, o⟩ ∈ ts := by
  obtain ⟨before, behind, rfl, -⟩ := h
  exact List.mem_append_right before List.mem_cons_self

theorem FirstUnclosed.not_allClosed {ts : List Token} {o : Nat} (h : FirstUnclosed ts o) : ¬AllClosed ts := by
  obtain ⟨before, behind, rfl, hopen, -⟩ := h
  exact fun hall => hopen (hall before o behind rfl)

theorem FirstUnclosed.unique {ts : List Token} {o p : Nat} (ho : FirstUnclosed ts o) (hp : FirstUnclosed ts p) : o = p := by
  obtain ⟨before, behind, rfl, hopen, hbefore⟩ := ho
  obtain ⟨before', behind', heq, hopen', hbefore'⟩ := hp
  -- of two places the left one would be closed, on the way to the right one
  rcases place_cases heq with ⟨-, ht, -⟩ | ⟨between, rfl, rfl⟩ | ⟨between, rfl, rfl⟩
  · cases ht
    rfl
  · exact absurd (hbefore' before o between rfl) hopen
  · exact absurd (hbefore before' p between rfl) hopen'

theorem LastUnclosed.not_allClosed {ts : List Token} {o : Nat} (h : LastUnclosed ts o) : ¬AllClosed ts := by
  obtain ⟨before, behind, rfl, hopen, -⟩ := h
  exact fun hall => hopen (hall before o behind rfl)

theorem LastUnclosed.unique {ts : List Token} {o p : Nat} (ho : LastUnclosed ts o) (hp : LastUnclosed ts p) : o = p := by
  obtain ⟨before, behind, rfl, hopen, hbehind⟩ := ho
  obtain ⟨before', behind', heq, hopen', hbehind'⟩ := hp
  rcases place_cases heq with ⟨-, ht, -⟩ | ⟨between, rfl, rfl⟩ | ⟨between, rfl, rfl⟩
  · cases ht
    rfl
  · exact absurd (hbehind between p behind' rfl) hopen'
  · exact absurd (hbehind' between o behind rfl) hopen

theorem FirstUnopened.not_allOpened {ts : List Token} {c : Nat} (h : FirstUnopened ts c) : ¬AllOpened ts := by
  obtain ⟨before, behind, rfl, hunopened, -⟩ := h
  exact fun hall => hunopened (hall before c behind rfl)

theorem FirstUnopened.unique {ts : List Token} {c d : Nat} (hc : FirstUnopened ts c) (hd : FirstUnopened ts d) : c = d := by
  obtain ⟨before, behind, rfl, hunopened, hbefore⟩ := hc
  obtain ⟨before', behind', heq, hunopened', hbefore'⟩ := hd
  rcases place_cases heq with ⟨-, ht, -⟩ | ⟨between, rfl, rfl⟩ | ⟨between, rfl, rfl⟩
  · cases ht
    rfl
  · exact absurd (hbefore' before c between rfl) hunopened
  · exact absurd (hbefore before' d between rfl) hunopened'

theorem allOpened_nil : AllOpened [] := by
  intro before c behind h
  exact absurd h.symm (List.append_ne_nil_of_right_ne_nil _ (List.cons_ne_nil _ _))

theorem AllOpened.concat {ts : List Token} {t : Token} (h : AllOpened ts) (ht : t.symbol = .closing → Opened ts) :
    AllOpened (ts ++ [t]) := by
  intro before c behind heq
  rcases place_cases heq with ⟨rfl, rfl, -⟩ | ⟨between, -, hnil⟩ | ⟨between, rfl, -⟩
  · exact ht rfl
  · exact absurd hnil.symm (List.append_ne_nil_of_right_ne_nil _ (List.cons_ne_nil _ _))
  · exact h before c between rfl

namespace LeavesOpen

variable {os : List Nat} {ts : List Token} {o : Nat}

theorem firstUnclosed (h : LeavesOpen os ts) (ho : os.getLast? = some o) : FirstUnclosed ts o := by
  obtain ⟨before, behind, os', rfl, hbefore, hbehind⟩ := h.exists_first ho
  refine ⟨before, behind, rfl, hbehind.not_closed, fun front o' between hfront => ?_⟩
  exact (hbefore.allClosed front o' between hfront).append _

theorem opened_iff (h : LeavesOpen os ts) : Opened ts ↔ os ≠ [] := by
  cases h with
  | balanced hts =>
    refine ⟨?_, absurd rfl⟩
    rintro ⟨front, o, inside, rfl, hinside⟩
    exact absurd (hts.allClosed front o inside rfl) (LeavesOpen.balanced hinside).not_closed
  | @opening os before o inside _ hinside => exact ⟨fun _ => List.cons_ne_nil o os, fun _ => ⟨before, o, inside, rfl, hinside⟩⟩

theorem lastUnclosed (h : LeavesOpen (o :: os) ts) : LastUnclosed ts o := by
  cases h with
  | @opening _ before _ inside _ hinside =>
    exact ⟨before, inside, rfl, (LeavesOpen.balanced hinside).not_closed, hinside.allClosed⟩

theorem allClosed_iff (h : LeavesOpen os ts) : AllClosed ts ↔ os = [] := by
  constructor
  · intro hall
    cases ho : os.getLast? with
    | none => exact List.getLast?_eq_none_iff.mp ho
    | some o => exact absurd hall (h.firstUnclosed ho).not_allClosed
  · rintro rfl
    cases h with
    | balanced hts => exact hts.allClosed

theorem not_allClosed_iff (h : LeavesOpen os ts) : ¬AllClosed ts ↔ ∃ o, FirstUnclosed ts o := by
  refine ⟨fun hnot => ?_, fun ⟨_, ho⟩ => ho.not_allClosed⟩
  cases ho : os.getLast? with
  | none => exact absurd (h.allClosed_iff.mpr (List.getLast?_eq_none_iff.mp ho)) hnot
  | some o => exact ⟨o, h.firstUnclosed ho⟩

theorem firstUnclosed_iff (h : LeavesOpen os ts) : FirstUnclosed ts o ↔ os.getLast? = some o := by
  refine ⟨fun hfirst => ?_, h.firstUnclosed⟩
  cases ho : os.getLast? with
  | none => exact absurd (h.allClosed_iff.mpr (List.getLast?_eq_none_iff.mp ho)) hfirst.not_allClosed
  | some p => rw [(h.firstUnclosed ho).unique hfirst]

end LeavesOpen
end TransferFunction.Parentheses
