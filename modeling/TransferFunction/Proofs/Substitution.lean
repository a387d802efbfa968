import TransferFunction.Proofs.Compilation

/-! # Substitution

A text in parentheses may stand wherever the letter of the variable stands. The formula then has, at a point, the value that
it had at the value of the text there.
-/

namespace TransferFunction
open Grammar

namespace Tree

/-- `u` in place of the argument. -/
def substitute : Tree → Tree → Tree
  | .constant z, _ => .constant z
  | .argument, u => u
  | .node op l r, u => .node op (l.substitute u) (r.substitute u)

theorem eval_substitute [Arithmetic] (v : ComplexFloat) (t u : Tree) : (t.substitute u).eval v = t.eval (u.eval v) := by
  induction t with
  | constant _ | argument => rfl
  | node op l r ihl ihr => rw [substitute, eval, eval, ihl, ihr]

end Tree

/-- A group in place of the argument. -/
def Symbol.substitute (us : List Symbol) : Symbol → List Symbol
  | .argument => .opening :: us ++ [.closing]
  | s => [s]

theorem Symbol.substitute_of_ne {s : Symbol} (h : s ≠ .argument) (us : List Symbol) : s.substitute us = [s] := by
  cases s with
  | argument => exact absurd rfl h
  | number _ | imaginaryUnit | opening | closing | operator _ => rfl

namespace ExplicitForm

variable {us : List Symbol}

/-- A group leads where the argument does. -/
theorem Outline.run_substitute {o o' : Outline} {ss : List Symbol}
    (hu : ∀ n, Outline.run ⟨n, true⟩ us = .ok ⟨n, false⟩) (h : o.run ss = .ok o') :
    o.run (ss.flatMap (Symbol.substitute us)) = .ok o' := by
  induction ss generalizing o with
  | nil => exact h
  | cons s ss ih =>
    obtain ⟨o₁, h₁, h₂⟩ := PartialFold.cons_eq_ok.mp h
    rw [List.flatMap_cons]
    by_cases hs : s = .argument
    · subst hs
      cases h₁
      exact (Outline.run_append_of_ok (Outline.run_group (hu _) o.expects)).trans (ih h₂)
    · rw [Symbol.substitute_of_ne hs, List.singleton_append, Outline.run_cons_of_ok h₁]
      exact ih h₂

/-- Nothing written for another symbol is the argument. -/
theorem expand_substitute {s : Symbol} (hs : s ≠ .argument) (expects : Bool) (us : List Symbol) :
    (expand expects s).flatMap (Symbol.substitute us) = expand expects s := by
  cases s with
  | argument => exact absurd rfl hs
  | number _ | imaginaryUnit | opening | closing => cases expects <;> rfl
  | operator op => cases expects <;> cases op <;> rfl

theorem explicit_substitute_argument (expects : Bool) (us : List Symbol) :
    explicit expects (Symbol.substitute us .argument) =
      (expand expects .argument).flatMap (Symbol.substitute (explicit true us)) := by
  have hgroup : explicit true (Symbol.substitute us .argument) =
      [.argument].flatMap (Symbol.substitute (explicit true us)) := by
    rw [List.flatMap_singleton]
    exact explicit_group us
  cases expects with
  | true => exact hgroup
  | false =>
    have hmul : expand false .argument = [.operator .mul] ++ [.argument] := rfl
    rw [hmul, List.flatMap_append, ← hgroup]
    rfl

/-- What stands for the argument comes to stand there in its explicit form. -/
theorem explicit_substitute (expects : Bool) (ss : List Symbol) :
    explicit expects (ss.flatMap (Symbol.substitute us)) =
      (explicit expects ss).flatMap (Symbol.substitute (explicit true us)) := by
  induction ss generalizing expects with
  | nil => rfl
  | cons s ss ih =>
    rw [List.flatMap_cons, explicit_append, explicit, List.flatMap_append, ← ih]
    by_cases hs : s = .argument
    · subst hs
      have hafter : expectsAfter expects (Symbol.substitute us .argument) = false := by
        rw [Symbol.substitute, expectsAfter, List.foldl_append]
        rfl
      rw [hafter, explicit_substitute_argument]
      rfl
    · rw [expand_substitute hs, Symbol.substitute_of_ne hs, explicit, explicit, List.append_nil]
      rfl

end ExplicitForm

theorem Grammar.Binds.substitute {k : Nat} {ss us : List Symbol} {t u : Tree} (h : Binds k ss t) (hu : Binds 1 us u) :
    Binds k (ss.flatMap (Symbol.substitute us)) (t.substitute u) := by
  induction h with
  | number n => exact .number n
  | argument =>
    rw [List.flatMap_singleton]
    exact .group hu
  | imaginaryUnit => exact .imaginaryUnit
  | group _ ih =>
    rw [List.flatMap_append, List.flatMap_cons]
    exact .group ih
  | looser _ ih => exact ih.looser
  | left ha _ _ iht ihu =>
    rw [List.flatMap_append, List.flatMap_cons]
    exact .left ha iht ihu
  | right ha _ _ iht ihu =>
    rw [List.flatMap_append, List.flatMap_cons]
    exact .right ha iht ihu

namespace Variable

/-- A text in parentheses in place of the letter. -/
def replace (x : Variable) (bs : List Char) (c : Char) : List Char := if c = x.letter then '(' :: bs ++ [')'] else [c]

/-- The text `b` in parentheses wherever the letter stands in `a`. -/
def substitute (x : Variable) (a b : String) : String := String.ofList (a.toList.flatMap (x.replace b.toList))

variable (x : Variable) {bs cs : List Char}

theorem flatMap_replace (h : x.letter ∉ cs) (bs : List Char) : cs.flatMap (x.replace bs) = cs := by
  induction cs with
  | nil => rfl
  | cons c cs ih =>
    rw [List.mem_cons, not_or] at h
    obtain ⟨hc, hcs⟩ := h
    rw [List.flatMap_cons, replace, if_neg (Ne.symm hc), ih hcs, List.singleton_append]

/-- No numeral goes on into a text that replaces the letter. -/
theorem head_flatMap_replace (h : ∀ c ∈ cs.head?, Numeral.isStart c = false) :
    ∀ c ∈ (cs.flatMap (x.replace bs)).head?, Numeral.isStart c = false := by
  cases cs with
  | nil => exact nofun
  | cons c cs =>
    rw [List.flatMap_cons, replace]
    split
    · rintro d ⟨⟩
      rfl
    · exact h

end Variable

theorem Symbol.Spelling.letter_not_mem {x : Variable} {s : Symbol} {text : List Char} (h : s.Spelling x text)
    (hs : s ≠ .argument) : x.letter ∉ text := by
  intro hmem
  cases h with
  | number h _ => exact absurd (h.isStart_of_mem _ hmem) (ne_true_of_eq_false x.isStart_letter)
  | argument => exact hs rfl
  | imaginaryUnit => exact x.ne_imaginaryUnit (List.mem_singleton.mp hmem)
  | opening | closing | add | sub | mul | div | pow => exact x.letter_ne rfl (List.mem_singleton.mp hmem)

namespace Lexes

variable {x : Variable} {offset : Nat} {bs cs : List Char} {us ts : List Token}

theorem group (hb : Lexes x 0 bs us) (h : Lexes x (offset + (bs.length + 2)) cs ts) :
    ∃ ts', Lexes x offset ('(' :: bs ++ [')'] ++ cs) ts' ∧
      ts'.map Token.symbol = Symbol.substitute (us.map Token.symbol) .argument ++ ts.map Token.symbol := by
  have hinner := hb.shift (offset + 1)
  rw [Nat.zero_add] at hinner
  have hclosing : Lexes x (offset + 1 + bs.length) ([')'] ++ cs) (⟨.closing, offset + 1 + bs.length⟩ :: ts) := by
    refine .lexeme .closing nofun ?_
    have hlength : offset + 1 + bs.length + [')'].length = offset + (bs.length + 2) := by
      rw [List.length_singleton]
      omega
    rwa [hlength]
  have hhead : ∀ c ∈ ([')'] ++ cs).head?, Numeral.isStart c = false := by
    rintro c ⟨⟩
    rfl
  have hgroup : Lexes x offset (['('] ++ (bs ++ ([')'] ++ cs))) _ := .lexeme .opening nofun (hinner.append hhead hclosing)
  rw [List.append_assoc]
  refine ⟨_, hgroup, ?_⟩
  simp [Symbol.substitute, Function.comp_def]

/-- The tokens of a text in parentheses come to stand where the token of the letter stood. -/
theorem substitute (hb : Lexes x 0 bs us) (h : Lexes x offset cs ts) (o : Nat) :
    ∃ ts', Lexes x o (cs.flatMap (x.replace bs)) ts' ∧
      ts'.map Token.symbol = (ts.map Token.symbol).flatMap (Symbol.substitute (us.map Token.symbol)) := by
  induction h generalizing o with
  | nil => exact ⟨[], .nil, rfl⟩
  | @gap _ c cs ts hc _ ih =>
    have hne : c ≠ x.letter := by
      rintro rfl
      rw [x.isGap_letter] at hc
      cases hc
    obtain ⟨ts', hts', hsymbols⟩ := ih (o + 1)
    refine ⟨ts', ?_, hsymbols⟩
    rw [List.flatMap_cons, Variable.replace, if_neg hne]
    exact .gap hc hts'
  | @lexeme _ s text rest ts hs hrest _ ih =>
    rw [List.flatMap_append, List.map_cons, List.flatMap_cons]
    by_cases hargument : s = .argument
    · subst hargument
      cases hs
      obtain ⟨ts', hts', hsymbols⟩ := ih (o + (bs.length + 2))
      rw [List.flatMap_singleton, Variable.replace, if_pos rfl, ← hsymbols]
      exact hb.group hts'
    · obtain ⟨ts', hts', hsymbols⟩ := ih (o + text.length)
      rw [x.flatMap_replace (hs.letter_not_mem hargument), Symbol.substitute_of_ne hargument, ← hsymbols]
      exact ⟨_, .lexeme hs (fun hn => x.head_flatMap_replace (hrest hn)) hts', rfl⟩

end Lexes

namespace Expression

/-- A text in parentheses in place of the letter compiles if both texts do. Its value at a point is that of the formula
around it at the value of the text there. -/
theorem compile_substitute [Arithmetic] {x : Variable} {a b : String} {outer inner : Expression} (ha : compile x a = .ok outer)
    (hb : compile x b = .ok inner) : ∃ e, compile x (x.substitute a b) = .ok e ∧
      ∀ v, ∃ w z, inner.eval v = .ok w ∧ outer.eval w = .ok z ∧ e.eval v = .ok z := by
  obtain ⟨ts, t, hts, hrun, ht, rfl⟩ := exists_binds_of_compile ha
  obtain ⟨us, u, hus, hrunu, hu, rfl⟩ := exists_binds_of_compile hb
  obtain ⟨ts', hts', hsymbols⟩ := (Token.lexes_of_scanFrom hus).substitute (Token.lexes_of_scanFrom hts) 0
  have hscan : Token.scan x (x.substitute a b) = .ok ts' := by
    rw [Token.scan, Variable.substitute, String.toList_ofList]
    exact hts'.scanFrom
  have hcompile : compile x (x.substitute a b) = .ok ⟨some ⟨(t.substitute u).fold.elements, (t.substitute u).depth⟩⟩ := by
    refine compile_of_binds hscan ?_ ?_
    · rw [hsymbols]
      exact ExplicitForm.Outline.run_substitute (run_of_complete hrunu) hrun
    · rw [hsymbols, ExplicitForm.explicit_substitute]
      exact ht.substitute hu
  refine ⟨_, hcompile, fun v => ⟨u.eval v, t.eval (u.eval v), eval_fold_elements u v, eval_fold_elements t _, ?_⟩⟩
  rw [eval_fold_elements, Tree.eval_substitute]

/-- The text that replaces the letter is the base of the power. -/
theorem compile_substitute_base : ∃ e, compile .standard "-(s+j)2" = .ok e ∧ ∀ v, e.eval v =
    .ok (Operator.sign.apply ⟨-1, 0⟩ (Operator.pow.apply (Operator.add.apply v ⟨0, 1⟩) ⟨2, 0⟩)) := by
  have hpower : Token.scan .standard "-s2" = .ok [⟨.operator .sub, 0⟩, ⟨.argument, 1⟩, ⟨.number 2, 2⟩] := by
    decide +kernel
  have hsum : Token.scan .standard "s+j" = .ok [⟨.argument, 0⟩, ⟨.operator .add, 1⟩, ⟨.imaginaryUnit, 2⟩] := by
    decide +kernel
  have hpow : Operator.pow.precedence = 3 ∧ Operator.pow.isLeftAssociative = false := ⟨rfl, rfl⟩
  have hsign : Operator.sign.precedence = 3 ∧ Operator.sign.isLeftAssociative = false := ⟨rfl, rfl⟩
  have hadd : Operator.add.precedence = 1 ∧ Operator.add.isLeftAssociative = true := ⟨rfl, rfl⟩
  have hsquare := Binds.argument.node_right hpow (.looser (.number 2))
  have hnegation := (Binds.number (-1)).node_right hsign hsquare
  have hargument := (Binds.argument.of_le (by decide : 1 ≤ 4)).node_left hadd (Binds.imaginaryUnit.of_le (by decide : 2 ≤ 4))
  have houter := compile_of_binds hpower rfl (hnegation.of_le (by decide))
  have hinner := compile_of_binds hsum rfl hargument
  obtain ⟨e, he, heval⟩ := compile_substitute houter hinner
  refine ⟨e, he, fun v => ?_⟩
  obtain ⟨w, z, hw, hz, hv⟩ := heval v
  rw [eval_fold_elements] at hw
  cases hw
  rw [eval_fold_elements] at hz
  cases hz
  simpa only [Tree.eval, Arithmetic.compute] using hv

end Expression
end TransferFunction
