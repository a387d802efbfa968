import TransferFunction.Program
import TransferFunction.Proofs.DoubleText

/-! # The text of a program tells the program

No text of an element has a blank in it or is empty, so the elements are what stands between the blanks. The first character of
an element, and what follows it where that is a minus sign, tell a constant from an operator; the sign before the imaginary
part is the first character behind the real part that is in no text of a double.
-/

namespace TransferFunction

theorem Operator.text_injective : Function.Injective Operator.text := by
  intro o p h
  cases o <;> cases p <;> first | rfl | exact absurd h (by decide)

namespace Binary64

theorem blank_not_mem_text (x : Float) : ' ' ∉ (text x).toList := by
  have hmagnitude : ' ' ∉ (decode x).magnitude := fun h => absurd ((Value.isWord_magnitude _).plain _ h) (by decide)
  rw [toList_text, signed]
  split
  · exact List.not_mem_cons_of_ne_of_not_mem (by decide) hmagnitude
  · exact hmagnitude

/-- A minus sign is not all of the text of a double. -/
theorem exists_cons_text (x : Float) : ∃ c cs, (text x).toList = c :: cs ∧ (isPlain c = true ∨ c = '-' ∧ cs ≠ []) := by
  have hword := Value.isWord_magnitude (decode x)
  rw [toList_text, signed]
  split
  · exact ⟨_, _, rfl, .inr ⟨rfl, hword.ne_nil⟩⟩
  · obtain ⟨c, cs, hcons⟩ := List.exists_cons_of_ne_nil hword.ne_nil
    exact ⟨c, cs, hcons, .inl (hword.plain c (hcons ▸ List.mem_cons_self))⟩

end Binary64

namespace ComplexFloat
open Binary64

/-- What is written behind the real part. -/
def imaginaryText (y : Float) : List Char :=
  if y < 0 then '-' :: ((Binary64.text (-y)).toList ++ ['i']) else '+' :: ((Binary64.text y).toList ++ ['i'])

theorem imaginaryText_injective : Function.Injective imaginaryText := by
  have hbody {x y : Float} {c d : Char}
      (h : c :: ((Binary64.text x).toList ++ ['i']) = d :: ((Binary64.text y).toList ++ ['i'])) : x = y :=
    Binary64.text_injective (String.toList_inj.mp (List.append_cancel_right (List.cons.inj h).2))
  intro x y h
  rw [imaginaryText, imaginaryText] at h
  split at h <;> split at h
  · exact Binary64.neg_involutive.injective (hbody h)
  · exact absurd (List.cons.inj h).1 (by decide)
  · exact absurd (List.cons.inj h).1 (by decide)
  · exact hbody h

theorem not_plain_of_head_imaginaryText (y : Float) : ∀ c ∈ (imaginaryText y).head?, isPlain c = false := by
  rw [imaginaryText]
  split <;> · rintro c ⟨⟩; decide

theorem toList_text (z : ComplexFloat) : z.text.toList = (Binary64.text z.re).toList ++ imaginaryText z.im := by
  rw [text, imaginaryText]
  split <;> simp only [String.toList_append, List.append_assoc] <;> rfl

/-- Different numbers have different texts, also where they differ in the sign of a zero only. -/
theorem text_injective : Function.Injective text := by
  rintro ⟨x, y⟩ ⟨x', y'⟩ h
  have hlist := congrArg String.toList h
  rw [toList_text, toList_text] at hlist
  obtain ⟨rfl, him⟩ := toList_text_append_inj (not_plain_of_head_imaginaryText y) (not_plain_of_head_imaginaryText y') hlist
  rw [imaginaryText_injective him]

theorem blank_not_mem_text (z : ComplexFloat) : ' ' ∉ z.text.toList := by
  rw [toList_text, imaginaryText]
  split <;> simp [Binary64.blank_not_mem_text]

end ComplexFloat

namespace Element
open Binary64

/-- The elements that are written alike: equal ones, and real constants that differ in the sign of their zero imaginary part.
All that is not a number is one double. -/
inductive Agrees : Element → Element → Prop
  | argument : Agrees .argument .argument
  | operator (op : Operator) : Agrees (.operator op) (.operator op)
  | constant {z w : ComplexFloat} (re : z.re = w.re)
      (im : z.im = w.im ∨ (z.im == 0) = true ∧ (w.im == 0) = true) : Agrees (.constant z) (.constant w)

theorem Agrees.text_eq {e f : Element} (h : Agrees e f) : e.text = f.text := by
  cases h with
  | argument | operator => rfl
  | @constant z w re im =>
    obtain ⟨x, y⟩ := z
    obtain ⟨x', y'⟩ := w
    obtain rfl : x = x' := re
    rcases im with rfl | ⟨hy, hy'⟩
    · rfl
    · rw [text, text, if_pos hy, if_pos hy']

section Constants

variable (z w : ComplexFloat)

/-- In parentheses a number is written so that they can be told from it. -/
theorem toList_parenthesized : ("(" ++ z.text ++ ")").toList = '(' :: (z.text.toList ++ [')']) := by
  rw [String.toList_append, String.toList_append]
  rfl

theorem exists_cons_text_constant : ∃ c cs, (text (.constant z)).toList = c :: cs ∧
    (isPlain c = true ∨ c = '(' ∨ c = '-' ∧ cs ≠ []) := by
  rw [text]
  split
  · obtain ⟨c, cs, hcons, hc⟩ := exists_cons_text z.re
    exact ⟨c, cs, hcons, hc.imp_right .inr⟩
  · exact ⟨_, _, toList_parenthesized z, .inr (.inl rfl)⟩

theorem text_constant_ne_argument : text (.constant z) ≠ text .argument := by
  obtain ⟨c, cs, hcons, hc⟩ := exists_cons_text_constant z
  intro h
  rw [h] at hcons
  obtain rfl : '<' = c := (List.cons.inj hcons).1
  rcases hc with hc | hc | hc
  · exact absurd hc (by decide)
  · exact absurd hc (by decide)
  · exact absurd hc.1 (by decide)

theorem text_constant_ne_operator (op : Operator) : text (.constant z) ≠ text (.operator op) := by
  obtain ⟨c, cs, hcons, hc⟩ := exists_cons_text_constant z
  intro h
  rw [h, text] at hcons
  cases op <;> obtain ⟨rfl, rfl⟩ := List.cons.inj hcons <;> revert hc <;> decide

theorem real_text_ne_parenthesized (x : Float) : Binary64.text x ≠ "(" ++ z.text ++ ")" := by
  obtain ⟨c, cs, hcons, hc⟩ := exists_cons_text x
  intro h
  rw [h, toList_parenthesized] at hcons
  obtain rfl : '(' = c := (List.cons.inj hcons).1
  rcases hc with hc | hc
  · exact absurd hc (by decide)
  · exact absurd hc.1 (by decide)

variable {z w} in
theorem Agrees.of_text_constant_eq (h : text (.constant z) = text (.constant w)) : Agrees (.constant z) (.constant w) := by
  rw [text, text] at h
  split at h <;> split at h
  · next hz hw => exact .constant (Binary64.text_injective h) (.inr ⟨hz, hw⟩)
  · exact absurd h (real_text_ne_parenthesized w z.re)
  · exact absurd h.symm (real_text_ne_parenthesized z w.re)
  · have hlist := congrArg String.toList h
    rw [toList_parenthesized, toList_parenthesized] at hlist
    have htext : z.text = w.text := String.toList_inj.mp (List.append_cancel_right (List.cons.inj hlist).2)
    rw [ComplexFloat.text_injective htext]
    exact .constant rfl (.inl rfl)

end Constants

theorem Agrees.of_text_eq {e f : Element} (h : e.text = f.text) : Agrees e f := by
  cases e with
  | constant z =>
    cases f with
    | constant w => exact .of_text_constant_eq h
    | argument => exact absurd h (text_constant_ne_argument z)
    | operator op => exact absurd h (text_constant_ne_operator z op)
  | argument =>
    cases f with
    | constant w => exact absurd h.symm (text_constant_ne_argument w)
    | argument => exact .argument
    | operator op => cases op <;> exact absurd h (by decide)
  | operator op =>
    cases f with
    | constant w => exact absurd h.symm (text_constant_ne_operator w op)
    | argument => cases op <;> exact absurd h (by decide)
    | operator op' =>
      rw [Operator.text_injective h]
      exact .operator op'

theorem text_eq_text_iff {e f : Element} : e.text = f.text ↔ Agrees e f := ⟨.of_text_eq, Agrees.text_eq⟩

theorem text_ne_nil (e : Element) : e.text.toList ≠ [] := by
  cases e with
  | constant z =>
    obtain ⟨c, cs, hcons, -⟩ := exists_cons_text_constant z
    rw [hcons]
    exact List.cons_ne_nil c cs
  | argument => decide
  | operator op => cases op <;> decide

theorem blank_not_mem_text (e : Element) : ' ' ∉ e.text.toList := by
  cases e with
  | constant z =>
    rw [text]
    split
    · exact Binary64.blank_not_mem_text z.re
    · rw [toList_parenthesized]
      simp [z.blank_not_mem_text]
  | argument => decide
  | operator op => cases op <;> decide

end Element

namespace Program

/-- What stands between the blanks of a text. -/
def words (text : List Char) : List (List Char) := (text.splitOn ' ').filter (!·.isEmpty)

theorem words_intercalate {ls : List (List Char)} (hblank : ∀ l ∈ ls, ' ' ∉ l) (hne : ∀ l ∈ ls, l ≠ []) :
    words ([' '].intercalate ls) = ls := by
  rcases eq_or_ne ls [] with rfl | hls
  · rfl
  · rw [words, List.splitOn_intercalate ' ' hblank hls, List.filter_eq_self]
    intro l hl
    rw [List.isEmpty_eq_false_iff.mpr (hne l hl), Bool.not_false]

theorem toList_text (p : Program) : p.text.toList = [' '].intercalate (p.elements.map (·.text.toList)) := by
  rw [text, String.toList_intercalate, List.map_map]
  rfl

theorem words_text (p : Program) : words p.text.toList = p.elements.map (·.text.toList) := by
  rw [toList_text]
  refine words_intercalate ?_ ?_
  · exact List.forall_mem_map.mpr fun e _ => e.blank_not_mem_text
  · exact List.forall_mem_map.mpr fun e _ => e.text_ne_nil

/-- Two programs have one text if and only if they have as many elements, and these agree one by one. -/
theorem text_eq_iff (p q : Program) : p.text = q.text ↔ List.Forall₂ Element.Agrees p.elements q.elements := by
  have hwords : p.text = q.text ↔ p.elements.map (·.text.toList) = q.elements.map (·.text.toList) := by
    constructor
    · intro h
      rw [← words_text, h, words_text]
    · intro h
      rw [← String.toList_inj, toList_text, toList_text, h]
  rw [hwords, ← List.forall₂_eq_eq_eq, List.forall₂_map_left_iff, List.forall₂_map_right_iff]
  simp only [String.toList_inj, Element.text_eq_text_iff]

end Program
end TransferFunction
