import TransferFunction.Grammar
import TransferFunction.Token.Layout

/-! # Formulas and their texts

A formula can be written in many ways. Parentheses may stand around every part of it, and have to where the operators alone
would group it otherwise. A product sign may be left out before an operand that starts like a factor, and a power sign before
one that starts with a number.
-/

namespace TransferFunction

inductive Formula
  | number (value : Float)
  | argument
  | imaginaryUnit
  | negation (operand : Formula)
  | binary (op : Operator) (isWritten : Grammar.Written op) (left right : Formula)

namespace Formula
open Grammar

def tree : Formula → Tree
  | .number value => .constant ⟨value, 0⟩
  | .argument => .argument
  | .imaginaryUnit => .constant ⟨0, 1⟩
  | .negation f => f.tree.negation
  | .binary op _ f g => .node op f.tree g.tree

def isSum : Formula → Bool
  | .binary .add _ _ _ | .binary .sub _ _ _ => true
  | _ => false

def isProduct : Formula → Bool
  | .binary .mul _ _ _ | .binary .div _ _ _ => true
  | _ => false

def isLeaf : Formula → Bool
  | .number _ | .argument | .imaginaryUnit => true
  | .negation _ | .binary _ _ _ _ => false

/-- Whether a left operand has to be in parentheses. -/
def enclosedLeft : Operator → Formula → Bool
  | .add, _ | .sub, _ => false
  | .mul, f | .div, f => f.isSum
  | .pow, f | .sign, f => !f.isLeaf

/-- Whether a right operand has to be in parentheses. That of `sign` is the operand of a unary minus. -/
def enclosedRight : Operator → Formula → Bool
  | .add, f | .sub, f => f.isSum
  | .mul, f | .div, f | .pow, f | .sign, f => f.isSum || f.isProduct

/-- What may stand between two operands, given what the right one starts with. -/
inductive Joins : Operator → List Symbol → List Symbol → Prop
  | written (op : Operator) (right : List Symbol) : Joins op [.operator op] right
  | product {s right} : startsFactor s = true → Joins .mul [] (s :: right)
  | power (n : Float) (right : List Symbol) : Joins .pow [] (.number n :: right)

/-- The ways to write a formula. The flag tells whether all of it is in parentheses. -/
inductive Writes : Bool → Formula → List Symbol → Prop
  | number (value : Float) : Writes false (.number value) [.number value]
  | argument : Writes false .argument [.argument]
  | imaginaryUnit : Writes false .imaginaryUnit [.imaginaryUnit]
  | negation {b f ss} : Writes b f ss → (enclosedRight .sign f = true → b = true) →
      Writes false (.negation f) (.operator .sub :: ss)
  | binary {op h b c f g ss js us} : Writes b f ss → (enclosedLeft op f = true → b = true) → Joins op js us →
      Writes c g us → (enclosedRight op g = true → c = true) → Writes false (.binary op h f g) (ss ++ (js ++ us))
  | group {b f ss} : Writes b f ss → Writes true f (.opening :: ss ++ [.closing])

/-- A text of a formula: one with a layout, so that numerals do not touch. -/
def Renders (x : Variable) (f : Formula) (source : String) : Prop :=
  ∃ d : Layout x, d.text = source.toList ∧ ∃ b, Writes b f d.symbols

/-- With all operators, and parentheses around all operands. -/
def enclosed : Formula → List Symbol
  | .number value => [.number value]
  | .argument => [.argument]
  | .imaginaryUnit => [.imaginaryUnit]
  | .negation f => .operator .sub :: (.opening :: f.enclosed ++ [.closing])
  | .binary op _ f g =>
    (.opening :: f.enclosed ++ [.closing]) ++ ([.operator op] ++ (.opening :: g.enclosed ++ [.closing]))

end Formula
end TransferFunction
