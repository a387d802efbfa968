import TransferFunction.Token
import TransferFunction.Tree

/-! # Three grammars of formulas

A `Derivation` gives a formula its meaning: it takes the symbols apart, layer by layer, and yields a tree. `Accepts` says
which symbol lists are formulas at all, without regard to binding. `Alternates` is the explicit form, in which nothing is
implied.
-/

namespace TransferFunction.Grammar

/-- The layers of a formula, the loosest first. `terms`, `factors` and `exponent` are what may follow the first product of
a sum, the first power of a product and the base of a power. -/
inductive Layer | sum | terms | product | factors | power | exponent | primary deriving DecidableEq

namespace Layer

/-- A follow-up turns the tree of what stands before it into the tree of both. -/
abbrev Meaning : Layer → Type
  | .terms | .factors | .exponent => Tree → Tree
  | .sum | .product | .power | .primary => Tree

/-- A follow-up comes after an operand, all else where an operand is expected. -/
def opens : Layer → Bool
  | .terms | .factors | .exponent => false
  | .sum | .product | .power | .primary => true

end Layer

/-- The symbols with which a factor may start when its product sign is left out. A number would be an exponent there. -/
def startsFactor : Symbol → Bool
  | .argument | .imaginaryUnit | .opening => true
  | _ => false

/-- How a list of symbols is a formula. A sign stands at the level of powers, so it takes in the power that follows it. -/
inductive Derivation : Layer → List Symbol → Type
  | sum {ts us} : Derivation .product ts → Derivation .terms us → Derivation .sum (ts ++ us)
  | noTerm : Derivation .terms []
  | term {ts us} (op : Operator) : op = .add ∨ op = .sub → Derivation .product ts → Derivation .terms us →
      Derivation .terms (.operator op :: ts ++ us)
  | product {ts us} : Derivation .power ts → Derivation .factors us → Derivation .product (ts ++ us)
  | noFactor : Derivation .factors []
  | factor {ts us} (op : Operator) : op = .mul ∨ op = .div → Derivation .power ts → Derivation .factors us →
      Derivation .factors (.operator op :: ts ++ us)
  | impliedFactor {s ts us} : startsFactor s → Derivation .power (s :: ts) → Derivation .factors us →
      Derivation .factors (s :: ts ++ us)
  | plus {ts} : Derivation .power ts → Derivation .power (.operator .add :: ts)
  | minus {ts} : Derivation .power ts → Derivation .power (.operator .sub :: ts)
  | power {ts us} : Derivation .primary ts → Derivation .exponent us → Derivation .power (ts ++ us)
  | noExponent : Derivation .exponent []
  | exponent {ts} : Derivation .power ts → Derivation .exponent (.operator .pow :: ts)
  | impliedExponent {n ts} : Derivation .power (.number n :: ts) → Derivation .exponent (.number n :: ts)
  | number (n : Float) : Derivation .primary [.number n]
  | argument : Derivation .primary [.argument]
  | imaginaryUnit : Derivation .primary [.imaginaryUnit]
  | group {ts} : Derivation .sum ts → Derivation .primary (.opening :: ts ++ [.closing])

/-- Sums and products group to the left, powers to the right. -/
def Derivation.tree {l : Layer} {ts : List Symbol} : Derivation l ts → l.Meaning
  | .sum first rest => rest.tree first.tree
  | .noTerm => fun t => t
  | .term op _ next rest => fun t => rest.tree (.node op t next.tree)
  | .product first rest => rest.tree first.tree
  | .noFactor => fun t => t
  | .factor op _ next rest => fun t => rest.tree (.node op t next.tree)
  | .impliedFactor _ next rest => fun t => rest.tree (.node .mul t next.tree)
  | .plus p => p.tree
  | .minus p => Tree.negation p.tree
  | .power base e => e.tree base.tree
  | .noExponent => fun t => t
  | .exponent p | .impliedExponent p => fun t => .node .pow t p.tree
  | .number n => .constant ⟨n, 0⟩
  | .argument => .argument
  | .imaginaryUnit => .constant ⟨0, 1⟩
  | .group s => s.tree

inductive Category | formula | operand | primary deriving DecidableEq

/-- Operands with signs, joined by `binary` operators; a primary may also follow directly. -/
inductive Accepts (binary : Operator → Prop) : Category → List Symbol → Prop
  | operand {ts} : Accepts binary .operand ts → Accepts binary .formula ts
  | operator {ts us op} : Accepts binary .formula ts → binary op → Accepts binary .operand us →
      Accepts binary .formula (ts ++ .operator op :: us)
  | juxtaposed {ts us} : Accepts binary .formula ts → Accepts binary .primary us → Accepts binary .formula (ts ++ us)
  | primary {ts} : Accepts binary .primary ts → Accepts binary .operand ts
  | plus {ts} : Accepts binary .operand ts → Accepts binary .operand (.operator .add :: ts)
  | minus {ts} : Accepts binary .operand ts → Accepts binary .operand (.operator .sub :: ts)
  | number (n : Float) : Accepts binary .primary [.number n]
  | argument : Accepts binary .primary [.argument]
  | imaginaryUnit : Accepts binary .primary [.imaginaryUnit]
  | group {ts} : Accepts binary .formula ts → Accepts binary .primary (.opening :: ts ++ [.closing])

/-- The operators that a source can contain. The sign of a unary minus is none of them. -/
def Written (op : Operator) : Prop := op ≠ .sign

/-- Operands and operators, any of the six, in turn. The flag tells a single operand from a whole list. -/
inductive Alternates : Bool → List Symbol → Prop
  | operand {ts} : Alternates true ts → Alternates false ts
  | operator {ts us op} : Alternates false ts → Alternates true us → Alternates false (ts ++ .operator op :: us)
  | number (n : Float) : Alternates true [.number n]
  | argument : Alternates true [.argument]
  | imaginaryUnit : Alternates true [.imaginaryUnit]
  | group {ts} : Alternates false ts → Alternates true (.opening :: ts ++ [.closing])

end TransferFunction.Grammar
