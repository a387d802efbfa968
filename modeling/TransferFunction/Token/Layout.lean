import Mathlib.Data.List.Chain
import TransferFunction.Binary64.Nearest
import TransferFunction.Token.Scan

/-! # Layouts of a source

A source is lexemes with gaps around them. The spelling of a symbol is one character, or that of a numeral as long as it
gets; so two numerals need a gap between them. A layout tells the tokens: their symbols, and the bytes before each of them.
-/

namespace TransferFunction

/-- How many bytes characters take in a source. -/
def byteLength (cs : List Char) : Nat := (String.ofList cs).utf8ByteSize

/-- A numeral is spelled with either separator, and with a digit at least. -/
inductive Numeral.Spelling : Numeral → List Char → Prop
  | whole {ds} : (∀ d ∈ ds, d.isDigit = true) → ds ≠ [] → Spelling ⟨ds, none⟩ ds
  | fraction {ds sep es} : (∀ d ∈ ds, d.isDigit = true) → isSeparator sep = true → (∀ e ∈ es, e.isDigit = true) →
      ds ≠ [] ∨ es ≠ [] → Spelling ⟨ds, some es⟩ (ds ++ sep :: es)

/-- The separator written as a point. -/
def Numeral.pointed (cs : List Char) : List Char := cs.map fun c => if c = ',' then '.' else c

namespace Symbol

inductive Spelling (x : Variable) : Symbol → List Char → Prop
  | number {n cs value} : Numeral.Spelling n cs → Binary64.Reads (Numeral.pointed cs) value → Spelling x (.number value) cs
  | argument : Spelling x .argument [x.letter]
  | imaginaryUnit : Spelling x .imaginaryUnit ['j']
  | opening : Spelling x .opening ['(']
  | closing : Spelling x .closing [')']
  | add : Spelling x (.operator .add) ['+']
  | sub : Spelling x (.operator .sub) ['-']
  | mul : Spelling x (.operator .mul) ['*']
  | div : Spelling x (.operator .div) ['/']
  | pow : Spelling x (.operator .pow) ['^']

def isNumber : Symbol → Bool
  | .number _ => true
  | _ => false

end Symbol

/-- The spelling of a symbol, and the gap before it. -/
structure Lexeme (x : Variable) where
  gap : List Char
  text : List Char
  symbol : Symbol
  isGap_gap : ∀ c ∈ gap, Token.isGap c = true
  spelling : Symbol.Spelling x symbol text

namespace Lexeme

variable {x : Variable}

/-- Numerals do not touch. -/
def Apart (l m : Lexeme x) : Prop := l.symbol.isNumber = true → m.symbol.isNumber = true → m.gap ≠ []

def textOf (ls : List (Lexeme x)) : List Char := ls.flatMap fun l => l.gap ++ l.text

/-- The tokens of lexemes the first of which has `offset` bytes before its gap. -/
def tokensFrom (offset : Nat) : List (Lexeme x) → List Token
  | [] => []
  | l :: ls => ⟨l.symbol, offset + byteLength l.gap⟩ :: tokensFrom (offset + byteLength l.gap + byteLength l.text) ls

end Lexeme

/-- Lexemes, and the gap behind the last one. -/
structure Layout (x : Variable) where
  lexemes : List (Lexeme x)
  trailing : List Char
  isGap_trailing : ∀ c ∈ trailing, Token.isGap c = true
  apart : lexemes.IsChain Lexeme.Apart

namespace Layout

variable {x : Variable}

def text (d : Layout x) : List Char := Lexeme.textOf d.lexemes ++ d.trailing

def symbols (d : Layout x) : List Symbol := d.lexemes.map Lexeme.symbol

def tokens (d : Layout x) : List Token := Lexeme.tokensFrom 0 d.lexemes

end Layout

/-- Characters with which no lexeme starts, `offset` bytes into a source, and the error about them. -/
inductive Malformed (x : Variable) (offset : Nat) : List Char → CompileError → Prop
  | secondSeparator {ds sep es sep' cs} : (∀ d ∈ ds, d.isDigit = true) → Numeral.isSeparator sep = true →
      (∀ e ∈ es, e.isDigit = true) → Numeral.isSeparator sep' = true →
      Malformed x offset (ds ++ sep :: es ++ sep' :: cs) ⟨offset + byteLength (ds ++ sep :: es), .secondSeparator⟩
  | noDigits {sep cs} : Numeral.isSeparator sep = true → (∀ c ∈ cs.head?, c.isDigit = false) →
      Malformed x offset (sep :: cs) ⟨offset, .noDigits⟩
  | unexpectedCharacter {c cs} : Token.isGap c = false → (∀ s ds, ¬Symbol.Spelling x s (c :: ds)) →
      Malformed x offset (c :: cs) ⟨offset, .unexpectedCharacter x⟩

end TransferFunction
