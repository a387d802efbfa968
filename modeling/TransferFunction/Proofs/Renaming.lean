import Mathlib.Logic.Equiv.Basic
import TransferFunction.Proofs.Compilation

/-! # The name of the variable does not matter

If the letters of two variables are exchanged everywhere in a source, the other variable reads the same tokens at the same
places. No other character is changed, and no stage asks for a letter except whether it is that of the variable.
-/

namespace TransferFunction
open PartialFold

namespace Variable

variable (x y : Variable)

/-- The letter of the other variable in the place of that of each of the two. -/
def swap (c : Char) : Char := Equiv.swap x.letter y.letter c

/-- The text with the letters of the two variables exchanged. -/
def exchange (source : String) : String := String.ofList (source.toList.map (x.swap y))

theorem swap_left : x.swap y x.letter = y.letter := Equiv.swap_apply_left x.letter y.letter

theorem swap_right : x.swap y y.letter = x.letter := Equiv.swap_apply_right x.letter y.letter

theorem swap_of_ne {c : Char} (hx : c ≠ x.letter) (hy : c ≠ y.letter) : x.swap y c = c :=
  Equiv.swap_apply_of_ne_of_ne hx hy

variable {p : Char → Bool} (hp : ∀ v : Variable, p v.letter = false)
include hp

/-- A class of characters without letters stays the same. -/
theorem class_swap (c : Char) : p (x.swap y c) = p c := by
  rw [swap, Equiv.swap_apply_def]
  split_ifs with hx hy
  · rw [hx, hp, hp]
  · rw [hy, hp, hp]
  · rfl

theorem map_swap_of_class {cs : List Char} (h : ∀ c ∈ cs, p c = true) : cs.map (x.swap y) = cs := by
  have hne : ∀ c ∈ cs, ∀ v : Variable, c ≠ v.letter := by
    rintro c hc v rfl
    have hv := h v.letter hc
    rw [hp] at hv
    cases hv
  have hself : ∀ c ∈ cs, x.swap y c = id c := fun c hc => x.swap_of_ne y (hne c hc x) (hne c hc y)
  rw [List.map_congr_left hself, List.map_id]

theorem head_map_swap {cs : List Char} (h : ∀ c ∈ cs.head?, p c = false) :
    ∀ c ∈ (cs.map (x.swap y)).head?, p c = false := by
  intro c hc
  rw [List.head?_map, Option.mem_map] at hc
  obtain ⟨d, hd, rfl⟩ := hc
  rw [class_swap x y hp]
  exact h d hd

end Variable

namespace Numeral

theorem isDigit_letter (v : Variable) : v.letter.isDigit = false := (isStart_eq_false.mp v.isStart_letter).1

theorem isSeparator_letter (v : Variable) : isSeparator v.letter = false := (isStart_eq_false.mp v.isStart_letter).2

/-- The same numeral is read. -/
theorem read_map_swap (x y : Variable) (cs : List Char) : read (cs.map (x.swap y)) = read cs := by
  rcases exists_runs cs with ⟨ds, rest, rfl, hds, hrest⟩ | ⟨ds, sep, es, rest, rfl, hds, hsep, hes, hrest⟩
  · rw [List.map_append, x.map_swap_of_class y isDigit_letter hds, read_whole hds hrest,
      read_whole hds (x.head_map_swap y Variable.isStart_letter hrest)]
  · have hseparator : [sep].map (x.swap y) = [sep] :=
      x.map_swap_of_class y isSeparator_letter (List.forall_mem_singleton.mpr hsep)
    have hsecond : ((rest.map (x.swap y)).head?.any isSeparator) = rest.head?.any isSeparator := by
      cases rest with
      | nil => rfl
      | cons c rest => exact x.class_swap y isSeparator_letter c
    rw [List.map_append, List.map_cons, List.map_append, x.map_swap_of_class y isDigit_letter hds,
      x.map_swap_of_class y isDigit_letter hes, (List.cons.inj hseparator).1, read_separator hds hsep hes hrest,
      read_separator hds hsep hes (x.head_map_swap y isDigit_letter hrest), hsecond]

end Numeral

/-- Only the error about a character that starts nothing quotes the variable. -/
def Cause.quoting (y : Variable) : Cause → Cause
  | .unexpectedCharacter _ => .unexpectedCharacter y
  | c => c

/-- Nothing but the letter differs in the texts for two variables. -/
theorem Cause.exists_text_eq :
    ∃ before after, ∀ x : Variable, (Cause.unexpectedCharacter x).text = before ++ x.text ++ after := by
  have hassoc (a b c d e : String) : a ++ b ++ c ++ d ++ e = a ++ b ++ (c ++ d ++ e) := by simp only [String.append_assoc]
  exact ⟨_, _, fun x => hassoc _ x.text _ _ _⟩

namespace CompileError

def quoting (y : Variable) (e : CompileError) : CompileError := ⟨e.offset, e.cause.quoting y⟩

/-- Two errors of one kind at one place, the texts of which differ at most in the letter that they quote. -/
structure Renamed (x y : Variable) (e e' : CompileError) : Prop where
  kind_eq : e'.kind = e.kind
  offset_eq : e'.offset = e.offset
  text_eq : e'.cause.text = e.cause.text ∨
    ∃ before after, e.cause.text = before ++ x.text ++ after ∧ e'.cause.text = before ++ y.text ++ after

variable {x : Variable} {e : CompileError}

theorem quoting_of_structural (h : e.kind = .structural) (y : Variable) : e.quoting y = e := by
  obtain ⟨offset, cause⟩ := e
  cases cause with
  | unexpectedCharacter _ => cases h
  | _ => rfl

theorem renamed_of_malformed {offset : Nat} {cs : List Char} (h : Malformed x offset cs e) (y : Variable) :
    e.Renamed x y (e.quoting y) := by
  cases h with
  | secondSeparator | noDigits => exact ⟨rfl, rfl, .inl rfl⟩
  | unexpectedCharacter =>
    obtain ⟨before, after, htext⟩ := Cause.exists_text_eq
    exact ⟨rfl, rfl, .inr ⟨before, after, htext x, htext y⟩⟩

end CompileError

namespace Token

theorem symbol?_letter (x : Variable) : symbol? x x.letter = some .argument := by
  obtain ⟨c, hc, hsymbol, -⟩ := (Symbol.Spelling.argument (x := x)).exists_symbol? rfl
  rwa [(List.cons.inj hc).1]

theorem symbol?_letter_of_ne {x v : Variable} (h : v.letter ≠ x.letter) : symbol? x v.letter = none := by
  unfold symbol?
  split
  case h_8 => rw [if_neg h, if_neg v.ne_imaginaryUnit]
  all_goals exact absurd ‹_› (v.letter_ne rfl)

theorem symbol?_swap (x y : Variable) (c : Char) : symbol? y (x.swap y c) = symbol? x c := by
  by_cases hx : c = x.letter
  · rw [hx, Variable.swap_left, symbol?_letter, symbol?_letter]
  by_cases hy : c = y.letter
  · rw [hy] at hx ⊢
    rw [Variable.swap_right, symbol?_letter_of_ne hx, symbol?_letter_of_ne (Ne.symm hx)]
  · rw [x.swap_of_ne y hx hy]
    unfold symbol?
    split
    case h_8 => rw [if_neg hx, if_neg hy]
    all_goals rfl

/-- With the letters exchanged, the other variable reads the same tokens, or fails at the same place. -/
theorem scanFrom_map_swap (x y : Variable) (offset : Nat) (cs : List Char) :
    scanFrom y offset (cs.map (x.swap y)) = (scanFrom x offset cs).mapError (.quoting y) := by
  have hgap (c : Char) : isGap (x.swap y c) = isGap c := x.class_swap y Variable.isGap_letter c
  have hstart (c : Char) : Numeral.isStart (x.swap y c) = Numeral.isStart c :=
    x.class_swap y Variable.isStart_letter c
  have hread (c : Char) (cs : List Char) : Numeral.read
      (x.swap y c :: cs.map (x.swap y)) = Numeral.read (c :: cs) :=
    Numeral.read_map_swap x y (c :: cs)
  fun_induction scanFrom x offset cs with
  | case1 offset =>
    rw [List.map_nil, scanFrom]
    rfl
  | case2 offset c cs hc ih => rw [List.map_cons, scanFrom, hgap, if_pos hc, ih]
  | case3 offset c cs hc hs fault hfault =>
    rw [List.map_cons, scanFrom, hgap, if_neg hc, hstart, if_pos hs, hread, hfault]
    cases fault <;> rfl
  | case4 offset c cs hc hs n hn value hvalue ih =>
    rw [List.map_cons, scanFrom, hgap, if_neg hc, hstart, if_pos hs, hread, hn, ← map_mapError, ← ih, List.map_drop]
    simp only [hvalue]
  | case5 offset c cs hc hs n hn hvalue =>
    rw [List.map_cons, scanFrom, hgap, if_neg hc, hstart, if_pos hs, hread, hn]
    simp only [hvalue]
    rfl
  | case6 offset c cs hc hs s hsymbol ih =>
    rw [List.map_cons, scanFrom, hgap, if_neg hc, hstart, if_neg hs, symbol?_swap, hsymbol, ← map_mapError, ← ih]
  | case7 offset c cs hc hs hsymbol =>
    rw [List.map_cons, scanFrom, hgap, if_neg hc, hstart, if_neg hs, symbol?_swap, hsymbol]
    rfl

theorem scan_exchange (x y : Variable) (source : String) :
    scan y (x.exchange y source) = (scan x source).mapError (.quoting y) := by
  rw [scan, Variable.exchange, String.toList_ofList]
  exact scanFrom_map_swap x y 0 source.toList

end Token

namespace Expression

theorem compile_exchange_eq [Arithmetic] (x y : Variable) (source : String) :
    compile y (x.exchange y source) = (compile x source).mapError (.quoting y) := by
  cases h : compile x source with
  | ok e =>
    obtain ⟨ts, out, p, hts, hout, hp, rfl⟩ := compile_eq_ok.mp h
    exact compile_eq_ok.mpr ⟨ts, out, p, by rw [Token.scan_exchange, hts]; rfl, hout, hp, rfl⟩
  | error e =>
    refine compile_eq_error.mpr ?_
    rcases compile_eq_error.mp h with hscan | ⟨ts, hts, hout⟩
    · exact .inl (by rw [Token.scan_exchange, hscan]; rfl)
    · have hstructural : e.kind = .structural := (ExplicitForm.concerns_of_ofTokens_error hout).refuses.1
      refine .inr ⟨ts, by rw [Token.scan_exchange, hts]; rfl, ?_⟩
      rw [hout, e.quoting_of_structural hstructural]

theorem renamed_of_compile [Arithmetic] {x : Variable} {source : String} {e : CompileError} (h : compile x source = .error e)
    (y : Variable) : e.Renamed x y (e.quoting y) := by
  rcases compile_eq_error.mp h with hscan | ⟨ts, -, hout⟩
  · obtain ⟨_, _, _, _, _, hmalformed, _⟩ := Token.stuck_of_scanFrom hscan
    exact CompileError.renamed_of_malformed hmalformed y
  · rw [e.quoting_of_structural (ExplicitForm.concerns_of_ofTokens_error hout).refuses.1]
    exact ⟨rfl, rfl, .inl rfl⟩

/-- With the letters of two variables exchanged everywhere, a source compiles for the one variable to what it compiled to for
the other, or both fail alike: at the same place, and with texts that differ at most in the letter that they quote. -/
theorem compile_exchange [Arithmetic] (x y : Variable) (source : String) :
    (∀ e, compile x source = .ok e ↔ compile y (x.exchange y source) = .ok e) ∧
      ∀ e, compile x source = .error e → ∃ e', compile y (x.exchange y source) = .error e' ∧ e.Renamed x y e' := by
  rw [compile_exchange_eq]
  constructor
  · intro e
    cases compile x source <;> simp [Except.mapError]
  · intro e h
    rw [h]
    exact ⟨e.quoting y, rfl, renamed_of_compile h y⟩

/-- In `s+x` the second letter is refused for the variable `s`, and so it is in `x+s` for the variable `x`. -/
theorem compile_exchange_sum : ∃ e', compile ⟨'x', by decide, by decide⟩ "x+s" = .error e' ∧
    CompileError.Renamed .standard ⟨'x', by decide, by decide⟩ ⟨2, .unexpectedCharacter .standard⟩ e' := by
  have hscan : Token.scan .standard "s+x" = .error ⟨2, .unexpectedCharacter .standard⟩ := by decide +kernel
  have hexchange : Variable.exchange .standard ⟨'x', by decide, by decide⟩ "s+x" = "x+s" := by decide
  rw [← hexchange]
  exact (compile_exchange .standard ⟨'x', by decide, by decide⟩ "s+x").2 _ (compile_eq_error.mpr (.inl hscan))

end Expression
end TransferFunction
