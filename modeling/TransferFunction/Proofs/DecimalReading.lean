import TransferFunction.Proofs.NearestDouble
import TransferFunction.Proofs.NumeralReading

/-! # What a numeral is read as

A text of digits and a point is read as the double nearest to the number that it denotes, and any other text is not read. The
literal of a numeral is its spelling with a point for the separator.
-/

namespace TransferFunction

namespace Decimal

variable {ds es : List Char} (hds : ∀ d ∈ ds, d.isDigit = true)
include hds

theorem ofText?_whole (hne : ds ≠ []) : ofText? ds = some ⟨Nat.ofDigitChars 10 ds 0, 0⟩ := by
  have hend : ∀ c ∈ ([] : List Char).head?, c.isDigit = false := by simp
  have htake := takeWhile_run hds hend
  have hdrop := dropWhile_run hds hend
  rw [List.append_nil] at htake hdrop
  rw [ofText?, htake, hdrop]
  simp only [List.isEmpty_eq_false_iff.mpr hne, Bool.false_eq_true, if_false]

theorem ofText?_separated {c : Char} (hc : c.isDigit = false) : ofText? (ds ++ c :: es) =
    if c == '.' && es.all Char.isDigit && !(ds.isEmpty && es.isEmpty) then
      some ⟨Nat.ofDigitChars 10 (ds ++ es) 0, -(es.length : Int)⟩
    else none := by
  have hhead : ∀ d ∈ (c :: es).head?, d.isDigit = false := by
    rintro d ⟨⟩
    exact hc
  rw [ofText?, takeWhile_run hds hhead, dropWhile_run hds hhead]

end Decimal

namespace Binary64

theorem nearest_ofDecimal (n e : Nat) : Nearest (n / 10 ^ e) (ofDecimal ⟨n, -(e : Int)⟩) := by
  have hdecimal : ofDecimal ⟨n, -(e : Int)⟩ = nearest n (10 ^ e) := by
    rw [ofDecimal, Int.toNat_neg_natCast, Int.neg_neg, Int.toNat_natCast]
    exact congrArg (nearest · _) (Nat.mul_one n)
  have hnearest := nearest_nearest n (Nat.pow_pos (by decide) : 0 < 10 ^ e)
  rw [hdecimal]
  rwa [Nat.cast_pow, Nat.cast_ofNat] at hnearest

theorem nearest_ofDecimal_whole (n : Nat) : Nearest n (ofDecimal ⟨n, 0⟩) := by
  simpa using nearest_ofDecimal n 0

/-- A text is read if it denotes a number, and as the double nearest to this number. -/
theorem reads_iff {cs : List Char} {x : Float} : Reads cs x ↔ ofText? cs = some x := by
  constructor
  · rintro (⟨hds, hne, hx⟩ | @⟨ds, es, _, hds, hes, hne, hx⟩)
    · rw [ofText?, Decimal.ofText?_whole hds hne, Option.map_some, (nearest_ofDecimal_whole _).determined hx]
    · have hcond : ('.' == '.' && es.all Char.isDigit && !(ds.isEmpty && es.isEmpty)) = true := by
        simpa [not_and_or] using ⟨hes, hne⟩
      rw [ofText?, Decimal.ofText?_separated hds rfl, if_pos hcond, Option.map_some, (nearest_ofDecimal _ _).determined hx]
  · intro h
    obtain ⟨ds, rest, rfl, hds, hrest⟩ := Numeral.exists_digits cs
    cases rest with
    | nil =>
      rw [List.append_nil] at h ⊢
      rcases eq_or_ne ds [] with rfl | hne
      · cases h
      · rw [ofText?, Decimal.ofText?_whole hds hne] at h
        cases h
        exact .whole hds hne (nearest_ofDecimal_whole _)
    | cons c es =>
      rw [ofText?, Decimal.ofText?_separated hds (hrest c rfl)] at h
      split at h
      · next hcond =>
        obtain ⟨⟨rfl, hes⟩, hne⟩ : (c = '.' ∧ ∀ e ∈ es, e.isDigit = true) ∧ (ds ≠ [] ∨ es ≠ []) := by
          simpa [not_and_or] using hcond
        cases h
        exact .fraction hds hes hne (nearest_ofDecimal _ _)
      · cases h

theorem Reads.determined {cs : List Char} {x y : Float} (hx : Reads cs x) (hy : Reads cs y) : x = y := by
  rw [reads_iff] at hx hy
  exact Option.some.inj (hx.symm.trans hy)

end Binary64

namespace Numeral

theorem pointed_of_isDigit {ds : List Char} (hds : ∀ d ∈ ds, d.isDigit = true) : pointed ds = ds := by
  have hself : ∀ d ∈ ds, (if d = ',' then '.' else d) = id d := by
    intro d hd
    refine if_neg ?_
    rintro rfl
    exact absurd (hds _ hd) (by decide)
  rw [pointed, List.map_congr_left hself, List.map_id]

theorem pointed_separated {ds es : List Char} {sep : Char} (hds : ∀ d ∈ ds, d.isDigit = true)
    (hsep : isSeparator sep = true) (hes : ∀ e ∈ es, e.isDigit = true) : pointed (ds ++ sep :: es) = ds ++ '.' :: es := by
  have hpoint : pointed [sep] = ['.'] := by
    simp only [isSeparator, Bool.or_eq_true, beq_iff_eq] at hsep
    rcases hsep with rfl | rfl <;> rfl
  have hsplit : pointed (ds ++ sep :: es) = pointed ds ++ (pointed [sep] ++ pointed es) := by simp [pointed]
  rw [hsplit, hpoint, pointed_of_isDigit hds, pointed_of_isDigit hes, List.singleton_append]

namespace Spelling

variable {n : Numeral} {cs : List Char} (h : n.Spelling cs)
include h

theorem toList_literal : n.literal.toList = pointed cs := by
  rw [literal, String.toList_ofList]
  cases h with
  | whole hds _ =>
    rw [pointed_of_isDigit hds]
    exact List.append_nil _
  | fraction hds hsep hes _ =>
    rw [pointed_separated hds hsep hes]
    rfl

theorem exists_reads : ∃ value, Binary64.Reads (pointed cs) value := by
  cases h with
  | whole hds hne =>
    rw [pointed_of_isDigit hds]
    exact ⟨_, .whole hds hne (Binary64.nearest_ofDecimal_whole _)⟩
  | fraction hds hsep hes hne =>
    rw [pointed_separated hds hsep hes]
    exact ⟨_, .fraction hds hes hne (Binary64.nearest_ofDecimal _ _)⟩

/-- A numeral is read as its spelling with a point. -/
theorem value?_eq_some_iff {value : Float} : n.value? = some value ↔ Binary64.Reads (pointed cs) value := by
  rw [Binary64.reads_iff, value?, h.toList_literal]

end Spelling

end Numeral
end TransferFunction
