import TransferFunction.Proofs.NumeralReading
import TransferFunction.Proofs.ShortestDecimal

/-! # The positional text of a decimal

A decimal is written as a numeral, which stands for the same rational number. A numeral is read back from its spelling, so
two decimals with one text are one number.
-/

namespace TransferFunction

namespace Numeral

/-- The rational number that a numeral stands for, before it is rounded. -/
def rational (n : Numeral) : ℚ := Nat.ofDigitChars 10 (n.whole ++ n.fraction.getD []) 0 / 10 ^ (n.fraction.getD []).length

theorem ofDigitChars_digitChar_cons {n : Nat} (hn : n < 10) (cs : List Char) :
    Nat.ofDigitChars 10 (n.digitChar :: cs) 0 = 10 ^ cs.length * n + Nat.ofDigitChars 10 cs 0 := by
  rw [Nat.ofDigitChars_cons_digitChar_of_lt_ten hn, Nat.ofDigitChars_eq_ofDigitChars_zero, Nat.mul_zero, Nat.zero_add]

theorem rational_whole (ds : List Char) : rational ⟨ds, none⟩ = Nat.ofDigitChars 10 ds 0 := by
  simp [rational]

theorem rational_fraction (ds es : List Char) :
    rational ⟨ds, some es⟩ = Nat.ofDigitChars 10 ds 0 + Nat.ofDigitChars 10 es 0 / 10 ^ es.length := by
  rw [rational, Option.getD_some, Nat.ofDigitChars_append, Nat.ofDigitChars_eq_ofDigitChars_zero]
  push_cast
  rw [add_div, mul_div_cancel_left₀ _ (by positivity)]

/-- A text spells one numeral at most. -/
theorem Spelling.determined {n n' : Numeral} {cs : List Char} (h : n.Spelling cs) (h' : n'.Spelling cs) : n = n' := by
  have hend : ∀ c ∈ ([] : List Char).head?, isStart c = false := by simp
  exact Except.ok.inj ((h.read_append hend).symm.trans (h'.read_append hend))

end Numeral

namespace Decimal
open Numeral

theorem isDigit_of_mem_fractionDigits {n r : Nat} (hr : r < 10 ^ n) :
    ∀ c ∈ fractionDigits n r, c.isDigit = true := by
  induction n generalizing r with
  | zero => exact nofun
  | succ n ih =>
    rw [fractionDigits]
    split
    · exact nofun
    · have hdigit : r / Nat.pow 10 n < 10 := Nat.div_lt_of_lt_mul (by rwa [Nat.pow_eq, ← Nat.pow_succ])
      refine List.forall_mem_cons.mpr ⟨?_, ih (Nat.mod_lt r (Nat.pow_pos (by decide)))⟩
      rw [Nat.isDigit_digitChar, decide_eq_true hdigit]

/-- What is left out behind the last digit is zeros. -/
theorem ofDigitChars_fractionDigits {n r : Nat} (hr : r < 10 ^ n) :
    Nat.ofDigitChars 10 (fractionDigits n r) 0 * 10 ^ n = r * 10 ^ (fractionDigits n r).length := by
  induction n generalizing r with
  | zero =>
    obtain rfl : r = 0 := by omega
    rfl
  | succ n ih =>
    rw [fractionDigits]
    split
    · next h =>
      subst h
      rw [Nat.zero_mul]
      exact Nat.zero_mul _
    · have hdigit : r / Nat.pow 10 n < 10 := Nat.div_lt_of_lt_mul (by rwa [Nat.pow_eq, ← Nat.pow_succ])
      have hrest : Nat.ofDigitChars 10 (fractionDigits n (r % Nat.pow 10 n)) 0 * 10 ^ n =
          r % Nat.pow 10 n * 10 ^ (fractionDigits n (r % Nat.pow 10 n)).length :=
        ih (Nat.mod_lt r (Nat.pow_pos (by decide)))
      rw [ofDigitChars_digitChar_cons hdigit, List.length_cons]
      generalize (fractionDigits n (r % Nat.pow 10 n)).length = k at *
      calc (10 ^ k * (r / Nat.pow 10 n) + Nat.ofDigitChars 10 (fractionDigits n (r % Nat.pow 10 n)) 0) * 10 ^ (n + 1)
          = 10 * (10 ^ k * (r / Nat.pow 10 n) * 10 ^ n + Nat.ofDigitChars 10 (fractionDigits n (r % Nat.pow 10 n)) 0 * 10 ^ n) := by ring
        _ = 10 * (10 ^ k * (r / Nat.pow 10 n) * 10 ^ n + r % Nat.pow 10 n * 10 ^ k) := by rw [hrest]
        _ = (Nat.pow 10 n * (r / Nat.pow 10 n) + r % Nat.pow 10 n) * 10 ^ (k + 1) := by rw [Nat.pow_eq]; ring
        _ = r * 10 ^ (k + 1) := by rw [Nat.div_add_mod]

section Positional

variable (d : Decimal)

theorem value_of_nonneg (h : 0 ≤ d.exponent) : d.value = (d.significand * Nat.pow 10 d.exponent.toNat : Nat) := by
  obtain ⟨n, hn⟩ := Int.eq_ofNat_of_zero_le h
  rw [value, hn, zpow_natCast]
  push_cast [Nat.pow_eq, Int.toNat_natCast]
  rfl

/-- The whole part, and the digits behind the point. -/
theorem value_of_neg (h : ¬0 ≤ d.exponent) : d.value =
    Nat.ofDigitChars 10 (Nat.toDigits 10 (d.significand / Nat.pow 10 (-d.exponent).toNat)) 0 +
      Nat.ofDigitChars 10 (fractionDigits (-d.exponent).toNat (d.significand % Nat.pow 10 (-d.exponent).toNat)) 0 /
        10 ^ (fractionDigits (-d.exponent).toNat (d.significand % Nat.pow 10 (-d.exponent).toNat)).length := by
  obtain ⟨n, hn⟩ : ∃ n : Nat, d.exponent = -n := ⟨(-d.exponent).toNat, by omega⟩
  have hplaces : (-d.exponent).toNat = n := by omega
  have hmod : d.significand % Nat.pow 10 n < 10 ^ n := Nat.mod_lt _ (Nat.pow_pos (by decide))
  have hfraction : (Nat.ofDigitChars 10 (fractionDigits n (d.significand % Nat.pow 10 n)) 0 : ℚ) /
      10 ^ (fractionDigits n (d.significand % Nat.pow 10 n)).length = (d.significand % Nat.pow 10 n : Nat) / 10 ^ n := by
    rw [div_eq_div_iff (by positivity) (by positivity)]
    exact_mod_cast ofDigitChars_fractionDigits hmod
  have hsplit : ((Nat.pow 10 n * (d.significand / Nat.pow 10 n) + d.significand % Nat.pow 10 n : Nat) : ℚ) = d.significand := by
    rw [Nat.div_add_mod]
  rw [hplaces, Nat.ofDigitChars_ten_toDigits, hfraction, value, hn, zpow_neg, zpow_natCast, ← hsplit]
  push_cast [Nat.pow_eq]
  rw [← div_eq_mul_inv, add_div, mul_div_cancel_left₀ _ (by positivity)]

end Positional

/-- A decimal is written as a numeral of its value. -/
theorem exists_spelling_positional (d : Decimal) : ∃ n : Numeral, n.Spelling d.positional ∧ n.rational = d.value := by
  have hwhole : ∀ k : Nat, ∀ c ∈ Nat.toDigits 10 k, c.isDigit = true :=
    fun k c hc => Nat.isDigit_of_mem_toDigits (by decide) (by decide) hc
  by_cases he : 0 ≤ d.exponent
  · refine ⟨⟨Nat.toDigits 10 (d.significand * Nat.pow 10 d.exponent.toNat), none⟩, ?_, ?_⟩
    · rw [positional, if_pos he]
      exact .whole (hwhole _) Nat.toDigits_ne_nil
    · rw [rational_whole, Nat.ofDigitChars_ten_toDigits, d.value_of_nonneg he]
  · have hvalue := d.value_of_neg he
    have hdigits := isDigit_of_mem_fractionDigits (n := (-d.exponent).toNat)
      (Nat.mod_lt d.significand (Nat.pow_pos (by decide)))
    rw [positional, if_neg he]
    dsimp only
    cases hfraction : fractionDigits (-d.exponent).toNat (d.significand % Nat.pow 10 (-d.exponent).toNat) with
    | nil =>
      refine ⟨_, .whole (hwhole _) Nat.toDigits_ne_nil, ?_⟩
      rw [rational_whole, hvalue, hfraction]
      simp
    | cons c cs =>
      have hcs : ∀ e ∈ c :: cs, e.isDigit = true := hfraction ▸ hdigits
      refine ⟨_, .fraction (hwhole _) (by rfl) hcs (.inl Nat.toDigits_ne_nil), ?_⟩
      rw [rational_fraction, hvalue, hfraction]

end Decimal
end TransferFunction
