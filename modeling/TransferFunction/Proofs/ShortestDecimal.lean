import Mathlib.Algebra.Order.Field.Power
import Mathlib.Data.Rat.Cast.Order
import Mathlib.Tactic.Linarith
import Mathlib.Tactic.NormNum
import Mathlib.Tactic.Positivity
import Mathlib.Tactic.Ring
import TransferFunction.Binary64.Nearest
import TransferFunction.Decimal.Shortest

/-! # The shortest decimal tells its double

The decimals that round to a double lie between the points halfway to its two neighbours. Such a point is shared by the two
neighbours it stands between, and of these only the one with an even significand takes it. So no decimal rounds to two doubles,
and the shortest decimal of a double is one that rounds to it.
-/

namespace TransferFunction

namespace Decimal
open Binary64

/-- The rational number that a decimal is. -/
def value (d : Decimal) : ℚ := d.significand * 10 ^ d.exponent

theorem zpow_mul_pow_toNat_neg {b : ℚ} (hb : b ≠ 0) (n : Int) : b ^ n * b ^ (-n).toNat = b ^ n.toNat := by
  rw [← zpow_natCast, ← zpow_natCast, ← zpow_add₀ hb]
  congr 1
  omega

section Compare

variable (a : Nat) (q : Int) (d : Decimal)

/-- Both sides of a comparison are scaled by the same power, so that they become natural numbers. -/
theorem exists_scale : ∃ s : ℚ, 0 < s ∧
    a * 2 ^ q * s = (a * Nat.pow 2 q.toNat * Nat.pow 10 (-d.exponent).toNat : Nat) ∧
    d.value * s = (d.significand * Nat.pow 10 d.exponent.toNat * Nat.pow 2 (-q).toNat : Nat) := by
  refine ⟨2 ^ (-q).toNat * 10 ^ (-d.exponent).toNat, by positivity, ?_, ?_⟩
  · calc a * 2 ^ q * (2 ^ (-q).toNat * 10 ^ (-d.exponent).toNat)
        = a * ((2 : ℚ) ^ q * 2 ^ (-q).toNat) * 10 ^ (-d.exponent).toNat := by ring
      _ = _ := by
        rw [zpow_mul_pow_toNat_neg two_ne_zero]
        push_cast [Nat.pow_eq]
        rfl
  · calc d.value * (2 ^ (-q).toNat * 10 ^ (-d.exponent).toNat)
        = d.significand * ((10 : ℚ) ^ d.exponent * 10 ^ (-d.exponent).toNat) * 2 ^ (-q).toNat := by
          rw [value]
          ring
      _ = _ := by
        rw [zpow_mul_pow_toNat_neg (by norm_num)]
        push_cast [Nat.pow_eq]
        rfl

theorem compareDyadic_eq_lt : compareDyadic a q d = .lt ↔ a * 2 ^ q < d.value := by
  obtain ⟨s, hs, ha, hd⟩ := exists_scale a q d
  rw [compareDyadic, Nat.compare_eq_lt, ← mul_lt_mul_iff_left₀ hs, ha, hd, Nat.cast_lt]

theorem compareDyadic_eq_gt : compareDyadic a q d = .gt ↔ d.value < a * 2 ^ q := by
  obtain ⟨s, hs, ha, hd⟩ := exists_scale a q d
  rw [compareDyadic, Nat.compare_eq_gt, ← mul_lt_mul_iff_left₀ hs, ha, hd, Nat.cast_lt]

end Compare

/-- Four times the significand of the point halfway to the next smaller double, which is nearer below a power of two. -/
def quadrupleBelow (m : Nat) (q : Int) : Nat := 4 * m - if m = Nat.pow 2 52 ∧ q ≠ -1074 then 1 else 2

/-- Halfway to the next smaller double. -/
def halfwayBelow (m : Nat) (q : Int) : ℚ := quadrupleBelow m q * 2 ^ (q - 2)

/-- Halfway to the next larger double. -/
def halfwayAbove (m : Nat) (q : Int) : ℚ := (4 * m + 2 : Nat) * 2 ^ (q - 2)

theorem roundsTo_iff (d : Decimal) (m : Nat) (q : Int) : d.roundsTo m q = true ↔
    if m % 2 = 0 then halfwayBelow m q ≤ d.value ∧ d.value ≤ halfwayAbove m q
    else halfwayBelow m q < d.value ∧ d.value < halfwayAbove m q := by
  have hlow := compareDyadic_eq_lt (quadrupleBelow m q) (q - 2) d
  have hlow' := compareDyadic_eq_gt (quadrupleBelow m q) (q - 2) d
  have hhigh := compareDyadic_eq_lt (4 * m + 2) (q - 2) d
  have hhigh' := compareDyadic_eq_gt (4 * m + 2) (q - 2) d
  simp only [roundsTo]
  rw [← quadrupleBelow]
  split
  · rw [Bool.and_eq_true, bne_iff_ne, bne_iff_ne, ne_eq, hlow', ne_eq, hhigh, not_lt, not_lt]
    rfl
  · rw [Bool.and_eq_true, beq_iff_eq, beq_iff_eq, hlow, hhigh']
    rfl

theorem le_below_of_significand_lt {m m' : Nat} (q : Int) (hm : m < m') :
    4 * m + 2 ≤ quadrupleBelow m' q ∧ (4 * m + 2 = quadrupleBelow m' q → m % 2 = 1 ∨ m' % 2 = 1) := by
  rw [quadrupleBelow]
  split <;> omega

section Neighbours

variable {m m' : Nat} {q q' : Int} (h : Canonical m q) (h' : Canonical m' q')
include h h'

theorem le_scaled_below_of_exponent_lt (hq : q < q') :
    4 * m + 2 ≤ quadrupleBelow m' q' * Nat.pow 2 (q' - q).toNat ∧
      (4 * m + 2 = quadrupleBelow m' q' * Nat.pow 2 (q' - q).toNat → m % 2 = 1) := by
  have hlt := h.lt
  have hle := h.le
  have hfull : Nat.pow 2 52 ≤ m' := h'.full.resolve_left (by omega)
  have hbelow : Nat.pow 2 54 - 1 ≤ quadrupleBelow m' q' := by
    rw [quadrupleBelow]
    split <;> simp only [Nat.reducePow, Nat.pow_eq] at * <;> omega
  have hpow : 2 ≤ Nat.pow 2 (q' - q).toNat := Nat.le_self_pow (by omega) 2
  have hmul : (Nat.pow 2 54 - 1) * 2 ≤ quadrupleBelow m' q' * Nat.pow 2 (q' - q).toNat := Nat.mul_le_mul hbelow hpow
  simp only [Nat.reducePow, Nat.pow_eq] at *
  omega

/-- The point halfway to the next larger double is not above the one halfway down from any larger double. Where the two are one
point, only one of the significands is even. -/
theorem halfwayAbove_le_halfwayBelow (hlt : q < q' ∨ q = q' ∧ m < m') :
    halfwayAbove m q ≤ halfwayBelow m' q' ∧ (halfwayAbove m q = halfwayBelow m' q' → m % 2 = 1 ∨ m' % 2 = 1) := by
  have hscale : (0 : ℚ) < 2 ^ (q - 2) := by positivity
  rcases hlt with hq | ⟨rfl, hm⟩
  · obtain ⟨hle, hodd⟩ := le_scaled_below_of_exponent_lt h h' hq
    have hbelow : halfwayBelow m' q' = (quadrupleBelow m' q' * Nat.pow 2 (q' - q).toNat : Nat) * 2 ^ (q - 2) := by
      have hexponent : q' - 2 = ((q' - q).toNat : Int) + (q - 2) := by omega
      rw [halfwayBelow, hexponent, zpow_add₀ two_ne_zero, zpow_natCast]
      push_cast [Nat.pow_eq]
      ring
    rw [hbelow, halfwayAbove, mul_le_mul_iff_left₀ hscale, mul_left_inj' hscale.ne', Nat.cast_le, Nat.cast_inj]
    exact ⟨hle, fun heq => .inl (hodd heq)⟩
  · obtain ⟨hle, hodd⟩ := le_below_of_significand_lt q hm
    rw [halfwayBelow, halfwayAbove, mul_le_mul_iff_left₀ hscale, mul_left_inj' hscale.ne', Nat.cast_le, Nat.cast_inj]
    exact ⟨hle, hodd⟩

end Neighbours

theorem bounds_of_roundsTo {d : Decimal} {m : Nat} {q : Int} (h : d.roundsTo m q = true) :
    (halfwayBelow m q ≤ d.value ∧ d.value ≤ halfwayAbove m q) ∧
      (m % 2 = 1 → halfwayBelow m q < d.value ∧ d.value < halfwayAbove m q) := by
  rw [roundsTo_iff] at h
  split at h
  · next heven => exact ⟨h, fun hodd => by omega⟩
  · exact ⟨⟨h.1.le, h.2.le⟩, fun _ => h⟩

section Determined

variable {d d' : Decimal} {m m' : Nat} {q q' : Int}

theorem value_lt_of_roundsTo (h : Canonical m q) (h' : Canonical m' q') (hd : d.roundsTo m q = true)
    (hd' : d'.roundsTo m' q' = true) (hlt : q < q' ∨ q = q' ∧ m < m') : d.value < d'.value := by
  obtain ⟨hle, hodd⟩ := halfwayAbove_le_halfwayBelow h h' hlt
  obtain ⟨⟨-, habove⟩, hstrict⟩ := bounds_of_roundsTo hd
  obtain ⟨⟨hbelow, -⟩, hstrict'⟩ := bounds_of_roundsTo hd'
  rcases hle.lt_or_eq with hlt | heq
  · linarith
  · rcases hodd heq with hm | hm'
    · linarith [(hstrict hm).2]
    · linarith [(hstrict' hm').1]

/-- No number rounds to two doubles. -/
theorem roundsTo_determined (h : Canonical m q) (h' : Canonical m' q') (hd : d.roundsTo m q = true)
    (hd' : d'.roundsTo m' q' = true) (hvalue : d.value = d'.value) : m = m' ∧ q = q' := by
  by_contra hne
  have hlt : (q < q' ∨ q = q' ∧ m < m') ∨ q' < q ∨ q' = q ∧ m' < m := by omega
  rcases hlt with hlt | hlt
  · exact (value_lt_of_roundsTo h h' hd hd' hlt).ne hvalue
  · exact (value_lt_of_roundsTo h' h hd' hd hlt).ne' hvalue

end Determined

section Search

variable {m : Nat} {q : Int}

theorem value_exact (m : Nat) (q : Int) : (exact m q).value = m * 2 ^ q := by
  have hten : (10 : ℚ) ^ min q 0 * 5 ^ (-q).toNat = 2 ^ min q 0 := by
    have hneg : -min q 0 = ((-q).toNat : Int) := by omega
    rw [show (10 : ℚ) = 2 * 5 by norm_num, mul_zpow, mul_assoc, ← zpow_natCast (5 : ℚ), ← hneg, ← zpow_add₀ (by norm_num),
      add_neg_cancel, zpow_zero, mul_one]
  have htwo : (2 : ℚ) ^ min q 0 * 2 ^ q.toNat = 2 ^ q := by
    rw [← zpow_natCast, ← zpow_add₀ two_ne_zero]
    congr 1
    omega
  calc (exact m q).value = m * ((10 : ℚ) ^ min q 0 * 5 ^ (-q).toNat * 2 ^ q.toNat) := by
        rw [value, exact]
        push_cast [Nat.pow_eq]
        ring
    _ = _ := by rw [hten, htwo]

/-- A double rounds to itself. -/
theorem roundsTo_exact (hm : 0 < m) : (exact m q).roundsTo m q = true := by
  have hscale : (0 : ℚ) < 2 ^ (q - 2) := by positivity
  have hvalue : (exact m q).value = (4 * m : Nat) * 2 ^ (q - 2) := by
    rw [value_exact, zpow_sub₀ two_ne_zero]
    push_cast
    ring
  have hbelow : halfwayBelow m q < (exact m q).value := by
    rw [hvalue, halfwayBelow, mul_lt_mul_iff_left₀ hscale, Nat.cast_lt, quadrupleBelow]
    split <;> omega
  have habove : (exact m q).value < halfwayAbove m q := by
    rw [hvalue, halfwayAbove, mul_lt_mul_iff_left₀ hscale, Nat.cast_lt]
    omega
  rw [roundsTo_iff]
  split
  · exact ⟨hbelow.le, habove.le⟩
  · exact ⟨hbelow, habove⟩

theorem roundsTo_of_nearest? {e : Int} {d : Decimal} (h : nearest? m q e = some d) : d.roundsTo m q = true := by
  simp only [nearest?] at h
  split at h
  · next hupper =>
    cases h
    exact (Bool.and_eq_true_iff.mp hupper).1
  · split at h
    · next hlower =>
      cases h
      exact hlower
    · cases h

theorem roundsTo_search (hm : 0 < m) (n : Nat) (e : Int) : (search m q n e).roundsTo m q = true := by
  induction n generalizing e with
  | zero => exact roundsTo_exact hm
  | succ n ih =>
    rw [search]
    cases h : nearest? m q e with
    | none => exact ih (e - 1)
    | some d => exact roundsTo_of_nearest? h

/-- What is written for a double rounds to it. -/
theorem roundsTo_shortest (hm : 0 < m) : (shortest m q).roundsTo m q = true := roundsTo_search hm _ _

theorem value_shortest_pos (hm : 0 < m) : 0 < (shortest m q).value := by
  have hbelow : 0 < halfwayBelow m q := by
    have hquadruple : 0 < quadrupleBelow m q := by
      rw [quadrupleBelow]
      split <;> omega
    rw [halfwayBelow]
    positivity
  exact hbelow.trans_le (bounds_of_roundsTo (roundsTo_shortest hm)).1.1

end Search

end Decimal
end TransferFunction
