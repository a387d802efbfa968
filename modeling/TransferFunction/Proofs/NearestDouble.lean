import Mathlib.Algebra.Order.Field.Power
import Mathlib.Data.Rat.Cast.Order
import Mathlib.Tactic.Linarith
import Mathlib.Tactic.NormNum
import Mathlib.Tactic.Positivity
import Mathlib.Tactic.Ring
import TransferFunction.Proofs.DoubleBits

/-! # One double is nearest, and it is found

In steps as large as the quotient needs them no double lies between two neighbouring multiples. So of the multiples on both
sides of the quotient one is nearest, which the remainder tells. Two doubles are never equally near with both significands
even, since the next one after an even significand is odd.
-/

namespace TransferFunction.Binary64

section Quotient

variable {a b : Nat}

theorem roundDiv_bounds (a b : Nat) : a / b ≤ roundDiv a b ∧ roundDiv a b ≤ a / b + 1 := by
  rw [roundDiv]
  split <;> omega

/-- The fractional part of a quotient, and how it compares to a half. -/
theorem exists_fraction (a : Nat) (hb : 0 < b) : ∃ f : ℚ, (a : ℚ) / b = (a / b : Nat) + f ∧ 0 ≤ f ∧ f < 1 ∧
    (2 * f < 1 ↔ 2 * (a % b) < b) ∧ (2 * f = 1 ↔ 2 * (a % b) = b) := by
  have hb' : (0 : ℚ) < b := by exact_mod_cast hb
  have hsplit : (a : ℚ) = b * (a / b : Nat) + (a % b : Nat) := by exact_mod_cast (Nat.div_add_mod a b).symm
  refine ⟨(a % b : Nat) / b, ?_, by positivity, ?_, ?_, ?_⟩
  · rw [hsplit, add_div, mul_div_cancel_left₀ _ hb'.ne']
  · rw [div_lt_one hb']
    exact_mod_cast Nat.mod_lt a hb
  · rw [← mul_div_assoc, div_lt_one hb']
    exact_mod_cast Iff.rfl
  · rw [← mul_div_assoc, div_eq_one_iff_eq hb'.ne']
    exact_mod_cast Iff.rfl

/-- What is not between two neighbouring integers is at least as far from `m + f` as one of the two. -/
theorem distance_of_not_between {m f v : ℚ} (hzero : 0 ≤ f) (hone : f < 1) (hv : v ≤ m ∨ m + 1 ≤ v) :
    f ≤ |v - (m + f)| ∧ (f = |v - (m + f)| → v = m) ∨
      1 - f ≤ |v - (m + f)| ∧ (1 - f = |v - (m + f)| → v = m + 1) := by
  rcases hv with hv | hv
  · rw [abs_of_nonpos (by linarith)]
    exact .inl ⟨by linarith, fun h => by linarith⟩
  · rw [abs_of_nonneg (by linarith)]
    exact .inr ⟨by linarith, fun h => by linarith⟩

/-- Of the numbers that are not between the neighbours of a quotient none is nearer to it than the rounded quotient. -/
theorem abs_roundDiv_sub_le (hb : 0 < b) {v : ℚ} (hv : v ≤ (a / b : Nat) ∨ ((a / b : Nat) : ℚ) + 1 ≤ v) :
    |(roundDiv a b : ℚ) - a / b| ≤ |v - a / b| ∧
      (|(roundDiv a b : ℚ) - a / b| = |v - a / b| → v = roundDiv a b ∨ roundDiv a b % 2 = 0) := by
  obtain ⟨f, hf, hzero, hone, hlt, heq⟩ := exists_fraction a hb
  have hdistance := distance_of_not_between hzero hone hv
  rw [hf, roundDiv]
  split
  · next hdown =>
    rw [← hlt, ← heq] at hdown
    generalize a / b = m at *
    have hhalf : 2 * f ≤ 1 := hdown.elim le_of_lt fun h => h.1.le
    have habs : |(m : ℚ) - (m + f)| = f := by rw [sub_add_cancel_left, abs_neg, abs_of_nonneg hzero]
    rw [habs]
    rcases hdistance with ⟨hle, hself⟩ | ⟨hle, -⟩
    · exact ⟨hle, fun h => .inl (hself h)⟩
    · exact ⟨by linarith, fun h => .inr (hdown.resolve_left (by linarith)).2⟩
  · next hup =>
    rw [← hlt, ← heq, not_or, not_lt, not_and] at hup
    generalize a / b = m at *
    obtain ⟨hhalf, hodd⟩ := hup
    have habs : |((m + 1 : Nat) : ℚ) - (m + f)| = 1 - f := by
      rw [Nat.cast_add, Nat.cast_one, add_sub_add_left_eq_sub, abs_of_nonneg (by linarith)]
    rw [habs]
    rcases hdistance with ⟨hle, -⟩ | ⟨hle, hself⟩
    · refine ⟨by linarith, fun h => .inr ?_⟩
      have hm := hodd (by linarith)
      omega
    · refine ⟨hle, fun h => .inl ?_⟩
      rw [Nat.cast_add, Nat.cast_one, hself h]

end Quotient

section Values

variable {m n : Nat} {q k : Int}

theorem value_lt_of_exponent_lt (hm : m < Nat.pow 2 53) (hn : Nat.pow 2 52 ≤ n) (hlt : q < k) :
    (m : ℚ) * 2 ^ q < n * 2 ^ k := by
  have hm' : (m : ℚ) < 2 ^ 53 := by exact_mod_cast hm
  have hn' : (2 : ℚ) ^ 52 ≤ n := by exact_mod_cast hn
  calc (m : ℚ) * 2 ^ q < 2 ^ 53 * 2 ^ q := mul_lt_mul_of_pos_right hm' (by positivity)
    _ = 2 ^ 52 * 2 ^ (q + 1) := by rw [zpow_add_one₀ two_ne_zero]; ring
    _ ≤ n * 2 ^ k := mul_le_mul hn' (zpow_le_zpow_right₀ one_le_two hlt) (by positivity) (by positivity)

/-- Between two neighbouring significands of one exponent no double lies. -/
theorem Canonical.not_between (h : Canonical n k) (hq : q = -1074 ∨ Nat.pow 2 52 ≤ m) :
    (n : ℚ) * 2 ^ (k - q) ≤ m ∨ (m : ℚ) + 1 ≤ n * 2 ^ (k - q) := by
  rcases lt_or_ge k q with hlt | hle
  · have hm : Nat.pow 2 52 ≤ m := hq.resolve_left fun heq => by
      have := h.le
      omega
    have hvalue := value_lt_of_exponent_lt h.lt hm (sub_neg_of_lt hlt)
    rw [zpow_zero, mul_one] at hvalue
    exact .inl hvalue.le
  · obtain ⟨j, hj⟩ := Int.eq_ofNat_of_zero_le (sub_nonneg_of_le hle)
    rw [hj, zpow_natCast]
    rcases Nat.lt_or_ge m (n * 2 ^ j) with hlt | hle
    · exact .inr (by exact_mod_cast hlt)
    · exact .inl (by exact_mod_cast hle)

theorem Canonical.determined (h : Canonical m q) (h' : Canonical n k) (heq : (m : ℚ) * 2 ^ q = n * 2 ^ k) :
    m = n ∧ q = k := by
  rcases lt_trichotomy q k with hlt | rfl | hlt
  · have hn : Nat.pow 2 52 ≤ n := h'.full.resolve_left fun hk => by
      have := h.le
      omega
    exact absurd heq (value_lt_of_exponent_lt h.lt hn hlt).ne
  · exact ⟨by exact_mod_cast mul_right_cancel₀ (zpow_ne_zero q two_ne_zero) heq, rfl⟩
  · have hm : Nat.pow 2 52 ≤ m := h.full.resolve_left fun hq => by
      have := h'.le
      omega
    exact absurd heq (value_lt_of_exponent_lt h'.lt hm hlt).ne'

end Values

section Distance

variable {r : ℚ} {m n : Nat} {q k : Int}

theorem scaled_eq (n : Nat) (k q : Int) : (n : ℚ) * 2 ^ (k - q) * 2 ^ q = n * 2 ^ k := by
  rw [mul_assoc, ← zpow_add₀ two_ne_zero, sub_add_cancel]

/-- If a larger double is as near as one with an even significand, it is the next one, so its own significand is odd. -/
theorem Closest.odd_of_lt (h : Closest r m q) (h' : Closest r n k) (hlt : (m : ℚ) * 2 ^ q < n * 2 ^ k)
    (hm : m % 2 = 0) : n % 2 = 1 := by
  have hnext : Canonical (m + 1) q := by
    have hlt53 := h.canonical.lt
    refine ⟨?_, h.canonical.le, h.canonical.full.imp_right Nat.le_succ_of_le⟩
    simp only [Nat.pow_eq, Nat.reducePow] at *
    omega
  have hstep : (0 : ℚ) < 2 ^ q := by positivity
  have hsucc : ((m + 1 : Nat) : ℚ) * 2 ^ q ≤ n * 2 ^ k := by
    rw [← scaled_eq n k q] at hlt ⊢
    have hle := (h'.canonical.not_between h.canonical.full).resolve_left
      (not_le_of_gt (lt_of_mul_lt_mul_right hlt hstep.le))
    exact mul_le_mul_of_nonneg_right (by exact_mod_cast hle) hstep.le
  have hlarger : (m : ℚ) * 2 ^ q < (m + 1 : Nat) * 2 ^ q :=
    mul_lt_mul_of_pos_right (by exact_mod_cast m.lt_succ_self) hstep
  -- the two are equally near, so `r` is halfway between them
  have hhalf : (m : ℚ) * 2 ^ q - r = -(n * 2 ^ k - r) :=
    (abs_eq_abs.mp (le_antisymm (h.le h'.canonical) (h'.le h.canonical))).resolve_left (by linarith)
  have hequal : ((m + 1 : Nat) : ℚ) * 2 ^ q = n * 2 ^ k := by
    refine hsucc.eq_of_not_lt fun hbefore => absurd (h.le hnext) (not_le_of_gt ?_)
    rw [abs_of_neg (by linarith : (m : ℚ) * 2 ^ q - r < 0)]
    exact abs_lt.mpr ⟨by linarith, by linarith⟩
  obtain ⟨rfl, -⟩ := hnext.determined h'.canonical hequal
  omega

theorem Closest.determined (h : Closest r m q) (h' : Closest r n k) : m = n ∧ q = k := by
  have heq := le_antisymm (h.le h'.canonical) (h'.le h.canonical)
  rcases h.even h'.canonical heq with ⟨rfl, rfl⟩ | hm
  · exact ⟨rfl, rfl⟩
  rcases h'.even h.canonical heq.symm with ⟨rfl, rfl⟩ | hn
  · exact ⟨rfl, rfl⟩
  rcases lt_trichotomy ((m : ℚ) * 2 ^ q) (n * 2 ^ k) with hlt | hvalue | hlt
  · have hodd := h.odd_of_lt h' hlt hm
    omega
  · exact h.canonical.determined h'.canonical hvalue
  · have hodd := h'.odd_of_lt h hlt hn
    omega

theorem Nearest.determined {x y : Float} (hx : Nearest r x) (hy : Nearest r y) : x = y := by
  apply decode_injective
  cases hx with
  | finite h hq hdecode =>
    cases hy with
    | finite h' _ hdecode' =>
      obtain ⟨rfl, rfl⟩ := h.determined h'
      rw [hdecode, hdecode']
    | infinite h' hq' _ =>
      obtain ⟨rfl, rfl⟩ := h.determined h'
      exact absurd hq (not_le_of_gt hq')
  | infinite h hq hdecode =>
    cases hy with
    | finite h' hq' _ =>
      obtain ⟨rfl, rfl⟩ := h.determined h'
      exact absurd hq' (not_le_of_gt hq)
    | infinite _ _ hdecode' => rw [hdecode, hdecode']

end Distance

section Rounding

/-- The rounded quotient is closest, however its value is written. -/
theorem closest_of_roundDiv {a b : Nat} (hb : 0 < b) {e : Int} (hfull : e = -1074 ∨ Nat.pow 2 52 ≤ a / b)
    {m : Nat} {q : Int} (h : Canonical m q) (hvalue : (m : ℚ) * 2 ^ q = roundDiv a b * 2 ^ e)
    (heven : roundDiv a b % 2 = 0 → m % 2 = 0) : Closest (a / b * 2 ^ e) m q := by
  have hstep : (0 : ℚ) < 2 ^ e := by positivity
  have hdistance (v : ℚ) : |v * 2 ^ e - a / b * 2 ^ e| = |v - a / b| * 2 ^ e := by
    rw [← sub_mul, abs_mul, abs_of_pos hstep]
  refine ⟨h, fun {n k} hn => ?_, fun {n k} hn heq => ?_⟩
  · rw [hvalue, ← scaled_eq n k e, hdistance, hdistance]
    exact mul_le_mul_of_nonneg_right (abs_roundDiv_sub_le hb (hn.not_between hfull)).1 hstep.le
  · rw [hvalue, ← scaled_eq n k e, hdistance, hdistance] at heq
    rcases (abs_roundDiv_sub_le hb (hn.not_between hfull)).2 (mul_right_cancel₀ hstep.ne' heq) with hround | hround
    · refine .inl (hn.determined h ?_)
      rw [hvalue, ← hround, scaled_eq]
    · exact .inr (heven hround)

/-- A quotient that is rounded up to the next power of two has the next exponent. -/
theorem exists_closest_of_lt {a b p : Nat} {r : ℚ} (hb : 0 < b) (hlt : a / b < Nat.pow 2 53)
    (hfull : p = 0 ∨ Nat.pow 2 52 ≤ a / b) (hr : a / b * 2 ^ ((p : Int) - 1074) = r) :
    ∃ m q, Closest r m q ∧ p * Nat.pow 2 52 + roundDiv a b = rank m q := by
  subst hr
  obtain ⟨hle, hsucc⟩ := roundDiv_bounds a b
  have hfull' : (p : Int) - 1074 = -1074 ∨ Nat.pow 2 52 ≤ a / b := hfull.imp_left fun hp => by omega
  rcases Nat.lt_or_ge (roundDiv a b) (Nat.pow 2 53) with hround | hround
  · have h : Canonical (roundDiv a b) (p - 1074) := ⟨hround, by omega, hfull'.imp_right fun h => Nat.le_trans h hle⟩
    refine ⟨_, _, closest_of_roundDiv hb hfull' h rfl id, ?_⟩
    rw [rank, Int.sub_add_cancel, Int.toNat_natCast]
  · have hpow : roundDiv a b = Nat.pow 2 53 := by omega
    have h : Canonical (Nat.pow 2 52) (p - 1074 + 1) := ⟨by decide, by omega, .inr le_rfl⟩
    refine ⟨_, _, closest_of_roundDiv hb hfull' h ?_ fun _ => by decide, ?_⟩
    · rw [hpow, zpow_add_one₀ two_ne_zero]
      push_cast [Nat.pow_eq]
      ring
    · have hp : ((p : Int) - 1074 + 1 + 1074).toNat = p + 1 := by omega
      rw [rank, hp, hpow]
      simp only [Nat.pow_eq, Nat.reducePow]
      omega

/-- As many low bits are dropped as a significand has no room for. -/
theorem div_bounds_of_log2 (s : Nat) : s / Nat.pow 2 (s.log2 - 52) < Nat.pow 2 53 ∧
    (s.log2 - 52 = 0 ∨ Nat.pow 2 52 ≤ s / Nat.pow 2 (s.log2 - 52)) := by
  have hpos (n : Nat) : 0 < Nat.pow 2 n := Nat.pow_pos (by decide)
  have hpow (m n : Nat) : Nat.pow 2 m * Nat.pow 2 n = Nat.pow 2 (m + n) := (Nat.pow_add 2 m n).symm
  constructor
  · rw [Nat.div_lt_iff_lt_mul (hpos _), hpow]
    exact Nat.lt_of_lt_of_le Nat.lt_log2_self (Nat.pow_le_pow_right (by decide) (by omega))
  · rcases Nat.eq_zero_or_pos (s.log2 - 52) with hzero | hp
    · exact .inl hzero
    · have hne : s ≠ 0 := by
        rintro rfl
        exact absurd hp (by decide)
      refine .inr ((Nat.le_div_iff_mul_le (hpos _)).mpr ?_)
      have hlog : 52 + (s.log2 - 52) = s.log2 := by omega
      rw [hpow, hlog]
      exact Nat.log2_self_le hne

theorem shifted_div (a b c p : Nat) :
    ((a <<< c : Nat) : ℚ) / (b <<< p : Nat) * 2 ^ ((p : Int) - c) = a / b := by
  rw [zpow_sub₀ two_ne_zero, zpow_natCast, zpow_natCast, Nat.shiftLeft_eq, Nat.shiftLeft_eq]
  push_cast
  rw [div_mul_div_comm, mul_assoc, mul_assoc, mul_comm ((2 : ℚ) ^ c), mul_div_mul_right _ _ (by positivity)]

/-- What is computed is a rounded quotient with as many bits as a significand has. -/
theorem exists_nearest_eq (a b : Nat) : ∃ p, nearest a b = ofRank (p * Nat.pow 2 52 + roundDiv (a <<< 1074) (b <<< p)) ∧
    a <<< 1074 / (b <<< p) < Nat.pow 2 53 ∧ (p = 0 ∨ Nat.pow 2 52 ≤ a <<< 1074 / (b <<< p)) := by
  refine ⟨_, rfl, ?_⟩
  rw [Nat.shiftLeft_eq b, ← Nat.div_div_eq_div_mul]
  exact div_bounds_of_log2 _

/-- The computed double is the nearest one. -/
theorem nearest_nearest (a : Nat) {b : Nat} (hb : 0 < b) : Nearest (a / b) (nearest a b) := by
  obtain ⟨p, hnearest, hlt, hfull⟩ := exists_nearest_eq a b
  have hden : 0 < b <<< p := Nat.lt_of_lt_of_le hb (Nat.le_shiftLeft ..)
  obtain ⟨m, q, hclosest, hrank⟩ := exists_closest_of_lt hden hlt hfull (shifted_div a b 1074 p)
  rw [hnearest, hrank]
  rcases le_or_gt q 971 with hq | hq
  · exact .finite hclosest hq (decode_ofRank_of_le hclosest.canonical hq)
  · exact .infinite hclosest hq (decode_ofRank_of_lt hclosest.canonical hq)

end Rounding

end TransferFunction.Binary64
