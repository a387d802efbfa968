import Mathlib.Logic.Function.Basic
import TransferFunction.Binary64.Nearest
import TransferFunction.Decimal.Reading

/-! # The bits of a double

Bits are unpacked into sign, exponent and fraction, and packed from these, without loss; only the many bits of what is not a
number become one. So a double is known by what its bits stand for, and a double with given bits can be made.
-/

namespace TransferFunction.Binary64
open Float.Model (Format)
open Float.Model.UnpackedFloat

section Fields

variable (b : BitVec 64)

theorem toNat_unpackExponent : (@unpackExponent Format.binary64 b).toNat = b.toNat / Nat.pow 2 52 % Nat.pow 2 11 := by
  change (b.toNat >>> 52) % 2 ^ 11 = _
  rw [Nat.shiftRight_eq_div_pow]

theorem toNat_unpackMantissa : (@unpackMantissa Format.binary64 b).toNat = b.toNat % Nat.pow 2 52 := by
  change (b.toNat >>> 0) % 2 ^ 52 = _
  rw [Nat.shiftRight_zero]

theorem toNat_unpackSign : (@unpackSign Format.binary64 b).toNat = b.toNat / Nat.pow 2 63 % 2 := by
  change (b.toNat >>> 63) % 2 ^ 1 = _
  rw [Nat.shiftRight_eq_div_pow]

theorem toNat_packComponents (s : Sign) (e : BitVec 11) (m : BitVec 52) : (packComponents Format.binary64 s e m).toNat =
    s.toBitVec.toNat * Nat.pow 2 63 + e.toNat * Nat.pow 2 52 + m.toNat := by
  have happend : (s.toBitVec ++ e ++ m).toNat = (s.toBitVec.toNat <<< 11 + e.toNat) <<< 52 + m.toNat := by
    rw [BitVec.toNat_append, BitVec.toNat_append, ← Nat.shiftLeft_add_eq_or_of_lt e.isLt,
      ← Nat.shiftLeft_add_eq_or_of_lt m.isLt]
  refine happend.trans ?_
  simp only [Nat.shiftLeft_eq, Nat.pow_eq, Nat.reducePow]
  omega

theorem unpackSign_packComponents (s : Sign) (e : BitVec 11) (m : BitVec 52) :
    Sign.ofBitVec (unpackSign (packComponents Format.binary64 s e m)) = s := by
  have hsign : unpackSign (packComponents Format.binary64 s e m) = s.toBitVec := by
    apply BitVec.eq_of_toNat_eq
    have he : e.toNat < Nat.pow 2 11 := e.isLt
    have hm : m.toNat < Nat.pow 2 52 := m.isLt
    have hs := s.toBitVec.isLt
    rw [toNat_unpackSign, toNat_packComponents]
    simp only [Nat.pow_eq, Nat.reducePow] at *
    omega
  rw [hsign]
  cases s <;> rfl

theorem packComponents_unpack : packComponents Format.binary64 (Sign.ofBitVec (@unpackSign Format.binary64 b))
    (unpackExponent b) (unpackMantissa b) = b := by
  have hsign : (Sign.ofBitVec (@unpackSign Format.binary64 b)).toBitVec = @unpackSign Format.binary64 b := by
    generalize @unpackSign Format.binary64 b = s
    revert s
    decide
  apply BitVec.eq_of_toNat_eq
  have hb := b.isLt
  rw [toNat_packComponents, hsign, toNat_unpackSign, toNat_unpackExponent, toNat_unpackMantissa]
  simp only [Nat.pow_eq, Nat.reducePow] at *
  omega

theorem toNat_pos_of_ne_zero {m : BitVec 52} (h : m ≠ 0#52) : 0 < m.toNat :=
  Nat.pos_of_ne_zero fun hzero => h (BitVec.eq_of_toNat_eq hzero)

theorem toNat_leading_append (m : BitVec 52) : (1#1 ++ m).toNat = Nat.pow 2 52 + m.toNat := by
  rw [BitVec.toNat_append, ← Nat.shiftLeft_add_eq_or_of_lt m.isLt]
  rfl

/-- What a sign, an exponent and a fraction stand for. -/
def ofFields (s : Sign) (e : BitVec 11) (m : BitVec 52) : Float.Model.UnpackedFloat :=
  if e = -1#11 then if m = 0#52 then .infinity s else .notANumber
  else if e = 0#11 then if h : m = 0#52 then .zero s else .finite s m.toNat (e.toNat - 1075 + 1) (toNat_pos_of_ne_zero h)
  else .finite s (1#1 ++ m).toNat (e.toNat - 1075) (by rw [toNat_leading_append]; exact Nat.add_pos_left (by decide) _)

theorem unpack_eq_ofFields : unpack Format.binary64 b =
    ofFields (Sign.ofBitVec (@unpackSign Format.binary64 b)) (@unpackExponent Format.binary64 b)
      (@unpackMantissa Format.binary64 b) :=
  rfl

theorem unpack_packComponents (s : Sign) (e : BitVec 11) (m : BitVec 52) :
    unpack Format.binary64 (packComponents Format.binary64 s e m) = ofFields s e m := by
  rw [unpack_eq_ofFields, unpackSign_packComponents, unpackExponent_packComponents, unpackMantissa_packComponents]

end Fields

section Packing

theorem pack_finite (s : Sign) {m : Nat} (hm : 0 < m) {q : Int} {n : Nat} (hq : (q + 1075).toNat = n) :
    pack Format.binary64 (.finite s m q hm) = if 2 ^ 11 ≤ n + 1 then packedInfinity Format.binary64 s
      else if m.log2 + 1 = 53 then packComponents Format.binary64 s (BitVec.ofNat 11 n) (BitVec.ofNat 52 m)
      else packComponents Format.binary64 s 0#11 (BitVec.ofNat 52 m) := by
  have hexponent : (q + 1023 + 52).toNat = n := by omega
  subst hexponent
  rfl

theorem pack_subnormal (s : Sign) {m : BitVec 52} (hm : 0 < m.toNat) :
    pack Format.binary64 (.finite s m.toNat (-1074) hm) = packComponents Format.binary64 s 0#11 m := by
  have hlog : m.toNat.log2 < 52 := (Nat.log2_lt hm.ne').mpr m.isLt
  rw [pack_finite s hm rfl, if_neg (by decide), if_neg (by omega), BitVec.ofNat_toNat, BitVec.setWidth_eq]

/-- The leading one of the significand `n` is not stored. -/
theorem pack_normal (s : Sign) {e : BitVec 11} {m : BitVec 52} (he : e ≠ -1#11) {n : Nat} (hn : 0 < n)
    (hsignificand : n = Nat.pow 2 52 + m.toNat) :
    pack Format.binary64 (.finite s n (e.toNat - 1075) hn) = packComponents Format.binary64 s e m := by
  have hm := m.isLt
  have hlog : n.log2 = 52 := (Nat.log2_eq_iff hn.ne').mpr (by simp only [Nat.pow_eq, Nat.reducePow] at *; omega)
  have hlt : ¬2 ^ 11 ≤ e.toNat + 1 := by
    have hmax : e.toNat ≠ 2047 := fun h => he (BitVec.eq_of_toNat_eq h)
    have hbound := e.isLt
    omega
  have hfraction : BitVec.ofNat 52 n = m := by
    apply BitVec.eq_of_toNat_eq
    rw [BitVec.toNat_ofNat, hsignificand]
    simp only [Nat.pow_eq, Nat.reducePow] at *
    omega
  have hexponent : ((e.toNat : Int) - 1075 + 1075).toNat = e.toNat := by omega
  rw [pack_finite s hn hexponent, if_neg hlt, if_pos (by omega), hfraction, BitVec.ofNat_toNat, BitVec.setWidth_eq]

/-- Fields are packed as they are, unless they are those of what is not a number. -/
theorem pack_ofFields (s : Sign) {e : BitVec 11} {m : BitVec 52} (h : e = -1#11 → m = 0#52) :
    pack Format.binary64 (ofFields s e m) = packComponents Format.binary64 s e m := by
  rw [ofFields]
  by_cases hexponent : e = -1#11
  · rw [if_pos hexponent, if_pos (h hexponent), h hexponent, hexponent]
    rfl
  · rw [if_neg hexponent]
    by_cases hzero : e = 0#11
    · subst hzero
      rw [if_pos rfl]
      by_cases hfraction : m = 0#52
      · rw [dif_pos hfraction, hfraction]
        rfl
      · rw [dif_neg hfraction]
        exact pack_subnormal s _
    · rw [if_neg hzero]
      exact pack_normal s hexponent _ (toNat_leading_append m)

theorem ofFields_eq_notANumber {s : Sign} {e : BitVec 11} {m : BitVec 52} (h : ¬(e = -1#11 → m = 0#52)) :
    ofFields s e m = .notANumber := by
  obtain ⟨hexponent, hmantissa⟩ := Classical.not_imp.mp h
  rw [ofFields, if_pos hexponent, if_neg hmantissa]

theorem pack_unpack {b : BitVec 64}
    (h : @unpackExponent Format.binary64 b = -1#11 → @unpackMantissa Format.binary64 b = 0#52) :
    pack Format.binary64 (unpack Format.binary64 b) = b :=
  (pack_ofFields _ h).trans (packComponents_unpack b)

end Packing

section Negation

theorem unpack_pack_ofFields (s : Sign) (e : BitVec 11) (m : BitVec 52) :
    unpack Format.binary64 (pack Format.binary64 (ofFields s e m)) = ofFields s e m := by
  by_cases h : e = -1#11 → m = 0#52
  · rw [pack_ofFields s h, unpack_packComponents]
  · rw [ofFields_eq_notANumber h]
    rfl

theorem pack_unpack_toBits (x : Float) :
    pack Format.binary64 (unpack Format.binary64 x.toBits.toBitVec) = x.toBits.toBitVec := by
  by_cases h : @unpackExponent Format.binary64 x.toBits.toBitVec = -1#11 →
      @unpackMantissa Format.binary64 x.toBits.toBitVec = 0#52
  · exact pack_unpack h
  · obtain ⟨hexponent, hmantissa⟩ := Classical.not_imp.mp h
    rw [unpack_eq_ofFields, ofFields_eq_notANumber h]
    exact (x.toModel.valid.eq_packedNaN hexponent hmantissa).symm

/-- The sign turned round gives the negated value. -/
theorem neg_ofFields (s : Sign) (e : BitVec 11) (m : BitVec 52) : (ofFields s e m).neg = ofFields (-s) e m := by
  rw [ofFields, ofFields]
  by_cases hexponent : e = -1#11
  · rw [if_pos hexponent, if_pos hexponent]
    split <;> rfl
  · rw [if_neg hexponent, if_neg hexponent]
    by_cases hzero : e = 0#11
    · rw [if_pos hzero, if_pos hzero]
      by_cases hfraction : m = 0#52
      · rw [dif_pos hfraction, dif_pos hfraction]
        rfl
      · rw [dif_neg hfraction, dif_neg hfraction]
        rfl
    · rw [if_neg hzero, if_neg hzero]
      rfl

theorem toBits_inj {x y : Float} (h : x.toBits = y.toBits) : x = y := by
  obtain ⟨b, hb⟩ := x
  obtain ⟨b', hb'⟩ := y
  obtain rfl : b = b' := h
  rfl

theorem unpack_neg (x : Float) :
    unpack Format.binary64 (-x).toBits.toBitVec = (unpack Format.binary64 x.toBits.toBitVec).neg := by
  change unpack Format.binary64 (pack Format.binary64 (unpack Format.binary64 x.toBits.toBitVec).neg) = _
  rw [unpack_eq_ofFields x.toBits.toBitVec, neg_ofFields, unpack_pack_ofFields]

theorem neg_involutive : Function.Involutive fun x : Float => -x := by
  have hneg (f : Float.Model.UnpackedFloat) : f.neg.neg = f := by
    cases f with
    | infinity s | zero s | finite s => cases s <;> rfl
    | notANumber => rfl
  intro x
  have hbits : (- -x).toBits.toBitVec = x.toBits.toBitVec := by
    change pack Format.binary64 (unpack Format.binary64 (-x).toBits.toBitVec).neg = _
    rw [unpack_neg, hneg, pack_unpack_toBits]
  exact toBits_inj (UInt64.toBitVec_inj.mp hbits)

end Negation

section Decoding

variable (x : Float)

variable {x} in
/-- Only one row of bits stands for what is not a number. -/
theorem toBitVec_of_nan (he : x.toBits.toNat / Nat.pow 2 52 % Nat.pow 2 11 = 2047)
    (hf : x.toBits.toNat % Nat.pow 2 52 ≠ 0) : x.toBits.toBitVec = packedNaN Format.binary64 := by
  refine x.toModel.valid.eq_packedNaN (BitVec.eq_of_toNat_eq ((toNat_unpackExponent _).trans he)) fun hzero => ?_
  exact hf ((toNat_unpackMantissa _).symm.trans (congrArg BitVec.toNat hzero))

/-- The bits of a value. A significand with its leading one is stored without it. -/
def encode : Value → Nat
  | .nan => (packedNaN Format.binary64).toNat
  | .infinite negative => (if negative then Nat.pow 2 63 else 0) + 2047 * Nat.pow 2 52
  | .finite negative m q => (if negative then Nat.pow 2 63 else 0) +
      if Nat.pow 2 52 ≤ m then (q + 1075).toNat * Nat.pow 2 52 + (m - Nat.pow 2 52) else m

/-- The bits are those of the sign, the exponent and the fraction. -/
theorem sum_fields : (if Nat.pow 2 63 ≤ x.toBits.toNat then Nat.pow 2 63 else 0) +
    (x.toBits.toNat / Nat.pow 2 52 % Nat.pow 2 11 * Nat.pow 2 52 + x.toBits.toNat % Nat.pow 2 52) = x.toBits.toNat := by
  have hlt : x.toBits.toNat < Nat.pow 2 64 := x.toBits.toNat_lt
  split <;> simp only [Nat.pow_eq, Nat.reducePow] at * <;> omega

theorem encode_decode : encode (decode x) = x.toBits.toNat := by
  have hsum := sum_fields x
  have hfraction : ¬Nat.pow 2 52 ≤ x.toBits.toNat % Nat.pow 2 52 :=
    Nat.not_le_of_lt (Nat.mod_lt _ (Nat.pow_pos (by decide)))
  simp only [decode]
  split
  · next hexponent =>
    split
    · next hzero =>
      rw [hexponent, hzero, Nat.add_zero] at hsum
      simpa only [encode, decide_eq_true_eq] using hsum
    · next hnonzero =>
      rw [encode, ← toBitVec_of_nan hexponent hnonzero]
      rfl
  · split
    · next hexponent =>
      rw [hexponent, Nat.zero_mul, Nat.zero_add] at hsum
      simpa only [encode, decide_eq_true_eq, if_neg hfraction] using hsum
    · simpa only [encode, decide_eq_true_eq, if_pos (Nat.le_add_right _ _), Nat.add_sub_cancel_left, Int.sub_add_cancel,
        Int.toNat_natCast] using hsum

/-- Different doubles stand for different values. -/
theorem decode_injective : Function.Injective decode := by
  intro x y h
  refine toBits_inj (UInt64.toNat_inj.mp ?_)
  rw [← encode_decode, h, encode_decode]

variable {x} in
theorem canonical_of_decode {negative : Bool} {m : Nat} {q : Int} (h : decode x = .finite negative m q) : Canonical m q := by
  have hfraction : x.toBits.toNat % Nat.pow 2 52 < Nat.pow 2 52 := Nat.mod_lt _ (Nat.pow_pos (by decide))
  simp only [decode] at h
  split at h
  · split at h <;> cases h
  · next hexponent =>
    split at h
    · cases h
      exact ⟨hfraction.trans (by decide), le_rfl, .inl rfl⟩
    · next hzero =>
      cases h
      refine ⟨?_, by omega, .inr (Nat.le_add_right _ _)⟩
      simp only [Nat.pow_eq, Nat.reducePow] at hfraction ⊢
      omega

end Decoding

section Rank

/-- The bits of a double that is not negative, the leading one of the significand carried into the exponent. -/
def rank (m : Nat) (q : Int) : Nat := (q + 1074).toNat * Nat.pow 2 52 + m

theorem toNat_toBits_ofRank (n : Nat) : (ofRank n).toBits.toNat = min n (2047 * Nat.pow 2 52) := by
  have hsmall : min n (2047 * Nat.pow 2 52) ≤ 2047 * Nat.pow 2 52 := Nat.min_le_right _ _
  have hnat : (UInt64.ofNat (min n (2047 * Nat.pow 2 52))).toNat = min n (2047 * Nat.pow 2 52) := by
    rw [UInt64.toNat_ofNat']
    simp only [Nat.pow_eq, Nat.reducePow] at *
    omega
  have hbits : pack Format.binary64 (unpack Format.binary64 (UInt64.ofNat (min n (2047 * Nat.pow 2 52))).toBitVec) =
      (UInt64.ofNat (min n (2047 * Nat.pow 2 52))).toBitVec := by
    refine pack_unpack fun hexponent => BitVec.eq_of_toNat_eq ?_
    have he := congrArg BitVec.toNat hexponent
    rw [toNat_unpackExponent, UInt64.toNat_toBitVec, hnat] at he
    rw [toNat_unpackMantissa, UInt64.toNat_toBitVec, hnat]
    simp only [Nat.pow_eq, Nat.reducePow, BitVec.reduceNeg, BitVec.toNat_ofNat] at *
    omega
  exact (congrArg BitVec.toNat hbits).trans hnat

variable {m : Nat} {q : Int} (h : Canonical m q)
include h

theorem decode_ofRank_of_le (hq : q ≤ 971) : decode (ofRank (rank m q)) = .finite false m q := by
  obtain ⟨hlt, hle, hfull⟩ := h
  have hbits : (ofRank (rank m q)).toBits.toNat = rank m q := by
    rw [toNat_toBits_ofRank, rank]
    simp only [Nat.pow_eq, Nat.reducePow] at *
    omega
  have hpositive : ¬Nat.pow 2 63 ≤ rank m q := by
    rw [rank]
    simp only [Nat.pow_eq, Nat.reducePow] at *
    omega
  simp only [decode, hbits, decide_eq_false hpositive]
  by_cases hm : m < Nat.pow 2 52
  · have hexponent : rank m q / Nat.pow 2 52 % Nat.pow 2 11 = 0 := by
      rw [rank]
      simp only [Nat.pow_eq, Nat.reducePow] at *
      omega
    have hfraction : rank m q % Nat.pow 2 52 = m := by
      rw [rank, Nat.mul_add_mod_self_right, Nat.mod_eq_of_lt hm]
    obtain rfl : q = -1074 := hfull.resolve_right (Nat.not_le_of_lt hm)
    rw [hexponent, hfraction]
    rfl
  · have hexponent : rank m q / Nat.pow 2 52 % Nat.pow 2 11 = (q + 1075).toNat := by
      rw [rank]
      simp only [Nat.pow_eq, Nat.reducePow] at *
      omega
    have hfraction : Nat.pow 2 52 + rank m q % Nat.pow 2 52 = m := by
      rw [rank]
      simp only [Nat.pow_eq, Nat.reducePow] at *
      omega
    rw [hexponent, hfraction, if_neg (by omega), if_neg (by omega)]
    congr
    omega

theorem decode_ofRank_of_lt (hq : 971 < q) : decode (ofRank (rank m q)) = .infinite false := by
  obtain ⟨hlt, hle, hfull⟩ := h
  have hbits : (ofRank (rank m q)).toBits.toNat = 2047 * Nat.pow 2 52 := by
    rw [toNat_toBits_ofRank, rank]
    simp only [Nat.pow_eq, Nat.reducePow] at *
    omega
  simp only [decode, hbits]
  rfl

end Rank

end TransferFunction.Binary64
