import TransferFunction.Proofs.DoubleBits
import TransferFunction.Proofs.PositionalText

/-! # The text of a double

A text of a double is a word of letters, digits and points, with a sign before it if the double is negative. Different doubles
have different texts, where all that is not a number counts as one.
-/

namespace TransferFunction.Binary64

/-- The decimal that is written for a double. -/
def written (m : Nat) (q : Int) : Decimal := if m = 0 then ⟨0, 0⟩ else Decimal.shortest m q

theorem value_written_zero (q : Int) : (written 0 q).value = 0 := by
  rw [written, if_pos rfl, Decimal.value, Nat.cast_zero, zero_mul]

theorem written_of_pos {m : Nat} (hm : 0 < m) (q : Int) : written m q = Decimal.shortest m q := if_neg hm.ne'

theorem value_written_pos {m : Nat} (hm : 0 < m) (q : Int) : 0 < (written m q).value := by
  rw [written_of_pos hm]
  exact Decimal.value_shortest_pos hm

theorem Canonical.exponent_of_zero {q : Int} (h : Canonical 0 q) : q = -1074 := h.full.resolve_right (by decide)

/-- What is written for a double tells which one it is. -/
theorem written_determined {m m' : Nat} {q q' : Int} (h : Canonical m q) (h' : Canonical m' q')
    (hvalue : (written m q).value = (written m' q').value) : m = m' ∧ q = q' := by
  rcases m.eq_zero_or_pos with rfl | hm <;> rcases m'.eq_zero_or_pos with rfl | hm'
  · exact ⟨rfl, h.exponent_of_zero.trans h'.exponent_of_zero.symm⟩
  · rw [value_written_zero] at hvalue
    exact absurd hvalue (value_written_pos hm' q').ne
  · rw [value_written_zero] at hvalue
    exact absurd hvalue (value_written_pos hm q).ne'
  · rw [written_of_pos hm, written_of_pos hm'] at hvalue
    exact Decimal.roundsTo_determined h h' (Decimal.roundsTo_shortest hm) (Decimal.roundsTo_shortest hm') hvalue

/-- The characters of a text of a double behind the sign. -/
def isPlain (c : Char) : Bool := Numeral.isStart c || c.isAlpha

structure IsWord (cs : List Char) : Prop where
  ne_nil : cs ≠ []
  plain : ∀ c ∈ cs, isPlain c = true

def signed (negative : Bool) (cs : List Char) : List Char := if negative then '-' :: cs else cs

section Signed

variable {s s' : Bool} {cs cs' rest rest' : List Char} (h : IsWord cs) (h' : IsWord cs')
  (hrest : ∀ c ∈ rest.head?, isPlain c = false) (hrest' : ∀ c ∈ rest'.head?, isPlain c = false)

include h in
theorem IsWord.not_minus : '-' :: rest ≠ cs ++ rest' := by
  obtain ⟨c, ds, rfl⟩ := List.exists_cons_of_ne_nil h.ne_nil
  intro heq
  cases (List.cons.inj heq).1
  exact absurd (h.plain _ List.mem_cons_self) (by decide)

include h h' hrest hrest' in
theorem IsWord.append_inj (happend : cs ++ rest = cs' ++ rest') : cs = cs' ∧ rest = rest' := by
  have htake := takeWhile_run h.plain hrest
  have hdrop := dropWhile_run h.plain hrest
  rw [happend] at htake hdrop
  exact ⟨htake.symm.trans (takeWhile_run h'.plain hrest'), hdrop.symm.trans (dropWhile_run h'.plain hrest')⟩

include h h' hrest hrest' in
/-- A signed word ends where the first character comes that is in no word. -/
theorem signed_append_inj (happend : signed s cs ++ rest = signed s' cs' ++ rest') : s = s' ∧ cs = cs' ∧ rest = rest' := by
  cases s <;> cases s'
  · exact ⟨rfl, h.append_inj h' hrest hrest' happend⟩
  · exact absurd happend.symm h.not_minus
  · exact absurd happend h'.not_minus
  · exact ⟨rfl, h.append_inj h' hrest hrest' (List.cons.inj happend).2⟩

end Signed

namespace Value

def isNegative : Value → Bool
  | .nan => false
  | .infinite negative | .finite negative _ _ => negative

/-- The text of a value without its sign. -/
def magnitude : Value → List Char
  | .nan => ['N', 'a', 'N']
  | .infinite _ => ['i', 'n', 'f']
  | .finite _ m q => (written m q).positional

/-- What doubles stand for. -/
def IsProper (v : Value) : Prop := ∀ {negative m q}, v = .finite negative m q → Canonical m q

theorem isStart_of_mem_magnitude {negative : Bool} {m : Nat} {q : Int} :
    ∀ c ∈ (Value.finite negative m q).magnitude, Numeral.isStart c = true := by
  obtain ⟨n, hn, -⟩ := (written m q).exists_spelling_positional
  exact hn.isStart_of_mem

theorem isWord_magnitude (v : Value) : IsWord v.magnitude := by
  cases v with
  | nan | infinite => exact ⟨List.cons_ne_nil _ _, List.all_eq_true.mp rfl⟩
  | finite negative m q =>
    obtain ⟨n, hn, -⟩ := (written m q).exists_spelling_positional
    obtain ⟨c, ds, hcons, -⟩ := hn.exists_cons
    refine ⟨?_, fun c hc => ?_⟩
    · rw [magnitude, hcons]
      exact List.cons_ne_nil _ _
    · rw [isPlain, isStart_of_mem_magnitude c hc, Bool.true_or]

/-- No numeral is one of the two words. -/
theorem magnitude_finite_ne {negative : Bool} {m : Nat} {q : Int} {c : Char} {cs : List Char}
    (hc : Numeral.isStart c = false) : (Value.finite negative m q).magnitude ≠ c :: cs := by
  intro h
  have hmem : c ∈ (Value.finite negative m q).magnitude := h ▸ List.mem_cons_self
  exact absurd (isStart_of_mem_magnitude c hmem) (ne_true_of_eq_false hc)

/-- The sign and the magnitude tell a value. -/
theorem eq_of_magnitude_eq {v v' : Value} (hv : v.IsProper) (hv' : v'.IsProper) (hsign : v.isNegative = v'.isNegative)
    (h : v.magnitude = v'.magnitude) : v = v' := by
  cases v with
  | nan =>
    cases v' with
    | nan => rfl
    | infinite => cases h
    | finite => exact absurd h.symm (magnitude_finite_ne rfl)
  | infinite =>
    cases v' with
    | nan => cases h
    | infinite => exact congrArg _ hsign
    | finite => exact absurd h.symm (magnitude_finite_ne rfl)
  | finite negative m q =>
    cases v' with
    | nan | infinite => exact absurd h (magnitude_finite_ne rfl)
    | finite negative' m' q' =>
      obtain ⟨n, hn, hvalue⟩ := (written m q).exists_spelling_positional
      obtain ⟨n', hn', hvalue'⟩ := (written m' q').exists_spelling_positional
      rw [magnitude, magnitude] at h
      have hnumeral : n = n' := hn.determined (h ▸ hn')
      obtain ⟨rfl, rfl⟩ := written_determined (hv rfl) (hv' rfl) (by rw [← hvalue, hnumeral, hvalue'])
      exact congrArg (Value.finite · m q) hsign

end Value

theorem toList_text (x : Float) : (text x).toList = signed (decode x).isNegative (decode x).magnitude := by
  rw [text]
  cases decode x with
  | nan => decide
  | infinite negative => exact String.toList_ofList
  | finite negative m q =>
    have hwritten : (if m = 0 then ['0'] else (Decimal.shortest m q).positional) = (written m q).positional := by
      rw [written, apply_ite Decimal.positional]
      rfl
    simp only [String.toList_ofList, hwritten]
    rfl

/-- Of two texts that start with a text of a double, followed by what no such text goes on with, the doubles and what follows
are the same. -/
theorem toList_text_append_inj {x y : Float} {rest rest' : List Char} (hrest : ∀ c ∈ rest.head?, isPlain c = false)
    (hrest' : ∀ c ∈ rest'.head?, isPlain c = false) (h : (text x).toList ++ rest = (text y).toList ++ rest') :
    x = y ∧ rest = rest' := by
  rw [toList_text, toList_text] at h
  obtain ⟨hsign, hmagnitude, hrests⟩ :=
    signed_append_inj (Value.isWord_magnitude _) (Value.isWord_magnitude _) hrest hrest' h
  exact ⟨decode_injective (Value.eq_of_magnitude_eq canonical_of_decode canonical_of_decode hsign hmagnitude), hrests⟩

/-- Different doubles have different texts. -/
theorem text_injective : Function.Injective text := by
  intro x y h
  have hnil : ∀ c ∈ ([] : List Char).head?, isPlain c = false := nofun
  exact (toList_text_append_inj hnil hnil (congrArg (·.toList ++ []) h)).1

end TransferFunction.Binary64
