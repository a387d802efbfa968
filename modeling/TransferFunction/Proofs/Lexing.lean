import TransferFunction.Proofs.DecimalReading
import TransferFunction.Proofs.PartialFold

/-! # What is scanned

Scanning succeeds on the texts made of gaps and lexemes in which no numeral could go on behind its lexeme. It fails where no
lexeme starts, and what it has passed by then is such a text.
-/

namespace TransferFunction
open PartialFold

section Characters

variable {c : Char} (x : Variable)

theorem Token.isGap_iff : isGap c = true ↔ c.val ≤ 32 := decide_eq_true_iff

theorem Token.utf8Size_of_isGap (h : isGap c = true) : c.utf8Size = 1 :=
  Char.utf8Size_eq_one_iff.mpr (UInt32.le_trans (isGap_iff.mp h) (by decide))

theorem Numeral.isGap_of_isStart (h : isStart c = true) : Token.isGap c = false := by
  rw [← Bool.not_eq_true, Token.isGap_iff]
  intro hgap
  exact absurd (UInt32.le_trans (val_bounds h).1 hgap) (by decide)

theorem Numeral.isStart_of_isGap (h : Token.isGap c = true) : isStart c = false := by
  rw [← Bool.not_eq_true]
  intro hstart
  rw [isGap_of_isStart hstart] at h
  cases h

theorem Variable.val_bounds : 65 ≤ x.letter.val ∧ x.letter.val ≤ 122 := by
  have h : (decide (65 ≤ x.letter.val ∧ x.letter.val ≤ 90) ||
      (decide (97 ≤ x.letter.val) && decide (x.letter.val ≤ 122))) = true := x.isAlpha
  simp only [Bool.or_eq_true, Bool.and_eq_true, decide_eq_true_eq] at h
  rcases h with ⟨hl, hu⟩ | ⟨hl, hu⟩
  · exact ⟨hl, UInt32.le_trans hu (by decide)⟩
  · exact ⟨UInt32.le_trans (by decide) hl, hu⟩

theorem Variable.utf8Size_letter : x.letter.utf8Size = 1 :=
  Char.utf8Size_eq_one_iff.mpr (UInt32.le_trans x.val_bounds.2 (by decide))

theorem Variable.isGap_letter : Token.isGap x.letter = false := by
  rw [← Bool.not_eq_true, Token.isGap_iff]
  intro h
  exact absurd (UInt32.le_trans x.val_bounds.1 h) (by decide)

theorem Variable.isStart_letter : Numeral.isStart x.letter = false := by
  rw [← Bool.not_eq_true]
  intro h
  exact absurd (UInt32.le_trans x.val_bounds.1 (Numeral.val_bounds h).2) (by decide)

/-- The letter is no symbol of its own. -/
theorem Variable.letter_ne (h : c.isAlpha = false) : x.letter ≠ c := by
  rintro rfl
  rw [x.isAlpha] at h
  cases h

end Characters

namespace Symbol

variable {x : Variable} {s : Symbol} {c : Char} {text : List Char}

/-- All symbols but the numbers are spelled by one character. -/
theorem Spelling.exists_symbol? (h : s.Spelling x text) (hs : s.isNumber = false) :
    ∃ c, text = [c] ∧ Token.symbol? x c = some s ∧ Token.isGap c = false ∧ Numeral.isStart c = false := by
  cases h with
  | number _ _ => cases hs
  | argument =>
    refine ⟨x.letter, rfl, ?_, x.isGap_letter, x.isStart_letter⟩
    unfold Token.symbol?
    split
    case h_8 => exact if_pos rfl
    all_goals exact absurd ‹_› (x.letter_ne rfl)
  | imaginaryUnit => exact ⟨'j', rfl, if_neg x.ne_imaginaryUnit.symm, by decide, by decide⟩
  | opening | closing | add | sub | mul | div | pow => exact ⟨_, rfl, rfl, by decide, by decide⟩

theorem spelling_of_symbol? (h : Token.symbol? x c = some s) : s.Spelling x [c] ∧ s.isNumber = false := by
  unfold Token.symbol? at h
  split at h
  case h_8 =>
    split at h
    · next hc =>
      cases h
      rw [hc]
      exact ⟨.argument, rfl⟩
    · split at h
      · next hc =>
        cases h
        rw [hc]
        exact ⟨.imaginaryUnit, rfl⟩
      · cases h
  all_goals
    cases h
    exact ⟨by constructor, rfl⟩

/-- A spelling starts like a numeral only if it is one. -/
theorem Spelling.exists_cons (h : s.Spelling x text) :
    ∃ c cs, text = c :: cs ∧ Token.isGap c = false ∧ Numeral.isStart c = s.isNumber := by
  cases hs : s.isNumber with
  | true =>
    cases h with
    | number h _ =>
      obtain ⟨c, cs, rfl, hc⟩ := h.exists_cons
      exact ⟨c, cs, rfl, Numeral.isGap_of_isStart hc, hc⟩
    | _ => cases hs
  | false =>
    obtain ⟨c, rfl, -, hgap, hstart⟩ := h.exists_symbol? hs
    exact ⟨c, [], rfl, hgap, hstart⟩

theorem Spelling.utf8Size_eq (h : s.Spelling x text) : ∀ c ∈ text, c.utf8Size = 1 := by
  cases h with
  | number h _ => exact fun c hc => Numeral.utf8Size_of_isStart (h.isStart_of_mem c hc)
  | argument => exact List.forall_mem_singleton.mpr x.utf8Size_letter
  | imaginaryUnit | opening | closing | add | sub | mul | div | pow => exact List.forall_mem_singleton.mpr rfl

theorem Spelling.byteLength_eq (h : s.Spelling x text) : byteLength text = text.length :=
  byteLength_eq_length h.utf8Size_eq

end Symbol

/-- The characters from `offset` on are gaps and the lexemes of these tokens. -/
inductive Lexes (x : Variable) : Nat → List Char → List Token → Prop
  | nil {offset} : Lexes x offset [] []
  | gap {offset c cs ts} : Token.isGap c = true → Lexes x (offset + 1) cs ts → Lexes x offset (c :: cs) ts
  | lexeme {offset s text rest ts} : Symbol.Spelling x s text →
      (s.isNumber = true → ∀ c ∈ rest.head?, Numeral.isStart c = false) → Lexes x (offset + text.length) rest ts →
      Lexes x offset (text ++ rest) (⟨s, offset⟩ :: ts)

namespace Token

variable {x : Variable} {offset : Nat}

theorem scanFrom_gap {c : Char} (hc : isGap c = true) (cs : List Char) :
    scanFrom x offset (c :: cs) = scanFrom x (offset + 1) cs := by
  rw [scanFrom, if_pos hc]

/-- The spelling of a symbol is scanned as its token, unless a numeral goes on behind it. -/
theorem scanFrom_lexeme {s : Symbol} {text rest : List Char} (h : s.Spelling x text)
    (hrest : s.isNumber = true → ∀ c ∈ rest.head?, Numeral.isStart c = false) :
    scanFrom x offset (text ++ rest) = (⟨s, offset⟩ :: ·) <$> scanFrom x (offset + text.length) rest := by
  cases hs : s.isNumber with
  | true =>
    cases h with
    | @number n text value h hreads =>
      have hvalue : n.value? = some value := h.value?_eq_some_iff.mpr hreads
      obtain ⟨c, cs, rfl, hc⟩ := h.exists_cons
      have hread : Numeral.read (c :: (cs ++ rest)) = .ok n := h.read_append (hrest rfl)
      have hlength : n.length = cs.length + 1 := h.length_eq.symm
      rw [List.cons_append, scanFrom, if_neg (ne_true_of_eq_false (Numeral.isGap_of_isStart hc)), if_pos hc, hread]
      simp only [hvalue, hlength, Nat.add_sub_cancel, List.drop_left, List.length_cons]
    | _ => cases hs
  | false =>
    obtain ⟨c, rfl, hsymbol, hgap, hstart⟩ := h.exists_symbol? hs
    rw [List.singleton_append, scanFrom, if_neg (ne_true_of_eq_false hgap), if_neg (ne_true_of_eq_false hstart), hsymbol]
    rfl

end Token

namespace Lexes

variable {x : Variable} {offset : Nat} {cs : List Char} {ts : List Token}

theorem scanFrom (h : Lexes x offset cs ts) : Token.scanFrom x offset cs = .ok ts := by
  induction h with
  | nil => rw [Token.scanFrom]
  | gap hc _ ih => rw [Token.scanFrom_gap hc, ih]
  | lexeme hs hrest _ ih =>
    rw [Token.scanFrom_lexeme hs hrest, ih]
    rfl

/-- Every character of a text that is scanned is one byte long. -/
theorem utf8Size_eq (h : Lexes x offset cs ts) : ∀ c ∈ cs, c.utf8Size = 1 := by
  induction h with
  | nil => exact List.forall_mem_nil _
  | gap hc _ ih => exact List.forall_mem_cons.mpr ⟨Token.utf8Size_of_isGap hc, ih⟩
  | lexeme hs _ _ ih => exact List.forall_mem_append.mpr ⟨hs.utf8Size_eq, ih⟩

/-- A token stands where its offset says. -/
theorem exists_of_mem (h : Lexes x offset cs ts) {t : Token} (ht : t ∈ ts) :
    ∃ before text rest, cs = before ++ (text ++ rest) ∧ t.offset = offset + before.length ∧
      t.symbol.Spelling x text := by
  induction h with
  | nil => cases ht
  | @gap _ c _ _ _ _ ih =>
    obtain ⟨before, text, rest, rfl, hoffset, hspelling⟩ := ih ht
    refine ⟨c :: before, text, rest, rfl, ?_, hspelling⟩
    rw [hoffset, List.length_cons]
    omega
  | @lexeme _ _ first rest _ hs _ _ ih =>
    rcases List.mem_cons.mp ht with rfl | ht
    · exact ⟨[], first, rest, rfl, rfl, hs⟩
    · obtain ⟨before, text, rest, rfl, hoffset, hspelling⟩ := ih ht
      refine ⟨first ++ before, text, rest, (List.append_assoc _ _ _).symm, ?_, hspelling⟩
      rw [hoffset, List.length_append, Nat.add_assoc]

theorem offset_bounds (h : Lexes x offset cs ts) {t : Token} (ht : t ∈ ts) :
    offset ≤ t.offset ∧ t.offset < offset + cs.length := by
  obtain ⟨before, text, rest, rfl, hoffset, hspelling⟩ := h.exists_of_mem ht
  obtain ⟨c, ds, rfl, -⟩ := hspelling.exists_cons
  simp only [List.length_append, List.length_cons]
  omega

theorem pairwise_offset (h : Lexes x offset cs ts) : ts.Pairwise fun t u => t.offset < u.offset := by
  induction h with
  | nil => exact .nil
  | gap _ _ ih => exact ih
  | lexeme hs _ hrest ih =>
    obtain ⟨c, ds, rfl, -⟩ := hs.exists_cons
    refine List.pairwise_cons.mpr ⟨fun u hu => ?_, ih⟩
    have hbound := (hrest.offset_bounds hu).1
    rw [List.length_cons] at hbound
    exact Nat.lt_of_lt_of_le (Nat.lt_add_of_pos_right (Nat.succ_pos ds.length)) hbound

theorem shift (h : Lexes x offset cs ts) (k : Nat) :
    Lexes x (offset + k) cs (ts.map fun t => ⟨t.symbol, t.offset + k⟩) := by
  induction h with
  | nil => exact .nil
  | gap hc _ ih =>
    rw [Nat.add_right_comm] at ih
    exact .gap hc ih
  | lexeme hs hrest _ ih =>
    rw [Nat.add_right_comm] at ih
    exact .lexeme hs hrest ih

/-- Two texts follow each other unless a numeral goes on from the first into the second. -/
theorem append {ds : List Char} {us : List Token} (h : Lexes x offset cs ts)
    (hds : ∀ c ∈ ds.head?, Numeral.isStart c = false) (h' : Lexes x (offset + cs.length) ds us) :
    Lexes x offset (cs ++ ds) (ts ++ us) := by
  induction h with
  | nil => exact h'
  | gap hc _ ih =>
    rw [List.length_cons, Nat.add_comm _ 1, ← Nat.add_assoc] at h'
    exact .gap hc (ih h')
  | @lexeme _ s text rest ts hs hrest _ ih =>
    rw [List.length_append, ← Nat.add_assoc] at h'
    rw [List.append_assoc]
    refine .lexeme hs (fun hn => ?_) (ih h')
    cases rest with
    | nil => exact hds
    | cons c rest => exact hrest hn

end Lexes

namespace Token

variable {x : Variable} {offset : Nat} {cs : List Char}

/-- A numeral that is read is a lexeme. -/
theorem exists_lexeme_of_read {c : Char} {n : Numeral} (hc : Numeral.isStart c = true)
    (h : Numeral.read (c :: cs) = .ok n) : ∃ text rest, c :: cs = text ++ rest ∧ n.Spelling text ∧
      cs.drop (n.length - 1) = rest ∧ ∀ d ∈ rest.head?, Numeral.isStart d = false := by
  obtain ⟨text, rest, hcs, hspelling, hrest⟩ := Numeral.exists_spelling_of_read hc h
  obtain ⟨d, ds, rfl, -⟩ := hspelling.exists_cons
  obtain ⟨rfl, hds⟩ := List.cons.inj hcs
  refine ⟨_, rest, hcs, hspelling, ?_, hrest⟩
  rw [← hspelling.length_eq, List.length_cons, Nat.add_sub_cancel, hds]
  exact List.drop_left

theorem lexes_of_scanFrom {ts : List Token} (h : scanFrom x offset cs = .ok ts) : Lexes x offset cs ts := by
  fun_induction scanFrom x offset cs generalizing ts with
  | case1 =>
    cases h
    exact .nil
  | case2 _ _ _ hc ih => exact .gap hc (ih h)
  | case3 | case5 | case7 => cases h
  | case4 offset c cs _ hc n hread value hvalue ih =>
    obtain ⟨text, rest, hcs, hspelling, rfl, hrest⟩ := exists_lexeme_of_read hc hread
    have hreads := hspelling.value?_eq_some_iff.mp hvalue
    obtain ⟨us, hus, rfl⟩ := map_eq_ok.mp h
    rw [hcs]
    refine .lexeme (.number hspelling hreads) (fun _ => hrest) ?_
    rw [hspelling.length_eq]
    exact ih hus
  | case6 offset c cs _ _ s hs ih =>
    obtain ⟨us, hus, rfl⟩ := map_eq_ok.mp h
    obtain ⟨hspelling, hnumber⟩ := Symbol.spelling_of_symbol? hs
    refine .lexeme hspelling (fun h => ?_) (ih hus)
    rw [hnumber] at h
    cases h

end Token

/-- From some place on no lexeme starts, whereas what stands before it is gaps and lexemes. No numeral goes on from before
this place to behind it. -/
def Stuck (x : Variable) (offset : Nat) (cs : List Char) (e : CompileError) : Prop :=
  ∃ before rest ts, cs = before ++ rest ∧ Lexes x offset before ts ∧ Malformed x (offset + before.length) rest e ∧
    ∀ d ∈ before.getLast?, Numeral.isStart d = true → ∀ c ∈ rest.head?, Numeral.isStart c = false

namespace Stuck

variable {x : Variable} {offset : Nat} {text cs : List Char} {e : CompileError}

theorem here (h : Malformed x offset cs e) : Stuck x offset cs e := ⟨[], cs, [], rfl, .nil, h, nofun⟩

theorem append (h : Stuck x (offset + text.length) cs e)
    (hlexes : ∀ before ts, (∀ c ∈ before.head?, c ∈ cs.head?) → Lexes x (offset + text.length) before ts →
      ∃ us, Lexes x offset (text ++ before) us)
    (hlast : ∀ d ∈ text.getLast?, Numeral.isStart d = true → ∀ c ∈ cs.head?, Numeral.isStart c = false) :
    Stuck x offset (text ++ cs) e := by
  obtain ⟨before, rest, ts, rfl, hbefore, hrest, hbetween⟩ := h
  obtain ⟨us, hus⟩ := hlexes before ts (fun c hc => by rw [List.head?_append, Option.mem_def.mp hc]; rfl) hbefore
  refine ⟨text ++ before, rest, us, (List.append_assoc _ _ _).symm, hus, ?_, ?_⟩
  · rwa [List.length_append, ← Nat.add_assoc]
  · cases before with
    | nil =>
      rw [List.append_nil]
      exact hlast
    | cons b bs =>
      rw [List.getLast?_append_of_ne_nil _ (List.cons_ne_nil b bs)]
      exact hbetween

theorem gap {c : Char} (hc : Token.isGap c = true) (h : Stuck x (offset + 1) cs e) : Stuck x offset (c :: cs) e := by
  have hone : Stuck x (offset + [c].length) cs e := h
  refine hone.append (fun before ts _ hbefore => ⟨ts, .gap hc hbefore⟩) ?_
  rintro d ⟨⟩ (hstart : Numeral.isStart c = true)
  exact absurd hstart (ne_true_of_eq_false (Numeral.isStart_of_isGap hc))

theorem lexeme {s : Symbol} (hs : s.Spelling x text)
    (hcs : s.isNumber = true → ∀ c ∈ cs.head?, Numeral.isStart c = false) (h : Stuck x (offset + text.length) cs e) :
    Stuck x offset (text ++ cs) e := by
  refine h.append (fun before ts hhead hbefore => ⟨_, .lexeme hs (fun hn c hc => hcs hn c (hhead c hc)) hbefore⟩) ?_
  intro d hd hd'
  refine hcs ?_
  by_contra hn
  obtain ⟨c, rfl, -, -, hstart⟩ := hs.exists_symbol? (eq_false_of_ne_true hn)
  obtain rfl : c = d := Option.some.inj hd
  exact absurd hd' (ne_true_of_eq_false hstart)

end Stuck

namespace Token

variable {x : Variable}

/-- A character that is not the spelling of a symbol and does not start a numeral starts no lexeme. -/
theorem not_spelling {c : Char} (hstart : Numeral.isStart c = false) (hs : symbol? x c = none) (s : Symbol)
    (cs : List Char) : ¬s.Spelling x (c :: cs) := by
  intro h
  obtain ⟨d, ds, hcs, -, hnumber⟩ := h.exists_cons
  obtain ⟨rfl, rfl⟩ := List.cons.inj hcs
  obtain ⟨d, hd, hsymbol, -⟩ := h.exists_symbol? (hnumber.symm.trans hstart)
  obtain ⟨rfl, -⟩ := List.cons.inj hd
  rw [hs] at hsymbol
  cases hsymbol

theorem stuck_of_scanFrom {offset : Nat} {cs : List Char} {e : CompileError} (h : scanFrom x offset cs = .error e) :
    Stuck x offset cs e := by
  fun_induction scanFrom x offset cs generalizing e with
  | case1 => cases h
  | case2 _ _ _ hc ih => exact (ih h).gap hc
  | case3 _ _ _ _ _ _ hread =>
    cases h
    exact .here (Numeral.malformed_of_read hread)
  | case4 offset c cs _ hc n hread value hvalue ih =>
    obtain ⟨text, rest, hcs, hspelling, rfl, hrest⟩ := exists_lexeme_of_read hc hread
    have hreads := hspelling.value?_eq_some_iff.mp hvalue
    rw [hcs]
    refine Stuck.lexeme (.number hspelling hreads) (fun _ => hrest) ?_
    rw [hspelling.length_eq]
    exact ih (map_eq_error.mp h)
  | case5 _ _ _ _ hc _ hread hvalue =>
    obtain ⟨text, rest, -, hspelling, -⟩ := exists_lexeme_of_read hc hread
    obtain ⟨value, hreads⟩ := hspelling.exists_reads
    rw [hspelling.value?_eq_some_iff.mpr hreads] at hvalue
    cases hvalue
  | case6 offset c cs _ _ s hs ih =>
    obtain ⟨hspelling, hnumber⟩ := Symbol.spelling_of_symbol? hs
    refine Stuck.lexeme hspelling (fun hn => ?_) (ih (map_eq_error.mp h))
    rw [hnumber] at hn
    cases hn
  | case7 _ _ _ hgap hstart hs =>
    cases h
    exact .here (.unexpectedCharacter (eq_false_of_ne_true hgap) (not_spelling (eq_false_of_ne_true hstart) hs))

end Token

end TransferFunction
