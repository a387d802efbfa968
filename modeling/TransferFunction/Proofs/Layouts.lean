import TransferFunction.Proofs.Lexing

/-! # The layout of a source

A source is scanned if and only if it has a layout. Then it has one only, and its tokens are those of the layout.
-/

namespace TransferFunction

variable {x : Variable} {offset : Nat}

theorem Lexes.gap_append {gap cs : List Char} {ts : List Token} (hgap : ∀ c ∈ gap, Token.isGap c = true)
    (h : Lexes x (offset + gap.length) cs ts) : Lexes x offset (gap ++ cs) ts := by
  induction gap generalizing offset with
  | nil => exact h
  | cons c gap ih =>
    obtain ⟨hc, hgap⟩ := List.forall_mem_cons.mp hgap
    refine .gap hc (ih hgap ?_)
    rwa [Nat.add_assoc, Nat.add_comm 1]

theorem Lexes.of_gap {gap : List Char} (hgap : ∀ c ∈ gap, Token.isGap c = true) : Lexes x offset gap [] := by
  rw [← List.append_nil gap]
  exact .gap_append hgap .nil

/-- Of two lexemes with which a text starts, each as long as it can be, neither is longer. -/
theorem Symbol.Spelling.determined {s s' : Symbol} {text text' rest rest' : List Char} (h : s.Spelling x text)
    (h' : s'.Spelling x text') (hrest : s.isNumber = true → ∀ c ∈ rest.head?, Numeral.isStart c = false)
    (hrest' : s'.isNumber = true → ∀ c ∈ rest'.head?, Numeral.isStart c = false) (heq : text ++ rest = text' ++ rest') :
    s = s' ∧ text = text' ∧ rest = rest' := by
  have hnumber : s.isNumber = s'.isNumber := by
    obtain ⟨c, cs, rfl, -, hc⟩ := h.exists_cons
    obtain ⟨c', cs', rfl, -, hc'⟩ := h'.exists_cons
    rw [← hc, ← hc', (List.cons.inj heq).1]
  cases hs : s.isNumber with
  | true =>
    rw [hs] at hnumber
    cases h with
    | @number n text value h hreads =>
      cases h' with
      | @number n' text' value' h' hreads' =>
        have hread := h.read_append (hrest rfl)
        rw [heq, h'.read_append (hrest' rfl)] at hread
        cases hread
        obtain ⟨rfl, rfl⟩ := List.append_inj heq (h.length_eq.trans h'.length_eq.symm)
        obtain rfl := hreads.determined hreads'
        exact ⟨rfl, rfl, rfl⟩
      | _ => cases hnumber
    | _ => cases hs
  | false =>
    obtain ⟨c, rfl, hc, -⟩ := h.exists_symbol? hs
    obtain ⟨c', rfl, hc', -⟩ := h'.exists_symbol? (hnumber.symm.trans hs)
    obtain ⟨rfl, rfl⟩ := List.cons.inj heq
    rw [hc] at hc'
    cases hc'
    exact ⟨rfl, rfl, rfl⟩

/-- A gap is all that stands before what starts with no gap. -/
theorem gap_determined {gap gap' rest rest' : List Char} (hgap : ∀ c ∈ gap, Token.isGap c = true)
    (hgap' : ∀ c ∈ gap', Token.isGap c = true) (hrest : ∀ c ∈ rest.head?, Token.isGap c = false)
    (hrest' : ∀ c ∈ rest'.head?, Token.isGap c = false) (heq : gap ++ rest = gap' ++ rest') :
    gap = gap' ∧ rest = rest' := by
  constructor
  · rw [← takeWhile_run hgap hrest, heq, takeWhile_run hgap' hrest']
  · rw [← dropWhile_run hgap hrest, heq, dropWhile_run hgap' hrest']

namespace Lexeme

theorem byteLength_gap (l : Lexeme x) : byteLength l.gap = l.gap.length :=
  byteLength_eq_length fun c hc => Token.utf8Size_of_isGap (l.isGap_gap c hc)

/-- With what a lexeme starts does not go on with what stands before. -/
theorem head_not_isGap (l : Lexeme x) (cs : List Char) : ∀ c ∈ (l.text ++ cs).head?, Token.isGap c = false := by
  obtain ⟨d, ds, htext, hd, -⟩ := l.spelling.exists_cons
  rw [htext]
  rintro c ⟨⟩
  exact hd

theorem textOf_cons_append (l : Lexeme x) (ls : List (Lexeme x)) (cs : List Char) :
    textOf (l :: ls) ++ cs = l.gap ++ (l.text ++ (textOf ls ++ cs)) := by
  simp only [textOf, List.flatMap_cons, List.append_assoc]

theorem map_symbol_tokensFrom (offset : Nat) (ls : List (Lexeme x)) :
    (tokensFrom offset ls).map Token.symbol = ls.map symbol := by
  induction ls generalizing offset with
  | nil => rfl
  | cons l ls ih => rw [tokensFrom, List.map_cons, List.map_cons, ih]

variable {ls : List (Lexeme x)} {trailing : List Char}

/-- A lexeme is more than a gap. -/
theorem textOf_cons_ne (l : Lexeme x) (ls : List (Lexeme x)) (cs : List Char)
    (htrailing : ∀ c ∈ trailing, Token.isGap c = true) : textOf (l :: ls) ++ cs ≠ trailing := by
  rintro rfl
  obtain ⟨c, ds, htext, hc, -⟩ := l.spelling.exists_cons
  have hmem : c ∈ textOf (l :: ls) ++ cs := by simp [textOf_cons_append, htext]
  rw [htrailing c hmem] at hc
  cases hc

/-- A lexeme that is no numeral, or has a gap before it, does not go on with a numeral. -/
theorem head_not_isStart (htrailing : ∀ c ∈ trailing, Token.isGap c = true)
    (hnext : ∀ m ∈ ls.head?, m.symbol.isNumber = true → m.gap ≠ []) :
    ∀ c ∈ (textOf ls ++ trailing).head?, Numeral.isStart c = false := by
  intro c hc
  cases ls with
  | nil => exact Numeral.isStart_of_isGap (htrailing c (List.mem_of_mem_head? hc))
  | cons m ls =>
    rw [textOf_cons_append] at hc
    cases hgap : m.gap with
    | nil =>
      obtain ⟨d, ds, htext, -, hd⟩ := m.spelling.exists_cons
      rw [hgap, htext] at hc
      obtain rfl : d = c := Option.some.inj hc
      rw [hd]
      by_contra hnumber
      exact hnext m rfl (eq_true_of_ne_false hnumber) hgap
    | cons g gap =>
      rw [hgap] at hc
      obtain rfl : g = c := Option.some.inj hc
      exact Numeral.isStart_of_isGap (m.isGap_gap g (hgap ▸ List.mem_cons_self))

theorem lexes (htrailing : ∀ c ∈ trailing, Token.isGap c = true) (hapart : ls.IsChain Apart) :
    Lexes x offset (textOf ls ++ trailing) (tokensFrom offset ls) := by
  induction ls generalizing offset with
  | nil => exact .of_gap htrailing
  | cons l ls ih =>
    obtain ⟨hnext, hapart⟩ := List.isChain_cons.mp hapart
    rw [textOf_cons_append, tokensFrom, byteLength_gap, l.spelling.byteLength_eq]
    exact .gap_append l.isGap_gap
      (.lexeme l.spelling (fun hl => head_not_isStart htrailing fun m hm => hnext m hm hl) (ih hapart))

theorem determined {ls' : List (Lexeme x)} {trailing' : List Char} (htrailing : ∀ c ∈ trailing, Token.isGap c = true)
    (htrailing' : ∀ c ∈ trailing', Token.isGap c = true) (hapart : ls.IsChain Apart) (hapart' : ls'.IsChain Apart)
    (heq : textOf ls ++ trailing = textOf ls' ++ trailing') : ls = ls' ∧ trailing = trailing' := by
  induction ls generalizing ls' with
  | nil =>
    cases ls' with
    | nil => exact ⟨rfl, heq⟩
    | cons l' ls' => exact absurd heq.symm (textOf_cons_ne l' ls' trailing' htrailing)
  | cons l ls ih =>
    cases ls' with
    | nil => exact absurd heq (textOf_cons_ne l ls trailing htrailing')
    | cons l' ls' =>
      obtain ⟨hnext, hapart⟩ := List.isChain_cons.mp hapart
      obtain ⟨hnext', hapart'⟩ := List.isChain_cons.mp hapart'
      rw [textOf_cons_append, textOf_cons_append] at heq
      obtain ⟨hgap, heq⟩ := gap_determined l.isGap_gap l'.isGap_gap (l.head_not_isGap _) (l'.head_not_isGap _) heq
      obtain ⟨hsymbol, htext, heq⟩ := l.spelling.determined l'.spelling
        (fun hl => head_not_isStart htrailing fun m hm => hnext m hm hl)
        (fun hl => head_not_isStart htrailing' fun m hm => hnext' m hm hl) heq
      obtain ⟨rfl, rfl⟩ := ih hapart hapart' heq
      obtain ⟨gap, text, symbol, _, _⟩ := l
      subst hgap hsymbol htext
      exact ⟨rfl, rfl⟩

end Lexeme

namespace Layout

theorem lexes (d : Layout x) : Lexes x 0 d.text d.tokens := Lexeme.lexes d.isGap_trailing d.apart

theorem scan_of_text (d : Layout x) {source : String} (h : d.text = source.toList) : Token.scan x source = .ok d.tokens := by
  rw [Token.scan, ← h]
  exact d.lexes.scanFrom

theorem map_symbol_tokens (d : Layout x) : d.tokens.map Token.symbol = d.symbols :=
  Lexeme.map_symbol_tokensFrom 0 d.lexemes

theorem eq_of_text {d d' : Layout x} (h : d.text = d'.text) : d = d' := by
  obtain ⟨ls, trailing, htrailing, hapart⟩ := d
  obtain ⟨ls', trailing', htrailing', hapart'⟩ := d'
  obtain ⟨rfl, rfl⟩ := Lexeme.determined htrailing htrailing' hapart hapart' h
  rfl

/-- One more character of the gap with which a layout starts. -/
theorem exists_cons_gap (d : Layout x) {c : Char} (hc : Token.isGap c = true) : ∃ d' : Layout x, d'.text = c :: d.text ∧
    Lexeme.tokensFrom offset d'.lexemes = Lexeme.tokensFrom (offset + 1) d.lexemes := by
  obtain ⟨ls, trailing, htrailing, hapart⟩ := d
  cases ls with
  | nil => exact ⟨⟨[], c :: trailing, List.forall_mem_cons.mpr ⟨hc, htrailing⟩, .nil⟩, rfl, rfl⟩
  | cons l ls =>
    let l' : Lexeme x := { l with gap := c :: l.gap, isGap_gap := List.forall_mem_cons.mpr ⟨hc, l.isGap_gap⟩ }
    have hlength : offset + byteLength l'.gap = offset + 1 + byteLength l.gap := by
      rw [Lexeme.byteLength_gap, Lexeme.byteLength_gap, List.length_cons]
      omega
    obtain ⟨hnext, hapart⟩ := List.isChain_cons.mp hapart
    refine ⟨⟨l' :: ls, trailing, htrailing, List.isChain_cons.mpr ⟨hnext, hapart⟩⟩, rfl, ?_⟩
    rw [Lexeme.tokensFrom, Lexeme.tokensFrom, hlength]

/-- One more lexeme, right before a layout. -/
theorem exists_cons_lexeme (d : Layout x) {s : Symbol} {text : List Char} (hs : s.Spelling x text)
    (hd : s.isNumber = true → ∀ c ∈ d.text.head?, Numeral.isStart c = false) : ∃ d' : Layout x,
    d'.text = text ++ d.text ∧
      Lexeme.tokensFrom offset d'.lexemes = ⟨s, offset⟩ :: Lexeme.tokensFrom (offset + text.length) d.lexemes := by
  let l : Lexeme x := ⟨[], text, s, nofun, hs⟩
  have hnext : ∀ m ∈ d.lexemes.head?, Lexeme.Apart l m := by
    intro m hm hl hnumber hgap
    obtain ⟨ls, hls⟩ := List.head?_eq_some_iff.mp hm
    obtain ⟨c, cs, htext, -, hc⟩ := m.spelling.exists_cons
    have hhead : c ∈ d.text.head? := by rw [Layout.text, hls, Lexeme.textOf_cons_append, hgap, htext]; rfl
    rw [hd hl c hhead, hnumber] at hc
    cases hc
  refine ⟨⟨l :: d.lexemes, d.trailing, d.isGap_trailing, List.isChain_cons.mpr ⟨hnext, d.apart⟩⟩, ?_, ?_⟩
  · exact Lexeme.textOf_cons_append l d.lexemes d.trailing
  · rw [Lexeme.tokensFrom, Lexeme.byteLength_gap, l.spelling.byteLength_eq]
    rfl

end Layout

theorem Lexes.exists_layout {cs : List Char} {ts : List Token} (h : Lexes x offset cs ts) :
    ∃ d : Layout x, d.text = cs ∧ Lexeme.tokensFrom offset d.lexemes = ts := by
  induction h with
  | nil => exact ⟨⟨[], [], nofun, .nil⟩, rfl, rfl⟩
  | gap hc _ ih =>
    obtain ⟨d, rfl, rfl⟩ := ih
    exact d.exists_cons_gap hc
  | lexeme hs hrest _ ih =>
    obtain ⟨d, rfl, rfl⟩ := ih
    exact d.exists_cons_lexeme hs hrest

namespace Token

/-- A source is scanned if and only if it has a layout. It has one at most, and its tokens are those of the layout. A source
that is not scanned has a place from which on no lexeme starts: there the error stands, at a second separator, a separator
without digits or a character that starts nothing. The source up to there is scanned, and no numeral goes on from there. -/
theorem scan_iff_layout (x : Variable) (source : String) :
    ((∃ ts, scan x source = .ok ts) ↔ ∃ d : Layout x, d.text = source.toList) ∧
    (∀ d d' : Layout x, d.text = source.toList → d'.text = source.toList → d = d') ∧
    (∀ d : Layout x, d.text = source.toList → scan x source = .ok d.tokens) ∧
    ∀ e, scan x source = .error e → (∀ literal, e.cause ≠ .invalidNumber literal) ∧
      ∃ before rest, source = String.ofList before ++ String.ofList rest ∧ Malformed x (byteLength before) rest e ∧
        (∃ ts, scan x (String.ofList before) = .ok ts) ∧
        ∀ c ∈ before.getLast?, Numeral.isStart c = true → ∀ d ∈ rest.head?, Numeral.isStart d = false := by
  refine ⟨⟨?_, ?_⟩, ?_, ?_, ?_⟩
  · rintro ⟨ts, h⟩
    obtain ⟨d, hd, -⟩ := (lexes_of_scanFrom h).exists_layout
    exact ⟨d, hd⟩
  · rintro ⟨d, hd⟩
    exact ⟨d.tokens, d.scan_of_text hd⟩
  · intro d d' hd hd'
    exact Layout.eq_of_text (hd.trans hd'.symm)
  · exact fun d hd => d.scan_of_text hd
  · intro e h
    obtain ⟨before, rest, ts, hsource, hbefore, hrest, hbetween⟩ := stuck_of_scanFrom h
    rw [← byteLength_eq_length hbefore.utf8Size_eq, Nat.zero_add] at hrest
    refine ⟨?_, before, rest, ?_, hrest, ⟨ts, ?_⟩, hbetween⟩
    · intro literal
      cases hrest <;> exact nofun
    · rw [← String.ofList_append, ← hsource, String.ofList_toList]
    · rw [scan, String.toList_ofList]
      exact hbefore.scanFrom

end Token
end TransferFunction
