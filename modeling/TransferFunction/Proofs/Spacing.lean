import TransferFunction.Proofs.Compilation
import TransferFunction.Proofs.Layouts

/-! # Gaps between lexemes do not matter

A gap that is put between the lexemes of a source, or into another gap, moves the lexemes behind it. All else stays: offsets
go into what is written and into errors, and never decide anything.
-/

namespace TransferFunction
open PartialFold

def Token.relocate (f : Nat → Nat) (t : Token) : Token := ⟨t.symbol, f t.offset⟩

/-- An error moves with the token that it is about. That of an empty list is about none. -/
def CompileError.relocate (f : Nat → Nat) (e : CompileError) : CompileError :=
  if e.cause = .empty then e else ⟨f e.offset, e.cause⟩

theorem Token.map_symbol_relocate (f : Nat → Nat) (ts : List Token) :
    (ts.map (Token.relocate f)).map Token.symbol = ts.map Token.symbol := by
  rw [List.map_map]
  rfl

namespace ExplicitForm

def State.relocate (f : Nat → Nat) (s : State) : State := ⟨s.written.map (Token.relocate f), s.unclosed.map f⟩

variable (f : Nat → Nat)

theorem State.expectsOperand_relocate (s : State) : (s.relocate f).expectsOperand = s.expectsOperand := by
  obtain ⟨written, unclosed⟩ := s
  cases written <;> rfl

theorem State.outline_relocate (s : State) : (s.relocate f).outline = s.outline := by
  rw [outline, expectsOperand_relocate, relocate, List.length_map]
  rfl

theorem State.advance_relocate (s : State) (t : Token) :
    (s.relocate f).advance (t.relocate f) = (s.advance t).relocate f := by
  obtain ⟨symbol, offset⟩ := t
  refine congrArg₂ State.mk ?written ?unclosed
  case written =>
    rw [expectsOperand_relocate, advance, List.map_append, List.map_reverse, List.map_map]
    rfl
  case unclosed =>
    cases symbol with
    | number _ | argument | imaginaryUnit | opening | operator _ => rfl
    | closing => exact List.map_tail.symm

/-- A step does the same wherever the tokens stand. -/
theorem step_relocate (s : State) (t : Token) : Alike (fun s' s => s' = s.relocate f)
    (step (s.relocate f) (t.relocate f)) ((step s t).mapError (.relocate f)) := by
  have houtline : (s.relocate f).outline.step (t.relocate f).symbol = s.outline.step t.symbol := by
    rw [s.outline_relocate]
    rfl
  cases h : s.outline.step t.symbol with
  | error c =>
    have hc : c ≠ .empty := by
      rintro rfl
      exact absurd (Outline.cause_of_step_error h) (by decide)
    have herror : CompileError.relocate f ⟨t.offset, c⟩ = ⟨f t.offset, c⟩ := if_neg hc
    rw [State.step_of_error h, State.step_of_error (houtline.trans h), Except.mapError, herror]
    exact .error _
  | ok o =>
    rw [State.step_of_ok h, State.step_of_ok (houtline.trans h), s.advance_relocate]
    exact .ok rfl

theorem finish_relocate (s : State) : Alike (fun out' out => out' = out.map (Token.relocate f))
    (finish (s.relocate f)) ((finish s).mapError (.relocate f)) := by
  obtain ⟨written, unclosed⟩ := s
  cases written with
  | nil => exact .error _
  | cons w written =>
    by_cases hw : ∃ op, w.symbol = .operator op
    · obtain ⟨op, hop⟩ := hw
      rw [finish_of_operator hop]
      exact (finish_of_operator (w := w.relocate f) hop _ _) ▸ .error _
    · have hop : ∀ op, w.symbol ≠ .operator op := fun op hop => hw ⟨op, hop⟩
      rw [finish_of_not_operator hop, State.relocate, List.map_cons, finish_of_not_operator (w := w.relocate f) hop,
        List.getLast?_map]
      cases unclosed.getLast? with
      | some o => exact .error _
      | none => exact .ok (by rw [List.map_reverse, List.map_cons])

theorem ofTokens_relocate (ts : List Token) : Alike (fun out' out => out' = out.map (Token.relocate f))
    (ofTokens (ts.map (Token.relocate f))) ((ofTokens ts).mapError (.relocate f)) := by
  have hstep {s' s : State} (h : s' = s.relocate f) (t : Token) : Alike (fun s' s => s' = s.relocate f)
      (step s' (t.relocate f)) ((step s t).mapError (.relocate f)) := h ▸ step_relocate f s t
  have hfinish {s' s : State} (h : s' = s.relocate f) : Alike (fun out' out => out' = out.map (Token.relocate f))
      (finish s') ((finish s).mapError (.relocate f)) := h ▸ finish_relocate f s
  have hstart : State.start = State.start.relocate f := rfl
  rw [ofTokens, ofTokens, bind_mapError, foldlM_mapError, List.foldlM_map]
  exact (Alike.foldlM hstep ts hstart).bind hfinish

end ExplicitForm

section Split

variable {x : Variable} (offset : Nat) {ls : List (Lexeme x)} {trailing a b : List Char}

/-- After `p` bytes these lexemes are in the middle of a number. -/
inductive Lexeme.InsideNumber : List (Lexeme x) → Nat → Prop
  | here {l ls p} : l.symbol.isNumber = true → byteLength l.gap < p → p < byteLength l.gap + byteLength l.text →
      InsideNumber (l :: ls) p
  | later {l ls p} : InsideNumber ls p → InsideNumber (l :: ls) (byteLength l.gap + byteLength l.text + p)

/-- Of two cuts of a text, the earlier one is a cut of what stands before the later one. -/
theorem exists_of_append_eq {α : Type} {a b c d : List α} (h : a ++ b = c ++ d) (hle : a.length ≤ c.length) :
    ∃ m, c = a ++ m ∧ b = m ++ d := by
  obtain ⟨m, rfl⟩ := List.prefix_of_prefix_length_le ⟨b, h⟩ ⟨d, rfl⟩ hle
  rw [List.append_assoc] at h
  exact ⟨m, rfl, List.append_cancel_left h⟩

/-- Only a number is longer than one character. -/
theorem Lexeme.InsideNumber.of_length {l : Lexeme x} {p : Nat} (hgap : l.gap.length < p)
    (htext : p < l.gap.length + l.text.length) : InsideNumber (l :: ls) p := by
  have hnumber : l.symbol.isNumber = true := by
    by_contra hnot
    obtain ⟨c, hc, -⟩ := l.spelling.exists_symbol? (eq_false_of_ne_true hnot)
    rw [hc, List.length_singleton] at htext
    omega
  rw [← l.byteLength_gap] at hgap htext
  rw [← l.spelling.byteLength_eq] at htext
  exact .here hnumber hgap htext

theorem Lexeme.le_offset_of_mem {t : Token} (ht : t ∈ tokensFrom offset ls) : offset ≤ t.offset := by
  induction ls generalizing offset with
  | nil => cases ht
  | cons l ls ih =>
    rcases List.mem_cons.mp ht with rfl | ht
    · exact Nat.le_add_right _ _
    · have hle := ih _ ht
      omega

/-- No token stands in the middle of a number. -/
theorem Lexeme.InsideNumber.offset_ne {p : Nat} (h : InsideNumber ls p) {t : Token} (ht : t ∈ tokensFrom offset ls) :
    t.offset ≠ offset + p := by
  induction h generalizing offset with
  | here _ hgap htext =>
    rcases List.mem_cons.mp ht with rfl | ht
    · exact (Nat.add_lt_add_left hgap offset).ne
    · have hle := le_offset_of_mem _ ht
      omega
  | @later l ls p _ ih =>
    rcases List.mem_cons.mp ht with rfl | ht
    · have hpos : 0 < l.text.length := by
        obtain ⟨c, cs, hc, -⟩ := l.spelling.exists_cons
        simp [hc]
      rw [← l.spelling.byteLength_eq] at hpos
      exact Nat.ne_of_lt (by simp only; omega)
    · rw [← Nat.add_assoc, ← Nat.add_assoc]
      exact ih _ ht

/-- A text that is cut in the middle of no number leaves its tokens whole: those before the cut, and those behind it. -/
theorem Lexeme.exists_split (htrailing : ∀ c ∈ trailing, Token.isGap c = true) (hapart : ls.IsChain Apart)
    (heq : a ++ b = textOf ls ++ trailing) (hplace : ¬InsideNumber ls a.length) :
    ∃ ts us, tokensFrom offset ls = ts ++ us ∧ Lexes x offset a ts ∧ Lexes x (offset + a.length) b us := by
  induction ls generalizing offset a with
  | nil =>
    have hgap : ∀ c ∈ a ++ b, Token.isGap c = true := by
      rw [heq]
      exact htrailing
    obtain ⟨ha, hb⟩ := List.forall_mem_append.mp hgap
    exact ⟨[], [], rfl, .of_gap ha, .of_gap hb⟩
  | cons l ls ih =>
    obtain ⟨hnext, hrest⟩ := List.isChain_cons.mp hapart
    have hlength : byteLength l.gap = l.gap.length ∧ byteLength l.text = l.text.length :=
      ⟨l.byteLength_gap, l.spelling.byteLength_eq⟩
    have hhead : l.symbol.isNumber = true → ∀ c ∈ (textOf ls ++ trailing).head?, Numeral.isStart c = false :=
      fun hl => head_not_isStart htrailing fun m hm => hnext m hm hl
    rw [textOf_cons_append] at heq
    rw [tokensFrom, hlength.1, hlength.2]
    rcases Nat.lt_or_ge l.gap.length a.length with hgap | hgap
    case inr =>
      -- the cut is in the gap
      obtain ⟨m, hm, rfl⟩ := exists_of_append_eq heq hgap
      have hgaps := l.isGap_gap
      rw [hm] at hgaps ⊢
      obtain ⟨ha, hm⟩ := List.forall_mem_append.mp hgaps
      refine ⟨[], _, rfl, .of_gap ha, .gap_append hm ?_⟩
      rw [List.length_append, ← Nat.add_assoc]
      exact .lexeme l.spelling hhead (lexes htrailing hrest)
    rcases Nat.lt_or_ge a.length (l.gap.length + l.text.length) with htext | htext
    · -- the cut is in the lexeme
      exact absurd (InsideNumber.of_length hgap htext) hplace
    · -- the cut is behind the lexeme
      rw [← List.append_assoc] at heq
      obtain ⟨m, rfl, hm⟩ := exists_of_append_eq heq.symm (by rwa [List.length_append])
      have hm' : ¬InsideNumber ls m.length := by
        intro h
        refine hplace ?_
        rw [List.length_append, List.length_append, ← hlength.1, ← hlength.2]
        exact h.later
      obtain ⟨ts, us, htokens, hts, hus⟩ := ih (offset + l.gap.length + l.text.length) hrest hm.symm hm'
      refine ⟨_ :: ts, us, congrArg _ htokens, ?_, ?_⟩
      · rw [List.append_assoc]
        refine .gap_append l.isGap_gap (.lexeme l.spelling (fun hl c hc => hhead hl c ?_) hts)
        rw [hm, List.head?_append, Option.mem_def.mp hc]
        rfl
      · rwa [List.length_append, List.length_append, ← Nat.add_assoc, ← Nat.add_assoc]

end Split

/-- Where an offset is once `k` bytes have been put in at `p`. -/
def moved (p k offset : Nat) : Nat := if p ≤ offset then offset + k else offset

namespace Lexes

variable {x : Variable} {offset : Nat} {a b gap : List Char} {ts us : List Token}

theorem insert_gap (ha : Lexes x offset a ts) (hne : gap ≠ []) (hgap : ∀ c ∈ gap, Token.isGap c = true)
    (hb : Lexes x (offset + a.length) b us) :
    Lexes x offset (a ++ (gap ++ b)) (ts ++ us.map (Token.relocate (· + gap.length))) := by
  refine ha.append ?_ (.gap_append hgap (hb.shift gap.length))
  intro c hc
  rw [List.head?_append_of_ne_nil _ hne] at hc
  exact Numeral.isStart_of_isGap (hgap c (List.mem_of_mem_head? hc))

/-- Only the tokens behind a place are moved by what is put there. -/
theorem map_moved (ha : Lexes x 0 a ts) (hb : Lexes x a.length b us) (k : Nat) :
    (ts ++ us).map (Token.relocate (moved a.length k)) = ts ++ us.map (Token.relocate (· + k)) := by
  have hts : ∀ t ∈ ts, t.relocate (moved a.length k) = id t := by
    intro t ht
    have hbound := (ha.offset_bounds ht).2
    rw [Token.relocate, moved, if_neg (by omega)]
    rfl
  have hus : ∀ t ∈ us, t.relocate (moved a.length k) = t.relocate (· + k) := by
    intro t ht
    rw [Token.relocate, moved, if_pos (hb.offset_bounds ht).1]
    rfl
  rw [List.map_append, List.map_congr_left hts, List.map_id, List.map_congr_left hus]

end Lexes

namespace Token

variable {x : Variable} {source : String} {ts : List Token} {p : Nat}

/-- After `p` bytes of a source a number has been read in part only. -/
def InsideNumber (x : Variable) (source : String) (p : Nat) : Prop :=
  ∃ d : Layout x, d.text = source.toList ∧ Lexeme.InsideNumber d.lexemes p

/-- The tokens of a source with a gap put in. Every byte of a source that is scanned is a place where it can be cut. -/
theorem exists_scan_insert_gap (hscan : scan x source = .ok ts) (hp : p ≤ source.utf8ByteSize)
    (hplace : ¬InsideNumber x source p) {gap : String} (hne : gap ≠ "") (hgap : ∀ c ∈ gap.toList, isGap c = true) :
    ∃ a b, source = a ++ b ∧ a.utf8ByteSize = p ∧
      scan x (a ++ gap ++ b) = .ok (ts.map (relocate (moved p gap.utf8ByteSize))) := by
  have hlexes := lexes_of_scanFrom hscan
  obtain ⟨d, hd, rfl⟩ := hlexes.exists_layout
  have hcut : String.ofList (source.toList.take p) ++ String.ofList (source.toList.drop p) = source := by
    rw [← String.ofList_append, List.take_append_drop, String.ofList_toList]
  have hlength : (source.toList.take p).length = p := by
    rw [utf8ByteSize_eq_length hlexes.utf8Size_eq] at hp
    exact List.length_take_of_le hp
  have hsize : byteLength (source.toList.take p) = p :=
    (byteLength_eq_length fun c hc => hlexes.utf8Size_eq c (List.mem_of_mem_take hc)).trans hlength
  have hgapsize : gap.utf8ByteSize = gap.toList.length :=
    utf8ByteSize_eq_length fun c hc => utf8Size_of_isGap (hgap c hc)
  refine ⟨_, _, hcut.symm, hsize, ?_⟩
  have hsplit : ¬Lexeme.InsideNumber d.lexemes (source.toList.take p).length := by
    rw [hlength]
    exact fun h => hplace ⟨d, hd, h⟩
  obtain ⟨ts, us, htokens, hts, hus⟩ :=
    Lexeme.exists_split 0 d.isGap_trailing d.apart ((List.take_append_drop p _).trans hd.symm) hsplit
  have hmoved := hts.map_moved (by rwa [Nat.zero_add] at hus) gap.toList.length
  rw [hlength] at hmoved
  have hinsert := hts.insert_gap (fun h => hne (String.toList_eq_nil_iff.mp h)) hgap hus
  rw [scan, htokens, hgapsize, hmoved, String.toList_append, String.toList_append, String.toList_ofList,
    String.toList_ofList, List.append_assoc]
  exact hinsert.scanFrom

end Token

namespace Expression

variable {x : Variable} {source : String} {ts : List Token}

/-- If the tokens of a source stand elsewhere in another one, these compile alike. -/
theorem compile_of_relocate [Arithmetic] {f : Nat → Nat} {source' : String} (h : Token.scan x source = .ok ts)
    (h' : Token.scan x source' = .ok (ts.map (Token.relocate f))) :
    compile x source' = (compile x source).mapError (.relocate f) := by
  cases hcompile : compile x source with
  | ok e =>
    obtain ⟨us, t, hus, hrun, ht, rfl⟩ := exists_binds_of_compile hcompile
    cases h.symm.trans hus
    rw [← Token.map_symbol_relocate f] at hrun ht
    exact compile_of_binds h' hrun ht
  | error e =>
    rcases compile_eq_error.mp hcompile with hscan | ⟨us, hus, hout⟩
    · cases h.symm.trans hscan
    · cases h.symm.trans hus
      refine compile_eq_error.mpr (.inr ⟨_, h', ?_⟩)
      rw [(ExplicitForm.ofTokens_relocate f ts).error_iff, hout]
      rfl

theorem offset_of_empty [Arithmetic] {e : CompileError} (h : compile x source = .error e) (he : e.cause = .empty) : e.offset = 0 := by
  rcases compile_eq_error.mp h with hscan | ⟨ts, -, hout⟩
  · have hkind := Token.kind_of_scan_error hscan
    rw [CompileError.kind, he] at hkind
    cases hkind
  · exact (ExplicitForm.concerns_of_ofTokens_error hout).offset_of_empty he

/-- A gap is put into a source that is scanned, at any place but in the middle of a number. The same symbols are scanned, from
this place on behind the gap, and they compile to the same program or fail for the same cause, there or behind the gap. -/
theorem compile_insert_gap [Arithmetic] {p : Nat} (hscan : Token.scan x source = .ok ts) (hp : p ≤ source.utf8ByteSize)
    (hplace : ¬Token.InsideNumber x source p) {gap : String} (hne : gap ≠ "")
    (hgap : ∀ c ∈ gap.toList, Token.isGap c = true) :
    ∃ a b, source = a ++ b ∧ a.utf8ByteSize = p ∧
      Token.scan x (a ++ gap ++ b) = .ok (ts.map (Token.relocate (moved p gap.utf8ByteSize))) ∧
      (∀ e, compile x source = .ok e → compile x (a ++ gap ++ b) = .ok e) ∧
      ∀ e, compile x source = .error e →
        compile x (a ++ gap ++ b) = .error (e.relocate (moved p gap.utf8ByteSize)) ∧
        (e.cause = .empty → e.offset = 0) := by
  obtain ⟨a, b, hsource, ha, hinsert⟩ := Token.exists_scan_insert_gap hscan hp hplace hne hgap
  have hcompile := compile_of_relocate hscan hinsert
  refine ⟨a, b, hsource, ha, hinsert, fun e h => ?_, fun e h => ⟨?_, offset_of_empty h⟩⟩
  · rw [hcompile, h]
    rfl
  · rw [hcompile, h]
    rfl

/-- Between the number and the letter of `2.5s+` two bytes move the operator that lacks an operand. -/
theorem compile_insert_gap_product : ∃ a b, "2.5s+" = a ++ b ∧ a.utf8ByteSize = 3 ∧
    compile .standard (a ++ " \t" ++ b) = .error ⟨6, .noOperandAfterOperator⟩ := by
  have hscan : Token.scan .standard "2.5s+" =
      .ok [⟨.number 2.5, 0⟩, ⟨.argument, 3⟩, ⟨.operator .add, 4⟩] := by decide +kernel
  have hcompile : compile .standard "2.5s+" = .error ⟨4, .noOperandAfterOperator⟩ :=
    compile_eq_error.mpr (.inr ⟨_, hscan, rfl⟩)
  have hplace : ¬Token.InsideNumber .standard "2.5s+" 3 := by
    rintro ⟨d, hd, h⟩
    have hletter : ⟨.argument, 3⟩ ∈ d.tokens := by
      rw [Except.ok.inj ((d.scan_of_text hd).symm.trans hscan)]
      simp
    exact h.offset_ne 0 hletter rfl
  have hgap : ∀ c ∈ " \t".toList, Token.isGap c = true := by simp [Token.isGap]
  obtain ⟨a, b, hsource, ha, -, -, herror⟩ := compile_insert_gap hscan (by decide) hplace (by decide) hgap
  exact ⟨a, b, hsource, ha, (herror _ hcompile).1⟩

end Expression
end TransferFunction
