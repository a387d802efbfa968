import Mathlib.Data.List.TakeWhile
import TransferFunction.Token.Layout

/-! # What is read as a numeral

Reading takes the longest spelling of a numeral: what follows could not go on with it. A text that starts like a numeral and
is none has a second separator, or a separator without digits.
-/

namespace TransferFunction

theorem byteLength_append (cs ds : List Char) : byteLength (cs ++ ds) = byteLength cs + byteLength ds := by
  rw [byteLength, String.ofList_append, String.utf8ByteSize_append, byteLength, byteLength]

theorem byteLength_cons (c : Char) (cs : List Char) : byteLength (c :: cs) = c.utf8Size + byteLength cs := by
  rw [← List.singleton_append, byteLength_append, byteLength, ← String.singleton_eq_ofList, String.utf8ByteSize_singleton]

theorem byteLength_eq_length {cs : List Char} (h : ∀ c ∈ cs, c.utf8Size = 1) : byteLength cs = cs.length := by
  induction cs with
  | nil => rfl
  | cons c cs ih =>
    obtain ⟨hc, hcs⟩ := List.forall_mem_cons.mp h
    rw [byteLength_cons, hc, ih hcs, List.length_cons, Nat.add_comm]

theorem utf8ByteSize_eq_length {text : String} (h : ∀ c ∈ text.toList, c.utf8Size = 1) :
    text.utf8ByteSize = text.toList.length := by
  rw [← byteLength_eq_length h, byteLength, String.ofList_toList]

section Runs

variable {p : Char → Bool} {cs rest : List Char} (hcs : ∀ c ∈ cs, p c = true) (hrest : ∀ c ∈ rest.head?, p c = false)
include hcs hrest

theorem takeWhile_run : (cs ++ rest).takeWhile p = cs := by
  rw [List.takeWhile_append_of_pos hcs]
  cases rest with
  | nil => rw [List.takeWhile_nil, List.append_nil]
  | cons c _ => rw [List.takeWhile_cons_of_neg (ne_true_of_eq_false (hrest c rfl)), List.append_nil]

theorem dropWhile_run : (cs ++ rest).dropWhile p = rest := by
  rw [List.dropWhile_append_of_pos hcs]
  cases rest with
  | nil => rfl
  | cons c _ => rw [List.dropWhile_cons_of_neg (ne_true_of_eq_false (hrest c rfl))]

end Runs

namespace Numeral

theorem isStart_eq_false {c : Char} : isStart c = false ↔ c.isDigit = false ∧ isSeparator c = false := by
  rw [isStart, Bool.or_eq_false_iff]

theorem isStart_of_isDigit {c : Char} (h : c.isDigit = true) : isStart c = true := by rw [isStart, h, Bool.true_or]

theorem isStart_of_isSeparator {c : Char} (h : isSeparator c = true) : isStart c = true := by
  rw [isStart, h, Bool.or_true]

theorem isDigit_of_isSeparator {c : Char} (h : isSeparator c = true) : c.isDigit = false := by
  simp only [isSeparator, Bool.or_eq_true, beq_iff_eq] at h
  rcases h with rfl | rfl <;> rfl

theorem val_bounds {c : Char} (h : isStart c = true) : 44 ≤ c.val ∧ c.val ≤ 57 := by
  simp only [isStart, isSeparator, Char.isDigit, Bool.or_eq_true, Bool.and_eq_true, decide_eq_true_eq, beq_iff_eq] at h
  rcases h with ⟨hl, hu⟩ | rfl | rfl
  · exact ⟨UInt32.le_trans (by decide) hl, hu⟩
  · decide
  · decide

theorem utf8Size_of_isStart {c : Char} (h : isStart c = true) : c.utf8Size = 1 :=
  Char.utf8Size_eq_one_iff.mpr (UInt32.le_trans (val_bounds h).2 (by decide))

theorem byteLength_of_isStart {cs : List Char} (h : ∀ c ∈ cs, isStart c = true) : byteLength cs = cs.length :=
  byteLength_eq_length fun c hc => utf8Size_of_isStart (h c hc)

theorem isStart_of_mem_separated {ds es : List Char} {sep : Char} (hds : ∀ d ∈ ds, d.isDigit = true)
    (hsep : isSeparator sep = true) (hes : ∀ e ∈ es, e.isDigit = true) : ∀ c ∈ ds ++ sep :: es, isStart c = true := by
  intro c hc
  rcases List.mem_append.mp hc with hc | hc
  · exact isStart_of_isDigit (hds c hc)
  · rcases List.mem_cons.mp hc with rfl | hc
    · exact isStart_of_isSeparator hsep
    · exact isStart_of_isDigit (hes c hc)

/-- A list is a run of digits and what starts with none. -/
theorem exists_digits (cs : List Char) : ∃ ds rest, cs = ds ++ rest ∧ (∀ d ∈ ds, d.isDigit = true) ∧
    ∀ c ∈ rest.head?, c.isDigit = false := by
  refine ⟨cs.takeWhile Char.isDigit, cs.dropWhile Char.isDigit, List.takeWhile_append_dropWhile.symm,
    fun d hd => List.mem_takeWhile_imp hd, fun c hc => ?_⟩
  have hhead := List.head?_dropWhile_not Char.isDigit cs
  rwa [Option.mem_def.mp hc] at hhead

section Read

variable {ds es rest : List Char} {sep : Char} (hds : ∀ d ∈ ds, d.isDigit = true)
include hds

theorem read_whole (hrest : ∀ c ∈ rest.head?, isStart c = false) : read (ds ++ rest) = .ok ⟨ds, none⟩ := by
  have hdigit : ∀ c ∈ rest.head?, c.isDigit = false := fun c hc => (isStart_eq_false.mp (hrest c hc)).1
  rw [read, takeWhile_run hds hdigit, dropWhile_run hds hdigit]
  cases rest with
  | nil => rfl
  | cons c cs =>
    have hsep : isSeparator c = false := (isStart_eq_false.mp (hrest c rfl)).2
    simp only [hsep, Bool.false_eq_true, if_false]

/-- Behind a first separator, what stands behind the digits there decides. -/
theorem read_separator (hsep : isSeparator sep = true) (hes : ∀ e ∈ es, e.isDigit = true)
    (hrest : ∀ c ∈ rest.head?, c.isDigit = false) :
    read (ds ++ sep :: (es ++ rest)) =
      if rest.head?.any isSeparator then .error (.secondSeparator (ds.length + 1 + es.length))
      else if ds.isEmpty && es.isEmpty then .error .noDigits
      else .ok ⟨ds, some es⟩ := by
  have hhead : ∀ c ∈ (sep :: (es ++ rest)).head?, c.isDigit = false := by
    rintro c ⟨⟩
    exact isDigit_of_isSeparator hsep
  rw [read, takeWhile_run hds hhead, dropWhile_run hds hhead]
  simp only [hsep, if_true, takeWhile_run hes hrest, dropWhile_run hes hrest]

end Read

namespace Spelling

variable {n : Numeral} {cs rest : List Char}

theorem length_eq (h : n.Spelling cs) : cs.length = n.length := by
  cases h with
  | whole _ _ => rfl
  | fraction _ _ _ _ =>
    rw [List.length_append, List.length_cons]
    rfl

theorem isStart_of_mem (h : n.Spelling cs) : ∀ c ∈ cs, isStart c = true := by
  cases h with
  | whole hds _ => exact fun c hc => isStart_of_isDigit (hds c hc)
  | fraction hds hsep hes _ => exact isStart_of_mem_separated hds hsep hes

theorem exists_cons (h : n.Spelling cs) : ∃ c ds, cs = c :: ds ∧ isStart c = true := by
  have hne : cs ≠ [] := by
    cases h with
    | whole _ hne => exact hne
    | fraction _ _ _ _ => exact List.append_ne_nil_of_right_ne_nil _ (List.cons_ne_nil _ _)
  obtain ⟨c, ds, rfl⟩ := List.exists_cons_of_ne_nil hne
  exact ⟨c, ds, rfl, h.isStart_of_mem c List.mem_cons_self⟩

/-- A spelling is read as its numeral unless what follows goes on with it. -/
theorem read_append (h : n.Spelling cs) (hrest : ∀ c ∈ rest.head?, isStart c = false) : read (cs ++ rest) = .ok n := by
  cases h with
  | whole hds _ => exact read_whole hds hrest
  | @fraction ds sep es hds hsep hes hne =>
    have hdigit : ∀ c ∈ rest.head?, c.isDigit = false := fun c hc => (isStart_eq_false.mp (hrest c hc)).1
    have hsecond : rest.head?.any isSeparator = false := by
      cases rest with
      | nil => rfl
      | cons c cs => exact (isStart_eq_false.mp (hrest c rfl)).2
    have hdigits : (ds.isEmpty && es.isEmpty) = false := by
      rw [Bool.and_eq_false_iff, List.isEmpty_eq_false_iff, List.isEmpty_eq_false_iff]
      exact hne
    rw [List.append_assoc, List.cons_append, read_separator hds hsep hes hdigit, hsecond, hdigits]
    rfl

end Spelling

/-- A list is a run of digits behind which nothing goes on with a numeral, or two runs around a separator. -/
theorem exists_runs (cs : List Char) :
    (∃ ds rest, cs = ds ++ rest ∧ (∀ d ∈ ds, d.isDigit = true) ∧ ∀ c ∈ rest.head?, isStart c = false) ∨
      ∃ ds sep es rest, cs = ds ++ sep :: (es ++ rest) ∧ (∀ d ∈ ds, d.isDigit = true) ∧ isSeparator sep = true ∧
        (∀ e ∈ es, e.isDigit = true) ∧ ∀ c ∈ rest.head?, c.isDigit = false := by
  obtain ⟨ds, rest, rfl, hds, hrest⟩ := exists_digits cs
  by_cases hsep : ∀ c ∈ rest.head?, isSeparator c = false
  · exact .inl ⟨ds, rest, rfl, hds, fun c hc => isStart_eq_false.mpr ⟨hrest c hc, hsep c hc⟩⟩
  · push Not at hsep
    obtain ⟨sep, hhead, hsep⟩ := hsep
    obtain ⟨cs, rfl⟩ := List.head?_eq_some_iff.mp hhead
    obtain ⟨es, rest, rfl, hes, hrest⟩ := exists_digits cs
    exact .inr ⟨ds, sep, es, rest, rfl, hds, eq_true_of_ne_false hsep, hes, hrest⟩

variable {c : Char} {cs : List Char}

/-- What is read is a spelling, and nothing behind it goes on with it. -/
theorem exists_spelling_of_read {n : Numeral} (hc : isStart c = true) (h : read (c :: cs) = .ok n) :
    ∃ text rest, c :: cs = text ++ rest ∧ n.Spelling text ∧ ∀ d ∈ rest.head?, isStart d = false := by
  rcases exists_runs (c :: cs) with ⟨ds, rest, hcs, hds, hrest⟩ | ⟨ds, sep, es, rest, hcs, hds, hsep, hes, hrest⟩
  · rw [hcs, read_whole hds hrest] at h
    cases h
    refine ⟨ds, rest, hcs, .whole hds ?_, hrest⟩
    rintro rfl
    rw [List.nil_append] at hcs
    rw [← hcs] at hrest
    exact absurd hc (ne_true_of_eq_false (hrest c rfl))
  · rw [hcs, read_separator hds hsep hes hrest] at h
    split at h
    · cases h
    · next hsecond =>
      split at h
      · cases h
      · next hempty =>
        cases h
        rw [Bool.and_eq_true, List.isEmpty_iff, List.isEmpty_iff, not_and_or] at hempty
        refine ⟨ds ++ sep :: es, rest, ?_, .fraction hds hsep hes hempty, fun d hd => ?_⟩
        · rw [hcs, List.append_assoc, List.cons_append]
        · rw [Option.mem_def.mp hd, Option.any_some, Bool.not_eq_true] at hsecond
          exact isStart_eq_false.mpr ⟨hrest d hd, hsecond⟩

/-- Where reading fails stands a separator too many, or one without digits. -/
theorem malformed_of_read {x : Variable} {offset : Nat} {fault : Fault} (h : read cs = .error fault) :
    Malformed x offset cs (Token.numeralError offset fault) := by
  rcases exists_runs cs with ⟨ds, rest, rfl, hds, hrest⟩ | ⟨ds, sep, es, rest, rfl, hds, hsep, hes, hrest⟩
  · rw [read_whole hds hrest] at h
    cases h
  · rw [read_separator hds hsep hes hrest] at h
    split at h
    · next hsecond =>
      cases h
      rw [Option.any_eq_true] at hsecond
      obtain ⟨sep', hhead, hsep'⟩ := hsecond
      obtain ⟨rest, rfl⟩ := List.head?_eq_some_iff.mp hhead
      have hlength : byteLength (ds ++ sep :: es) = ds.length + 1 + es.length := by
        rw [byteLength_of_isStart (isStart_of_mem_separated hds hsep hes), List.length_append, List.length_cons]
        omega
      have hmalformed : Malformed x offset (ds ++ sep :: es ++ sep' :: rest) _ := .secondSeparator hds hsep hes hsep'
      rwa [hlength, List.append_assoc, List.cons_append] at hmalformed
    · next hsecond =>
      split at h
      · next hempty =>
        cases h
        rw [Bool.and_eq_true, List.isEmpty_iff, List.isEmpty_iff] at hempty
        obtain ⟨rfl, rfl⟩ := hempty
        exact .noDigits hsep hrest
      · cases h

end Numeral
end TransferFunction
