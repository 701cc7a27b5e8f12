import Mathlib.Data.List.Basic
import Mathlib.Tactic.ByContra
import TestHooks.Proofs.Lexing

/-!
# What follows a lexeme

A lexeme looks only a little ahead. What follows it may be exchanged for anything that answers the same questions,
such as whether a word goes on (`lexeme_refit`). A separator answers none of them.
-/

namespace TestHooks.Swift

open TestHooks.Text

/-- Blanks and the marks that no lexeme goes on with. -/
def isSeparator (c : Char) : Bool :=
  isBlank c || "()[],:;\x7b\x7d".toList.contains c

/-- The end of a text, or a text that begins with a separator. -/
def Separated (after : List Char) : Prop :=
  after.head?.all isSeparator = true

theorem decimal_word {c : Char} (h : isDecimalDigit c = true) : isWordChar c = true := by
  have hz : ∀ first ∈ digitZeros, first = 0x30 ∨
      (128 ≤ first ∧ wordRanges.any fun r => decide (r.1 ≤ first) && decide (first + 9 ≤ r.2)) := by
    decide +kernel
  unfold isDecimalDigit digitValue? at h
  rw [Option.isSome_map, List.find?_isSome] at h
  obtain ⟨first, hm, hd⟩ := h
  simp only [Bool.and_eq_true, decide_eq_true_eq] at hd
  rcases hz first hm with rfl | ⟨ha, hr⟩
  · have hn : 0x30 ≤ c.toNat → c.toNat < 0x3a → isWordChar c = true :=
      of_ascii (p := fun c => 0x30 ≤ c.toNat → c.toNat < 0x3a → isWordChar c = true) (by decide +kernel)
        (by omega)
    exact hn hd.1 hd.2
  · obtain ⟨r, hm, hr⟩ := List.any_eq_true.1 hr
    simp only [Bool.and_eq_true, decide_eq_true_eq] at hr
    unfold isWordChar
    rw [if_neg (by omega)]
    apply List.any_eq_true.2
    refine ⟨r, hm, ?_⟩
    simp only [Bool.and_eq_true, decide_eq_true_eq]
    omega

/-- True for the characters that a lexeme may go on with, dots aside. -/
def goesOn (c : Char) : Bool := !isSeparator c && c != '.'

theorem word_goes_on {c : Char} (h : isWordChar c = true) : goesOn c = true := by
  by_cases hc : c.toNat < 128
  · exact of_ascii (p := fun c => isWordChar c = true → goesOn c = true) (by decide +kernel) hc h
  · have hb := word_not_blank h
    have hd : ∀ d ∈ ".()[],:;\x7b\x7d".toList, d.toNat < 128 := by decide
    have hne : c ∉ ".()[],:;\x7b\x7d".toList := fun hm => hc (hd c hm)
    simp only [goesOn, isSeparator, hb, Bool.false_or]
    simp at hne ⊢
    exact ⟨hne.2, hne.1⟩

theorem radix_word {c : Char} (h : isRadixDigit c = true) : isWordChar c = true := by
  by_cases hc : c.toNat < 128
  · exact of_ascii (p := fun c => isRadixDigit c = true → isWordChar c = true) (by decide +kernel) hc h
  · exfalso
    unfold isRadixDigit at h
    simp only [Bool.or_eq_true, Bool.and_eq_true, decide_eq_true_eq, beq_iff_eq, Char.isDigit, ge_iff_le] at h
    simp only [Char.le_def, UInt32.le_iff_toNat_le] at h
    rcases h with ((h | h) | h) | rfl
    · have : c.val.toNat ≤ 57 := h.2
      exact hc (show c.val.toNat < 128 by omega)
    · have : c.val.toNat ≤ 102 := h.2
      exact hc (show c.val.toNat < 128 by omega)
    · have : c.val.toNat ≤ 70 := h.2
      exact hc (show c.val.toNat < 128 by omega)
    · exact hc (by decide)

theorem radix_goes_on {c : Char} (h : isRadixDigit c = true) : goesOn c = true :=
  word_goes_on (radix_word h)

theorem operator_goes_on {c : Char} (h : isOperatorChar c = true) : goesOn c = true := by
  have ho : ∀ d ∈ "/=-+!*%&|^~?\\".toList, goesOn d = true := by decide
  exact ho c (List.contains_iff_mem.1 h)

/-! ### Questions about what follows -/

/-- The beginnings of what follows that a lexeme or the one after it may ask for. -/
inductive Question : List Char → Prop
  | next {c : Char} (h : goesOn c = true) : Question [c]
  | dots {c : Char} (h : c = '.' ∨ c = '<') : Question ['.', c]
  | fraction {d : Char} (h : isDecimalDigit d = true) : Question ['.', d]
  | exponent {e d : Char} (he : e = 'e' ∨ e = 'E') (h : isDecimalDigit d = true) : Question [e, d]
  | signed {e s d : Char} (he : e = 'e' ∨ e = 'E') (hs : s = '-' ∨ s = '+') (h : isDecimalDigit d = true) :
    Question [e, s, d]
  | radix {r d : Char} (hr : r = 'x' ∨ r = 'o' ∨ r = 'b') (h : isRadixDigit d = true) : Question [r, d]

theorem goes_on_not_separator {c : Char} (h : goesOn c = true) : isSeparator c = false := by
  simp only [goesOn, Bool.and_eq_true, Bool.not_eq_true'] at h
  exact h.1

theorem Question.not_separator {p : List Char} (h : Question p) : ∀ c ∈ p, isSeparator c = false := by
  have hd {c : Char} (h : isDecimalDigit c = true) : isSeparator c = false :=
    goes_on_not_separator (word_goes_on (decimal_word h))
  have hdot : isSeparator '.' = false := by decide
  cases h with
  | next h => simpa using goes_on_not_separator h
  | dots h => rcases h with rfl | rfl <;> decide
  | fraction h => simpa using ⟨hdot, hd h⟩
  | exponent he h =>
    have : ∀ c, c = 'e' ∨ c = 'E' → isSeparator c = false := by rintro c (rfl | rfl) <;> decide
    simpa using ⟨this _ he, hd h⟩
  | signed he hs h =>
    have h₁ : ∀ c, c = 'e' ∨ c = 'E' → isSeparator c = false := by rintro c (rfl | rfl) <;> decide
    have h₂ : ∀ c, c = '-' ∨ c = '+' → isSeparator c = false := by rintro c (rfl | rfl) <;> decide
    simpa using ⟨h₁ _ he, h₂ _ hs, hd h⟩
  | radix hr h =>
    have : ∀ c, c = 'x' ∨ c = 'o' ∨ c = 'b' → isSeparator c = false := by rintro c (rfl | rfl | rfl) <;> decide
    simpa using ⟨this _ hr, goes_on_not_separator (radix_goes_on h)⟩

/-- Whatever begins `after'` and may be asked for begins `after` too. -/
def Quieter (after' after : List Char) : Prop :=
  ∀ p, Question p → p <+: after' → p <+: after

/-- Whatever begins `after'` and may be asked for by a lexeme other than an operator begins `after` too: such a lexeme asks
for one character only if that goes on a word. -/
def Hushed (after' after : List Char) : Prop :=
  ∀ p, Question p → (∀ c, p = [c] → isWordChar c = true) → p <+: after' → p <+: after

theorem Quieter.hushed {after' after : List Char} (h : Quieter after' after) : Hushed after' after :=
  fun p hq _ => h p hq

/-- What begins `after'` and is made of characters that satisfy `p` begins `after` too. -/
def Agrees (p : Char → Bool) (after' after : List Char) : Prop :=
  ∀ cs, (∀ c ∈ cs, p c = true) → cs <+: after' → cs <+: after

theorem Agrees.mono {p q : Char → Bool} {after' after : List Char} (h : Agrees p after' after)
    (hq : ∀ c, q c = true → p c = true) : Agrees q after' after :=
  fun cs hc => h cs fun c hm => hq c (hc c hm)

theorem agrees_of_head {p : Char → Bool} {after' : List Char} (h : after'.head?.any p = false) (after : List Char) :
    Agrees p after' after := by
  intro cs hc hp
  cases cs with
  | nil => exact List.nil_prefix
  | cons c cs =>
    obtain ⟨rest, rfl⟩ := hp
    have hn := hc c List.mem_cons_self
    rw [List.cons_append, List.head?_cons, Option.any_some, hn] at h
    cases h

/-- True for all but separators. -/
def isInside (c : Char) : Bool := !isSeparator c

theorem agrees_of_separated {after' : List Char} (h : Separated after') (after : List Char) :
    Agrees isInside after' after := by
  apply agrees_of_head
  cases after' with
  | nil => rfl
  | cons c cs =>
    simp only [Separated, List.head?_cons, Option.all_some] at h
    simp only [List.head?_cons, Option.any_some, isInside, h, Bool.not_true]

/-- Text may be exchanged for text that is the same up to its first separator. -/
theorem Agrees.quieter {after' after : List Char} (h : Agrees isInside after' after) : Quieter after' after := by
  intro p hq hp
  have hn : ∀ c ∈ p, isInside c = true := fun c hc => by rw [isInside, hq.not_separator c hc]; rfl
  exact h p hn hp

/-- A dot before a word answers no question. -/
theorem quieter_of_dot {c : Char} {cs : List Char} (hd : c ≠ '.' ∧ c ≠ '<') (hn : isDecimalDigit c = false)
    (after : List Char) : Quieter ('.' :: c :: cs) after := by
  intro p hq hp
  exfalso
  have hdot : goesOn '.' = false := by decide
  cases hq with
  | next h =>
    obtain ⟨rfl, -⟩ := List.cons_prefix_cons.1 hp
    rw [hdot] at h
    cases h
  | dots h =>
    obtain ⟨-, hp⟩ := List.cons_prefix_cons.1 hp
    obtain ⟨rfl, -⟩ := List.cons_prefix_cons.1 hp
    exact h.elim hd.1 hd.2
  | fraction h =>
    obtain ⟨-, hp⟩ := List.cons_prefix_cons.1 hp
    obtain ⟨rfl, -⟩ := List.cons_prefix_cons.1 hp
    rw [hn] at h
    cases h
  | exponent he h =>
    obtain ⟨rfl, -⟩ := List.cons_prefix_cons.1 hp
    rcases he with he | he <;> cases he
  | signed he hs h =>
    obtain ⟨rfl, -⟩ := List.cons_prefix_cons.1 hp
    rcases he with he | he <;> cases he
  | radix hr h =>
    obtain ⟨rfl, -⟩ := List.cons_prefix_cons.1 hp
    rcases hr with hr | hr | hr <;> cases hr

/-- A dot is asked for behind another character only if that is a dot. -/
theorem Question.of_dot_mem {p : List Char} (h : Question p) (hd : '.' ∈ p.tail) : p = ['.', '.'] := by
  have hdot : goesOn '.' = false := by decide
  have hdigit {d : Char} (h : isDecimalDigit d = true) : '.' ≠ d := by
    rintro rfl
    rw [word_goes_on (decimal_word h)] at hdot
    cases hdot
  cases h with
  | next h => cases hd
  | dots h => rw [← List.mem_singleton.1 hd]
  | fraction h => exact absurd (List.mem_singleton.1 hd) (hdigit h)
  | exponent he h => exact absurd (List.mem_singleton.1 hd) (hdigit h)
  | signed he hs h =>
    rcases List.mem_cons.1 hd with rfl | hd
    · rcases hs with hs | hs <;> cases hs
    · exact absurd (List.mem_singleton.1 hd) (hdigit h)
  | radix hr h =>
    cases List.mem_singleton.1 hd
    rw [radix_goes_on h] at hdot
    cases hdot

/-- A dot at the end of a text adds no answers, unless the text is a dot itself. -/
theorem quieter_append_dot {cs : List Char} (hn : cs ≠ []) (hd : cs ≠ ['.']) (more after : List Char) :
    Quieter (cs ++ '.' :: more) (cs ++ after) := by
  intro p hq hp
  obtain ⟨rest, hr⟩ := hp
  rcases List.append_eq_append_iff.1 hr with ⟨q, rfl, -⟩ | ⟨q, rfl, hq'⟩
  · exact ⟨q ++ after, (List.append_assoc _ _ _).symm⟩
  · cases q with
    | nil => exact ⟨after, by rw [List.append_nil]⟩
    | cons d q =>
      exfalso
      obtain ⟨rfl, -⟩ := List.cons.inj hq'
      obtain ⟨c, cs, rfl⟩ := List.exists_cons_of_ne_nil hn
      have hm := hq.of_dot_mem (by simp)
      cases cs with
      | nil =>
        cases hm
        exact hd rfl
      | cons => simp at hm

/-! ### Runs and numbers -/

theorem fraction_ne_zero {cs : List Char} (h : fractionLength cs ≠ 0) :
    ∃ d, isDecimalDigit d = true ∧ ['.', d] <+: cs := by
  unfold fractionLength at h
  split at h
  · next d ds =>
    split at h
    · next hd => exact ⟨d, hd, ⟨ds, rfl⟩⟩
    · exact absurd rfl h
  · exact absurd rfl h

theorem fraction_of_prefix {d : Char} {cs : List Char} (hd : isDecimalDigit d = true) (h : ['.', d] <+: cs) :
    2 ≤ fractionLength cs := by
  obtain ⟨ds, rfl⟩ := h
  simp only [List.cons_append, List.nil_append, fractionLength, hd, if_true]
  omega

theorem exponent_signed {e s : Char} (he : e = 'e' ∨ e = 'E') (hs : s = '-' ∨ s = '+') (cs : List Char) :
    exponentLength (e :: s :: cs) =
      if (cs.takeWhile isDecimalDigit).length = 0 then 0 else 2 + (cs.takeWhile isDecimalDigit).length := by
  simp [exponentLength, he, hs]

theorem exponent_unsigned {e : Char} {cs : List Char} (he : e = 'e' ∨ e = 'E')
    (hs : ¬(cs.head? = some '-' ∨ cs.head? = some '+')) :
    exponentLength (e :: cs) =
      if (cs.takeWhile isDecimalDigit).length = 0 then 0 else 1 + (cs.takeWhile isDecimalDigit).length := by
  simp [exponentLength, he, hs]

theorem exponent_other {e : Char} (he : ¬(e = 'e' ∨ e = 'E')) (cs : List Char) : exponentLength (e :: cs) = 0 := by
  simp [exponentLength, he]

theorem digit_of_run {p : Char → Bool} {cs : List Char} (h : (cs.takeWhile p).length ≠ 0) :
    ∃ d, p d = true ∧ [d] <+: cs := by
  cases cs with
  | nil => exact absurd rfl h
  | cons d cs =>
    by_cases hd : p d = true
    · exact ⟨d, hd, ⟨cs, rfl⟩⟩
    · simp [hd] at h

theorem exponent_ne_zero {cs : List Char} (h : exponentLength cs ≠ 0) :
    ∃ e d, (e = 'e' ∨ e = 'E') ∧ isDecimalDigit d = true ∧
      ([e, d] <+: cs ∨ ∃ s, (s = '-' ∨ s = '+') ∧ [e, s, d] <+: cs) := by
  cases cs with
  | nil => exact absurd rfl h
  | cons e cs =>
    by_cases he : e = 'e' ∨ e = 'E'
    · by_cases hs : cs.head? = some '-' ∨ cs.head? = some '+'
      · cases cs with
        | nil => simp at hs
        | cons s cs =>
          simp only [List.head?_cons, Option.some.injEq] at hs
          rw [exponent_signed he hs] at h
          obtain ⟨d, hd, hp⟩ := digit_of_run fun hz => h (if_pos hz)
          exact ⟨e, d, he, hd, .inr ⟨s, hs, by simpa using hp⟩⟩
      · rw [exponent_unsigned he hs] at h
        obtain ⟨d, hd, hp⟩ := digit_of_run fun hz => h (if_pos hz)
        exact ⟨e, d, he, hd, .inl (by simpa using hp)⟩
    · exact absurd (exponent_other he cs) h

theorem exponent_of_prefix {e d : Char} {cs : List Char} (he : e = 'e' ∨ e = 'E') (hd : isDecimalDigit d = true)
    (h : [e, d] <+: cs ∨ ∃ s, (s = '-' ∨ s = '+') ∧ [e, s, d] <+: cs) : exponentLength cs ≠ 0 := by
  have hs : d ≠ '-' ∧ d ≠ '+' := by
    constructor <;> rintro rfl <;> revert hd <;> decide
  rcases h with ⟨ds, rfl⟩ | ⟨s, hs', ds, rfl⟩
  · simp [exponentLength, he, hd, hs.1, hs.2]
  · simp [exponentLength, he, hd, hs']

/-- No decimal number goes on with the mark of a base. -/
theorem decimal_of_radix {r : Char} (hr : r = 'x' ∨ r = 'o' ∨ r = 'b') (cs : List Char) : decimalTail (r :: cs) = 0 := by
  have hd : isDigitOrUnderscore r = false := by rcases hr with rfl | rfl | rfl <;> decide
  have hf : fractionLength (r :: cs) = 0 := by
    by_contra hne
    obtain ⟨d, -, hp⟩ := fraction_ne_zero hne
    rw [← (List.cons_prefix_cons.1 hp).1] at hd
    rcases hr with hr | hr | hr <;> rw [← (List.cons_prefix_cons.1 hp).1] at hr <;> cases hr
  have he : exponentLength (r :: cs) = 0 := by
    apply exponent_other
    rcases hr with rfl | rfl | rfl <;> decide
  simp only [decimalTail, List.takeWhile_cons, hd, Bool.false_eq_true, if_false, List.length_nil, List.drop_zero, hf,
    Nat.add_zero, he]

theorem number_radix {r : Char} (hr : r = 'x' ∨ r = 'o' ∨ r = 'b') (cs : List Char) :
    numberTail '0' (r :: cs) =
      if (cs.takeWhile isRadixDigit).length = 0 then 0 else 1 + (cs.takeWhile isRadixDigit).length := by
  have hr' : (r = 'x' || r = 'o' || r = 'b') = true := by simpa [or_assoc] using hr
  simp only [numberTail, hr', Bool.true_and, decide_eq_true_eq, decimal_of_radix hr]
  split
  · rw [if_neg (by omega)]
  · rw [if_pos (by omega)]

theorem number_decimal {c : Char} {cs : List Char}
    (h : c ≠ '0' ∨ ∀ r, cs.head? = some r → ¬(r = 'x' ∨ r = 'o' ∨ r = 'b')) : numberTail c cs = decimalTail cs := by
  unfold numberTail
  split
  · next r ds =>
    rcases h with h | h
    · exact absurd rfl h
    · have hr : (r = 'x' || r = 'o' || r = 'b') = false := by simpa [not_or, and_assoc] using h r rfl
      simp only [hr, Bool.false_and, Bool.false_eq_true, if_false]
  · rfl

theorem radix_or_not (cs : List Char) :
    (∃ r more, (r = 'x' ∨ r = 'o' ∨ r = 'b') ∧ cs = r :: more) ∨
      ∀ r, cs.head? = some r → ¬(r = 'x' ∨ r = 'o' ∨ r = 'b') := by
  cases cs with
  | nil => exact .inr fun r h => nomatch h
  | cons r more =>
    by_cases hr : r = 'x' ∨ r = 'o' ∨ r = 'b'
    · exact .inl ⟨r, more, hr, rfl⟩
    · right
      intro s hs
      cases hs
      exact hr

theorem digit_goes_on (c : Char) (h : isDecimalDigit c = true) : goesOn c = true :=
  word_goes_on (decimal_word h)

theorem digit_or_underscore_word (c : Char) (h : isDigitOrUnderscore c = true) : isWordChar c = true := by
  simp only [isDigitOrUnderscore, Bool.or_eq_true, beq_iff_eq] at h
  rcases h with h | rfl
  · exact decimal_word h
  · decide

theorem digit_or_underscore_goes_on (c : Char) (h : isDigitOrUnderscore c = true) : goesOn c = true :=
  word_goes_on (digit_or_underscore_word c h)

/-- What does not go on before `after` does not go on before `after'`, if each character that would is asked for. -/
theorem any_of_next {p : Char → Bool} {after' after : List Char} (hp : ∀ c, p c = true → [c] <+: after' → [c] <+: after)
    (h : after.head?.any p = false) : after'.head?.any p = false := by
  cases after' with
  | nil => rfl
  | cons c cs =>
    rw [List.head?_cons, Option.any_some]
    by_contra hc
    rw [Bool.not_eq_false] at hc
    obtain ⟨rest, rfl⟩ := hp c hc ⟨cs, rfl⟩
    rw [List.singleton_append, List.head?_cons, Option.any_some, hc] at h
    cases h

theorem Quieter.any {after' after : List Char} (hq : Quieter after' after) {p : Char → Bool}
    (hp : ∀ c, p c = true → goesOn c = true) (h : after.head?.any p = false) : after'.head?.any p = false :=
  any_of_next (fun c hc => hq [c] (.next (hp c hc))) h

section

variable {after' after : List Char} (hq : Hushed after' after)

include hq

theorem Hushed.any {p : Char → Bool} (hp : ∀ c, p c = true → isWordChar c = true) (h : after.head?.any p = false) :
    after'.head?.any p = false :=
  any_of_next (fun c hc => hq [c] (.next (word_goes_on (hp c hc))) (by rintro _ ⟨⟩; exact hp c hc)) h

/-- A run that ends before `after` ends before `after'`. -/
theorem Hushed.run {p : Char → Bool} (hp : ∀ c, p c = true → isWordChar c = true) {cs : List Char}
    (h : ((cs ++ after).takeWhile p).length ≤ cs.length) :
    ((cs ++ after').takeWhile p).length = ((cs ++ after).takeWhile p).length := by
  induction cs with
  | nil =>
    have ha : after.head?.any p = false := by
      cases after with
      | nil => rfl
      | cons c after =>
        rw [List.head?_cons, Option.any_some]
        by_contra hc
        rw [Bool.not_eq_false] at hc
        simp [hc] at h
    have hn {ds : List Char} (hd : ds.head?.any p = false) : ds.takeWhile p = [] := by
      cases ds with
      | nil => rfl
      | cons d ds =>
        rw [List.head?_cons, Option.any_some] at hd
        simp [hd]
    rw [List.nil_append, List.nil_append, hn ha, hn (hq.any hp ha)]
  | cons c cs ih =>
    by_cases hc : p c = true
    · simp only [List.cons_append, List.takeWhile_cons, hc, if_true, List.length_cons] at h ⊢
      rw [ih (by omega)]
    · simp [hc]

theorem Hushed.fraction {cs : List Char} (h : fractionLength (cs ++ after) ≤ cs.length) :
    fractionLength (cs ++ after') = fractionLength (cs ++ after) := by
  rcases cs with - | ⟨c, - | ⟨d, cs⟩⟩
  · by_contra hne
    have hz : fractionLength after = 0 := Nat.eq_zero_of_le_zero h
    rw [List.nil_append, List.nil_append, hz] at hne
    obtain ⟨d, hd, hp⟩ := fraction_ne_zero hne
    have := fraction_of_prefix hd (hq _ (.fraction hd) nofun hp)
    omega
  · have hz : fractionLength (c :: after) = 0 := by
      by_contra hne
      obtain ⟨d, hd, hp⟩ := fraction_ne_zero hne
      have := fraction_of_prefix hd hp
      simp only [List.cons_append, List.nil_append, List.length_singleton] at h
      omega
    have hz' : fractionLength (c :: after') = 0 := by
      by_contra hne
      obtain ⟨d, hd, hp⟩ := fraction_ne_zero hne
      obtain ⟨rfl, hd'⟩ := List.cons_prefix_cons.1 hp
      have := fraction_of_prefix hd (List.cons_prefix_cons.2 ⟨rfl, hq _ (.next (word_goes_on (decimal_word hd))) (by rintro _ ⟨⟩; exact decimal_word hd) hd'⟩)
      omega
    exact hz'.trans hz.symm
  · by_cases hc : c = '.'
    · subst hc
      simp only [List.cons_append, fractionLength, List.length_cons] at h ⊢
      split at h
      · rw [if_pos ‹_›, if_pos ‹_›, hq.run digit_or_underscore_word (by omega)]
      · rw [if_neg ‹_›, if_neg ‹_›]
    · have hf (ds : List Char) : fractionLength (c :: ds) = 0 := by
        by_contra hne
        obtain ⟨d, -, hp⟩ := fraction_ne_zero hne
        exact hc (List.cons_prefix_cons.1 hp).1.symm
      rw [List.cons_append, List.cons_append, hf, List.cons_append, List.cons_append, hf]

theorem Hushed.exponent {cs : List Char} (h : exponentLength (cs ++ after) = cs.length) :
    exponentLength (cs ++ after') = cs.length := by
  cases cs with
  | nil =>
    by_contra hne
    obtain ⟨e, d, he, hd, hp⟩ := exponent_ne_zero hne
    apply exponent_of_prefix he hd ?_ h
    rcases hp with hp | ⟨s, hs, hp⟩
    · exact .inl (hq _ (.exponent he hd) nofun hp)
    · exact .inr ⟨s, hs, hq _ (.signed he hs hd) nofun hp⟩
  | cons e cs =>
    by_cases he : e = 'e' ∨ e = 'E'
    · cases cs with
      | nil =>
        exfalso
        by_cases hs : after.head? = some '-' ∨ after.head? = some '+'
        · cases after with
          | nil => simp at hs
          | cons s more =>
            simp only [List.head?_cons, Option.some.injEq] at hs
            rw [List.singleton_append, exponent_signed he hs] at h
            simp only [List.length_singleton] at h
            split at h <;> omega
        · rw [List.singleton_append, exponent_unsigned he hs] at h
          simp only [List.length_singleton] at h
          split at h <;> omega
      | cons s cs =>
        by_cases hs : s = '-' ∨ s = '+'
        · rw [List.cons_append, List.cons_append, exponent_signed he hs] at h ⊢
          simp only [List.length_cons] at h ⊢
          split at h
          · omega
          · next hn =>
            rw [hq.run (p := isDecimalDigit) (fun _ => decimal_word) (by omega), if_neg hn]
            exact h
        · have hs' (ds : List Char) : ¬((s :: cs ++ ds).head? = some '-' ∨ (s :: cs ++ ds).head? = some '+') := by
            simpa using hs
          rw [List.cons_append, exponent_unsigned he (hs' _)] at h ⊢
          rw [List.length_cons] at h ⊢
          split at h
          · omega
          · next hn =>
            rw [hq.run (p := isDecimalDigit) (fun _ => decimal_word) (by omega), if_neg hn]
            exact h
    · rw [List.cons_append, exponent_other he] at h
      cases h

theorem Hushed.decimal {cs : List Char} (h : decimalTail (cs ++ after) = cs.length) :
    decimalTail (cs ++ after') = cs.length := by
  simp only [decimalTail] at h ⊢
  have hr := @Hushed.run _ _ hq _ digit_or_underscore_word cs (by omega)
  rw [hr]
  generalize ((cs ++ after).takeWhile isDigitOrUnderscore).length = whole at h ⊢
  rw [List.drop_append_of_le_length (by omega)] at h ⊢
  have hf := @Hushed.fraction _ _ hq (cs.drop whole) (by rw [List.length_drop]; omega)
  rw [hf]
  generalize fractionLength (cs.drop whole ++ after) = fraction at h ⊢
  rw [List.drop_append_of_le_length (by omega)] at h ⊢
  have he := @Hushed.exponent _ _ hq (cs.drop (whole + fraction)) (by rw [List.length_drop]; omega)
  rw [he, List.length_drop]
  omega

theorem Hushed.number {c : Char} {cs : List Char} (h : numberTail c (cs ++ after) = cs.length) :
    numberTail c (cs ++ after') = cs.length := by
  by_cases hc : c = '0'
  · subst hc
    cases cs with
    | nil =>
      -- The digit stands alone, so no base may be told behind it either.
      have hd : decimalTail after = 0 := by
        rcases radix_or_not after with ⟨r, more, hr, rfl⟩ | hr
        · exact decimal_of_radix hr more
        · rw [List.nil_append, number_decimal (.inr hr)] at h
          exact h
      have hd' : decimalTail after' = 0 := @Hushed.decimal _ _ hq [] hd
      rw [List.nil_append, List.length_nil]
      rcases radix_or_not after' with ⟨r, more, hr, rfl⟩ | hr
      · rw [number_radix hr]
        by_cases hz : (more.takeWhile isRadixDigit).length = 0
        · rw [if_pos hz]
        · exfalso
          obtain ⟨d, hdd, hp⟩ := digit_of_run hz
          obtain ⟨rest, rfl⟩ := hq _ (.radix hr hdd) nofun (List.cons_prefix_cons.2 ⟨rfl, hp⟩)
          rw [List.nil_append, List.cons_append, List.cons_append, number_radix hr, List.takeWhile_cons,
            if_pos hdd] at h
          cases h
      · rw [number_decimal (.inr hr), hd']
    | cons r cs =>
      by_cases hr : r = 'x' ∨ r = 'o' ∨ r = 'b'
      · rw [List.cons_append, number_radix hr] at h ⊢
        rw [List.length_cons] at h ⊢
        split at h
        · omega
        · next hn =>
          rw [hq.run (p := isRadixDigit) (fun _ => radix_word) (by omega), if_neg hn]
          exact h
      · have hh (ds : List Char) (s : Char) (hs : (r :: cs ++ ds).head? = some s) :
            ¬(s = 'x' ∨ s = 'o' ∨ s = 'b') := by
          cases hs
          exact hr
        rw [number_decimal (.inr (hh _))] at h ⊢
        exact hq.decimal h
  · rw [number_decimal (.inl hc)] at h ⊢
    exact hq.decimal h

end

/-! ### Lexemes -/

theorem starts_ellipsis_iff {c : Char} {cs : List Char} :
    startsEllipsis c cs = true ↔ c = '.' ∧ ∃ d, (d = '.' ∨ d = '<') ∧ ['.', d] <+: cs := by
  simp only [startsEllipsis, Bool.or_eq_true, List.isPrefixOf_iff_prefix, List.cons_prefix_cons]
  constructor
  · rintro (⟨rfl, h⟩ | ⟨rfl, h⟩)
    · exact ⟨rfl, '.', .inl rfl, h⟩
    · exact ⟨rfl, '<', .inr rfl, h⟩
  · rintro ⟨rfl, d, rfl | rfl, h⟩
    · exact .inl ⟨rfl, h⟩
    · exact .inr ⟨rfl, h⟩

/-- Only a quote, or hashes before a quote, open a string. -/
theorem literal_none {c : Char} {cs : List Char} (hc : c ≠ '"')
    (hh : c = '#' → cs.head?.any isWordStart = true) : literalOpening? (c :: cs) = none := by
  by_cases h : c = '#'
  · subst h
    cases cs with
    | nil => cases hh rfl
    | cons d cs =>
      have hd := hh rfl
      rw [List.head?_cons, Option.any_some] at hd
      have h₁ : d ≠ '#' := by
        rintro rfl
        revert hd
        decide
      have h₂ : d ≠ '"' := by
        rintro rfl
        revert hd
        decide
      simp [literalOpening?, h₁, h₂]
  · simp [literalOpening?, h, hc]

theorem literal_none_of_ne {c : Char} {cs : List Char} (hc : c ≠ '"') (hh : c ≠ '#') :
    literalOpening? (c :: cs) = none :=
  literal_none hc fun h => absurd h hh

theorem lexeme_of_mark {c : Char} {cs : List Char} {kind : TokenKind} (hk : TokenKind.ofPunctuation? c = some kind)
    (he : startsEllipsis c cs = false) : lexemeAt c cs = .ok (kind, 0) := by
  simp only [lexemeAt, he, Bool.false_eq_true, if_false, hk]

theorem lexeme_of_word {c : Char} {cs : List Char} {kind : TokenKind} {n : Nat}
    (hm : startsEllipsis c cs = true ∨ TokenKind.ofPunctuation? c = none) (hl : literalOpening? (c :: cs) = none)
    (hw : wordLexeme? c cs = some (kind, n)) : lexemeAt c cs = .ok (kind, n) := by
  have hp : (if startsEllipsis c cs = true then none else TokenKind.ofPunctuation? c) = none := by
    rcases hm with hm | hm
    · rw [if_pos hm]
    · rw [hm, ite_self]
  simp only [lexemeAt, hp, hl, hw]

/-- The texts of identifiers. -/
inductive Name : List Char → Prop
  | plain {c : Char} {cs : List Char} (hc : isWordStart c = true) (hs : ∀ d ∈ cs, isWordChar d = true) : Name (c :: cs)
  | dollar {cs : List Char} (hn : cs ≠ []) (hs : ∀ d ∈ cs, isWordChar d = true) : Name ('$' :: cs)
  | escaped {cs : List Char} (hn : cs ≠ []) (hs : ∀ d ∈ cs, d ≠ backtick ∧ d ≠ '\n') :
    Name (backtick :: (cs ++ [backtick]))

theorem word_start_ne {c d : Char} (hc : isWordStart c = true) (hd : isWordStart d = false) : c ≠ d := by
  rintro rfl
  rw [hc] at hd
  cases hd

theorem punctuation_none {c : Char} (hc : goesOn c = true) (hl : c ≠ '<') (hr : c ≠ '>') :
    TokenKind.ofPunctuation? c = none := by
  cases hp : TokenKind.ofPunctuation? c with
  | none => rfl
  | some kind =>
    exfalso
    have hm := mark_of_punctuation hp
    revert hc hl hr
    cases kind <;> cases hm <;> decide

theorem lexeme_of_escaped {body : List Char} (hn : body ≠ []) (hs : ∀ d ∈ body, d ≠ backtick ∧ d ≠ '\n')
    (after : List Char) :
    lexemeAt backtick (body ++ [backtick] ++ after) = .ok (.identifier, (body ++ [backtick]).length) := by
  apply lexeme_of_word (.inr (by decide)) (literal_none_of_ne (by decide) (by decide))
  have hr : ((body ++ backtick :: after).takeWhile fun d => d != backtick && d != '\n').length = body.length := by
    apply length_takeWhile_append.2
    exact ⟨by simpa using hs, by simp⟩
  have hl : 0 < body.length := List.length_pos_iff.2 hn
  have h₁ : backtick ≠ '@' := by decide
  have h₂ : backtick ≠ '#' := by decide
  simp [wordLexeme?, hr, h₁, h₂, hl]

theorem lexeme_of_name {c : Char} {cs after : List Char} (h : Name (c :: cs))
    (ha : after.head?.any isWordChar = false) : lexemeAt c (cs ++ after) = .ok (.identifier, cs.length) := by
  cases h with
  | plain hc hs =>
    have hw : isWordChar c = true := by
      simp only [isWordStart, Bool.and_eq_true] at hc
      exact hc.1
    have hp := punctuation_none (word_goes_on hw) (word_start_ne hc (by decide)) (word_start_ne hc (by decide))
    have hl : literalOpening? (c :: (cs ++ after)) = none :=
      literal_none_of_ne (word_start_ne hc (by decide)) (word_start_ne hc (by decide))
    apply lexeme_of_word (.inr hp) hl
    have hr := length_takeWhile_append.2 ⟨hs, ha⟩
    simp [wordLexeme?, word_start_ne hc (show isWordStart '@' = false by decide),
      word_start_ne hc (show isWordStart '#' = false by decide),
      word_start_ne hc (show isWordStart backtick = false by decide),
      word_start_ne hc (show isWordStart '$' = false by decide), hc, hr]
  | dollar hn hs =>
    have hr := length_takeWhile_append.2 ⟨hs, ha⟩
    apply lexeme_of_word (.inr (by decide)) (literal_none_of_ne (by decide) (by decide))
    have hl : 0 < cs.length := List.length_pos_iff.2 hn
    have hb : ('$' : Char) ≠ backtick := by decide
    simp [wordLexeme?, hb, hr, hl]
  | escaped hn hs => exact lexeme_of_escaped hn hs after

theorem Name.of_backtick {cs : List Char} (h : Name (backtick :: cs)) :
    ∃ body, body ≠ [] ∧ (∀ d ∈ body, d ≠ backtick ∧ d ≠ '\n') ∧ cs = body ++ [backtick] := by
  generalize he : backtick :: cs = ds at h
  cases h with
  | plain hc _ =>
    obtain ⟨rfl, -⟩ := List.cons.inj he
    exact absurd hc (by decide)
  | dollar _ _ => exact absurd (List.cons.inj he).1 (by decide)
  | @escaped body hn hs => exact ⟨body, hn, hs, (List.cons.inj he).2⟩

theorem word_length_of_run {c : Char} {cs after : List Char} (hc : isWordStart c = true)
    (hs : ∀ d ∈ cs, isWordChar d = true) (ha : after.head?.any isWordChar = false) :
    wordLength? (c :: (cs ++ after)) = some (cs.length + 1) := by
  rw [wordLength?, if_pos hc, length_takeWhile_append.2 ⟨hs, ha⟩, Nat.add_comm]

/-- An identifier has the text of one. -/
theorem name_of_lexeme {c : Char} {cs after : List Char} (h : lexemeAt c (cs ++ after) = .ok (.identifier, cs.length)) :
    Name (c :: cs) := by
  cases lexeme_at_cases h with
  | mark _ hp _ => cases mark_of_punctuation hp
  | word _ _ hw =>
    cases word_lexeme_cases hw with
    | escaped hc hl hn hb =>
      subst hc
      obtain ⟨body, d, rfl⟩ : ∃ body d, cs = body ++ [d] :=
        ⟨_, _, (List.dropLast_concat_getLast (List.ne_nil_of_length_pos (Nat.lt_of_succ_lt hn))).symm⟩
      rw [List.length_append, List.length_singleton, Nat.add_sub_cancel, List.append_assoc, List.drop_left] at hb
      cases hb
      rw [List.length_append, List.length_singleton, Nat.add_right_cancel_iff, List.append_assoc] at hl
      have hr := (length_takeWhile_append.1 hl.symm).1
      apply Name.escaped
      · rintro rfl
        simp at hn
      · simpa using hr
    | dollar hc hl hn =>
      subst hc
      exact .dollar (List.ne_nil_of_length_pos hn) (length_takeWhile_append.1 hl.symm).1
    | word hc hl => exact .plain hc (length_takeWhile_append.1 hl.symm).1

/-- A decimal digit begins a number. -/
theorem lexeme_of_number {c : Char} (hd : isDecimalDigit c = true) (cs : List Char) :
    lexemeAt c cs = .ok (.number, numberTail c cs) := by
  have hw := decimal_word hd
  have hne {d : Char} (hn : isWordChar d = false) : c ≠ d := by
    rintro rfl
    rw [hw] at hn
    cases hn
  have hstart : isWordStart c = false := by rw [isWordStart, hd, Bool.not_true, Bool.and_false]
  have hp := punctuation_none (word_goes_on hw) (hne (by decide)) (hne (by decide))
  apply lexeme_of_word (.inr hp) (literal_none_of_ne (hne (by decide)) (hne (by decide)))
  simp [wordLexeme?, hstart, hd, hne (show isWordChar '@' = false by decide), hne (show isWordChar '#' = false by decide),
    hne (show isWordChar '$' = false by decide), hne (show isWordChar backtick = false by decide)]

/-- A run of operator characters that is no arrow is an operator. -/
theorem lexeme_of_operator {c : Char} {cs : List Char} (ho : isOperatorChar c = true)
    (hh : c = '-' → cs.head? ≠ some '>') : lexemeAt c cs = .ok (.operator, (cs.takeWhile isOperatorChar).length) := by
  have ho' : ∀ d ∈ "/=-+!*%&|^~?\\".toList, TokenKind.ofPunctuation? d = none ∧ d ≠ '"' ∧ d ≠ '#' ∧ d ≠ '@' ∧
      d ≠ backtick ∧ d ≠ '$' ∧ d ≠ '.' ∧ isWordStart d = false ∧ isDecimalDigit d = false := by decide
  obtain ⟨hp, h₁, h₂, h₃, h₄, h₅, h₆, h₇, h₈⟩ := ho' c (List.contains_iff_mem.1 ho)
  have hh' : (c = '-' && decide (cs.head? = some '>')) = false := by simpa using hh
  apply lexeme_of_word (.inr hp) (literal_none_of_ne h₁ h₂)
  simp only [wordLexeme?, h₃, h₂, h₄, h₅, h₆, h₇, h₈, ho, hh', decide_false, Bool.false_and, Bool.false_eq_true, if_false,
    if_true]

/-- An operator is a run of operator characters, and no arrow. -/
theorem operator_of_lexeme {c : Char} {cs after : List Char} {n : Nat}
    (h : lexemeAt c (cs ++ after) = .ok (.operator, n)) : isOperatorChar c = true ∧
      (c = '-' → (cs ++ after).head? ≠ some '>') ∧ n = ((cs ++ after).takeWhile isOperatorChar).length := by
  cases lexeme_at_cases h with
  | mark _ hp _ => cases mark_of_punctuation hp
  | word _ _ hw =>
    cases word_lexeme_cases hw with
    | operator ho hh hl => exact ⟨ho, hh, hl⟩

section

variable {after' after : List Char} (hq : Hushed after' after)

include hq

theorem Hushed.starts_ellipsis {c : Char} (h : startsEllipsis c after = false) : startsEllipsis c after' = false := by
  by_contra hc
  rw [Bool.not_eq_false, starts_ellipsis_iff] at hc
  obtain ⟨rfl, d, hd, hp⟩ := hc
  rw [starts_ellipsis_iff.2 ⟨rfl, d, hd, hq _ (.dots hd) nofun hp⟩] at h
  cases h

/-- A word that reaches up to what follows still does. -/
theorem Hushed.word {cs : List Char} (h : wordLength? (cs ++ after) = some cs.length) :
    (cs ++ after').head?.any isWordStart = true ∧ wordLength? (cs ++ after') = some cs.length := by
  obtain ⟨hn, hc, hr, ha⟩ := word_length_append h
  obtain ⟨d, ds, rfl⟩ := List.exists_cons_of_ne_nil hn
  refine ⟨hc, word_length_of_run (by simpa using hc) (List.forall_mem_cons.1 hr).2 ?_⟩
  exact hq.any (p := isWordChar) (fun _ hc => hc) ha

/-- A lexeme other than a string or an operator stays one when nothing more is asked for behind it. -/
theorem Hushed.lexeme {c : Char} {cs : List Char} {kind : TokenKind}
    (h : lexemeAt c (cs ++ after) = .ok (kind, cs.length)) (hs : kind ≠ .string) (hop : kind ≠ .operator) :
    lexemeAt c (cs ++ after') = .ok (kind, cs.length) := by
  have hword := hq.any (p := isWordChar) fun c hc => hc
  cases lexeme_at_cases h with
  | mark he hp hn =>
    obtain rfl := List.eq_nil_of_length_eq_zero hn
    exact lexeme_of_mark hp (hq.starts_ellipsis he)
  | string => exact absurd rfl hs
  | word _ _ hw =>
    cases word_lexeme_cases hw with
    | atWord hc hl =>
      subst hc
      obtain ⟨-, hl'⟩ := hq.word hl
      apply lexeme_of_word (.inr (by decide)) (literal_none_of_ne (by decide) (by decide))
      simp [wordLexeme?, hl']
    | hashWord hc hl =>
      subst hc
      obtain ⟨hstart, hl'⟩ := hq.word hl
      apply lexeme_of_word (.inr (by decide)) (literal_none (by decide) fun _ => hstart)
      simp [wordLexeme?, hl']
    | escaped hc _ _ _ =>
      subst hc
      obtain ⟨body, hn, hb, rfl⟩ := (name_of_lexeme h).of_backtick
      exact lexeme_of_escaped hn hb _
    | dollar _ hl _ | word _ hl =>
      exact lexeme_of_name (name_of_lexeme h) (hword (length_takeWhile_append.1 hl.symm).2)
    | number _ hd hl => rw [lexeme_of_number hd, hq.number hl.symm]
    | arrow hc hh hl =>
      subst hc
      obtain ⟨d, rfl⟩ := List.length_eq_one_iff.1 hl
      cases hh
      apply lexeme_of_word (.inr (by decide)) (literal_none_of_ne (by decide) (by decide))
      have hb : ('-' : Char) ≠ backtick := by decide
      have h₁ : isWordStart '-' = false := by decide
      have h₂ : isDecimalDigit '-' = false := by decide
      simp [wordLexeme?, hb, h₁, h₂]
    | ellipsis hc hh hd hl =>
      subst hc
      obtain ⟨d, e, rfl⟩ := List.length_eq_two.1 hl
      cases hh
      have hb : ('.' : Char) ≠ backtick := by decide
      have h₁ : isWordStart '.' = false := by decide
      have h₂ : isDecimalDigit '.' = false := by decide
      have hd' : e = '.' ∨ e = '<' := by simpa using hd
      apply lexeme_of_word (.inl ?_) (literal_none_of_ne (by decide) (by decide))
      · simp [wordLexeme?, hb, h₁, h₂, hd']
      · exact starts_ellipsis_iff.2 ⟨rfl, e, hd', ⟨_, rfl⟩⟩
    | operator => exact absurd rfl hop

end

/-- A lexeme other than a string stays one when something quieter follows it. -/
theorem Quieter.lexeme {after' after : List Char} (hq : Quieter after' after) {c : Char} {cs : List Char}
    {kind : TokenKind} (h : lexemeAt c (cs ++ after) = .ok (kind, cs.length)) (hs : kind ≠ .string) :
    lexemeAt c (cs ++ after') = .ok (kind, cs.length) := by
  by_cases hop : kind = .operator
  · subst hop
    obtain ⟨ho, hh, hl⟩ := operator_of_lexeme h
    have hr := length_takeWhile_append.1 hl.symm
    have hr' := length_takeWhile_append.2 ⟨hr.1, hq.any (fun c hc => operator_goes_on hc) hr.2⟩
    have ha : c = '-' → (cs ++ after').head? ≠ some '>' := by
      intro hc hx
      cases cs with
      | nil =>
        have hg := hq ['>'] (.next (by decide)) ?_
        · obtain ⟨rest, rfl⟩ := hg
          exact hh hc rfl
        · cases after' with
          | nil => cases hx
          | cons d more =>
            cases hx
            exact ⟨more, rfl⟩
      | cons d cs => exact hh hc hx
    rw [lexeme_of_operator ho ha, hr']
  · exact hq.hushed.lexeme h hs hop

end TestHooks.Swift
