import Mathlib.Logic.Basic
import TestHooks.Swift.Token

/-!
# Elements and the text after them

An element fits before a text if it is what stands at the head of its own text with that text behind it. The
elements of a text fit (`fitting_ofText`), and elements that fit are the elements of their text
(`ofText_flatten`).
-/

namespace TestHooks.Swift

open TestHooks.Text

/-! ### Characters -/

/-- A property of the characters of a text is checked on the text, not on all characters. -/
instance (priority := high) decidableForallChars (cs : List Char) (p : Char → Prop) [DecidablePred p] :
    Decidable (∀ c ∈ cs, p c) :=
  List.decidableBAll p cs

theorem isEmpty_of_cons {s : String} {c : Char} {cs : List Char} (h : s.toList = c :: cs) : s.isEmpty = false := by
  rw [String.isEmpty_eq_false_iff]
  rintro rfl
  cases h

theorem of_ascii {p : Char → Prop} (h : ∀ n < 128, p (Char.ofNat n)) {c : Char} (hc : c.toNat < 128) : p c := by
  rw [← Char.ofNat_toNat c]
  exact h c.toNat hc

theorem word_not_blank {c : Char} (h : isWordChar c = true) : isBlank c = false := by
  by_cases hc : c.toNat < 128
  · exact of_ascii (p := fun c => isWordChar c = true → isBlank c = false) (by decide +kernel) hc h
  · unfold isWordChar at h
    rw [if_neg hc] at h
    -- No range of word characters reaches over a blank.
    have hr : ∀ r ∈ wordRanges, 0xa0 < r.1 ∧ (r.2 < 0x1680 ∨ 0x1680 < r.1) ∧ (r.2 < 0x2000 ∨ 0x205f < r.1) ∧
        (r.2 < 0x3000 ∨ 0x3000 < r.1) := by
      decide +kernel
    obtain ⟨r, hm, hw⟩ := List.any_eq_true.1 h
    have := hr r hm
    simp only [Bool.and_eq_true, decide_eq_true_eq] at hw
    simp only [isBlank, Bool.or_eq_false_iff, Bool.and_eq_false_iff, decide_eq_false_iff_not, beq_eq_false_iff_ne]
    omega

/-- A run of characters that satisfy `p` ends where the text after it does not go on with one. -/
theorem length_takeWhile_append {p : Char → Bool} {cs rest : List Char} :
    ((cs ++ rest).takeWhile p).length = cs.length ↔ (∀ c ∈ cs, p c = true) ∧ rest.head?.any p = false := by
  induction cs with
  | nil =>
    cases rest with
    | nil => simp
    | cons c rest =>
      by_cases hc : p c = true
      · simp [hc]
      · simp [hc]
  | cons c cs ih =>
    by_cases hc : p c = true
    · simp [hc, ih]
    · simp [hc]

/-- The character of a punctuation mark. -/
def TokenKind.mark? : TokenKind → Option Char
  | leftBrace => some '\x7b'
  | rightBrace => some '\x7d'
  | leftParen => some '('
  | rightParen => some ')'
  | leftBracket => some '['
  | rightBracket => some ']'
  | leftAngle => some '<'
  | rightAngle => some '>'
  | comma => some ','
  | colon => some ':'
  | semicolon => some ';'
  | dot => some '.'
  | _ => none

theorem punctuation_of_mark {c : Char} {kind : TokenKind} (h : kind.mark? = some c) :
    TokenKind.ofPunctuation? c = some kind := by
  cases kind <;> cases h <;> rfl

theorem mark_of_punctuation {c : Char} {kind : TokenKind} (h : TokenKind.ofPunctuation? c = some kind) :
    kind.mark? = some c := by
  rw [TokenKind.ofPunctuation?] at h
  iterate 12
    rw [ite_eq_iff] at h
    rcases h with ⟨rfl, h⟩ | ⟨-, h⟩
    · cases h
      rfl
  cases h

/-! ### How far elements reach -/

theorem comment_end_le {read depth n : Nat} {cs : List Char} (h : commentEnd read depth cs = some n) :
    n ≤ read + cs.length := by
  fun_induction commentEnd read depth cs with
  | case1 read depth cs ih =>
    have := ih h
    simp only [List.length_cons]
    omega
  | case2 =>
    cases h
    simp only [List.length_cons]
    omega
  | case3 read depth cs ih =>
    have := ih h
    simp only [List.length_cons]
    omega
  | case4 read depth c cs _ _ _ ih =>
    have := ih h
    simp only [List.length_cons]
    omega
  | case5 => cases h

theorem frames_end_le {read skip n : Nat} {frames : List Frame} {cs : List Char}
    (h : framesEnd read frames skip cs = .ok n) : n ≤ read + cs.length := by
  fun_induction framesEnd read frames skip cs with
  | case1 =>
    cases h
    omega
  | case2 _ _ _ _ _ ih =>
    have := ih h
    simp only [List.length_cons]
    omega
  | case3 => cases h
  | case4 _ _ _ _ _ _ _ _ ih =>
    have := ih h
    simp only [List.length_cons]
    omega
  | case5 =>
    cases h
    omega
  | case6 => cases h

theorem fraction_length_le (cs : List Char) : fractionLength cs ≤ cs.length := by
  unfold fractionLength
  split
  · next d cs =>
    split
    · have := (List.takeWhile_prefix isDigitOrUnderscore (l := cs)).length_le
      simp only [List.length_cons]
      omega
    · omega
  · omega

theorem exponent_length_le (cs : List Char) : exponentLength cs ≤ cs.length := by
  unfold exponentLength
  split
  · next e cs =>
    split
    · dsimp only
      generalize (if (decide (cs.head? = some '-') || decide (cs.head? = some '+')) = true then 1 else 0) = sign
      have hl := (List.takeWhile_prefix isDecimalDigit (l := cs.drop sign)).length_le
      rw [List.length_drop] at hl
      simp only [List.length_cons]
      split <;> omega
    · omega
  · omega

theorem decimal_tail_le (cs : List Char) : decimalTail cs ≤ cs.length := by
  unfold decimalTail
  have hw := (List.takeWhile_prefix isDigitOrUnderscore (l := cs)).length_le
  have hf := fraction_length_le (cs.drop (cs.takeWhile isDigitOrUnderscore).length)
  have he := exponent_length_le (cs.drop ((cs.takeWhile isDigitOrUnderscore).length +
    fractionLength (cs.drop (cs.takeWhile isDigitOrUnderscore).length)))
  rw [List.length_drop] at hf he
  dsimp only
  omega

theorem number_tail_le (c : Char) (cs : List Char) : numberTail c cs ≤ cs.length := by
  unfold numberTail
  split
  · next r ds =>
    dsimp only
    split
    · have := (List.takeWhile_prefix isRadixDigit (l := ds)).length_le
      simp only [List.length_cons]
      omega
    · exact decimal_tail_le _
  · exact decimal_tail_le _

theorem word_length_append {cs rest : List Char} (h : wordLength? (cs ++ rest) = some cs.length) :
    cs ≠ [] ∧ (cs.head?.any isWordStart = true) ∧ (∀ c ∈ cs, isWordChar c = true) ∧
      rest.head?.any isWordChar = false := by
  cases cs with
  | nil =>
    unfold wordLength? at h
    split at h
    · split at h <;> simp at h
    · cases h
  | cons c cs =>
    simp only [List.cons_append, wordLength?, List.length_cons] at h
    split at h
    · next hc =>
      have hw : isWordChar c = true := by
        simp only [isWordStart, Bool.and_eq_true] at hc
        exact hc.1
      have hl := length_takeWhile_append.1 (show ((cs ++ rest).takeWhile isWordChar).length = cs.length by
        simp only [Option.some.injEq] at h
        omega)
      simp only [List.head?_cons, Option.any_some, List.mem_cons, forall_eq_or_imp]
      exact ⟨List.cons_ne_nil _ _, hc, ⟨hw, hl.1⟩, hl.2⟩
    · cases h

theorem word_length_le {cs : List Char} {n : Nat} (h : wordLength? cs = some n) : n ≤ cs.length := by
  unfold wordLength? at h
  split at h
  · next c cs =>
    split at h
    · cases h
      have := (List.takeWhile_prefix isWordChar (l := cs)).length_le
      simp only [List.length_cons]
      omega
    · cases h
  · cases h

/-- The lexemes that are neither strings nor marks, by their first characters: `n` characters of `cs` go with `c`. -/
inductive WordLexeme (c : Char) (cs : List Char) (n : Nat) : TokenKind → Prop
  | atWord (hc : c = '@') (hn : wordLength? cs = some n) : WordLexeme c cs n .atWord
  | hashWord (hc : c = '#') (hn : wordLength? cs = some n) : WordLexeme c cs n .hashWord
  | escaped (hc : c = backtick) (hn : n = (cs.takeWhile fun d => d != backtick && d != '\n').length + 1) (hl : 1 < n)
    (hb : (cs.drop (n - 1)).head? = some backtick) : WordLexeme c cs n .identifier
  | dollar (hc : c = '$') (hn : n = (cs.takeWhile isWordChar).length) (hl : 0 < n) : WordLexeme c cs n .identifier
  | word (hc : isWordStart c = true) (hn : n = (cs.takeWhile isWordChar).length) : WordLexeme c cs n .identifier
  | number (hs : isWordStart c = false) (hd : isDecimalDigit c = true) (hn : n = numberTail c cs) :
    WordLexeme c cs n .number
  | arrow (hc : c = '-') (hh : cs.head? = some '>') (hn : n = 1) : WordLexeme c cs n .arrow
  | ellipsis (hc : c = '.') (hh : cs.head? = some '.')
    (hd : (cs.drop 1).head?.any (fun d => d == '.' || d == '<') = true) (hn : n = 2) : WordLexeme c cs n .ellipsis
  | operator (ho : isOperatorChar c = true) (hh : c = '-' → cs.head? ≠ some '>')
    (hn : n = (cs.takeWhile isOperatorChar).length) : WordLexeme c cs n .operator

theorem word_lexeme_cases {c : Char} {cs : List Char} {kind : TokenKind} {n : Nat}
    (h : wordLexeme? c cs = some (kind, n)) : WordLexeme c cs n kind := by
  unfold wordLexeme? at h
  dsimp only at h
  split at h
  · next hc =>
    simp only [Bool.and_eq_true, decide_eq_true_eq] at hc
    obtain ⟨m, hm⟩ := Option.isSome_iff_exists.1 hc.2
    rw [hm] at h
    cases h
    exact .atWord hc.1 hm
  split at h
  · next hc =>
    simp only [Bool.and_eq_true, decide_eq_true_eq] at hc
    obtain ⟨m, hm⟩ := Option.isSome_iff_exists.1 hc.2
    rw [hm] at h
    cases h
    exact .hashWord hc.1 hm
  split at h
  · next hc =>
    simp only [Bool.and_eq_true, decide_eq_true_eq] at hc
    cases h
    exact .escaped hc.1.1 rfl (by omega) hc.2
  split at h
  · next hc =>
    simp only [Bool.and_eq_true, decide_eq_true_eq] at hc
    cases h
    exact .dollar hc.1 rfl hc.2
  split at h
  · next hc =>
    cases h
    exact .word hc rfl
  next hw =>
  have hw := Bool.eq_false_iff.2 hw
  split at h
  · next hc =>
    cases h
    exact .number hw hc rfl
  split at h
  · next hc =>
    simp only [Bool.and_eq_true, decide_eq_true_eq] at hc
    cases h
    exact .arrow hc.1 hc.2 rfl
  next ha =>
  split at h
  · next hc =>
    simp only [Bool.and_eq_true, decide_eq_true_eq] at hc
    cases h
    exact .ellipsis hc.1.1 hc.1.2 hc.2 rfl
  split at h
  · next hc =>
    simp only [Bool.and_eq_true, decide_eq_true_eq, not_and] at ha
    cases h
    exact .operator hc ha rfl
  · cases h

theorem word_lexeme_le {c : Char} {cs : List Char} {kind : TokenKind} {n : Nat}
    (h : wordLexeme? c cs = some (kind, n)) : n ≤ cs.length := by
  have hp := fun p : Char → Bool => (List.takeWhile_prefix p (l := cs)).length_le
  cases word_lexeme_cases h with
  | atWord _ hn | hashWord _ hn => exact word_length_le hn
  | escaped _ hn _ hb =>
    rw [hn, Nat.add_sub_cancel, List.head?_drop] at hb
    exact hn ▸ (List.getElem?_eq_some_iff.1 hb).1
  | dollar _ hn | word _ hn | operator _ _ hn => exact hn ▸ hp _
  | number _ _ hn => exact hn ▸ number_tail_le _ _
  | arrow _ hh hn =>
    cases cs with
    | nil => cases hh
    | cons => simp [hn]
  | ellipsis _ hh hd hn =>
    rcases cs with - | ⟨a, - | ⟨b, cs⟩⟩
    · cases hh
    · simp at hd
    · simp [hn]

/-- A lexeme is a mark, a string or of a kind that `wordLexeme?` tells. -/
inductive LexemeAt (c : Char) (cs : List Char) (n : Nat) : TokenKind → Prop
  | mark {kind : TokenKind} (he : startsEllipsis c cs = false) (hp : TokenKind.ofPunctuation? c = some kind)
    (hn : n = 0) : LexemeAt c cs n kind
  | string {frame : Frame} {length : Nat} (hm : startsEllipsis c cs = true ∨ TokenKind.ofPunctuation? c = none)
    (ho : literalOpening? (c :: cs) = some (frame, length)) (hf : framesEnd 0 [frame] (length - 1) cs = .ok n) :
    LexemeAt c cs n .string
  | word {kind : TokenKind} (hm : startsEllipsis c cs = true ∨ TokenKind.ofPunctuation? c = none)
    (ho : literalOpening? (c :: cs) = none) (hw : wordLexeme? c cs = some (kind, n)) : LexemeAt c cs n kind

theorem lexeme_at_cases {c : Char} {cs : List Char} {kind : TokenKind} {n : Nat}
    (h : lexemeAt c cs = .ok (kind, n)) : LexemeAt c cs n kind := by
  unfold lexemeAt at h
  split at h
  · next hp =>
    cases h
    split at hp
    · cases hp
    · next he => exact .mark (Bool.eq_false_iff.2 he) hp rfl
  · next hp =>
    have he : startsEllipsis c cs = true ∨ TokenKind.ofPunctuation? c = none := by
      split at hp
      · next he => exact .inl he
      · exact .inr hp
    split at h
    · next frame length ho =>
      cases hf : framesEnd 0 [frame] (length - 1) cs with
      | error fault =>
        rw [hf] at h
        cases h
      | ok m =>
        rw [hf] at h
        cases h
        exact .string he ho hf
    · next ho =>
      split at h
      · next hw =>
        cases h
        exact .word he ho hw
      · cases h

theorem lexeme_at_le {c : Char} {cs : List Char} {kind : TokenKind} {n : Nat}
    (h : lexemeAt c cs = .ok (kind, n)) : n ≤ cs.length := by
  cases lexeme_at_cases h with
  | mark _ _ hn => exact hn ▸ Nat.zero_le _
  | string _ _ hf =>
    have := frames_end_le hf
    omega
  | word _ _ hw => exact word_lexeme_le hw

/-- An element is a run of blanks, a comment or a lexeme: `n` characters of `cs` go with `c`. -/
inductive Measured (c : Char) (cs : List Char) (n : Nat) : Shape → Prop
  | blank (hb : isBlank c = true) (hn : n = (cs.takeWhile isBlank).length) : Measured c cs n .blank
  | lineComment (hc : c = '/') (hh : cs.head? = some '/') (hn : n = (cs.takeWhile (· != '\n')).length) :
    Measured c cs n .lineComment
  | blockComment (hc : c = '/') (hh : cs.head? = some '*') (hn : commentEnd 1 0 (cs.drop 1) = some n) :
    Measured c cs n .blockComment
  | lexeme {kind : TokenKind} (hb : isBlank c = false) (hc : c = '/' → cs.head? ≠ some '/' ∧ cs.head? ≠ some '*')
    (hl : lexemeAt c cs = .ok (kind, n)) : Measured c cs n (.lexeme kind)

theorem measured_of_eq {c : Char} {cs : List Char} {shape : Shape} {n : Nat}
    (h : Element.measure c cs = .ok (shape, n)) : Measured c cs n shape := by
  unfold Element.measure at h
  split at h
  · next hb =>
    cases h
    exact .blank hb rfl
  next hb =>
  split at h
  · next hc =>
    simp only [Bool.and_eq_true, decide_eq_true_eq] at hc
    cases h
    exact .lineComment hc.1 hc.2 rfl
  next hl =>
  split at h
  · next hc =>
    simp only [Bool.and_eq_true, decide_eq_true_eq] at hc
    split at h
    · next hm =>
      cases h
      exact .blockComment hc.1 hc.2 hm
    · cases h
  · next hm =>
    simp only [Bool.and_eq_true, decide_eq_true_eq, not_and] at hl hm
    cases hx : lexemeAt c cs with
    | error fault =>
      rw [hx] at h
      cases h
    | ok found =>
      rw [hx] at h
      cases h
      exact .lexeme (Bool.eq_false_iff.2 hb) (fun hc => ⟨hl hc, hm hc⟩) hx

theorem Measured.eq {c : Char} {cs : List Char} {shape : Shape} {n : Nat} (h : Measured c cs n shape) :
    Element.measure c cs = .ok (shape, n) := by
  have hslash : isBlank '/' = false := by decide
  unfold Element.measure
  cases h with
  | blank hb hn => rw [if_pos hb, hn]
  | lineComment hc hh hn => simp [hc, hslash, hh, hn]
  | blockComment hc hh hn =>
    rw [List.drop_one] at hn
    simp [hc, hslash, hh, hn]
  | lexeme hb hc hl =>
    rw [if_neg (by rw [hb]; nofun), if_neg, if_neg, hl]
    · rfl
    · simp only [Bool.and_eq_true, decide_eq_true_eq, not_and]
      exact fun h => (hc h).2
    · simp only [Bool.and_eq_true, decide_eq_true_eq, not_and]
      exact fun h => (hc h).1

theorem measure_iff {c : Char} {cs : List Char} {shape : Shape} {n : Nat} :
    Element.measure c cs = .ok (shape, n) ↔ Measured c cs n shape :=
  ⟨measured_of_eq, Measured.eq⟩

theorem measure_le {c : Char} {cs : List Char} {shape : Shape} {n : Nat}
    (h : Element.measure c cs = .ok (shape, n)) : n ≤ cs.length := by
  cases measure_iff.1 h with
  | blank _ hn | lineComment _ _ hn => exact hn ▸ (List.takeWhile_prefix _).length_le
  | blockComment _ hh hn =>
    have := comment_end_le hn
    cases cs with
    | nil => cases hh
    | cons =>
      simp only [List.length_cons, List.length_drop] at this ⊢
      omega
  | lexeme _ _ hl => exact lexeme_at_le hl

/-! ### Elements that fit -/

/-- The element is what stands at the head of its text with `rest` behind it. -/
def Element.Fits (e : Element) (rest : List Char) : Prop :=
  ∃ c cs, e.text = c :: cs ∧ Element.measure c (cs ++ rest) = .ok (e.shape, cs.length)

/-- Each of the elements fits before those after it, and `rest` is behind them. -/
def Fitting : List Element → List Char → Prop
  | [], _ => True
  | e :: es, rest => e.Fits (es.flatMap Element.text ++ rest) ∧ Fitting es rest

theorem fitting_append {es fs : List Element} {rest : List Char} :
    Fitting (es ++ fs) rest ↔ Fitting es (fs.flatMap Element.text ++ rest) ∧ Fitting fs rest := by
  induction es with
  | nil => simp [Fitting]
  | cons e es ih =>
    rw [List.cons_append, Fitting, Fitting, ih, List.flatMap_append, List.append_assoc, and_assoc]

theorem fitting_ofText (cs : List Char) : Fitting (Cut.ofText cs).elements (Cut.ofText cs).unread := by
  fun_induction Cut.ofText cs with
  | case1 => trivial
  | case2 => trivial
  | case3 c cs shape length hm after ih =>
    refine ⟨⟨c, cs.take length, rfl, ?_⟩, ih⟩
    have hf := Cut.flatten_ofText (cs.drop length)
    rw [Cut.flatten] at hf
    rw [hf, List.take_append_drop, hm, List.length_take_of_le (measure_le hm)]

theorem ofText_flatten {es : List Element} {rest : List Char} (h : Fitting es rest) :
    Cut.ofText (es.flatMap Element.text ++ rest) =
      { Cut.ofText rest with elements := es ++ (Cut.ofText rest).elements } := by
  induction es with
  | nil => rfl
  | cons e es ih =>
    obtain ⟨⟨c, cs, ht, hm⟩, hes⟩ := h
    rw [List.flatMap_cons, ht, List.append_assoc, List.cons_append, Cut.ofText.eq_def]
    simp only [hm]
    simp only [List.drop_left, List.take_left, ih hes, List.cons_append]
    rw [← ht]

/-- The text of elements that fit, and nothing else, is cut into these elements. -/
theorem cut_flatten {es : List Element} (h : Fitting es []) :
    Cut.ofText (es.flatMap Element.text) = ⟨es, [], none⟩ := by
  have hempty : Cut.ofText [] = ⟨[], [], none⟩ := by
    unfold Cut.ofText
    rfl
  have hcut := ofText_flatten h
  rwa [List.append_nil, hempty, List.append_nil] at hcut

/-- A text that is read to its end is made of the elements that it is cut into. -/
theorem elements_of_no_fault {cs : List Char} (h : (Cut.ofText cs).fault = none) :
    Fitting (Cut.ofText cs).elements [] ∧ (Cut.ofText cs).elements.flatMap Element.text = cs := by
  have hunread := (Cut.unread_eq_nil_iff cs).2 h
  have hfit := fitting_ofText cs
  have hflat := Cut.flatten_ofText cs
  rw [hunread] at hfit
  rw [Cut.flatten, hunread, List.append_nil] at hflat
  exact ⟨hfit, hflat⟩

theorem no_failure_iff {text : String} : (Tokens.ofText text).failure = none ↔ (Cut.ofText text.toList).fault = none := by
  rw [Tokens.ofText, Option.map_eq_none_iff]

theorem ofText_of_fitting {text : String} {es : List Element} (h : Fitting es [])
    (ht : es.flatMap Element.text = text.toList) : Tokens.ofText text = ⟨Token.ofElements .origin [] es, none⟩ := by
  rw [Tokens.ofText, ← ht, cut_flatten h]
  rfl

/-! ### Tokens -/

namespace Token

/-- The token is a lexeme at the head of some text. -/
def Lexed (t : Token) : Prop :=
  ∃ c cs rest, t.text.toList = c :: cs ∧ isBlank c = false ∧ lexemeAt c (cs ++ rest) = .ok (t.kind, cs.length)

theorem lexed_of_fits {e : Element} {kind : TokenKind} {rest : List Char} {gap : String} {place : Place}
    (h : e.Fits rest) (hk : e.shape = .lexeme kind) : Lexed ⟨kind, String.ofList e.text, gap, place⟩ := by
  obtain ⟨c, cs, ht, hm⟩ := h
  rw [hk] at hm
  cases measure_iff.1 hm with
  | lexeme hb _ hl => exact ⟨c, cs, rest, by rw [String.toList_ofList, ht], hb, hl⟩

theorem lexed_of_mem {es : List Element} {rest : List Char} {place : Place} {gap : List Char} {t : Token}
    (hf : Fitting es rest) (ht : t ∈ ofElements place gap es) : t.Lexed := by
  induction es generalizing place gap with
  | nil => cases ht
  | cons e es ih =>
    rw [ofElements] at ht
    split at ht
    · next kind hk =>
      rcases List.mem_cons.1 ht with rfl | ht
      · exact lexed_of_fits hf.1 hk
      · exact ih hf.2 ht
    · exact ih hf.2 ht

/-- The characters before a token are the tokens before it and the gaps. -/
theorem offset_ofElements {place : Place} {gap : List Char} {es : List Element} {before after : List Token}
    {t : Token} (h : ofElements place gap es = before ++ t :: after) :
    t.start.offset + gap.length = place.offset + (written before).length + t.gap.toList.length := by
  induction es generalizing place gap before with
  | nil => cases before <;> cases h
  | cons e es ih =>
    rw [ofElements] at h
    split at h
    · cases before with
      | nil =>
        cases h
        simp [written]
      | cons u before =>
        rw [List.cons_append, List.cons.injEq] at h
        have := ih h.2
        rw [← h.1]
        simp only [written, List.flatMap_cons, List.length_append, String.toList_ofList, Place.offset_advance,
          List.length_nil] at this ⊢
        omega
    · have := ih h
      rw [List.length_append, Place.offset_advance] at this
      omega

theorem Lexed.text_eq_cons {t : Token} (h : t.Lexed) : ∃ c cs, t.text.toList = c :: cs ∧ isBlank c = false := by
  obtain ⟨c, cs, -, ht, hb, -⟩ := h
  exact ⟨c, cs, ht, hb⟩

theorem Lexed.text_ne_empty {t : Token} (h : t.Lexed) : t.text ≠ "" := by
  obtain ⟨c, cs, ht, -⟩ := h.text_eq_cons
  rintro he
  rw [he] at ht
  cases ht

/-- A mark is one character. -/
theorem Lexed.of_mark {t : Token} {c : Char} (h : t.Lexed) (hk : t.kind.mark? = some c) : t.text.toList = [c] := by
  obtain ⟨d, cs, rest, ht, -, hl⟩ := h
  generalize t.kind = kind at hk hl
  cases lexeme_at_cases hl with
  | mark _ hp hn =>
    rw [mark_of_punctuation hp, Option.some.injEq] at hk
    rw [ht, List.eq_nil_of_length_eq_zero hn, hk]
  | string => cases hk
  | word _ _ hw => cases word_lexeme_cases hw <;> cases hk

theorem Lexed.of_atWord {t : Token} (h : t.Lexed) (hk : t.kind = .atWord) :
    ∃ cs, t.text.toList = '@' :: cs ∧ cs ≠ [] ∧ ∀ c ∈ cs, isWordChar c = true := by
  obtain ⟨d, cs, rest, ht, -, hl⟩ := h
  rw [hk] at hl
  cases lexeme_at_cases hl with
  | mark _ hp _ => cases mark_of_punctuation hp
  | word _ _ hw =>
    cases word_lexeme_cases hw with
    | atWord hc hn =>
      obtain ⟨hne, -, hw, -⟩ := word_length_append hn
      exact ⟨cs, hc ▸ ht, hne, hw⟩

/-- The tokens are lexemes and stand in the text one after another. -/
structure Standing (cs : List Char) (ts : List Token) : Prop where
  lexed : ∀ t ∈ ts, t.Lexed
  isWritten : written ts <+: cs
  offset : ∀ {before t after}, ts = before ++ t :: after →
    t.start.offset = (written before).length + t.gap.toList.length

theorem written_append (ts us : List Token) : written (ts ++ us) = written ts ++ written us :=
  List.flatMap_append

theorem written_cons (t : Token) (ts : List Token) :
    written (t :: ts) = t.gap.toList ++ t.text.toList ++ written ts :=
  List.flatMap_cons

theorem standing_ofText (text : String) : Standing text.toList (Tokens.ofText text).tokens where
  lexed _ ht := lexed_of_mem (fitting_ofText _) ht
  isWritten := by
    have hw := written_ofElements .origin [] (Cut.ofText text.toList).elements
    have hf := Cut.flatten_ofText text.toList
    rw [Cut.flatten, ← List.nil_append (List.flatMap _ _), ← hw, List.append_assoc] at hf
    exact ⟨_, hf⟩
  offset h := by
    have ho := offset_ofElements h
    simp only [Place.origin, List.length_nil] at ho
    omega

section

variable {cs : List Char} {ts before after : List Token} {t u : Token}

theorem Standing.drop_start (h : Standing cs ts) (ht : ts = before ++ t :: after) :
    t.text.toList <+: cs.drop t.start.offset := by
  obtain ⟨rest, hw⟩ := h.isWritten
  have ho : t.start.offset = (written before ++ t.gap.toList).length := by rw [h.offset ht, List.length_append]
  have hs : cs = (written before ++ t.gap.toList) ++ (t.text.toList ++ (written after ++ rest)) := by
    rw [← hw, ht, written_append, written_cons]
    simp only [List.append_assoc]
  rw [hs, ho, List.drop_left]
  exact List.prefix_append _ _

theorem Standing.start_lt_stop (h : Standing cs ts) (ht : t ∈ ts) : t.start.offset < t.stop := by
  obtain ⟨c, ds, hc, -⟩ := (h.lexed t ht).text_eq_cons
  rw [stop, ← String.length_toList, hc, List.length_cons]
  omega

theorem Standing.stop_le_start (h : Standing cs ts) (ht : ts = before ++ t :: after) (hu : u ∈ after) :
    t.stop ≤ u.start.offset := by
  obtain ⟨middle, last, rfl⟩ := List.append_of_mem hu
  have hs := h.offset (show ts = (before ++ t :: middle) ++ u :: last by rw [ht, List.append_assoc]; rfl)
  rw [hs, stop, h.offset ht, written_append, written_cons, ← String.length_toList]
  simp only [List.length_append]
  omega

theorem Standing.getElem_start (h : Standing cs ts) (ht : t ∈ ts) :
    ∃ c, cs[t.start.offset]? = some c ∧ isBlank c = false := by
  obtain ⟨before, after, hb⟩ := List.append_of_mem ht
  obtain ⟨c, ds, hc, hn⟩ := (h.lexed t ht).text_eq_cons
  obtain ⟨rest, hd⟩ := h.drop_start hb
  rw [hc] at hd
  have hg : (cs.drop t.start.offset)[0]? = some c := by rw [← hd]; rfl
  rw [List.getElem?_drop] at hg
  exact ⟨c, hg, hn⟩

theorem Standing.getElem_stop {c : Char} (h : Standing cs ts) (ht : t ∈ ts)
    (hc : t.text.toList.getLast? = some c) : cs[t.stop - 1]? = some c := by
  obtain ⟨before, after, hb⟩ := List.append_of_mem ht
  obtain ⟨rest, hd⟩ := h.drop_start hb
  have hl := h.start_lt_stop ht
  rw [stop, ← String.length_toList] at hl
  rw [List.getLast?_eq_getElem?] at hc
  have hg : (cs.drop t.start.offset)[t.text.toList.length - 1]? = some c := by
    rw [← hd, List.getElem?_append_left (by omega), hc]
  rw [List.getElem?_drop] at hg
  rw [stop, ← String.length_toList, ← hg]
  congr 1
  omega

end

end Token

end TestHooks.Swift
