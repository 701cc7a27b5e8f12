import TestHooks.Proofs.Captures
import TestHooks.Proxy.Literal

/-!
# Types of initializers

An initializer that a number or a truth value is seen in is one literal. A string is seen in every initializer that
begins with a string, whatever follows it (`literal_types`).
-/

namespace TestHooks.Swift

open TestHooks.Text TestHooks.Reader TestHooks.Proxy Reader

/-! ### Texts of phrases -/

/-- The last character of a text that ends in no blank is the last of the collapsed text. -/
theorem collapse_last {cs : List Char} {d : Char} (h : cs.getLast? = some d) (hd : isBlank d = false) :
    (collapse cs).getLast? = some d := by
  obtain ⟨front, rfl⟩ := List.getLast?_eq_some_iff.1 h
  have hone : collapse [d] = [d] := by
    simp only [collapse, collapseFrom, hd, Bool.false_eq_true, if_false]
  rw [@collapse_append front [d] (.inr hd), hone, List.getLast?_concat]

theorem trimWhile_eq_self {p : Char → Bool} {cs : List Char} (hh : cs.head?.any p = false)
    (hl : cs.getLast?.any p = false) : trimWhile p cs = cs := by
  have hdrop {ds : List Char} (h : ds.head?.any p = false) : ds.dropWhile p = ds := by
    cases ds with
    | nil => rfl
    | cons d ds =>
      rw [List.head?_cons, Option.any_some] at h
      exact List.dropWhile_cons_of_neg (by simp [h])
  rw [trimWhile, hdrop hh, dropEndWhile, hdrop (by rwa [List.head?_reverse]), List.reverse_reverse]

/-- No blank stands at either end of a phrase. -/
theorem trim_phrase {ts taken left : List Token} {t : Token} (hs : Scanned ts) (h : t :: taken ++ left = ts) :
    trimWhile isBlank (phrase (t :: taken)).toList = (phrase (t :: taken)).toList := by
  obtain ⟨e, es, after, hseg, hk, -, -, htext, hlast, -⟩ := phrase_elements hs h
  obtain ⟨front, last, he⟩ : ∃ front last, e :: es = front ++ [last] :=
    ⟨_, _, (List.dropLast_concat_getLast (List.cons_ne_nil e es)).symm⟩
  obtain ⟨kind, hkind⟩ := hlast last (by rw [he, List.getLast?_concat])
  have hfits : last.Fits after := by
    rw [he, fitting_append] at hseg
    exact hseg.2.1
  obtain ⟨d, hd⟩ : ∃ d, last.text.getLast? = some d := by
    obtain ⟨c, cs, hc, -⟩ := head_of_fits hfits
    rw [hc]
    exact ⟨_, List.getLast?_eq_some_getLast (List.cons_ne_nil _ _)⟩
  have hb : isBlank d = false := hfits.last (by rw [hkind]; nofun) (by rw [hkind]; nofun) hd
  have hend : ((e :: es).flatMap Element.text).getLast? = some d := by
    rw [he, List.flatMap_append, List.flatMap_singleton, List.getLast?_append, hd, Option.some_or]
  apply trimWhile_eq_self
  · obtain ⟨f, fs, hfs, hflat, hfk, -⟩ := phrase_tokens hs h
    obtain ⟨c, cs, hc, hbc⟩ := head_of_fits hfs.1
    rw [← hflat, List.flatMap_cons, hc, List.cons_append, List.head?_cons, Option.any_some, Bool.eq_false_iff]
    rw [hfk] at hbc
    exact fun hx => nomatch hbc.2 hx
  · rw [htext, String.toList_ofList, collapse_last hend hb]
    exact hb

/-! ### Numbers -/

theorem decimal_ne {c d : Char} (hc : isDecimalDigit c = true) (hd : isDecimalDigit d = false) : c ≠ d := by
  rintro rfl
  rw [hc] at hd
  cases hd

theorem digit_not_operator {c : Char} (h : isDecimalDigit c = true) : isOperatorChar c = false := by
  have hall : ∀ d ∈ "/=-+!*%&|^~?\\".toList, isDecimalDigit d = false := by decide
  rw [Bool.eq_false_iff]
  intro ho
  rw [hall c (List.contains_iff_mem.1 ho)] at h
  cases h

/-- All digits after the mark of a base belong to the number. -/
theorem number_tail_radix {r : Char} (hr : r = 'x' ∨ r = 'o' ∨ r = 'b') {p : Char → Bool}
    (hp : ∀ c, p c = true → isRadixDigit c = true) {cs : List Char} (h : isDigits p cs = true) :
    numberTail '0' (r :: cs) = (r :: cs).length := by
  simp only [isDigits, Bool.and_eq_true, Bool.not_eq_true', List.isEmpty_eq_false_iff, List.all_eq_true] at h
  have htake : cs.takeWhile isRadixDigit = cs := List.takeWhile_eq_self_iff.2 fun c hc => hp c (h.2 c hc)
  have hne : cs.length ≠ 0 := fun hx => h.1 (List.length_eq_zero_iff.1 hx)
  rw [number_radix hr, htake, if_neg hne, List.length_cons, Nat.add_comm]

theorem octal_radix (c : Char) (h : isOctalDigit c = true) : isRadixDigit c = true := by
  have hc : c.toNat < 128 := by
    simp only [isOctalDigit, Bool.or_eq_true, Bool.and_eq_true, decide_eq_true_eq, beq_iff_eq] at h
    rcases h with ⟨-, h⟩ | rfl
    · have : c.toNat ≤ '7'.toNat := h
      exact lt_of_le_of_lt this (by decide)
    · decide
  exact of_ascii (p := fun c => isOctalDigit c = true → isRadixDigit c = true) (by decide +kernel) hc h

theorem binary_radix (c : Char) (h : isBinaryDigit c = true) : isRadixDigit c = true := by
  simp only [isBinaryDigit, Bool.or_eq_true, beq_iff_eq] at h
  rcases h with (rfl | rfl) | rfl <;> decide

theorem not_radix_mark {r : Char} (h : isDigitOrUnderscore r = true) : ¬(r = 'x' ∨ r = 'o' ∨ r = 'b') := by
  rintro (rfl | rfl | rfl) <;> revert h <;> decide

/-- A whole number is a digit with the rest of a number behind it. -/
theorem whole_number {cs : List Char} (h : isWholeNumber cs = true) :
    ∃ c ds, cs = c :: ds ∧ isDecimalDigit c = true ∧ numberTail c ds = ds.length := by
  unfold isWholeNumber at h
  split at h
  · exact ⟨_, _, rfl, by decide, number_tail_radix (.inl rfl) (fun _ => id) h⟩
  · exact ⟨_, _, rfl, by decide, number_tail_radix (.inr (.inl rfl)) octal_radix h⟩
  · exact ⟨_, _, rfl, by decide, number_tail_radix (.inr (.inr rfl)) binary_radix h⟩
  · next c ds _ _ _ =>
    rw [Bool.and_eq_true, List.all_eq_true] at h
    have htake : ds.takeWhile isDigitOrUnderscore = ds := List.takeWhile_eq_self_iff.2 h.2
    refine ⟨c, ds, rfl, h.1, ?_⟩
    rw [number_decimal (.inr fun r hr => not_radix_mark (h.2 r (List.mem_of_head? hr)))]
    simp [decimalTail, htake, fractionLength, exponentLength]
  · cases h

theorem decimal_number {cs : List Char} (h : isDecimalNumber cs = true) :
    ∃ c ds, cs = c :: ds ∧ isDecimalDigit c = true ∧ numberTail c ds = ds.length := by
  cases cs with
  | nil => cases h
  | cons c ds =>
    rw [isDecimalNumber, Bool.and_eq_true, beq_iff_eq] at h
    refine ⟨c, ds, rfl, h.1, ?_⟩
    rw [number_decimal, h.2]
    right
    intro r hr hx
    obtain ⟨more, rfl⟩ : ∃ more, ds = r :: more := List.head?_eq_some_iff.1 hr
    rw [decimal_of_radix hx, List.length_cons] at h
    omega

/-- A number that reaches to the end of a text is one lexeme. -/
theorem number_fits {c : Char} {cs : List Char} (hc : isDecimalDigit c = true) (hl : numberTail c cs = cs.length) :
    (⟨.lexeme .number, c :: cs⟩ : Element).Fits [] := by
  refine ⟨c, cs, rfl, ?_⟩
  rw [List.append_nil]
  apply measure_of_lexeme (word_not_blank (decimal_word hc)) fun hx => absurd hx (decimal_ne hc (by decide))
  rw [lexeme_of_number hc, hl]

/-- A minus sign before a digit is a lexeme of its own. -/
theorem minus_fits {c : Char} (hc : isDecimalDigit c = true) (cs : List Char) :
    (⟨.lexeme .operator, ['-']⟩ : Element).Fits (c :: cs) := by
  have hangle : c ≠ '>' := decimal_ne hc (by decide)
  have hword : wordLexeme? '-' (c :: cs) = some (.operator, 0) := by
    have hstart : isWordStart '-' = false := by decide
    have hdigit : isDecimalDigit '-' = false := by decide
    have hminus : isOperatorChar '-' = true := by decide
    have hback : '-' ≠ backtick := by decide
    simp [wordLexeme?, hback, hstart, hdigit, hangle, hminus, digit_not_operator hc]
  refine ⟨'-', [], rfl, ?_⟩
  apply measure_of_lexeme (by decide) fun hx => absurd hx (by decide)
  exact lexeme_of_word (.inr (by decide)) (literal_none_of_ne (by decide) (by decide)) hword

/-! ### Types of literals -/

/-- The tokens of one literal of the type. -/
inductive PlainLiteral : String → List Token → Prop
  | truth {t : Token} (hk : t.kind = .identifier) (ht : t.text = "true" ∨ t.text = "false") : PlainLiteral "Bool" [t]
  | string {t : Token} (hk : t.kind = .string) : PlainLiteral "String" [t]
  | number {type : String} {t : Token} (ht : type = "Int" ∨ type = "Double") (hk : t.kind = .number) :
    PlainLiteral type [t]
  | negative {type : String} {s t : Token} (ht : type = "Int" ∨ type = "Double") (hs : s.kind = .operator)
    (hm : s.text = "-") (hk : t.kind = .number) : PlainLiteral type [s, t]

theorem PlainLiteral.length_le {type : String} {ts : List Token} (h : PlainLiteral type ts) : ts.length ≤ 2 := by
  cases h <;> simp

theorem plain_truth {text : String} (h : text = "true" ∨ text = "false") :
    PlainLiteral "Bool" (Tokens.ofText text).tokens := by
  have hfits {cs : List Char} (hw : Name cs) : Fitting [⟨.lexeme .identifier, cs⟩] [] := ⟨word_fits hw rfl, trivial⟩
  rcases h with rfl | rfl
  · rw [ofText_of_fitting (@hfits "true".toList (.plain (by decide) (by decide))) (by simp)]
    exact .truth rfl (.inl rfl)
  · rw [ofText_of_fitting (@hfits "false".toList (.plain (by decide) (by decide))) (by simp)]
    exact .truth rfl (.inr rfl)

/-- A number, with or without a minus sign. -/
theorem plain_number {text type : String} (ht : type = "Int" ∨ type = "Double")
    (h : isWholeNumber (unsigned text.toList) = true ∨ isDecimalNumber (unsigned text.toList) = true) :
    PlainLiteral type (Tokens.ofText text).tokens := by
  obtain ⟨c, ds, hcs, hc, hl⟩ : ∃ c ds, unsigned text.toList = c :: ds ∧ isDecimalDigit c = true ∧
      numberTail c ds = ds.length := h.elim whole_number decimal_number
  by_cases hminus : text.toList.head? = some '-'
  · rw [unsigned, if_pos hminus] at hcs
    obtain ⟨rest, htext⟩ := List.head?_eq_some_iff.1 hminus
    rw [htext, List.drop_one, List.tail_cons] at hcs
    subst hcs
    have hfits : Fitting [⟨.lexeme .operator, ['-']⟩, ⟨.lexeme .number, c :: ds⟩] [] := by
      refine ⟨?_, number_fits hc hl, trivial⟩
      rw [List.flatMap_singleton, List.append_nil]
      exact minus_fits hc ds
    rw [ofText_of_fitting hfits (by rw [htext]; simp)]
    exact .negative ht rfl rfl rfl
  · rw [unsigned, if_neg hminus] at hcs
    have hfits : Fitting [⟨.lexeme .number, c :: ds⟩] [] := ⟨number_fits hc hl, trivial⟩
    rw [ofText_of_fitting hfits (by rw [hcs]; simp)]
    exact .number ht rfl

/-- What has the opening of a string literal at its head is a string, if it is a lexeme. -/
theorem string_iff_opening {e : Element} {kind : TokenKind} {after : List Char} (h : e.Fits after)
    (hk : e.shape = .lexeme kind) : (literalOpening? (e.text ++ after)).isSome = true ↔ kind = .string := by
  obtain ⟨c, cs, ht, -, -, hl⟩ := lexeme_of_fits h hk
  rw [ht, List.cons_append]
  cases lexeme_at_cases hl with
  | mark _ hp _ =>
    have hmark := mark_of_punctuation hp
    have hne : c ≠ '"' ∧ c ≠ '#' := by
      constructor <;> rintro rfl <;> cases kind <;> cases hmark
    rw [literal_none_of_ne hne.1 hne.2]
    refine ⟨nofun, ?_⟩
    rintro rfl
    cases hmark
  | string _ ho _ => exact ⟨fun _ => rfl, fun _ => by rw [ho]; rfl⟩
  | word _ ho hw =>
    rw [ho]
    refine ⟨nofun, ?_⟩
    rintro rfl
    cases word_lexeme_cases hw

theorem literalType_cases {cs : List Char} {type : String} (h : literalTypeOf? cs = some type) :
    ((cs = "true".toList ∨ cs = "false".toList) ∧ type = "Bool") ∨
      ((literalOpening? cs).isSome = true ∧ type = "String") ∨
        ((isWholeNumber (unsigned cs) = true ∨ isDecimalNumber (unsigned cs) = true) ∧
          (type = "Int" ∨ type = "Double")) := by
  unfold literalTypeOf? at h
  split at h
  · next hc =>
    cases h
    exact .inl ⟨by simpa using hc, rfl⟩
  split at h
  · next ho =>
    cases h
    exact .inr (.inl ⟨ho, rfl⟩)
  split at h
  · next hw =>
    cases h
    exact .inr (.inr ⟨.inl hw, .inl rfl⟩)
  split at h
  · next hd =>
    cases h
    exact .inr (.inr ⟨.inr hd, .inr rfl⟩)
  · cases h

theorem literalType_string {cs : List Char} (h : (literalOpening? cs).isSome = true) :
    literalTypeOf? cs = some "String" := by
  have hne : ¬(cs = "true".toList ∨ cs = "false".toList) := by
    rintro (rfl | rfl) <;> revert h <;> decide
  simp only [literalTypeOf?, h, if_true, if_neg hne, Bool.or_eq_true, decide_eq_true_eq]

/-! ### Initializers -/

def Decl.initializers : Decl → List String
  | .variableList _ _ bindings => bindings.filterMap Binding.initializer
  | _ => []

/-- The texts of all initializers in a tree, conditional blocks included. -/
def initializersAmong (ds : List Decl) : List String :=
  (nodesAmong ds).flatMap Decl.initializers

/-- The initializer of a variable is a phrase of the tokens. -/
theorem initializer_phrase {ts rest : List Token} {b : Binding} {initializer : String}
    (h : binding.run ts = .ok (b, rest)) (hi : b.initializer = some initializer) :
    ∃ t taken left, t :: taken ++ left <:+ ts ∧ initializer = phrase (t :: taken) := by
  obtain ⟨named, typed, valued, hn, ht, hf, -⟩ := binding_cases h
  rw [hi] at hf
  rcases optionally_cases hf with ⟨-, hx, -⟩ | ⟨mark, more, y, rfl, -, hp, hx⟩
  · cases hx
  cases hx
  obtain ⟨t, taken, hsplit, rfl⟩ := phraseBy_eq_ok.1 hp
  have happend := splitExpression_append 0 true more
  rw [hsplit] at happend
  refine ⟨t, taken, valued, ?_, rfl⟩
  rw [happend]
  exact (List.suffix_cons _ _).trans ((Reader.suffix _ ht).trans (Reader.suffix _ hn))

theorem initializersAmong_phrase {text : String} {ds : List Decl} (h : parse text = .ok ds) {initializer : String}
    (hi : initializer ∈ initializersAmong ds) :
    ∃ t taken left, Scanned (t :: taken ++ left) ∧ initializer = phrase (t :: taken) := by
  obtain ⟨d, hd, hi⟩ := List.mem_flatMap.1 hi
  cases nodes_parse h d hd with
  | conditional _ => cases hi
  | directive _ => cases hi
  | group _ _ _ _ => cases hi
  | function _ _ _ => cases hi
  | other _ _ _ => cases hi
  | @variableList t k more rest left head keyword bindings hs hh hb =>
    obtain ⟨b, hm, hi⟩ := List.mem_filterMap.1 hi
    obtain ⟨us, after, hu, hrun, -⟩ := byCommas_forall hb b hm
    obtain ⟨u, taken, left, hsuffix, rfl⟩ := initializer_phrase hrun hi
    have hrest : rest <:+ t :: more := (List.suffix_cons k rest).trans ((headFrom t).suffix hh)
    exact ⟨u, taken, left, scanned_suffix (scanned_ofText text) (hsuffix.trans (hu.trans (hrest.trans hs))), rfl⟩

/-- Initializers are read to their ends. A type is seen in one that is a plain literal of this type, or in one that a
string stands first in and something follows. Exactly those that begin with a string are taken for strings. -/
theorem literal_types {text : String} {ds : List Decl} (h : parse text = .ok ds) {initializer : String}
    (hi : initializer ∈ initializersAmong ds) :
    (Tokens.ofText initializer).failure = none ∧
      (∀ type, literalType? (some initializer) = some type →
        PlainLiteral type (Tokens.ofText initializer).tokens ∨
          type = "String" ∧ ∃ t u more, (Tokens.ofText initializer).tokens = t :: u :: more ∧ t.kind = .string) ∧
      (literalType? (some initializer) = some "String" ↔
        ∃ t more, (Tokens.ofText initializer).tokens = t :: more ∧ t.kind = .string) := by
  obtain ⟨t, taken, left, hs, rfl⟩ := initializersAmong_phrase h hi
  obtain ⟨e, es, hfits, hflat, hk, -⟩ := phrase_tokens hs rfl
  have htype : literalType? (some (phrase (t :: taken))) = literalTypeOf? (phrase (t :: taken)).toList := by
    rw [literalType?, Option.bind_some, trim_phrase hs rfl]
  have htokens : Tokens.ofText (phrase (t :: taken)) = ⟨Token.ofElements .origin [] (e :: es), none⟩ :=
    ofText_of_fitting hfits hflat
  have hopening : (literalOpening? (phrase (t :: taken)).toList).isSome = true ↔ t.kind = .string := by
    rw [← hflat, List.flatMap_cons, ← string_iff_opening hfits.1 hk, List.append_nil]
  obtain ⟨first, more, hfirst, hkind⟩ : ∃ first more, (Tokens.ofText (phrase (t :: taken))).tokens = first :: more ∧
      first.kind = t.kind := by
    rw [htokens, Token.ofElements, hk]
    exact ⟨_, _, rfl, rfl⟩
  refine ⟨by rw [htokens], ?_, ?_⟩
  · intro type hx
    rw [htype] at hx
    rcases literalType_cases hx with ⟨hw, rfl⟩ | ⟨ho, rfl⟩ | ⟨hn, ht⟩
    · exact .inl (plain_truth (hw.imp String.toList_inj.1 String.toList_inj.1))
    · rw [hfirst]
      have hstring := hkind.trans (hopening.1 ho)
      cases more with
      | nil => exact .inl (.string hstring)
      | cons second more => exact .inr ⟨rfl, first, second, more, rfl, hstring⟩
    · exact .inl (plain_number ht hn)
  · rw [htype, hfirst]
    constructor
    · intro hx
      rcases literalType_cases hx with ⟨-, ht⟩ | ⟨ho, -⟩ | ⟨-, ht⟩
      · exact absurd ht (by decide)
      · exact ⟨first, more, rfl, hkind.trans (hopening.1 ho)⟩
      · exact absurd ht (by decide)
    · rintro ⟨first', more', hx, hstring⟩
      cases hx
      exact literalType_string (hopening.2 (hkind.symm.trans hstring))

def literalText : String := "class A \x7b\n    var ratio = -1.5\n    let size = \"a\".count\n\x7d"

theorem literalText_initializers :
    ∃ ds, parse literalText = .ok ds ∧ initializersAmong ds = ["-1.5", "\"a\".count"] := by
  have h : (parse literalText).toOption.any (fun ds => initializersAmong ds == ["-1.5", "\"a\".count"]) = true := by
    decide +kernel
  obtain ⟨ds, hds, hi⟩ := exists_ok h
  exact ⟨ds, hds, beq_iff_eq.1 hi⟩

theorem literalText_types : literalType? (some "-1.5") = some "Double" ∧
    PlainLiteral "Double" (Tokens.ofText "-1.5").tokens := by
  have htype : literalType? (some "-1.5") = some "Double" := by decide +kernel
  obtain ⟨ds, hds, hi⟩ := literalText_initializers
  have hmem : "-1.5" ∈ initializersAmong ds := by
    rw [hi]
    exact List.mem_cons_self
  obtain ⟨-, hplain, -⟩ := literal_types hds hmem
  rcases hplain "Double" htype with hplain | ⟨ht, -⟩
  · exact ⟨htype, hplain⟩
  · exact absurd ht (by decide)

/-- The count of the characters of a string is taken for a string. -/
theorem opening_taken_for_string :
    ∃ ds, parse literalText = .ok ds ∧ "\"a\".count" ∈ initializersAmong ds ∧
      literalType? (some "\"a\".count") = some "String" ∧ ¬PlainLiteral "String" (Tokens.ofText "\"a\".count").tokens := by
  obtain ⟨ds, hds, hi⟩ := literalText_initializers
  refine ⟨ds, hds, by rw [hi]; exact List.mem_cons_of_mem _ List.mem_cons_self, by decide +kernel, fun h => ?_⟩
  have hthree : (Tokens.ofText "\"a\".count").tokens.length = 3 := by decide +kernel
  have htwo := h.length_le
  omega

end TestHooks.Swift
