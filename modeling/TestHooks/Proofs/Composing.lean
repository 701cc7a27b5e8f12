import TestHooks.Proofs.Spelled

/-!
# Texts put together

A text that is put together from words, marks and phrases on lines of its own is cut where it was put together.
`Spelling` grows by one element at the front, `Page` by one line, and `Reads` takes the tokens apart again.
-/

namespace TestHooks.Swift

open TestHooks.Text

/-! ### Single elements -/

/-- The element of an identifier. -/
def Element.word (cs : List Char) : Element := ⟨.lexeme .identifier, cs⟩

def Element.mark (kind : TokenKind) (c : Char) : Element := ⟨.lexeme kind, [c]⟩

def Element.space : Element := ⟨.blank, [' ']⟩

theorem word_fits {cs after : List Char} (h : Name cs) (ha : after.head?.any isWordChar = false) :
    (Element.word cs).Fits after := by
  obtain ⟨c, ds, rfl, hb⟩ := h.titled.begins
  refine ⟨c, ds, rfl, ?_⟩
  apply measure_of_lexeme hb ?_ (lexeme_of_name h ha)
  rintro rfl
  cases h with
  | plain hc _ => exact absurd hc (by decide)

theorem mark_fits {kind : TokenKind} {c : Char} (hk : kind.mark? = some c) {after : List Char}
    (hd : c = '.' → after.head? ≠ some '.') : (Element.mark kind c).Fits after := by
  refine ⟨c, [], rfl, ?_⟩
  have hb : isBlank c = false := by
    cases kind <;> cases hk <;> decide
  have hs : c ≠ '/' := by
    rintro rfl
    cases kind <;> cases hk
  apply measure_of_lexeme hb (fun h => absurd h hs)
  apply lexeme_of_mark (punctuation_of_mark hk)
  rw [Bool.eq_false_iff]
  intro he
  obtain ⟨rfl, d, -, more, hx⟩ := starts_ellipsis_iff.1 he
  apply hd rfl
  rw [List.nil_append] at hx
  rw [← hx]
  rfl

theorem space_fits {after : List Char} (ha : after.head?.any isBlank = false) : Element.space.Fits after :=
  fits_iff.2 (.blank isBlank_space nofun ha)

/-- An operator of one character. -/
theorem operator_fits {c : Char} (hc : c = '=' ∨ c = '&') {after : List Char} (ha : after.head?.any isOperatorChar = false) :
    (⟨.lexeme .operator, [c]⟩ : Element).Fits after := by
  have hop : isBlank c = false ∧ isOperatorChar c = true ∧ c ≠ '-' ∧ c ≠ '/' := by rcases hc with rfl | rfl <;> decide
  have hr : (after.takeWhile isOperatorChar).length = ([] : List Char).length := by
    apply (@length_takeWhile_append isOperatorChar [] after).2
    exact ⟨List.forall_mem_nil _, ha⟩
  have hl := @lexeme_of_operator c after hop.2.1 fun hx => absurd hx hop.2.2.1
  rw [hr] at hl
  exact ⟨c, [], rfl, measure_of_lexeme hop.1 (fun hx => absurd hx hop.2.2.2) hl⟩

theorem arrow_fits (after : List Char) : (⟨.lexeme .arrow, ['-', '>']⟩ : Element).Fits after := by
  refine ⟨'-', ['>'], rfl, ?_⟩
  have hc : '-' ≠ backtick ∧ isWordStart '-' = false ∧ isDecimalDigit '-' = false := by decide
  have hw : wordLexeme? '-' ('>' :: after) = some (.arrow, 1) := by simp [wordLexeme?, hc]
  have hq : literalOpening? ('-' :: '>' :: after) = none := literal_none_of_ne (by decide) (by decide)
  exact measure_of_lexeme (by decide) (fun hx => absurd hx (by decide)) (lexeme_of_word (.inr rfl) hq hw)

/-- A directive. -/
theorem directive_fits {c : Char} {cs after : List Char} (hc : isWordStart c = true) (hs : ∀ d ∈ cs, isWordChar d = true)
    (ha : after.head?.any isWordChar = false) : (⟨.lexeme .hashWord, '#' :: c :: cs⟩ : Element).Fits after := by
  refine ⟨'#', c :: cs, rfl, ?_⟩
  have hl := word_length_of_run hc hs ha
  have hw : wordLexeme? '#' (c :: (cs ++ after)) = some (.hashWord, cs.length + 1) := by simp [wordLexeme?, hl]
  have hq : literalOpening? ('#' :: c :: (cs ++ after)) = none := by
    have h₁ : c ≠ '#' := word_start_ne hc (by decide)
    have h₂ : c ≠ '"' := word_start_ne hc (by decide)
    simp [literalOpening?, h₁, h₂]
  exact measure_of_lexeme (by decide) (fun hx => absurd hx (by decide)) (lexeme_of_word (.inr rfl) hq hw)

/-! ### Lines -/

theorem Separated.head_not {p : Char → Bool} (hp : ∀ c, p c = true → goesOn c = true) {after : List Char}
    (h : Separated after) : after.head?.any p = false := by
  cases after with
  | nil => rfl
  | cons c cs =>
    rw [Separated, List.head?_cons, Option.all_some] at h
    rw [List.head?_cons, Option.any_some, Bool.eq_false_iff]
    intro hc
    have := goes_on_not_separator (hp c hc)
    rw [h] at this
    cases this

theorem spelling_nil : Spelling [] [] [] where
  flatten := rfl
  fits _ _ := trivial
  line := nofun
  comment := .inl rfl

/-- One element more at the front of a line. -/
theorem Spelling.cons {e : Element} {text tail : List Char} {es : List Element} (h : Spelling text es tail)
    (he : ∀ after, Separated after → e.Fits (text ++ after)) (hl : '\n' ∉ e.text) :
    Spelling (e.text ++ text) (e :: es) tail where
  flatten := by rw [List.flatMap_cons, List.append_assoc, h.flatten]
  fits after ha := by
    refine ⟨?_, h.fits after ha⟩
    rw [← List.append_assoc, h.flatten]
    exact he after ha
  line := by
    rw [List.mem_append, not_or]
    exact ⟨hl, h.line⟩
  comment := h.comment

theorem Spelling.word {cs text tail : List Char} {es : List Element} (h : Spelling text es tail) (hn : Name cs)
    (ht : text.head?.any isWordChar = false) : Spelling (cs ++ text) (.word cs :: es) tail := by
  apply h.cons (e := .word cs)
  · intro after ha
    apply word_fits hn
    cases text with
    | nil => exact ha.head_not fun c => word_goes_on
    | cons c cs => exact ht
  · exact hn.titled.line

theorem Spelling.mark {kind : TokenKind} {c : Char} {text tail : List Char} {es : List Element}
    (h : Spelling text es tail) (hk : kind.mark? = some c) (hd : c = '.' → text.head? ≠ some '.') :
    Spelling (c :: text) (.mark kind c :: es) tail := by
  apply h.cons (e := .mark kind c)
  · intro after ha
    apply mark_fits hk
    intro hc
    cases text with
    | nil =>
      intro hx
      rw [List.nil_append] at hx
      rw [Separated, hx] at ha
      exact absurd ha (by decide)
    | cons d ds => exact hd hc
  · cases kind <;> cases hk <;> decide

theorem Spelling.space {text tail : List Char} {es : List Element} (h : Spelling text es tail)
    (ht : text.head?.any (!isBlank ·) = true) : Spelling (' ' :: text) (.space :: es) tail := by
  apply h.cons (e := .space)
  · intro after _
    apply space_fits
    cases text with
    | nil => cases ht
    | cons c cs => simpa using ht
  · decide

theorem Spelling.operator {c : Char} {text tail : List Char} {es : List Element} (h : Spelling text es tail)
    (hc : c = '=' ∨ c = '&') (ht : text.head?.any isOperatorChar = false) :
    Spelling (c :: text) (⟨.lexeme .operator, [c]⟩ :: es) tail := by
  apply h.cons (e := ⟨.lexeme .operator, [c]⟩)
  · intro after ha
    apply operator_fits hc
    cases text with
    | nil => exact ha.head_not fun c => operator_goes_on
    | cons d ds => exact ht
  · rcases hc with rfl | rfl <;> decide

theorem Spelling.arrow {text tail : List Char} {es : List Element} (h : Spelling text es tail) :
    Spelling ('-' :: '>' :: text) (⟨.lexeme .arrow, ['-', '>']⟩ :: es) tail :=
  h.cons (e := ⟨.lexeme .arrow, ['-', '>']⟩) (fun _ _ => arrow_fits _) (by decide)

theorem Spelling.directive {c : Char} {cs text tail : List Char} {es : List Element} (h : Spelling text es tail)
    (hc : isWordStart c = true) (hs : ∀ d ∈ cs, isWordChar d = true) (ht : text.head?.any isWordChar = false) :
    Spelling ('#' :: c :: (cs ++ text)) (⟨.lexeme .hashWord, '#' :: c :: cs⟩ :: es) tail := by
  apply h.cons (e := ⟨.lexeme .hashWord, '#' :: c :: cs⟩)
  · intro after ha
    apply directive_fits hc hs
    cases text with
    | nil => exact ha.head_not fun c => word_goes_on
    | cons d ds => exact ht
  · have hl := (Name.plain hc hs).titled.line
    intro hm
    rcases List.mem_cons.1 hm with hx | hm
    · exact absurd hx (by decide)
    · exact hl hm

theorem Separated.append {text after : List Char} (ht : Separated text) (ha : Separated after) :
    Separated (text ++ after) := by
  cases text with
  | nil => exact ha
  | cons c cs => exact ht

/-- A phrase without comments before a separator. -/
theorem Spelling.append {front text tail : List Char} {es fs : List Element} (h : Spelling front es [])
    (ht : Spelling text fs tail) (hs : Separated text) : Spelling (front ++ text) (es ++ fs) tail where
  flatten := by
    have := h.flatten
    rw [List.append_nil] at this
    rw [List.flatMap_append, List.append_assoc, ht.flatten, this]
  fits after ha := by
    rw [fitting_append, ← List.append_assoc, ht.flatten]
    exact ⟨h.fits _ (hs.append ha), ht.fits after ha⟩
  line := by
    rw [List.mem_append, not_or]
    exact ⟨h.line, ht.line⟩
  comment := ht.comment

/-- A comment at the end of a phrase swallows the rest of the line. -/
theorem Spelling.swallow {front text tail : List Char} {es : List Element} (h : Spelling front es tail)
    (ht : tail ≠ []) (hs : Separated text) (hl : '\n' ∉ text) : Spelling (front ++ text) es (tail ++ text) where
  flatten := by rw [← List.append_assoc, h.flatten]
  fits after ha := by
    rw [List.append_assoc]
    exact h.fits _ (hs.append ha)
  line := by
    rw [List.mem_append, not_or]
    exact ⟨h.line, hl⟩
  comment := by
    rcases h.comment with hn | ⟨cs, rfl⟩
    · exact absurd hn ht
    · exact .inr ⟨cs ++ text, rfl⟩

/-! ### Pages -/

/-- A line break with the blanks before the next line. -/
def Element.lineBreak (margin : List Char) : Element := ⟨.blank, '\n' :: margin⟩

/-- The element of a comment on a line, if there is one. -/
def commented (tail : List Char) : List Element := if tail = [] then [] else [⟨.lineComment, tail⟩]

/-- Lines, each after a line break, and the elements that they are cut into. -/
inductive Page : List (List Char) → List Element → Prop
  | nil : Page [] []
  | cons {margin text tail : List Char} {es fs : List Element} {lines : List (List Char)} (hm : ∀ c ∈ margin, c = ' ')
    (hb : text.head?.any (!isBlank ·) = true) (hs : Spelling text es tail) (hp : Page lines fs) :
    Page ((margin ++ text) :: lines) (.lineBreak margin :: (es ++ (commented tail ++ fs)))

theorem commented_flatten (tail : List Char) : (commented tail).flatMap Element.text = tail := by
  unfold commented
  split
  · next h =>
    rw [h]
    rfl
  · simp

theorem comment_fits {tail after : List Char} (hc : tail = [] ∨ ∃ cs, tail = '/' :: '/' :: cs) (hl : '\n' ∉ tail)
    (ha : after.head?.all (· == '\n') = true) : Fitting (commented tail) after := by
  unfold commented
  rcases hc with rfl | ⟨cs, rfl⟩
  · rw [if_pos rfl]
    trivial
  · rw [if_neg (List.cons_ne_nil _ _)]
    refine ⟨fits_iff.2 (.lineComment (fun hx => hl ?_) ha), trivial⟩
    exact List.mem_cons_of_mem _ (List.mem_cons_of_mem _ hx)

theorem Page.flatten {lines : List (List Char)} {es : List Element} (h : Page lines es) :
    es.flatMap Element.text = lines.flatMap ('\n' :: ·) := by
  induction h with
  | nil => rfl
  | cons hm hb hs hp ih =>
    simp only [List.flatMap_cons, List.flatMap_append, commented_flatten, ih, Element.lineBreak, ← hs.flatten,
      List.cons_append, List.append_assoc]

theorem Page.separated {lines : List (List Char)} {es : List Element} (h : Page lines es) {after : List Char}
    (ha : after.head?.all (· == '\n') = true) : (es.flatMap Element.text ++ after).head?.all (· == '\n') = true := by
  cases h with
  | nil => exact ha
  | cons _ _ _ _ => rfl

theorem separated_of_break {after : List Char} (h : after.head?.all (· == '\n') = true) : Separated after := by
  cases after with
  | nil => rfl
  | cons c cs =>
    rw [List.head?_cons, Option.all_some, beq_iff_eq] at h
    subst h
    rfl

theorem lineBreak_fits {margin after : List Char} (hm : ∀ c ∈ margin, c = ' ') (ha : after.head?.any isBlank = false) :
    (Element.lineBreak margin).Fits after := by
  refine fits_iff.2 (.blank isBlank_newline (fun d hd => ?_) ha)
  rw [hm d hd]
  exact isBlank_space

theorem Page.fits {lines : List (List Char)} {es : List Element} (h : Page lines es) {after : List Char}
    (ha : after.head?.all (· == '\n') = true) : Fitting es after := by
  induction h with
  | nil => trivial
  | @cons margin text tail es fs lines hm hb hs hp ih =>
    have hr := hp.separated ha
    have htail := comment_fits hs.comment (fun hx => hs.line (hs.flatten ▸ List.mem_append_right _ hx)) hr
    constructor
    · apply lineBreak_fits hm
      rw [List.flatMap_append, List.flatMap_append, commented_flatten, ← List.append_assoc, hs.flatten]
      cases text with
      | nil => cases hb
      | cons c cs => simpa using hb
    · rw [fitting_append, fitting_append, List.flatMap_append, commented_flatten, List.append_assoc]
      exact ⟨hs.fits _ (separated_of_break hr), htail, ih⟩

theorem Page.append {lines more : List (List Char)} {es fs : List Element} (h : Page lines es) (h' : Page more fs) :
    Page (lines ++ more) (es ++ fs) := by
  induction h with
  | nil => exact h'
  | cons hm hb hs hp ih =>
    have := Page.cons hm hb hs ih
    simpa only [List.cons_append, List.append_assoc] using this

theorem Page.line {lines : List (List Char)} {es : List Element} (h : Page lines es) {l : List Char} (hl : l ∈ lines) :
    '\n' ∉ l ∧ ∃ c ∈ l, c ≠ ' ' := by
  induction h with
  | nil => cases hl
  | @cons margin text tail es fs lines hm hb hs hp ih =>
    rcases List.mem_cons.1 hl with rfl | hl
    · refine ⟨?_, ?_⟩
      · rw [List.mem_append, not_or]
        exact ⟨fun hn => absurd (hm _ hn) (by decide), hs.line⟩
      · cases text with
        | nil => cases hb
        | cons c cs =>
          refine ⟨c, List.mem_append_right _ List.mem_cons_self, ?_⟩
          rintro rfl
          rw [List.head?_cons, Option.any_some, isBlank_space] at hb
          cases hb
    · exact ih hl

/-! ### Tokens taken apart -/

/-- The tokens of elements, where a line break stands before the first token if `broken`. -/
def Reads (broken : Bool) (es : List Element) (ts : List Token) : Prop :=
  ∃ place gap, gap.contains '\n' = broken ∧ ts = Token.ofElements place gap es

/-- What is known of a token. -/
structure Token.Is (t : Token) (kind : TokenKind) (text : List Char) (broken : Bool) : Prop where
  kind : t.kind = kind
  text : t.text = String.ofList text
  newlineBefore : t.newlineBefore = broken

theorem reads_nil {broken : Bool} {ts : List Token} : Reads broken [] ts ↔ ts = [] := by
  constructor
  · rintro ⟨place, gap, -, rfl⟩
    rfl
  · rintro rfl
    cases broken with
    | false => exact ⟨.origin, [], rfl, rfl⟩
    | true => exact ⟨.origin, ['\n'], rfl, rfl⟩

theorem reads_lexeme {broken : Bool} {kind : TokenKind} {cs : List Char} {es : List Element} {ts : List Token}
    (h : Reads broken (⟨.lexeme kind, cs⟩ :: es) ts) :
    ∃ t more, ts = t :: more ∧ t.Is kind cs broken ∧ Reads false es more := by
  obtain ⟨place, gap, hg, rfl⟩ := h
  refine ⟨_, _, rfl, ⟨rfl, rfl, ?_⟩, _, [], rfl, rfl⟩
  rw [Token.newlineBefore, String.toList_ofList, hg]

theorem reads_gap {broken : Bool} {e : Element} {es : List Element} {ts : List Token} (h : Reads broken (e :: es) ts)
    (he : ∀ kind, e.shape ≠ .lexeme kind) : Reads (broken || e.text.contains '\n') es ts := by
  obtain ⟨place, gap, hg, rfl⟩ := h
  refine ⟨place.advance e.text, gap ++ e.text, ?_, ?_⟩
  · rw [← hg, Bool.eq_iff_iff]
    simp
  · rw [Token.ofElements]
    split
    · next kind hk => exact absurd hk (he kind)
    · rfl

/-- The last of the elements is a word or a mark. -/
def EndsInLexeme (es : List Element) : Prop :=
  ∃ front kind cs, es = front ++ [⟨.lexeme kind, cs⟩]

theorem endsInLexeme_of_last {es : List Element} (hn : es ≠ [])
    (h : ∀ e, es.getLast? = some e → ∃ kind, e.shape = .lexeme kind) : EndsInLexeme es := by
  obtain ⟨kind, hk⟩ := h _ (List.getLast?_eq_some_getLast hn)
  refine ⟨es.dropLast, kind, (es.getLast hn).text, ?_⟩
  rw [← hk]
  exact (List.dropLast_concat_getLast hn).symm

theorem finalGap_of_lexeme {es : List Element} (h : EndsInLexeme es) (gap : List Char) : Token.finalGap gap es = [] := by
  obtain ⟨front, kind, cs, rfl⟩ := h
  induction front generalizing gap with
  | nil => rfl
  | cons e front ih =>
    rw [List.cons_append, Token.finalGap]
    split
    · exact ih _
    · exact ih _

theorem reads_split {broken : Bool} {es fs : List Element} {ts : List Token} (h : Reads broken (es ++ fs) ts) :
    ∃ us vs before, ts = us ++ vs ∧ Reads broken es us ∧ Reads before fs vs := by
  obtain ⟨place, gap, hg, rfl⟩ := h
  rw [ofElements_append]
  exact ⟨_, _, _, rfl, ⟨place, gap, hg, rfl⟩, _, _, rfl, rfl⟩

theorem reads_append {broken : Bool} {es fs : List Element} {ts : List Token} (h : Reads broken (es ++ fs) ts)
    (hl : EndsInLexeme es) : ∃ us vs, ts = us ++ vs ∧ Reads broken es us ∧ Reads false fs vs := by
  obtain ⟨place, gap, hg, rfl⟩ := h
  rw [ofElements_append, finalGap_of_lexeme hl]
  exact ⟨_, _, rfl, ⟨place, gap, hg, rfl⟩, _, [], rfl, rfl⟩

theorem reads_space {broken : Bool} {es : List Element} {ts : List Token} (h : Reads broken (.space :: es) ts) :
    Reads broken es ts := by
  have hg := reads_gap h nofun
  rwa [show Element.space.text.contains '\n' = false by decide, Bool.or_false] at hg

/-- A word or mark after a space. -/
theorem reads_spaced {broken : Bool} {kind : TokenKind} {cs : List Char} {es : List Element} {ts : List Token}
    (h : Reads broken (.space :: ⟨.lexeme kind, cs⟩ :: es) ts) :
    ∃ t more, ts = t :: more ∧ t.Is kind cs broken ∧ Reads false es more :=
  reads_lexeme (reads_space h)

/-- A line break, with or without a comment before it. -/
theorem reads_break {broken : Bool} {tail margin : List Char} {es : List Element} {ts : List Token}
    (h : Reads broken (commented tail ++ .lineBreak margin :: es) ts) : Reads true es ts := by
  have hx : ∃ before, Reads before (.lineBreak margin :: es) ts := by
    unfold commented at h
    split at h
    · exact ⟨_, h⟩
    · exact ⟨_, reads_gap h nofun⟩
  obtain ⟨before, hx⟩ := hx
  have hg := reads_gap hx nofun
  rwa [show (Element.lineBreak margin).text.contains '\n' = true by simp [Element.lineBreak], Bool.or_true] at hg

/-- The first word or mark of a line. -/
theorem reads_line {broken : Bool} {margin : List Char} {kind : TokenKind} {cs : List Char} {es : List Element}
    {ts : List Token} (h : Reads broken (.lineBreak margin :: ⟨.lexeme kind, cs⟩ :: es) ts) :
    ∃ t more, ts = t :: more ∧ t.Is kind cs true ∧ Reads false es more := by
  have h' : Reads broken (commented [] ++ .lineBreak margin :: ⟨.lexeme kind, cs⟩ :: es) ts := h
  exact reads_lexeme (reads_break h')

theorem reads_bare {broken : Bool} {es : List Element} {ts : List Token} (h : Reads broken es ts) :
    ts.map Token.bare = bareTokens es := by
  obtain ⟨place, gap, -, rfl⟩ := h
  exact map_bare_ofElements place gap es

theorem reads_unbroken {es : List Element} {ts : List Token} (h : Reads false es ts)
    (hl : '\n' ∉ es.flatMap Element.text) : ∀ t ∈ ts, t.newlineBefore = false := by
  obtain ⟨place, gap, hg, rfl⟩ := h
  induction es generalizing place gap with
  | nil => nofun
  | cons e es ih =>
    rw [List.flatMap_cons, List.mem_append, not_or] at hl
    intro t ht
    rw [Token.ofElements] at ht
    split at ht
    · rcases List.mem_cons.1 ht with rfl | ht
      · rw [Token.newlineBefore, String.toList_ofList, hg]
      · exact ih hl.2 _ _ rfl t ht
    · exact ih hl.2 _ _ (by simpa [hl.1] using hg) t ht

theorem reads_phrase {broken : Bool} {es : List Element} {ts : List Token} (h : Reads broken es ts)
    (hs : ∃ kind cs more, es = ⟨.lexeme kind, cs⟩ :: more) (hl : EndsInLexeme es) :
    phrase ts = String.ofList (collapse (es.flatMap Element.text)) := by
  obtain ⟨kind, cs, more, rfl⟩ := hs
  obtain ⟨place, gap, -, rfl⟩ := h
  have hf : Token.finalGap [] more = [] := finalGap_of_lexeme hl gap
  have hw := Token.written_ofElements (place.advance cs) [] more
  rw [hf, List.append_nil, List.nil_append] at hw
  rw [Token.ofElements, phrase, hw, String.toList_ofList, List.flatMap_cons]

end TestHooks.Swift
