import TestHooks.Proofs.Comments
import TestHooks.Proofs.Lowered
import TestHooks.Proofs.Nodes
import TestHooks.Proofs.Receiver

/-!
# Qualified names

A type in another is named with both names and a dot between. Where dots and words are taken one character at a time,
the dot changes nothing about how a text is cut (`Readable.dotted`): a number or dots at the end of the first name may be
cut otherwise, but not beyond characters of these kinds. So the name of a type that is found can be cut to its end
(`found_calling`).
-/

namespace TestHooks.Swift

open TestHooks.Text

/-- A dot or a character of words. -/
def isSoft (c : Char) : Bool := c == '.' || isWordChar c

/-- Texts that can be cut to their ends, where dots and characters of words are taken one by one. -/
inductive Readable : List Char → Prop
  | nil : Readable []
  | soft {c : Char} {cs : List Char} (hc : isSoft c = true) (h : Readable cs) : Readable (c :: cs)
  | element {c : Char} {cs : List Char} {shape : Shape} {n : Nat} (hc : isSoft c = false)
    (hm : Element.measure c cs = .ok (shape, n)) (h : Readable (cs.drop n)) : Readable (c :: cs)

theorem readable_soft {c : Char} {cs : List Char} (hc : isSoft c = true) : Readable (c :: cs) ↔ Readable cs := by
  constructor
  · intro h
    cases h with
    | soft _ h => exact h
    | element hn _ _ =>
      rw [hc] at hn
      cases hn
  · exact .soft hc

theorem readable_element {c : Char} {cs : List Char} {shape : Shape} {n : Nat} (hc : isSoft c = false)
    (hm : Element.measure c cs = .ok (shape, n)) : Readable (c :: cs) ↔ Readable (cs.drop n) := by
  constructor
  · intro h
    cases h with
    | soft hs _ =>
      rw [hc] at hs
      cases hs
    | element _ hm' h =>
      rw [hm] at hm'
      cases hm'
      exact h
  · exact .element hc hm

theorem soft_of_word {c : Char} (h : isWordChar c = true) : isSoft c = true := by
  rw [isSoft, h, Bool.or_true]

theorem soft_cases {c : Char} (h : isSoft c = true) : c = '.' ∨ isWordStart c = true ∨ isDecimalDigit c = true := by
  simp only [isSoft, Bool.or_eq_true, beq_iff_eq] at h
  rcases h with h | h
  · exact .inl h
  · cases hd : isDecimalDigit c with
    | true => exact .inr (.inr rfl)
    | false => exact .inr (.inl (by rw [isWordStart, h, hd]; rfl))

theorem not_soft {c : Char} (h : isSoft c = false) : c ≠ '.' ∧ isWordStart c = false ∧ isDecimalDigit c = false := by
  have hd : isSoft '.' = true := by decide
  have hw : isWordChar c = false := by
    rw [isSoft, Bool.or_eq_false_iff] at h
    exact h.2
  refine ⟨fun hc => ?_, by rw [isWordStart, hw]; rfl, Bool.eq_false_iff.2 fun hx => ?_⟩
  · rw [hc, hd] at h
    cases h
  · rw [decimal_word hx] at hw
    cases hw

/-! ### What words, numbers and dots go on with -/

/-- What is left of a lexeme before `rest` when it is taken apart: dots, characters of words, signs before digits, and
angles. -/
inductive Chained (rest : List Char) : List Char → Prop
  | nil : Chained rest []
  | soft {c : Char} {cs : List Char} (hc : isSoft c = true) (h : Chained rest cs) : Chained rest (c :: cs)
  | sign {s d : Char} {cs : List Char} (hs : s = '-' ∨ s = '+') (hd : isDecimalDigit d = true)
    (h : Chained rest (d :: cs)) : Chained rest (s :: d :: cs)
  | angle {cs : List Char} (h : Chained rest cs) : Chained rest ('<' :: cs)

theorem Chained.append {rest cs ds : List Char} (h : Chained (ds ++ rest) cs) (h' : Chained rest ds) :
    Chained rest (cs ++ ds) := by
  induction h with
  | nil => exact h'
  | soft hc _ ih => exact .soft hc ih
  | sign hs hd _ ih => exact .sign hs hd ih
  | angle _ ih => exact .angle ih

theorem chained_words {rest cs : List Char} (h : ∀ c ∈ cs, isWordChar c = true) : Chained rest cs := by
  induction cs with
  | nil => exact .nil
  | cons c cs ih =>
    obtain ⟨hc, hcs⟩ := List.forall_mem_cons.1 h
    exact .soft (soft_of_word hc) (ih hcs)

theorem chained_run {p : Char → Bool} (hp : ∀ c, p c = true → isWordChar c = true) (rest cs : List Char) :
    Chained rest (cs.take (cs.takeWhile p).length) := by
  refine chained_words fun c hc => hp c ?_
  rw [← List.prefix_iff_eq_take.1 (List.takeWhile_prefix p)] at hc
  exact List.mem_takeWhile_imp hc

/-- A sign before a digit is cut off alone. -/
theorem sign_measure {s d : Char} (hs : s = '-' ∨ s = '+') (hd : isDecimalDigit d = true) (cs : List Char) :
    isSoft s = false ∧ Element.measure s (d :: cs) = .ok (.lexeme .operator, 0) := by
  have hw := decimal_word hd
  have hn : d ≠ '>' := by
    rintro rfl
    exact absurd hw (by decide)
  have ho : isOperatorChar d = false := by
    have hop : ∀ c ∈ "/=-+!*%&|^~?\\".toList, isWordChar c = false := by decide
    rw [Bool.eq_false_iff]
    intro hx
    rw [hop d (List.contains_iff_mem.1 hx)] at hw
    cases hw
  have hsign : isSoft s = false ∧ isOperatorChar s = true ∧ isBlank s = false ∧ s ≠ '/' := by
    rcases hs with rfl | rfl <;> decide
  have hl := @lexeme_of_operator s (d :: cs) hsign.2.1 fun _ hx => hn (Option.some.inj hx)
  rw [List.takeWhile_cons_of_neg (by rw [ho]; exact Bool.false_ne_true)] at hl
  exact ⟨hsign.1, measure_of_lexeme hsign.2.2.1 (fun hx => absurd hx hsign.2.2.2) hl⟩

theorem Chained.readable {rest cs : List Char} (h : Chained rest cs) : Readable (cs ++ rest) ↔ Readable rest := by
  induction h with
  | nil => rfl
  | soft hc _ ih => exact (readable_soft hc).trans ih
  | @sign s d cs hs hd _ ih =>
    obtain ⟨hsoft, hm⟩ := sign_measure hs hd (cs ++ rest)
    exact (readable_element hsoft hm).trans ih
  | @angle cs _ ih =>
    have hm : Element.measure '<' (cs ++ rest) = .ok (.lexeme .leftAngle, 0) := by
      refine measure_of_lexeme (by decide) (fun hx => absurd hx (by decide)) (lexeme_of_mark rfl ?_)
      rw [Bool.eq_false_iff]
      exact fun hx => absurd (starts_ellipsis_iff.1 hx).1 (by decide)
    exact (readable_element (by decide) hm).trans ih

theorem chained_fraction (rest cs : List Char) : Chained rest (cs.take (fractionLength cs)) := by
  unfold fractionLength
  split
  · next d ds =>
    split
    · next hd =>
      rw [Nat.add_comm, List.take_succ_cons, List.take_succ_cons]
      exact .soft (by decide) (.soft (soft_of_word (decimal_word hd)) (chained_run digit_or_underscore_word _ _))
    · exact .nil
  · exact .nil

theorem chained_exponent (rest cs : List Char) : Chained rest (cs.take (exponentLength cs)) := by
  cases cs with
  | nil => exact .nil
  | cons e cs =>
    by_cases he : e = 'e' ∨ e = 'E'
    · have hsoft : isSoft e = true := by rcases he with rfl | rfl <;> decide
      by_cases hsigned : cs.head? = some '-' ∨ cs.head? = some '+'
      · obtain ⟨s, ds, rfl, hs⟩ : ∃ s ds, cs = s :: ds ∧ (s = '-' ∨ s = '+') := by
          cases cs with
          | nil => rcases hsigned with hx | hx <;> cases hx
          | cons s ds => exact ⟨s, ds, rfl, by simpa using hsigned⟩
        rw [exponent_signed he hs]
        split
        · exact .nil
        · next hn =>
          obtain ⟨d, hd, more, rfl⟩ := digit_of_run hn
          have hrun := chained_run (fun c => decimal_word) rest ([d] ++ more)
          rw [Nat.add_comm, List.take_succ_cons, List.take_succ_cons]
          rw [List.singleton_append, List.takeWhile_cons_of_pos hd, List.length_cons, List.take_succ_cons] at hrun ⊢
          exact .soft hsoft (.sign hs hd hrun)
      · rw [exponent_unsigned he hsigned]
        split
        · exact .nil
        · rw [Nat.add_comm, List.take_succ_cons]
          exact .soft hsoft (chained_run (fun c => decimal_word) _ _)
    · rw [exponent_other he]
      exact .nil

theorem chained_decimal (rest cs : List Char) : Chained rest (cs.take (decimalTail cs)) := by
  unfold decimalTail
  rw [List.take_add, List.take_add]
  exact ((chained_run digit_or_underscore_word _ _).append (chained_fraction _ _)).append (chained_exponent _ _)

theorem chained_number (rest : List Char) (c : Char) (cs : List Char) : Chained rest (cs.take (numberTail c cs)) := by
  by_cases hc : c = '0'
  · subst hc
    rcases radix_or_not cs with ⟨r, ds, hr, rfl⟩ | hn
    · rw [number_radix hr]
      split
      · exact .nil
      · have hsoft : isSoft r = true := by rcases hr with rfl | rfl | rfl <;> decide
        rw [Nat.add_comm, List.take_succ_cons]
        exact .soft hsoft (chained_run (fun c => radix_word) _ _)
    · rw [number_decimal (.inr hn)]
      exact chained_decimal _ _
  · rw [number_decimal (.inl hc)]
    exact chained_decimal _ _

/-- A dot or a character of words begins a lexeme, which goes on with more of them. -/
theorem soft_measure {c : Char} (hc : isSoft c = true) (cs : List Char) :
    ∃ shape n, Element.measure c cs = .ok (shape, n) ∧ Chained (cs.drop n) (cs.take n) := by
  have hblank : isBlank c = false := by
    rcases soft_cases hc with rfl | hc | hc
    · decide
    · rw [isWordStart, Bool.and_eq_true] at hc
      exact word_not_blank hc.1
    · exact word_not_blank (decimal_word hc)
  have hslash : c = '/' → cs.head? ≠ some '/' ∧ cs.head? ≠ some '*' := by
    rintro rfl
    exact absurd hc (by decide)
  suffices h : ∃ kind n, lexemeAt c cs = .ok (kind, n) ∧ Chained (cs.drop n) (cs.take n) by
    obtain ⟨kind, n, hl, hchain⟩ := h
    exact ⟨_, n, measure_of_lexeme hblank hslash hl, hchain⟩
  rcases soft_cases hc with rfl | hstart | hdigit
  · cases he : startsEllipsis '.' cs with
    | false => exact ⟨.dot, 0, lexeme_of_mark rfl he, .nil⟩
    | true =>
      obtain ⟨-, d, hd, more, rfl⟩ := starts_ellipsis_iff.1 he
      have hw : wordLexeme? '.' (['.', d] ++ more) = some (.ellipsis, 2) := by
        have hdot : isWordStart '.' = false ∧ isDecimalDigit '.' = false := by decide
        have hne : '.' ≠ backtick := by decide
        rcases hd with rfl | rfl <;> simp [wordLexeme?, hdot, hne]
      refine ⟨.ellipsis, 2, lexeme_of_word (.inl he) (literal_none_of_ne (by decide) (by decide)) hw, ?_⟩
      rcases hd with rfl | rfl
      · exact .soft (by decide) (.soft (by decide) .nil)
      · exact .soft (by decide) (.angle .nil)
  · have hname : Name (c :: cs.takeWhile isWordChar) := .plain hstart fun d hd => List.mem_takeWhile_imp hd
    have hend : (cs.dropWhile isWordChar).head?.any isWordChar = false := by
      have := List.head?_dropWhile_not isWordChar cs
      cases h : (cs.dropWhile isWordChar).head? with
      | none => rfl
      | some d =>
        rw [h] at this
        rw [Option.any_some, this]
    have hl := lexeme_of_name hname hend
    rw [List.takeWhile_append_dropWhile] at hl
    exact ⟨_, _, hl, chained_run (fun c h => h) _ _⟩
  · exact ⟨_, _, lexeme_of_number hdigit cs, chained_number _ _ _⟩

/-! ### Cutting to the end -/

theorem fault_ofText {c : Char} {cs : List Char} {shape : Shape} {n : Nat} (h : Element.measure c cs = .ok (shape, n)) :
    (Cut.ofText (c :: cs)).fault = (Cut.ofText (cs.drop n)).fault := by
  rw [Cut.ofText.eq_def]
  simp only [h]

/-- The readable texts are those that are cut to their ends. -/
theorem readable_iff {cs : List Char} : Readable cs ↔ (Cut.ofText cs).fault = none := by
  induction hl : cs.length using Nat.strongRecOn generalizing cs with
  | ind length ih =>
    cases cs with
    | nil =>
      have hnil : Cut.ofText [] = ⟨[], [], none⟩ := by
        unfold Cut.ofText
        rfl
      rw [hnil]
      exact ⟨fun _ => rfl, fun _ => .nil⟩
    | cons c cs =>
      have hrest (n : Nat) : Readable (cs.drop n) ↔ (Cut.ofText (cs.drop n)).fault = none :=
        ih (cs.drop n).length (by rw [← hl, List.length_cons, List.length_drop]; omega) rfl
      cases hc : isSoft c with
      | true =>
        obtain ⟨shape, n, hm, hchain⟩ := soft_measure hc cs
        rw [fault_ofText hm, ← hrest n, ← hchain.readable, List.take_append_drop, readable_soft hc]
      | false =>
        cases hm : Element.measure c cs with
        | ok found =>
          obtain ⟨shape, n⟩ := found
          rw [fault_ofText hm, ← hrest n, readable_element hc hm]
        | error fault =>
          have hfault : (Cut.ofText (c :: cs)).fault = some fault := by
            rw [Cut.ofText.eq_def]
            simp only [hm]
          rw [hfault]
          constructor
          · intro h
            cases h with
            | soft hs _ =>
              rw [hc] at hs
              cases hs
            | element _ hm' _ =>
              rw [hm] at hm'
              cases hm'
          · exact nofun

theorem readable_of_spelling {text tail : List Char} {es : List Element} (h : Spelling text es tail) :
    Readable text := by
  have hline : '\n' ∉ tail := fun hx => h.line (h.flatten ▸ List.mem_append_right _ hx)
  have hfits := h.fits [] rfl
  rw [List.append_nil] at hfits
  have hall : Fitting (es ++ commented tail) [] := by
    rw [fitting_append, commented_flatten, List.append_nil]
    exact ⟨hfits, comment_fits h.comment hline rfl⟩
  have hcut := cut_flatten hall
  rw [List.flatMap_append, commented_flatten, h.flatten] at hcut
  rw [readable_iff, hcut]

/-! ### A dot behind a text -/

theorem takeWhile_before_dot {p : Char → Bool} (hp : p '.' = false) (cs more : List Char) :
    (cs ++ '.' :: more).takeWhile p = cs.takeWhile p := by
  induction cs with
  | nil => rw [List.nil_append, List.takeWhile_cons_of_neg (by rw [hp]; exact Bool.false_ne_true), List.takeWhile_nil]
  | cons c cs ih => rw [List.cons_append, List.takeWhile_cons, List.takeWhile_cons, ih]

theorem head?_before_dot {c : Char} (hc : c ≠ '.') (cs more : List Char) :
    (cs ++ '.' :: more).head? = some c ↔ cs.head? = some c := by
  cases cs with
  | nil => simp [hc.symm]
  | cons d ds => rfl

theorem wordLength_before_dot (cs more : List Char) : wordLength? (cs ++ '.' :: more) = wordLength? cs := by
  have hs : isWordStart '.' = false := by decide
  cases cs with
  | nil => rw [List.nil_append, wordLength?, if_neg (by rw [hs]; exact Bool.false_ne_true), wordLength?]
  | cons c cs => rw [List.cons_append, wordLength?, wordLength?, takeWhile_before_dot (by decide)]

/-- A comment that ends does not ask for what follows it. -/
theorem comment_end_append {read depth n : Nat} {cs : List Char} (h : commentEnd read depth cs = some n)
    (more : List Char) : commentEnd read depth (cs ++ more) = some n := by
  fun_induction commentEnd read depth cs with
  | case1 read depth cs ih =>
    rw [List.cons_append, List.cons_append, commentEnd]
    exact ih h
  | case2 =>
    rw [List.cons_append, List.cons_append, commentEnd]
    exact h
  | case3 read depth cs ih =>
    rw [List.cons_append, List.cons_append, commentEnd]
    exact ih h
  | case4 read depth c cs h₁ h₂ h₃ ih =>
    cases cs with
    | nil => cases h
    | cons d ds =>
      have hopens : ¬(c = '/' ∧ (d :: (ds ++ more)).head? = some '*') := by
        rintro ⟨rfl, ⟨⟩⟩
        exact h₁ ds rfl rfl
      have hcloses : ¬(c = '*' ∧ (d :: (ds ++ more)).head? = some '/') := by
        rintro ⟨rfl, ⟨⟩⟩
        obtain ⟨m, hm⟩ := Nat.exists_eq_succ_of_ne_zero fun hz => h₂ ds hz rfl rfl
        exact h₃ m ds hm rfl rfl
      rw [List.cons_append, List.cons_append, comment_end_cons, if_neg hopens, if_neg hcloses]
      exact ih h
  | case5 => cases h

section BeforeDot

variable {c : Char} {cs : List Char} (hc : isSoft c = false) (more : List Char)

include hc

theorem wordLexeme_before_dot {kind : TokenKind} {n : Nat} (hb : c ≠ backtick)
    (h : wordLexeme? c cs = some (kind, n)) : wordLexeme? c (cs ++ '.' :: more) = some (kind, n) := by
  obtain ⟨hdot, hstart, hdigit⟩ := not_soft hc
  simp only [wordLexeme?, hb, hdot, hstart, hdigit, wordLength_before_dot,
    takeWhile_before_dot (show isWordChar '.' = false by decide),
    takeWhile_before_dot (show isOperatorChar '.' = false by decide),
    head?_before_dot (show '>' ≠ '.' by decide), decide_false, Bool.false_and, Bool.false_eq_true, if_false] at h ⊢
  exact h

theorem lexeme_before_dot {kind : TokenKind} {n : Nat} (hb : isBlank c = false) (h : lexemeAt c cs = .ok (kind, n)) :
    lexemeAt c (cs ++ '.' :: more) = .ok (kind, n) := by
  have hellipsis (cs : List Char) : startsEllipsis c cs = false :=
    Bool.eq_false_iff.2 fun hx => (not_soft hc).1 (starts_ellipsis_iff.1 hx).1
  have hlength : (cs.take n).length = n := List.length_take_of_le (lexeme_at_le h)
  have hsplit : cs.take n ++ (cs.drop n ++ '.' :: more) = cs ++ '.' :: more := by
    rw [← List.append_assoc, List.take_append_drop]
  have hcut : lexemeAt c (cs.take n ++ cs.drop n) = .ok (kind, (cs.take n).length) := by
    rw [List.take_append_drop, hlength, h]
  have hquoting : ('.' :: more).head?.any isQuoting = false := show isQuoting '.' = false by decide
  have ha : Agrees isQuoting (cs.drop n ++ '.' :: more) (cs.drop n ++ []) :=
    (agrees_of_head hquoting []).respaced (fun c hc => quoting_not_blank hc) (respaced_refl false _)
  rw [List.append_nil] at ha
  by_cases hbacktick : c = backtick
  · subst hbacktick
    obtain rfl := escaped_is_identifier h
    obtain ⟨body, hn, hbody, htake⟩ := (name_of_lexeme hcut).of_backtick
    rw [← hsplit, htake, lexeme_of_escaped hn hbody, ← htake, hlength]
  · cases lexeme_at_cases h with
    | mark _ hp hn =>
      subst hn
      exact lexeme_of_mark hp (hellipsis _)
    | string =>
      have := string_respaced ha (respaced_refl false _) hb hcut
      rwa [hsplit, hlength] at this
    | word hm ho hw =>
      have hp := hm.resolve_left (by rw [hellipsis]; exact Bool.false_ne_true)
      refine lexeme_of_word (.inr hp) ?_ (wordLexeme_before_dot hc more hbacktick hw)
      rw [← List.take_append_drop n cs] at ho
      have := literal_opening_none_respaced ha hb (respaced_refl false _) ho
      rwa [hsplit] at this

/-- An element that begins with neither a dot nor a word is the same before a dot, unless it is a comment on a line. -/
theorem measure_before_dot {shape : Shape} {n : Nat} (h : Element.measure c cs = .ok (shape, n))
    (hs : shape ≠ .lineComment) : Element.measure c (cs ++ '.' :: more) = .ok (shape, n) := by
  apply measure_iff.2
  cases measure_iff.1 h with
  | blank hb hn => exact .blank hb (by rw [hn, takeWhile_before_dot (by decide)])
  | lineComment => exact absurd rfl hs
  | blockComment hslash hh hl =>
    refine .blockComment hslash ((head?_before_dot (by decide) cs more).2 hh) ?_
    cases cs with
    | nil => cases hh
    | cons d ds => exact comment_end_append hl _
  | lexeme hb hslash hl =>
    refine .lexeme hb (fun hx => ?_) (lexeme_before_dot hc more hb hl)
    obtain ⟨h₁, h₂⟩ := hslash hx
    exact ⟨fun hx => h₁ ((head?_before_dot (by decide) cs more).1 hx),
      fun hx => h₂ ((head?_before_dot (by decide) cs more).1 hx)⟩

end BeforeDot

/-- Two texts on a line are read with a dot between them if both are. -/
theorem Readable.dotted {front name : List Char} (hf : Readable front) (hfl : '\n' ∉ front) (hn : Readable name)
    (hnl : '\n' ∉ name) : Readable (front ++ '.' :: name) := by
  induction hf with
  | nil => exact .soft (by decide) hn
  | soft hc _ ih => exact .soft hc (ih fun hx => hfl (List.mem_cons_of_mem _ hx))
  | @element c cs shape n hc hm _ ih =>
    rw [List.cons_append]
    by_cases hs : shape = .lineComment
    · -- the comment takes the dot and the name
      subst hs
      obtain ⟨rfl, hh⟩ : c = '/' ∧ cs.head? = some '/' := by
        cases measure_iff.1 hm with
        | lineComment hc hh _ => exact ⟨hc, hh⟩
      have hline : ∀ d ∈ cs ++ '.' :: name, (d != '\n') = true := by
        intro d hd
        rw [bne_iff_ne]
        rintro rfl
        rcases List.mem_append.1 hd with hd | hd
        · exact hfl (List.mem_cons_of_mem _ hd)
        · rcases List.mem_cons.1 hd with hd | hd
          · exact absurd hd (by decide)
          · exact hnl hd
      have hslash : (cs ++ '.' :: name).head? = some '/' := (head?_before_dot (by decide) cs name).2 hh
      have hm' : Element.measure '/' (cs ++ '.' :: name) = .ok (.lineComment, (cs ++ '.' :: name).length) :=
        measure_iff.2 (.lineComment rfl hslash (by rw [List.takeWhile_eq_self_iff.2 hline]))
      refine .element hc hm' ?_
      rw [List.drop_length]
      exact .nil
    · refine .element hc (measure_before_dot hc name hm hs) ?_
      rw [List.drop_append_of_le_length (measure_le hm)]
      exact ih fun hx => hfl (List.mem_cons_of_mem _ (List.mem_of_mem_drop hx))

/-! ### Names of types -/

theorem readable_of_name {cs : List Char} (h : Name cs) : Readable cs := by
  have := spelling_nil.word h rfl
  rw [List.append_nil] at this
  exact readable_of_spelling this

open TestHooks.Reader Reader in
/-- The name in the header of a type can be cut to its end. -/
theorem typeHeader_readable {keyword : TypeKeyword} {ts left : List Token} {header : TypeHeader} (hs : Scanned ts)
    (h : (typeHeader keyword).run ts = .ok (header, left)) : Readable header.name.toList := by
  obtain ⟨named, inherited, required, brace, hn, hi, hr, -, -⟩ := typeHeader_cases h
  rcases typeName_cases hn with ⟨-, -, t, taken, hsplit, hname⟩ | ⟨-, t, more, rfl, htk, hname, -⟩
  · have hleft : named ≠ [] := by
      refine ne_nil_of_suffix (Reader.suffix _ hi) (ne_nil_of_suffix (Reader.suffix _ hr) ?_)
      exact List.cons_ne_nil _ _
    obtain ⟨es, tail, ht⟩ := typeText_of_split (by decide) hs hsplit hleft
    rw [hname]
    exact readable_of_spelling ht.toSpelling
  · rw [hname]
    exact readable_of_name (name_of_token hs List.mem_cons_self htk)

/-- A comment is not asked for its end. -/
theorem quieter_slash (front cs after : List Char) :
    Quieter (front ++ ('/' :: '/' :: cs ++ after)) (front ++ '/' :: '/' :: cs) := by
  intro p hq hp
  have hslash : front ++ ['/'] <+: front ++ '/' :: '/' :: cs := ⟨'/' :: cs, by simp⟩
  rcases Nat.lt_or_ge (front.length + 1) p.length with hl | hl
  · -- the question would go on over both slashes
    have hboth : front ++ ['/', '/'] <+: p :=
      List.prefix_of_prefix_length_le ⟨cs ++ after, by simp⟩ hp (by simpa [Nat.succ_le_iff] using hl)
    obtain ⟨more, rfl⟩ := hboth
    cases front with
    | nil => exact absurd List.mem_cons_self (Question.slash_first hq)
    | cons c front => exact absurd (by simp) (Question.slash_first hq)
  · refine List.IsPrefix.trans (List.prefix_of_prefix_length_le hp ⟨'/' :: cs ++ after, by simp⟩ ?_) hslash
    simpa using hl

/-- What stands before a comment on a line stands before a longer one. -/
theorem Spelling.longer {text tail : List Char} {es : List Element} (h : Spelling text es tail) (ht : tail ≠ [])
    (hc : ∀ e ∈ es, e.shape ≠ .lineComment) {after : List Char} (ha : '\n' ∉ after) :
    Spelling (text ++ after) es (tail ++ after) := by
  obtain ⟨cs, rfl⟩ := h.comment.resolve_left ht
  have hfits := h.fits [] rfl
  rw [List.append_nil] at hfits
  constructor
  · rw [← List.append_assoc, h.flatten]
  · intro more _
    rw [List.append_assoc]
    refine fitting_exchange hfits hc (fun hx => absurd hx ht) fun front back _ _ => ⟨quieter_slash _ _ _, ?_⟩
    have hslash : ('/' :: '/' :: cs ++ (after ++ more)).head?.any isQuoting = false :=
      show isQuoting '/' = false by decide
    exact (agrees_of_head hslash _).respaced (fun c hc => quoting_not_blank hc) (respaced_refl false _)
  · rw [List.mem_append, not_or]
    exact ⟨h.line, ha⟩
  · exact .inr ⟨cs ++ after, rfl⟩

/-- Texts that members are called on: what may stand before a dot, or ends in a comment that takes what follows. -/
inductive Addressed (text : List Char) : Prop
  | stem {es : List Element} (h : Stem text es) : Addressed text
  | swallowed {es : List Element} {tail : List Char} (hb : text.head?.any (!isBlank ·) = true) (ht : tail ≠ [])
    (h : Spelling text es tail) (hc : ∀ e ∈ es, e.shape ≠ .lineComment) : Addressed text

/-- What a type is called that was read on a line. -/
structure Calling (name : String) : Prop where
  readable : Readable name.toList
  line : '\n' ∉ name.toList

end TestHooks.Swift

namespace TestHooks.Expansion

open TestHooks.Swift

theorem calling_qualify {outer : Option String} {name : String} (ho : ∀ o, outer = some o → Calling o)
    (hn : Calling name) : Calling (qualify outer name) := by
  unfold qualify
  split
  · next o =>
    split
    · exact hn
    · have hdotted : (o ++ "." ++ name).toList = o.toList ++ '.' :: name.toList := by simp [String.toList_append]
      have houter := ho o rfl
      refine ⟨hdotted ▸ houter.readable.dotted houter.line hn.readable hn.line, ?_⟩
      rw [hdotted]
      simp [houter.line, hn.line]
  · exact hn

section

variable (registered : String → Bool)

/-- The types among the declarations are called what can be read. -/
def CallsTypes (ds : List Decl) : Prop := ∀ head header members, .group head header members ∈ ds → Calling header.name

mutual

theorem annotatedIn_calling {outer : Option String} {d : Decl} (ho : ∀ o, outer = some o → Calling o)
    (h : CallsTypes (nodesOf d)) : ∀ a ∈ annotatedIn registered outer d, Calling a.name := by
  intro a ha
  cases d with
  | group head header members =>
    rw [annotatedIn] at ha
    rw [nodesOf] at h
    have hname := calling_qualify ho (h _ _ _ List.mem_cons_self)
    rcases List.mem_append.1 ha with ha | ha
    · obtain ⟨mark, -, rfl⟩ := List.mem_map.1 ha
      exact hname
    · exact annotatedAmong_calling (fun o hx => Option.some.inj hx ▸ hname)
        (fun _ _ _ hx => h _ _ _ (List.mem_cons_of_mem _ hx)) a ha
  | variableList => simp [annotatedIn] at ha
  | function => simp [annotatedIn] at ha
  | conditional => simp [annotatedIn] at ha
  | other => simp [annotatedIn] at ha

theorem annotatedAmong_calling {outer : Option String} {ds : List Decl} (ho : ∀ o, outer = some o → Calling o)
    (h : CallsTypes (nodesAmong ds)) : ∀ a ∈ annotatedAmong registered outer ds, Calling a.name := by
  intro a ha
  cases ds with
  | nil => simp [annotatedAmong] at ha
  | cons d ds =>
    rw [annotatedAmong] at ha
    rw [nodesAmong] at h
    rcases List.mem_append.1 ha with ha | ha
    · exact annotatedIn_calling ho (fun _ _ _ hx => h _ _ _ (List.mem_append_left _ hx)) a ha
    · exact annotatedAmong_calling ho (fun _ _ _ hx => h _ _ _ (List.mem_append_right _ hx)) a ha

end

end

/-- The name of a type that is found can be cut to its end. -/
theorem found_calling {registry : Registry} {text : String} {a : AnnotatedType} (h : a ∈ foundIn registry text) :
    Calling a.name := by
  obtain ⟨ds, hparse, h⟩ := mem_foundIn_cases h
  refine annotatedAmong_calling registry.isRegistered (fun o hx => absurd hx.symm (Option.some_ne_none o))
    (fun head header members hx => ?_) a h
  cases nodes_parse hparse _ hx with
  | @group t k more rest inside _ keyword _ _ hs hh _ ht =>
    have hrest := (List.suffix_cons k rest).trans (((headFrom t).suffix hh).trans hs)
    have hscanned := scanned_suffix (scanned_ofText text) hrest
    exact ⟨typeHeader_readable hscanned ht, (typeHeader_spelled hscanned ht).titled.line⟩

/-- The name of a type that gets hooks can be called on. -/
theorem found_addressed {registry : Registry} {text : String} {a : AnnotatedType} (h : a ∈ foundIn registry text)
    (hk : a.header.keyword ≠ .extensionType) : Addressed a.name.toList := by
  have hspelled := found_spelled h
  rcases stem_of_cut hspelled.titled (hspelled.ends hk) (readable_iff.1 (found_calling h).readable) with
    ⟨hs, -⟩ | ⟨front, tail, htail, hs, hc, -⟩
  · exact .stem hs
  · obtain ⟨c, cs, hname, hblank⟩ := hspelled.titled.begins
    refine .swallowed ?_ htail hs hc
    rw [hname, List.head?_cons, Option.any_some, hblank]
    rfl

end TestHooks.Expansion
