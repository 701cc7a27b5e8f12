import TestHooks.Proofs.Legible

/-!
# Comments behind tokens

A block comment that is put in behind a token changes no token, unless the token is an operator: an operator goes on with
the mark that opens the comment (`comment_behind_token`).
-/

namespace TestHooks.Swift

open TestHooks.Text

/-! ### Lexemes before a slash -/

/-- Only an operator asks for a slash. -/
theorem hushed_slash (cs after : List Char) : Hushed ('/' :: cs) after := by
  intro p hq hw hp
  cases p with
  | nil => exact List.nil_prefix
  | cons c p =>
    obtain ⟨rfl, -⟩ := List.cons_prefix_cons.1 hp
    obtain rfl := @Question.of_slash [] _ hq
    exact absurd (hw '/' rfl) (by decide)

theorem agrees_slash (cs after : List Char) : Agrees isQuoting ('/' :: cs) after :=
  agrees_of_head (by rw [List.head?_cons]; decide) after

theorem slash_is_operator {cs : List Char} {kind : TokenKind} {n : Nat} (h : lexemeAt '/' cs = .ok (kind, n)) :
    kind = .operator := by
  cases lexeme_at_cases h with
  | mark _ hp _ => exact absurd hp (by simp [show TokenKind.ofPunctuation? '/' = none by decide])
  | string _ ho _ =>
    rw [literal_none_of_ne (by decide) (by decide)] at ho
    cases ho
  | word _ _ hw =>
    cases word_lexeme_cases hw with
    | operator => rfl
    | atWord hc _ | hashWord hc _ | escaped hc _ _ _ | dollar hc _ _ | word hc _ | number _ hc _ | arrow hc _ _
    | ellipsis hc _ _ _ => exact absurd hc (by decide)

/-- A lexeme that is no operator is the same before a slash. -/
theorem Token.fits_slash {t : Token} {after : List Char} (h : t.element.Fits after) (hk : t.kind ≠ .operator)
    (cs : List Char) : t.element.Fits ('/' :: cs) := by
  obtain ⟨c, ds, ht, hc, -, hl⟩ := lexeme_of_fits h rfl
  have hslash : c ≠ '/' := by
    rintro rfl
    exact hk (slash_is_operator hl)
  refine ⟨c, ds, ht, measure_of_lexeme hc (fun hx => absurd hx hslash) ?_⟩
  by_cases hstring : t.kind = .string
  · rw [hstring] at hl ⊢
    exact string_respaced (agrees_slash cs after) (respaced_refl false ds) hc hl
  · exact (hushed_slash cs after).lexeme hl hstring hk

/-- No question asks for a slash behind another character. -/
theorem Question.slash_first {c : Char} {cs : List Char} (h : Question (c :: cs)) : '/' ∉ cs := by
  cases h with
  | next => exact List.not_mem_nil
  | dots h => rcases h with rfl | rfl <;> decide
  | fraction h => simp [digit_ne_slash h]
  | exponent he h => simp [digit_ne_slash h]
  | signed he hs h => rcases hs with rfl | rfl <;> simp [digit_ne_slash h]
  | radix hr h => simp [radix_ne_slash h]

/-- What stands behind a token's text may be exchanged for a slash: no token before it asks for more. -/
theorem replaces_slash {text : List Char} (ht : text ≠ []) (cs after : List Char) :
    Replaces (text ++ '/' :: cs) (text ++ after) where
  quiet asked p hq hp := by
    obtain ⟨rest, hr⟩ := hp
    rcases List.append_eq_append_iff.1 hr with ⟨q, rfl, -⟩ | ⟨q, rfl, hq'⟩
    · rw [List.append_assoc]
      exact List.prefix_append _ _
    · cases q with
      | nil =>
        rw [List.append_nil]
        exact List.prefix_append _ _
      | cons d q =>
        exfalso
        obtain ⟨rfl, -⟩ := List.cons.inj hq'
        obtain ⟨c, more, hc⟩ := List.exists_cons_of_ne_nil (List.append_ne_nil_of_right_ne_nil asked ht)
        rw [← List.append_assoc, hc, List.cons_append] at hq
        exact hq.slash_first (by simp)
  quoting := (agrees_slash cs after).respaced (fun _ => quoting_not_blank) (respaced_refl false text)

/-- An operator goes on with the mark that opens a comment, and with the operator characters behind it. -/
theorem operator_swallows {t : Token} {after : List Char} (h : t.element.Fits after) (hk : t.kind = .operator)
    (ht : t.text ≠ "/") (cs : List Char) :
    (⟨.lexeme .operator, t.text.toList ++ '/' :: '*' :: cs.takeWhile isOperatorChar⟩ : Element).Fits
      (cs.dropWhile isOperatorChar) := by
  obtain ⟨c, ds, hc, hb, hslash, hl⟩ := lexeme_of_fits h (congrArg Shape.lexeme hk)
  replace hc : t.text.toList = c :: ds := hc
  obtain ⟨hop, harrow, hrun⟩ := operator_of_lexeme hl
  obtain ⟨hall, -⟩ := length_takeWhile_append.1 hrun.symm
  have hmark : isOperatorChar '/' = true ∧ isOperatorChar '*' = true := by decide
  have hword : ds ++ '/' :: '*' :: cs.takeWhile isOperatorChar ++ cs.dropWhile isOperatorChar = ds ++ '/' :: '*' :: cs := by
    rw [List.append_assoc, List.cons_append, List.cons_append, List.takeWhile_append_dropWhile]
  have hreach : (ds ++ '/' :: '*' :: cs).takeWhile isOperatorChar = ds ++ '/' :: '*' :: cs.takeWhile isOperatorChar := by
    rw [List.takeWhile_append_of_pos hall, List.takeWhile_cons, if_pos hmark.1, List.takeWhile_cons, if_pos hmark.2]
  have hnext {d : Char} (hd : d ≠ '/') (hn : (ds ++ after).head? ≠ some d) : (ds ++ '/' :: '*' :: cs).head? ≠ some d := by
    cases ds with
    | nil => exact fun hx => hd (Option.some.inj hx).symm
    | cons e ds => exact hn
  have hl' := lexeme_of_operator hop fun hx => hnext (by decide) (harrow hx)
  rw [hreach] at hl'
  refine ⟨c, ds ++ '/' :: '*' :: cs.takeWhile isOperatorChar, by rw [hc, List.cons_append], ?_⟩
  rw [hword]
  refine measure_of_lexeme hb ?_ hl'
  rintro rfl
  refine ⟨?_, hnext (by decide) (hslash rfl).2⟩
  cases ds with
  | nil =>
    refine absurd ?_ ht
    rw [← String.ofList_toList (s := t.text), hc]
  | cons e ds => exact (hslash rfl).1

/-! ### The tokens around a comment -/

/-- The text with a block comment put in before the character at `offset`. -/
def commentedText (text : String) (offset : Nat) (tail : List Char) : String :=
  String.ofList (text.toList.take offset ++ '/' :: '*' :: (tail ++ text.toList.drop offset))

theorem looks_of_faces {ts us : List Token} (h : ts.map Token.face = us.map Token.face) :
    ts.map Token.look = us.map Token.look := by
  have hlook : Token.look = (fun f => (f.1, f.2.1, f.2.2.toList.contains '\n')) ∘ Token.face := rfl
  rw [hlook, ← List.map_map, h, List.map_map]

theorem written_of_faces {ts us : List Token} (h : ts.map Token.face = us.map Token.face) :
    Token.written ts = Token.written us := by
  have hfaces (ts : List Token) :
      Token.written ts = (ts.map Token.face).flatMap fun f => f.2.2.toList ++ f.2.1.toList := by
    rw [List.flatMap_map]
    rfl
  rw [hfaces, hfaces, h]

/-- What tokens look like depends on their elements, and on whether a line break stands before the first. -/
theorem looks_ofElements {gap gap' : List Char} (hgap : gap.contains '\n' = gap'.contains '\n') (place place' : Place)
    (es : List Element) :
    (Token.ofElements place gap es).map Token.look = (Token.ofElements place' gap' es).map Token.look := by
  induction es generalizing gap gap' place place' with
  | nil => rfl
  | cons e es ih =>
    rw [Token.ofElements, Token.ofElements]
    split
    · rw [List.map_cons, List.map_cons, ih rfl _ (place'.advance e.text), Token.look, Token.look, Token.newlineBefore,
        Token.newlineBefore, String.toList_ofList, String.toList_ofList, hgap]
    · refine ih ?_ _ _
      rw [List.contains_eq_mem, List.contains_eq_mem] at *
      simp only [List.mem_append, Bool.decide_or, hgap]

/-- A line break before the first token is one, whatever stands before it. -/
theorem looks_behind_break {cs : List Char} (h : cs.head?.all (· == '\n') = true) (gap : List Char) (place : Place) :
    (Token.ofElements place gap (Cut.ofText cs).elements).map Token.look =
      (Tokens.ofText (String.ofList cs)).tokens.map Token.look := by
  rw [Tokens.ofText, String.toList_ofList]
  cases cs with
  | nil =>
    rw [show Cut.ofText [] = ⟨[], [], none⟩ by unfold Cut.ofText; rfl]
    rfl
  | cons c cs =>
    obtain rfl : c = '\n' := by simpa using h
    have hm : Element.measure '\n' cs = .ok (.blank, (cs.takeWhile isBlank).length) := if_pos (by decide)
    rw [Cut.ofText.eq_def]
    simp only [hm, Token.ofElements]
    exact looks_ofElements (by simp) _ _ _

/-- Legible tokens and a gap are read as such, before whatever the rest of the text is cut into. -/
theorem Legible.looks {text : String} {ts : List Token} {gap after : List Char}
    (htext : text.toList = Token.written ts ++ (gap ++ after)) (h : Legible (gap ++ after) ts) (hg : Gap after gap)
    (hb : after.head?.any isBlank = false) :
    ∃ place, (Tokens.ofText text).tokens.map Token.look =
      ts.map Token.look ++ (Token.ofElements place gap (Cut.ofText after).elements).map Token.look := by
  obtain ⟨es, hf, hflat, hfaces⟩ := h.elements hg hb
  have hfinal : Token.finalGap [] es = gap := by
    have hw := Token.written_ofElements .origin [] es
    rw [written_of_faces (hfaces .origin), hflat, List.nil_append] at hw
    exact List.append_cancel_left hw
  have hcut : text.toList = es.flatMap Element.text ++ after := by rw [htext, hflat, List.append_assoc]
  refine ⟨Place.origin.advance (es.flatMap Element.text), ?_⟩
  rw [Tokens.ofText, hcut, ofText_flatten hf]
  dsimp only
  rw [ofElements_append, List.map_append, looks_of_faces (hfaces .origin), hfinal]

/-- A comment before legible tokens belongs to the gap before the first of them. -/
theorem LegibleText.commented {cs tail : List Char} {ts : List Token} (h : LegibleText cs ts) (htail : CommentTail tail)
    (hline : '\n' ∉ tail) :
    ∃ us, LegibleText ('/' :: '*' :: (tail ++ cs)) us ∧ us.map Token.look = ts.map Token.look := by
  obtain ⟨final, rfl, hl, hg⟩ := h
  cases ts with
  | nil => exact ⟨[], ⟨'/' :: '*' :: (tail ++ final), rfl, trivial, .blockComment htail hg⟩, rfl⟩
  | cons t ts =>
    obtain ⟨hgap, hfits, hl⟩ := hl
    refine ⟨{ t with gap := String.ofList ('/' :: '*' :: (tail ++ t.gap.toList)) } :: ts,
      ⟨final, ?_, ⟨?_, hfits, hl⟩, hg⟩, ?_⟩
    · simp only [Token.written_cons, String.toList_ofList, List.cons_append, List.append_assoc]
    · rw [String.toList_ofList]
      exact .blockComment htail hgap
    · simp [Token.look, Token.newlineBefore, hline]

/-! ### A comment behind a token -/

/-- What is written around the token `t` of a text when a comment is put in behind it and before `rest`. -/
structure CommentedBehind (text : String) (before : List Token) (t : Token) (after : List Token) (tail rest : List Char) :
    Prop where
  dropped : text.toList.drop t.stop = rest
  toList : (commentedText text t.stop tail).toList =
    Token.written before ++ (t.gap.toList ++ (t.text.toList ++ '/' :: '*' :: (tail ++ rest)))
  before : Legible (t.gap.toList ++ (t.text.toList ++ '/' :: '*' :: (tail ++ rest))) before
  gap : ∀ more, Gap (t.text.toList ++ more) t.gap.toList
  fits : t.element.Fits rest
  after : LegibleText rest after

theorem commented_behind {text : String} {before after : List Token} {t : Token}
    (hread : (Tokens.ofText text).failure = none) (htokens : (Tokens.ofText text).tokens = before ++ t :: after)
    (tail : List Char) : ∃ rest, CommentedBehind text before t after tail rest := by
  obtain ⟨final, htext, hlegible, hfinal⟩ := legibleText_ofText hread
  rw [htokens] at htext hlegible
  obtain ⟨hbefore, hgap, hfits, hafter⟩ := legible_append.1 hlegible
  obtain ⟨c, cs, hc, -⟩ := head_of_fits hfits
  replace hc : t.text.toList = c :: cs := hc
  have hstop : t.stop = (Token.written before ++ (t.gap.toList ++ t.text.toList)).length := by
    rw [Token.stop, (Token.standing_ofText text).offset htokens, ← String.length_toList]
    simp only [List.length_append]
    omega
  have hsplit : text.toList =
      (Token.written before ++ (t.gap.toList ++ t.text.toList)) ++ (Token.written after ++ final) := by
    rw [htext, Token.written_append, Token.written_cons]
    simp only [List.append_assoc]
  have hdrop : text.toList.drop t.stop = Token.written after ++ final := by rw [hsplit, hstop, List.drop_left]
  refine ⟨Token.written after ++ final, hdrop, ?_, ?_, fun more => ?_, hfits, final, rfl, hafter, hfinal⟩
  · rw [commentedText, String.toList_ofList, hdrop, hsplit, hstop, List.take_left]
    simp only [List.append_assoc]
  · refine hbefore.replace ?_
    rw [Token.written_cons, List.append_assoc, List.append_assoc, hc]
    exact (replaces_slash (List.cons_ne_nil c cs) _ _).append _
  · refine hgap.before fun hx => ?_
    rw [hc] at hx ⊢
    exact hx

section

variable {text : String} {before after : List Token} {t : Token} {tail rest : List Char}
  (h : CommentedBehind text before t after tail rest)

include h

theorem CommentedBehind.ordinary (hk : t.kind ≠ .operator) (htail : CommentTail tail) (hline : '\n' ∉ tail) :
    (Tokens.ofText (commentedText text t.stop tail)).failure = none ∧
      (Tokens.ofText (commentedText text t.stop tail)).tokens.map Token.look =
        (before ++ t :: after).map Token.look := by
  obtain ⟨us, ⟨final, hus, hl, hg⟩, hlooks⟩ := h.after.commented htail hline
  have hnew : LegibleText (commentedText text t.stop tail).toList (before ++ t :: us) := by
    refine ⟨final, ?_, legible_append.2 ⟨?_, h.gap _, ?_, hl⟩, hg⟩
    · rw [h.toList, hus, Token.written_append, Token.written_cons]
      simp only [List.append_assoc]
    · rw [Token.written_cons, List.append_assoc, List.append_assoc, ← hus]
      exact h.before
    · rw [← hus]
      exact Token.fits_slash h.fits hk _
  obtain ⟨hfailure, hfaces⟩ := tokens_of_legible hnew
  refine ⟨hfailure, ?_⟩
  rw [looks_of_faces hfaces, List.map_append, List.map_append, List.map_cons, List.map_cons, hlooks]

/-- What is read of a text with a comment put in, when an element reaches from the token on over the mark that opens it. -/
theorem CommentedBehind.swallowed {e : Element} {more : List Char}
    (hword : t.text.toList ++ '/' :: '*' :: (tail ++ rest) = e.text ++ more) (he : e.Fits more) :
    ∃ place, (Tokens.ofText (commentedText text t.stop tail)).tokens.map Token.look = before.map Token.look ++
      (Token.ofElements place t.gap.toList (e :: (Cut.ofText more).elements)).map Token.look := by
  obtain ⟨place, hlooks⟩ := h.before.looks h.toList (h.gap _) (Token.element_not_blank h.fits _)
  have hcut := @ofText_flatten [e] more ⟨he, trivial⟩
  rw [List.flatMap_singleton, ← hword] at hcut
  rw [hcut] at hlooks
  exact ⟨place, hlooks⟩

theorem CommentedBehind.operator (hk : t.kind = .operator) (ht : t.text ≠ "/") :
    ∃ more others, (Tokens.ofText (commentedText text t.stop tail)).tokens.map Token.look =
      before.map Token.look ++ (.operator, t.text ++ "/*" ++ more, t.newlineBefore) :: others := by
  have hword : t.text.toList ++ '/' :: '*' :: (tail ++ rest) =
      t.text.toList ++ '/' :: '*' :: (tail ++ rest).takeWhile isOperatorChar ++
        (tail ++ rest).dropWhile isOperatorChar := by
    rw [List.append_assoc, List.cons_append, List.cons_append, List.takeWhile_append_dropWhile]
  obtain ⟨place, hlooks⟩ := h.swallowed hword (operator_swallows h.fits hk ht (tail ++ rest))
  have htext : String.ofList (t.text.toList ++ '/' :: '*' :: (tail ++ rest).takeWhile isOperatorChar) =
      t.text ++ "/*" ++ String.ofList ((tail ++ rest).takeWhile isOperatorChar) := by
    simp [← String.toList_inj]
  rw [Token.ofElements] at hlooks
  simp only [List.map_cons, Token.look, htext, Token.newlineBefore, String.toList_ofList] at hlooks
  exact ⟨_, _, hlooks⟩

theorem CommentedBehind.slash (ht : t.text = "/") (hline : '\n' ∉ tail) :
    (Tokens.ofText (commentedText text t.stop tail)).tokens.map Token.look = before.map Token.look ++
      (Tokens.ofText (String.ofList ((text.toList.drop t.stop).dropWhile (· != '\n')))).tokens.map Token.look := by
  have hword : t.text.toList ++ '/' :: '*' :: (tail ++ rest) =
      '/' :: '/' :: ('*' :: tail ++ rest.takeWhile (· != '\n')) ++ rest.dropWhile (· != '\n') := by
    rw [ht]
    simp [List.takeWhile_append_dropWhile]
  have hend : (rest.dropWhile (· != '\n')).head?.all (· == '\n') = true := by
    have hhead := List.head?_dropWhile_not (· != '\n') rest
    cases hd : (rest.dropWhile (· != '\n')).head? with
    | none => rfl
    | some c =>
      rw [hd] at hhead
      simpa using hhead
  have hbody : '\n' ∉ '/' :: '/' :: ('*' :: tail ++ rest.takeWhile (· != '\n')) := by
    have hrest : '\n' ∉ rest.takeWhile (· != '\n') := fun hx => by simpa using List.mem_takeWhile_imp hx
    simp [hline, hrest]
  have hcomment : (⟨.lineComment, '/' :: '/' :: ('*' :: tail ++ rest.takeWhile (· != '\n'))⟩ : Element).Fits
      (rest.dropWhile (· != '\n')) := (comment_fits (.inr ⟨_, rfl⟩) hbody hend).1
  obtain ⟨place, hlooks⟩ := h.swallowed hword hcomment
  rw [hlooks, h.dropped, Token.ofElements]
  dsimp only
  rw [looks_behind_break hend]

end

/-- What becomes of the tokens of a text when a block comment within a line is put in at the end of one of them. All stay
as they are if that one is no operator. An operator takes in the mark that opens the comment, so that it is another token
and the rest of the comment is read as text; and a slash begins a comment that reaches to the end of the line. -/
theorem comment_behind_token {text : String} {before after : List Token} {t : Token} {tail : List Char}
    (hread : (Tokens.ofText text).failure = none) (htokens : (Tokens.ofText text).tokens = before ++ t :: after)
    (htail : CommentTail tail) (hline : '\n' ∉ tail) :
    (t.kind ≠ .operator → (Tokens.ofText (commentedText text t.stop tail)).failure = none ∧
      (Tokens.ofText (commentedText text t.stop tail)).tokens.map Token.look =
        (Tokens.ofText text).tokens.map Token.look) ∧
    (t.kind = .operator → t.text ≠ "/" → ∃ more others,
      (Tokens.ofText (commentedText text t.stop tail)).tokens.map Token.look =
        before.map Token.look ++ (.operator, t.text ++ "/*" ++ more, t.newlineBefore) :: others) ∧
    (t.kind = .operator → t.text = "/" →
      (Tokens.ofText (commentedText text t.stop tail)).tokens.map Token.look = before.map Token.look ++
        (Tokens.ofText (String.ofList ((text.toList.drop t.stop).dropWhile (· != '\n')))).tokens.map Token.look) := by
  obtain ⟨rest, h⟩ := commented_behind hread htokens tail
  refine ⟨fun hk => ?_, h.operator, fun _ ht => h.slash ht hline⟩
  rw [htokens]
  exact h.ordinary hk htail hline

/-- The comment is left out behind the name, and the operator takes in the mark that opens it. -/
theorem comments_in_sum : CommentTail " c */".toList ∧
    (Tokens.ofText (commentedText "a+b" 1 " c */".toList)).tokens.map Token.look =
      (Tokens.ofText "a+b").tokens.map Token.look ∧
    ∃ more others, (Tokens.ofText (commentedText "a+b" 2 " c */".toList)).tokens.map Token.look =
      (.identifier, "a", false) :: (.operator, "+/*" ++ more, false) :: others := by
  have htail : CommentTail " c */".toList :=
    .char (by decide) (by decide) (.char (by decide) (by decide) (.char (by decide) (by decide) .close))
  have hline : '\n' ∉ " c */".toList := by decide
  have hread : (Tokens.ofText "a+b").failure = none := by decide +kernel
  have htokens : (Tokens.ofText "a+b").tokens =
      [⟨.identifier, "a", "", ⟨⟨1, 1⟩, 0⟩⟩, ⟨.operator, "+", "", ⟨⟨1, 2⟩, 1⟩⟩, ⟨.identifier, "b", "", ⟨⟨1, 3⟩, 2⟩⟩] := by
    decide +kernel
  obtain ⟨hname, -, -⟩ := @comment_behind_token "a+b" [] _ _ _ hread htokens htail hline
  obtain ⟨-, hoperator, -⟩ := @comment_behind_token "a+b" [_] _ _ _ hread htokens htail hline
  exact ⟨htail, (hname (by decide)).2, hoperator rfl (by decide)⟩

/-- A block comment behind an operator changes the tokens. -/
theorem operator_takes_comment : (Tokens.ofText "a+b").failure = none ∧
    (Tokens.ofText "a+b").tokens.map Token.look =
      [(.identifier, "a", false), (.operator, "+", false), (.identifier, "b", false)] ∧
    (Tokens.ofText "a+b").tokens.map Token.stop = [1, 2, 3] ∧
    (Tokens.ofText (commentedText "a+b" 2 " c */".toList)).tokens.map Token.look =
      [(.identifier, "a", false), (.operator, "+/*", false), (.identifier, "c", false), (.operator, "*/", false),
        (.identifier, "b", false)] := by
  refine ⟨?_, ?_, ?_, ?_⟩ <;> decide +kernel

end TestHooks.Swift
