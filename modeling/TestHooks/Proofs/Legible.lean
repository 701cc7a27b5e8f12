import TestHooks.Proofs.Relexing
import TestHooks.Proofs.Tiling

/-!
# Tokens that are read from what is written

Tokens are legible if their texts, written with the gaps before them, are cut into the same tokens again. Legible tokens
stay so when what is written behind them is exchanged for something that answers no more questions (`Replaces`), and
texts are legible one behind another if an empty line parts them (`LegibleText.append`).
-/

namespace TestHooks.Swift

open TestHooks.Text

/-! ### Gaps before other texts -/

/-- A gap stays one before a text that begins with a line break if the first one did. -/
theorem Gap.before {after after' cs : List Char} (h : Gap after cs)
    (hn : after.head?.all (· == '\n') = true → after'.head?.all (· == '\n') = true) : Gap after' cs := by
  induction h with
  | nil => exact .nil
  | blank hc _ ih => exact .blank hc ih
  | @lineComment body cs hb he _ ih =>
    refine .lineComment hb ?_ ih
    cases cs with
    | nil => exact hn he
    | cons c cs => exact he
  | blockComment ht _ ih => exact .blockComment ht ih

/-- A gap before a text that begins with anything but a line break is a gap before every text. -/
theorem Gap.closed {after cs : List Char} {c : Char} (h : Gap (c :: after) cs) (hc : c ≠ '\n') (after' : List Char) :
    Gap after' cs :=
  h.before fun hx => absurd (by simpa using hx) hc

/-- A gap begins with a blank or a comment. -/
theorem Gap.head {after cs : List Char} (h : Gap after cs) : ∀ c ∈ cs.head?, isBlank c = true ∨ c = '/' := by
  cases h with
  | nil => exact nofun
  | blank hc _ =>
    rintro _ ⟨⟩
    exact .inl hc
  | lineComment | blockComment =>
    rintro _ ⟨⟩
    exact .inr rfl

theorem Gap.of_blanks_append {after blanks cs : List Char} (h : Gap after (blanks ++ cs))
    (hb : ∀ c ∈ blanks, isBlank c = true) : Gap after cs := by
  induction blanks with
  | nil => exact h
  | cons c blanks ih =>
    have hc := hb c List.mem_cons_self
    generalize hds : c :: blanks ++ cs = ds at h
    cases h with
    | nil => cases hds
    | blank _ h =>
      cases hds
      exact ih h fun d hd => hb d (List.mem_cons_of_mem _ hd)
    | lineComment | blockComment =>
      rw [List.cons_append, List.cons.injEq] at hds
      rw [hds.1] at hc
      exact absurd hc (by decide)

theorem Gap.dropWhile {after cs : List Char} {p : Char → Bool} (h : Gap after cs)
    (hp : ∀ c, p c = true → isBlank c = true) : Gap after (cs.dropWhile p) := by
  rw [← List.takeWhile_append_dropWhile (p := p) (l := cs)] at h
  exact h.of_blanks_append fun c hc => hp c (List.mem_takeWhile_imp hc)

/-- A comment to the end of its line is a gap by itself, if a line break follows; it does not end with one. -/
theorem Gap.of_lineComment {after body : List Char} (hbody : '\n' ∉ body)
    (hn : after.head?.all (· == '\n') = true ∨ ∀ c ∈ ('/' :: '/' :: body).getLast?, c = '\n') :
    Gap after ('/' :: '/' :: body) := by
  have hmark : '\n' ∉ '/' :: '/' :: body := by simp [hbody]
  have hhead : after.head?.all (· == '\n') = true := by
    refine hn.resolve_right fun hlast => ?_
    have hm := List.getLast_mem (List.cons_ne_nil '/' ('/' :: body))
    rw [hlast _ (List.getLast?_eq_some_getLast (List.cons_ne_nil _ _))] at hm
    exact hmark hm
  have := Gap.lineComment hbody (show ([] ++ after).head?.all (· == '\n') = true from hhead) .nil
  rwa [List.append_nil] at this

/-- A comment to the end of a block is a gap by itself. -/
theorem Gap.of_blockComment {after tail : List Char} (ht : CommentTail tail) : Gap after ('/' :: '*' :: tail) := by
  have := Gap.blockComment ht (Gap.nil : Gap after [])
  rwa [List.append_nil] at this

/-- The mark that begins a comment is not cut apart by blanks. -/
theorem mark_before_blanks {cs blanks rest : List Char} {mark : Char} (h : cs ++ blanks = '/' :: mark :: rest)
    (hb : ∀ c ∈ blanks, isBlank c = true) (hm : isBlank mark = false) :
    cs = [] ∨ ∃ front, cs = '/' :: mark :: front ∧ front ++ blanks = rest := by
  rcases cs with - | ⟨c, - | ⟨d, cs⟩⟩
  · exact .inl rfl
  · simp only [List.cons_append, List.nil_append, List.cons.injEq] at h
    have := hb mark (by rw [h.2]; exact List.mem_cons_self)
    rw [hm] at this
    cases this
  · simp only [List.cons_append, List.cons.injEq] at h
    obtain ⟨rfl, rfl, h⟩ := h
    exact .inr ⟨cs, rfl, h⟩

/-- Blanks do not reach into the end of a block comment. -/
theorem CommentTail.of_blanks {cs blanks tail : List Char} (ht : CommentTail tail) (h : tail = cs ++ blanks)
    (hb : ∀ c ∈ blanks, isBlank c = true) : blanks = [] := by
  cases blanks with
  | nil => rfl
  | cons c blanks =>
    have hlast := commentTail_last ht
    rw [h, List.getLast?_append_of_ne_nil _ (List.cons_ne_nil c blanks)] at hlast
    exact absurd (hb '/' (List.mem_of_getLast? hlast)) (by decide)

/-- Blanks at the end of a gap may go, if a line break stands before or behind them. -/
theorem Gap.without_blanks {after after' cs blanks : List Char} (h : Gap after (cs ++ blanks))
    (hb : ∀ c ∈ blanks, isBlank c = true)
    (hn : after'.head?.all (· == '\n') = true ∨ ∀ c ∈ cs.getLast?, c = '\n') : Gap after' cs := by
  have hlast {front back : List Char} (hne : back ≠ []) (hn : after'.head?.all (· == '\n') = true ∨
      ∀ c ∈ (front ++ back).getLast?, c = '\n') : after'.head?.all (· == '\n') = true ∨ ∀ c ∈ back.getLast?, c = '\n' := by
    refine hn.imp_right fun hn c hc => hn c ?_
    rw [List.getLast?_append, Option.mem_def.1 hc]
    rfl
  generalize hds : cs ++ blanks = ds at h
  induction h generalizing cs with
  | nil =>
    obtain ⟨rfl, -⟩ := List.append_eq_nil_iff.1 hds
    exact .nil
  | @blank c ds hc _ ih =>
    cases cs with
    | nil => exact .nil
    | cons d cs =>
      obtain ⟨rfl, rfl⟩ := List.cons.inj hds
      refine .blank hc ?_
      cases cs with
      | nil => exact .nil
      | cons e cs => exact ih (@hlast [d] _ (List.cons_ne_nil _ _) hn) rfl
  | @lineComment body ds hbody he _ ih =>
    obtain rfl | ⟨front, rfl, hfront⟩ := mark_before_blanks hds hb (by decide)
    · exact .nil
    rcases List.append_eq_append_iff.1 hfront with ⟨q, rfl, -⟩ | ⟨q, rfl, rfl⟩
    · -- The comment reaches into the blanks, so that the line break stands behind them.
      exact .of_lineComment (fun hm => hbody (List.mem_append_left _ hm)) hn
    · cases q with
      | nil =>
        rw [List.append_nil] at hn ⊢
        exact .of_lineComment hbody hn
      | cons e q =>
        exact .lineComment hbody he (ih (@hlast ('/' :: '/' :: body) _ (List.cons_ne_nil _ _) hn) rfl)
  | @blockComment tail ds ht _ ih =>
    obtain rfl | ⟨front, rfl, hfront⟩ := mark_before_blanks hds hb (by decide)
    · exact .nil
    rcases List.append_eq_append_iff.1 hfront with ⟨q, htail, hq⟩ | ⟨q, rfl, rfl⟩
    · obtain rfl := ht.of_blanks htail fun c hc => hb c (hq ▸ List.mem_append_left _ hc)
      rw [List.append_nil] at htail
      exact .of_blockComment (htail ▸ ht)
    · cases q with
      | nil =>
        rw [List.append_nil]
        exact .of_blockComment ht
      | cons e q =>
        exact .blockComment ht (ih (@hlast ('/' :: '*' :: tail) _ (List.cons_ne_nil _ _) hn) rfl)

/-! ### The elements of a gap -/

theorem blockComment_fits {tail : List Char} (h : CommentTail tail) (after : List Char) :
    (⟨.blockComment, '/' :: '*' :: tail⟩ : Element).Fits after :=
  fits_iff.2 (.blockComment h)

/-- True for blanks and comments. -/
def Element.IsTrivia (e : Element) : Prop := ∀ kind, e.shape ≠ .lexeme kind

/-- A blank before elements is an element of its own or belongs to the first. -/
theorem blank_before {c : Char} (hc : isBlank c = true) {es : List Element} {after : List Char} (hf : Fitting es after)
    (hb : after.head?.any isBlank = false) (hes : ∀ e ∈ es, e.IsTrivia) :
    ∃ fs, Fitting fs after ∧ (∀ e ∈ fs, e.IsTrivia) ∧ fs.flatMap Element.text = c :: es.flatMap Element.text := by
  have hsingle (ds : List Char) (hd : ds.head?.any isBlank = false) : (⟨.blank, [c]⟩ : Element).Fits ds :=
    fits_iff.2 (.blank hc (List.forall_mem_nil _) hd)
  have htrivia {text : List Char} : (⟨.blank, text⟩ : Element).IsTrivia := fun kind hx => by cases hx
  cases es with
  | nil => exact ⟨[⟨.blank, [c]⟩], ⟨hsingle _ hb, trivial⟩, by simpa using htrivia, rfl⟩
  | cons e es =>
    obtain ⟨he, hes'⟩ := List.forall_mem_cons.1 hes
    obtain ⟨hfit, hrest⟩ := hf
    by_cases hblank : e.shape = .blank
    · refine ⟨⟨.blank, c :: e.text⟩ :: es, ⟨?_, hrest⟩, List.forall_mem_cons.2 ⟨htrivia, hes'⟩, by simp⟩
      exact fits_iff.2 (.blank hc (blank_chars hfit hblank) (blank_fits hfit hblank))
    · refine ⟨⟨.blank, [c]⟩ :: e :: es, ⟨hsingle _ ?_, hfit, hrest⟩, List.forall_mem_cons.2 ⟨htrivia, hes⟩, rfl⟩
      obtain ⟨d, ds, hd, hiff⟩ := head_of_fits hfit
      rw [List.flatMap_cons, hd, List.cons_append, List.cons_append, List.head?_cons, Option.any_some, Bool.eq_false_iff]
      exact fun hdb => hblank (hiff.2 hdb)

/-- A gap is cut into blanks and comments. -/
theorem elements_of_gap {after cs : List Char} (h : Gap after cs) (hb : after.head?.any isBlank = false) :
    ∃ es, Fitting es after ∧ (∀ e ∈ es, e.IsTrivia) ∧ es.flatMap Element.text = cs := by
  induction h with
  | nil => exact ⟨[], trivial, nofun, rfl⟩
  | blank hc _ ih =>
    obtain ⟨es, hf, hes, rfl⟩ := ih
    exact blank_before hc hf hb hes
  | @lineComment body cs hbody he _ ih =>
    obtain ⟨es, hf, hes, rfl⟩ := ih
    have hcomment := comment_fits (.inr ⟨body, rfl⟩) (by simpa using hbody) he
    refine ⟨commented ('/' :: '/' :: body) ++ es, fitting_append.2 ⟨hcomment, hf⟩, ?_, ?_⟩
    · intro e hm
      rcases List.mem_append.1 hm with hm | hm
      · rw [commented, if_neg (List.cons_ne_nil _ _), List.mem_singleton] at hm
        subst hm
        exact nofun
      · exact hes e hm
    · rw [List.flatMap_append, commented_flatten]
      rfl
  | @blockComment tail cs ht _ ih =>
    obtain ⟨es, hf, hes, rfl⟩ := ih
    exact ⟨⟨.blockComment, '/' :: '*' :: tail⟩ :: es, ⟨blockComment_fits ht _, hf⟩,
      List.forall_mem_cons.2 ⟨nofun, hes⟩, rfl⟩

theorem ofElements_trivia {place : Place} {gap : List Char} {gs es : List Element} (hg : ∀ e ∈ gs, e.IsTrivia) :
    Token.ofElements place gap (gs ++ es) =
      Token.ofElements (place.advance (gs.flatMap Element.text)) (gap ++ gs.flatMap Element.text) es := by
  induction gs generalizing place gap with
  | nil => simp
  | cons g gs ih =>
    obtain ⟨hg, hgs⟩ := List.forall_mem_cons.1 hg
    rw [List.cons_append, Token.ofElements]
    split
    · next kind hk => exact absurd hk (hg kind)
    · rw [ih hgs, List.flatMap_cons, Place.advance_append, List.append_assoc]

/-! ### Legible tokens -/

/-- What a token is, without its place. -/
def Token.face (t : Token) : TokenKind × String × String := (t.kind, t.text, t.gap)

/-- Every token is what is read of its text, and its gap is one, when the tokens are written before `rest`. -/
def Legible (rest : List Char) : List Token → Prop
  | [] => True
  | t :: ts => Gap (t.text.toList ++ (Token.written ts ++ rest)) t.gap.toList ∧
      t.element.Fits (Token.written ts ++ rest) ∧ Legible rest ts

theorem legible_append {rest : List Char} {ts us : List Token} :
    Legible rest (ts ++ us) ↔ Legible (Token.written us ++ rest) ts ∧ Legible rest us := by
  induction ts with
  | nil => simp [Legible]
  | cons t ts ih => simp only [List.cons_append, Legible, ih, Token.written_append, List.append_assoc, and_assoc]

/-- The tokens of elements are legible. -/
theorem legible_ofElements {es : List Element} {rest gap : List Char} {place : Place} (hf : Fitting es rest)
    (hg : Gap (es.flatMap Element.text ++ rest) gap) :
    Legible (Token.finalGap gap es ++ rest) (Token.ofElements place gap es) ∧ Gap rest (Token.finalGap gap es) := by
  induction es generalizing gap place with
  | nil => exact ⟨trivial, hg⟩
  | cons e es ih =>
    obtain ⟨he, hes⟩ := hf
    rw [Token.ofElements, Token.finalGap]
    split
    · next kind hk =>
      have hw := Token.written_ofElements (place.advance e.text) [] es
      rw [List.nil_append] at hw
      obtain ⟨hl, hgap⟩ := @ih [] (place.advance e.text) hes .nil
      refine ⟨⟨?_, ?_, hl⟩, hgap⟩
      · rw [← List.append_assoc (Token.written _), hw, String.toList_ofList, String.toList_ofList, ← List.append_assoc]
        exact hg
      · rw [← List.append_assoc (Token.written _), hw, Token.element, String.toList_ofList, ← hk]
        exact he
    · next hk =>
      refine ih hes ?_
      rw [List.flatMap_cons, List.append_assoc] at hg
      exact hg.append (gap_of_fits he hk)

/-- The text is the tokens with their gaps and one gap more, and the tokens are read from it. -/
def LegibleText (cs : List Char) (ts : List Token) : Prop :=
  ∃ final, cs = Token.written ts ++ final ∧ Legible final ts ∧ Gap [] final

theorem legibleText_ofText {text : String} (h : (Tokens.ofText text).failure = none) :
    LegibleText text.toList (Tokens.ofText text).tokens := by
  obtain ⟨hf, hflat⟩ := elements_of_no_fault (no_failure_iff.1 h)
  obtain ⟨hl, hg⟩ := @legible_ofElements _ _ [] .origin hf .nil
  rw [List.append_nil] at hl
  exact ⟨_, hflat.symm.trans (Token.written_ofElements .origin [] _).symm, hl, hg⟩

/-- The elements of legible tokens and of a gap behind them. -/
theorem Legible.elements {ts : List Token} {final after : List Char} (h : Legible (final ++ after) ts)
    (hg : Gap after final) (hb : after.head?.any isBlank = false) :
    ∃ es, Fitting es after ∧ es.flatMap Element.text = Token.written ts ++ final ∧
      ∀ place, (Token.ofElements place [] es).map Token.face = ts.map Token.face := by
  induction ts with
  | nil =>
    obtain ⟨gs, hf, htrivia, hflat⟩ := elements_of_gap hg hb
    refine ⟨gs, hf, hflat, fun place => ?_⟩
    rw [← List.append_nil gs, ofElements_trivia htrivia]
    rfl
  | cons t ts ih =>
    obtain ⟨hgap, hfits, hl⟩ := h
    obtain ⟨es, hes, hflat, hfaces⟩ := ih hl
    obtain ⟨gs, hgs, htrivia, hgflat⟩ := elements_of_gap hgap (Token.element_not_blank hfits _)
    have hall : (t.element :: es).flatMap Element.text = t.text.toList ++ (Token.written ts ++ final) := by
      rw [List.flatMap_cons, hflat]
      rfl
    refine ⟨gs ++ t.element :: es, fitting_append.2 ⟨?_, ?_, hes⟩, ?_, fun place => ?_⟩
    · rwa [hall, List.append_assoc, List.append_assoc]
    · rwa [hflat, List.append_assoc]
    · rw [List.flatMap_append, hgflat, hall, Token.written_cons]
      simp only [List.append_assoc]
    · rw [ofElements_trivia htrivia, hgflat, Token.ofElements, List.nil_append, String.ofList_toList]
      simp only [Token.element, String.ofList_toList, List.map_cons, hfaces]
      rfl

/-- Legible tokens are read from the text. -/
theorem tokens_of_legible {text : String} {ts : List Token} (h : LegibleText text.toList ts) :
    (Tokens.ofText text).failure = none ∧ (Tokens.ofText text).tokens.map Token.face = ts.map Token.face := by
  obtain ⟨final, htext, hl, hg⟩ := h
  rw [← List.append_nil final] at hl
  obtain ⟨es, hf, hflat, hfaces⟩ := hl.elements hg rfl
  rw [ofText_of_fitting hf (hflat.trans htext.symm)]
  exact ⟨rfl, hfaces .origin⟩

/-! ### Texts that replace others -/

/-- The first text may stand behind a lexeme in place of the second: it answers no more questions, not even the ends of
questions, and opens and closes no literal. -/
structure Replaces (after' after : List Char) : Prop where
  quiet : ∀ asked p, Question (asked ++ p) → p <+: after' → p <+: after
  quoting : Agrees isQuoting after' after

theorem Replaces.append {after' after : List Char} (h : Replaces after' after) (cs : List Char) :
    Replaces (cs ++ after') (cs ++ after) where
  quiet asked p hq hp := by
    obtain ⟨rest, hr⟩ := hp
    rcases List.append_eq_append_iff.1 hr with ⟨q, rfl, -⟩ | ⟨q, rfl, hq'⟩
    · rw [List.append_assoc]
      exact List.prefix_append _ _
    · rw [← List.append_assoc] at hq
      exact (List.prefix_append_right_inj _).2 (h.quiet _ q hq ⟨rest, hq'.symm⟩)
  quoting := h.quoting.respaced (fun _ => quoting_not_blank) (respaced_refl false cs)

theorem Replaces.fits {after' after : List Char} (h : Replaces after' after) {t : Token} (ht : t.element.Fits after) :
    t.element.Fits after' :=
  ht.respaced nofun (respaced_refl false _) (fun p hq hp => h.quiet [] p hq hp) h.quoting nofun

/-- A separator may stand in place of anything. -/
theorem Separated.replaces {after' : List Char} (h : Separated after') (after : List Char) : Replaces after' after where
  quiet asked p hq hp := by
    cases p with
    | nil => exact List.nil_prefix
    | cons c p =>
      obtain ⟨rest, rfl⟩ := hp
      have hc := hq.not_separator c (List.mem_append_right _ List.mem_cons_self)
      rw [Separated, List.cons_append, List.head?_cons, Option.all_some, hc] at h
      cases h
  quoting := quoting_inside_separated h after

theorem digit_ne_slash {d : Char} (h : isDecimalDigit d = true) : '/' ≠ d := by
  rintro rfl
  exact absurd h (by decide)

theorem radix_ne_slash {d : Char} (h : isRadixDigit d = true) : '/' ≠ d := by
  rintro rfl
  exact absurd h (by decide)

/-- No question goes on with a slash or behind one. -/
theorem Question.of_slash {asked p : List Char} (h : Question (asked ++ '/' :: p)) : p = [] := by
  have hm : '/' ∈ asked ++ '/' :: p := List.mem_append_right _ List.mem_cons_self
  generalize hq : asked ++ '/' :: p = q at h hm
  cases h with
  | next h =>
    have hl := congrArg List.length hq
    simp only [List.length_append, List.length_cons, List.length_nil] at hl
    exact List.eq_nil_of_length_eq_zero (by omega)
  | dots h => rcases h with rfl | rfl <;> exact absurd hm (by decide)
  | fraction h => simp [digit_ne_slash h] at hm
  | exponent he h => rcases he with rfl | rfl <;> simp [digit_ne_slash h] at hm
  | signed he hs h => rcases he with rfl | rfl <;> rcases hs with rfl | rfl <;> simp [digit_ne_slash h] at hm
  | radix hr h => rcases hr with rfl | rfl | rfl <;> simp [radix_ne_slash h] at hm

/-- Texts that begin with the same blank or slash may stand for each other. -/
theorem replaces_of_head {c : Char} (hc : isBlank c = true ∨ c = '/') (cs' cs : List Char) :
    Replaces (c :: cs') (c :: cs) := by
  rcases hc with hc | rfl
  · exact Separated.replaces (by simp [Separated, isSeparator, hc]) _
  · refine ⟨fun asked p hq hp => ?_, agrees_of_head (by rw [List.head?_cons]; decide) _⟩
    cases p with
    | nil => exact List.nil_prefix
    | cons d p =>
      obtain ⟨rfl, -⟩ := List.cons_prefix_cons.1 hp
      rw [hq.of_slash]
      exact ⟨cs, rfl⟩

/-- True for the beginnings of texts that no mark goes on with. -/
def isCalm (c : Char) : Bool := c != '.' && c != '<' && !isDecimalDigit c

/-- The text goes on no mark. -/
def Calm (after : List Char) : Prop := after.head?.all isCalm = true

theorem two_of_pair {asked p : List Char} {a b c d : Char} (h : asked ++ c :: d :: p = [a, b]) : c = a ∧ d = b := by
  cases asked with
  | nil =>
    cases h
    exact ⟨rfl, rfl⟩
  | cons e asked =>
    have hl := congrArg List.length h
    simp only [List.length_append, List.length_cons, List.length_nil] at hl
    omega

/-- A question that goes on behind a mark asks for something that is not calm. -/
theorem Question.of_mark {kind : TokenKind} {c d : Char} (hk : kind.mark? = some c) {asked p : List Char}
    (h : Question (asked ++ c :: d :: p)) : isCalm d = false := by
  have hdigit {e : Char} (h : isDecimalDigit e = true) : isCalm e = false := by simp [isCalm, h]
  have hletter : ∀ e ∈ ['e', 'E', 'x', 'o', 'b'], c ≠ e := by
    rintro e he rfl
    cases kind <;> cases hk <;> exact absurd he (by decide)
  generalize hq : asked ++ c :: d :: p = q at h
  cases h with
  | next h =>
    have hl := congrArg List.length hq
    simp only [List.length_append, List.length_cons, List.length_nil] at hl
    omega
  | dots h =>
    obtain ⟨-, rfl⟩ := two_of_pair hq
    rcases h with rfl | rfl <;> decide
  | fraction h =>
    obtain ⟨-, rfl⟩ := two_of_pair hq
    exact hdigit h
  | exponent he h =>
    obtain ⟨-, rfl⟩ := two_of_pair hq
    exact hdigit h
  | signed he hs h =>
    cases asked with
    | nil =>
      cases hq
      rcases he with rfl | rfl <;> exact absurd rfl (hletter _ (by decide))
    | cons a asked =>
      obtain ⟨-, rfl⟩ := two_of_pair (List.cons.inj hq).2
      exact hdigit h
  | radix hr h =>
    obtain ⟨rfl, -⟩ := two_of_pair hq
    rcases hr with rfl | rfl | rfl <;> exact absurd rfl (hletter _ (by decide))

/-- A calm text may stand in place of anything behind a mark. -/
theorem Calm.replaces {kind : TokenKind} {c : Char} (hk : kind.mark? = some c) {after' : List Char} (h : Calm after')
    (after : List Char) : Replaces (c :: after') (c :: after) where
  quiet asked p hq hp := by
    obtain - | ⟨d, - | ⟨e, p⟩⟩ := p
    · exact List.nil_prefix
    · obtain ⟨rfl, -⟩ := List.cons_prefix_cons.1 hp
      exact ⟨after, rfl⟩
    · obtain ⟨rfl, more, rfl⟩ := List.cons_prefix_cons.1 hp
      rw [Calm, List.cons_append, List.head?_cons, Option.all_some, hq.of_mark hk] at h
      cases h
  quoting := agrees_of_head (by rw [List.head?_cons, Option.any_some]; cases kind <;> cases hk <;> decide) _

theorem Calm.mark_fits {kind : TokenKind} {c : Char} (hk : kind.mark? = some c) {after : List Char} (h : Calm after) :
    (Element.mark kind c).Fits after := by
  refine Swift.mark_fits hk fun _ hx => ?_
  rw [Calm, hx] at h
  exact absurd h (by decide)

/-! ### Texts one behind another -/

/-- Legible tokens stay so before another text. -/
theorem Legible.replace {after' after : List Char} (hr : Replaces after' after) {ts : List Token} (h : Legible after ts) :
    Legible after' ts := by
  induction ts with
  | nil => trivial
  | cons t ts ih =>
    obtain ⟨hg, hf, hl⟩ := h
    have hf' := (hr.append (Token.written ts)).fits hf
    refine ⟨hg.before fun hx => ?_, hf', ih hl⟩
    obtain ⟨c, cs, hc, -⟩ := hf
    have ht : t.text.toList = c :: cs := hc
    rw [ht] at hx ⊢
    exact hx

theorem separated_break (cs : List Char) : Separated ('\n' :: cs) := rfl

/-- The text may end in one line break more. -/
theorem LegibleText.break {cs : List Char} {ts : List Token} (h : LegibleText cs ts) : LegibleText (cs ++ ['\n']) ts := by
  obtain ⟨final, rfl, hl, hg⟩ := h
  refine ⟨final ++ ['\n'], List.append_assoc _ _ _, hl.replace ?_, ?_⟩
  · have := ((separated_break []).replaces []).append final
    rwa [List.append_nil] at this
  · exact (hg.before fun _ => rfl).append (gap_of_blanks (by decide))

/-- Two texts with an empty line between them. -/
theorem LegibleText.append {cs ds : List Char} {ts us : List Token} {u : Token} (h : LegibleText cs ts)
    (h' : LegibleText ds (u :: us)) :
    ∃ gap, '\n' ∈ gap ∧ LegibleText (cs ++ '\n' :: '\n' :: ds) (ts ++ { u with gap := String.ofList gap } :: us) := by
  obtain ⟨final, rfl, hl, hg⟩ := h
  obtain ⟨final', rfl, ⟨hgap, hfits, hl'⟩, hg'⟩ := h'
  refine ⟨final ++ '\n' :: '\n' :: u.gap.toList, by simp, final', ?_, ?_, hg'⟩
  · simp only [Token.written_append, Token.written_cons, String.toList_ofList, List.append_assoc, List.cons_append]
  · rw [legible_append]
    refine ⟨hl.replace ?_, ?_, hfits, hl'⟩
    · have := ((separated_break ('\n' :: (u.gap.toList ++ (u.text.toList ++ (Token.written us ++ final'))))).replaces []).append
        final
      rw [List.append_nil] at this
      simpa only [Token.written_cons, String.toList_ofList, List.append_assoc, List.cons_append] using this
    · rw [String.toList_ofList]
      exact (hg.before fun _ => rfl).append (.blank isBlank_newline (.blank isBlank_newline hgap))

end TestHooks.Swift
