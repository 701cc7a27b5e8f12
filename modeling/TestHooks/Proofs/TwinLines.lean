import TestHooks.Proofs.Calls
import TestHooks.Proofs.Frame
import TestHooks.Proofs.QualifiedNames
import TestHooks.Proofs.TwinDeclarations

/-!
# Twin lines

Elements match if their tokens are twins before whatever has twins as its tokens. The lines of two texts may differ in
how far they are moved in and in what is passed in their calls: they match then, so that one text is an extension if and
only if the other is (`complaint_twins`).
-/

namespace TestHooks.Swift

open TestHooks.Text

/-! ### Elements -/

/-- The tokens of the elements are twins, wherever the elements stand and whatever blank gap is before them. -/
def Twinned (es fs : List Element) : Prop :=
  ∀ ⦃place place' : Place⦄ ⦃gap gap' : List Char⦄, gap.contains '\n' = gap'.contains '\n' →
    gap.isEmpty = gap'.isEmpty → Twins (Token.ofElements place gap es) (Token.ofElements place' gap' fs)

/-- The elements have twins as their tokens before what has twins as its tokens. -/
def Matched (es fs : List Element) : Prop :=
  ∀ ⦃rest rest' : List Element⦄, Twinned rest rest' → Twinned (es ++ rest) (fs ++ rest')

theorem twinned_nil : Twinned [] [] := fun _ _ _ _ _ _ => .nil

theorem matched_nil : Matched [] [] := fun _ _ h => h

namespace Matched

theorem append {es es' fs fs' : List Element} (he : Matched es es') (hf : Matched fs fs') :
    Matched (es ++ fs) (es' ++ fs') := by
  intro rest rest' h
  rw [List.append_assoc, List.append_assoc]
  exact he (hf h)

theorem twinned {es fs : List Element} (h : Matched es fs) : Twinned es fs := by
  have := h twinned_nil
  rwa [List.append_nil, List.append_nil] at this

end Matched

/-- Tokens of the same lexeme resemble each other behind gaps that do. -/
theorem resembles_of_gaps {kind : TokenKind} {text : String} {gap gap' : List Char} {place place' : Place}
    (hn : gap.contains '\n' = gap'.contains '\n') (he : gap.isEmpty = gap'.isEmpty) :
    Token.Resembles ⟨kind, text, String.ofList gap, place⟩ ⟨kind, text, String.ofList gap', place'⟩ where
  kind := rfl
  text := rfl
  newline := by rw [Token.newlineBefore, Token.newlineBefore, String.toList_ofList, String.toList_ofList, hn]
  attached := by
    have hempty (cs : List Char) : (String.ofList cs).isEmpty = cs.isEmpty := by
      cases cs with
      | nil => rfl
      | cons c cs => exact isEmpty_of_cons String.toList_ofList
    rw [Token.isAttached, Token.isAttached, hempty, hempty, he]

theorem matched_lexeme (kind : TokenKind) (text : List Char) : Matched [⟨.lexeme kind, text⟩] [⟨.lexeme kind, text⟩] :=
  fun _ _ h _ _ _ _ hn he => .cons (resembles_of_gaps hn he) (h rfl rfl)

/-- What is no lexeme matches what breaks the line or does not break it alike. -/
theorem matched_gap {e f : Element} (he : e.token? = none) (hf : f.token? = none)
    (hn : e.text.contains '\n' = f.text.contains '\n') (ht : e.text.isEmpty = f.text.isEmpty) : Matched [e] [f] := by
  have skips {e : Element} (he : e.token? = none) (place : Place) (gap : List Char) (rest : List Element) :
      Token.ofElements place gap (e :: rest) = Token.ofElements (place.advance e.text) (gap ++ e.text) rest := by
    rw [Element.token?] at he
    rw [Token.ofElements]
    cases hs : e.shape with
    | lexeme kind =>
      rw [hs] at he
      cases he
    | blank | lineComment | blockComment => rfl
  intro rest rest' h place place' gap gap' hg hb
  rw [List.singleton_append, List.singleton_append, skips he, skips hf]
  refine h ?_ ?_
  · rw [List.contains_eq_mem, List.contains_eq_mem] at *
    simp only [List.mem_append, Bool.decide_or, hg, hn]
  · rw [Bool.eq_iff_iff, List.isEmpty_iff, List.isEmpty_iff] at *
    rw [List.append_eq_nil_iff, List.append_eq_nil_iff, hb, ht]

theorem matched_self (es : List Element) : Matched es es := by
  induction es with
  | nil => exact matched_nil
  | cons e es ih =>
    have he : Matched [e] [e] := by
      obtain ⟨shape, text⟩ := e
      cases shape with
      | lexeme kind => exact matched_lexeme kind text
      | blank | lineComment | blockComment => exact matched_gap rfl rfl rfl rfl
    exact he.append ih

theorem matched_lineBreak (margin margin' : List Char) : Matched [.lineBreak margin] [.lineBreak margin'] :=
  matched_gap rfl rfl rfl rfl

/-- A comment that takes the rest of a line matches any other. -/
theorem matched_commented {tail tail' : List Char} (ht : tail ≠ []) (ht' : tail' ≠ []) (hl : '\n' ∉ tail)
    (hl' : '\n' ∉ tail') : Matched (commented tail) (commented tail') := by
  rw [commented, commented, if_neg ht, if_neg ht']
  refine matched_gap rfl rfl ?_ ?_
  · rw [List.contains_eq_mem, List.contains_eq_mem, decide_eq_false hl, decide_eq_false hl']
  · rw [List.isEmpty_eq_false_iff.2 ht, List.isEmpty_eq_false_iff.2 ht']

/-! ### Calls -/

/-- Elements that may be passed in a call, with nothing between the last of them and what follows. -/
structure Passed (es : List Element) : Prop where
  flat : Proxy.Flat (bareTokens es)
  line : '\n' ∉ es.flatMap Element.text
  ends : es = [] ∨ EndsInLexeme es

theorem Passed.isPassed {es : List Element} (h : Passed es) (place : Place) :
    ∀ t ∈ Token.ofElements place [] es, t.isPassed = true := by
  intro t ht
  have hbare : t.bare ∈ bareTokens es := by
    rw [← map_bare_ofElements place [] es]
    exact List.mem_map_of_mem ht
  have hkind := h.flat _ hbare
  simp only [List.mem_cons, List.not_mem_nil, or_false] at hkind
  exact Token.isPassed_iff.2 ⟨hkind, reads_unbroken ⟨place, [], rfl, rfl⟩ h.line t ht⟩

theorem Passed.finalGap {es : List Element} (h : Passed es) : Token.finalGap [] es = [] := by
  rcases h.ends with rfl | he
  · rfl
  · exact finalGap_of_lexeme he []

theorem Twin.passed_left {ts us vs : List Token} (h : ∀ t ∈ ts, t.isPassed = true) (hs : Twin .passed us vs) :
    Twin .passed (ts ++ us) vs := by
  induction ts with
  | nil => exact hs
  | cons t ts ih => exact .left (h t List.mem_cons_self) (ih fun u hu => h u (List.mem_cons_of_mem _ hu))

/-- The elements of a call behind its receiver, when `es` is passed. -/
def memberCall (name : String) (es : List Element) : List Element :=
  .mark .dot '.' :: .word name.toList :: .mark .leftParen '(' :: (es ++ [.mark .rightParen ')'])

/-- Calls match whatever is passed in them. -/
theorem matched_call (name : String) {es fs : List Element} (he : Passed es) (hf : Passed fs) :
    Matched (memberCall name es) (memberCall name fs) := by
  have closes {es : List Element} (he : Passed es) (place : Place) (rest : List Element) :
      ∃ before behind, Token.ofElements place [] (es ++ .mark .rightParen ')' :: rest) =
        Token.ofElements place [] es ++ ⟨.rightParen, ")", "", before⟩ :: Token.ofElements behind [] rest := by
    rw [ofElements_append, he.finalGap]
    exact ⟨_, _, rfl⟩
  intro rest rest' h place place' gap gap' hn hg
  simp only [memberCall, List.cons_append, List.append_assoc, List.nil_append]
  refine .dot (resembles_of_gaps hn hg) rfl (.name (resembles_of_gaps rfl rfl) rfl rfl
    (.paren (resembles_of_gaps rfl rfl) rfl rfl ?_))
  obtain ⟨before, behind, hleft⟩ := closes he _ rest
  obtain ⟨before', behind', hright⟩ := closes hf _ rest'
  rw [hleft, hright]
  refine (Twin.passed_left (hf.isPassed _) (Twin.passed_left (he.isPassed _) ?_).symm).symm
  exact .close (@resembles_of_gaps _ _ [] [] _ _ rfl rfl) rfl rfl (h rfl rfl)

/-! ### Lines -/

/-- The text stands on one line and is cut into elements, or into elements and a comment. -/
def Spells (text : List Char) : Prop := ∃ es tail, Spelling text es tail

/-- The text can stand on a line of its own, moved in or not. -/
structure IsLine (text : List Char) : Prop where
  begins : text.head?.any (!isBlank ·) = true
  spells : Spells text

theorem IsLine.titled {text : List Char} (h : IsLine text) : Titled text := by
  obtain ⟨es, tail, hs⟩ := h.spells
  refine ⟨hs.line, ?_⟩
  have hb := h.begins
  cases text with
  | nil => cases hb
  | cons c cs => exact ⟨c, cs, rfl, by simpa using hb⟩

/-- The texts can stand on lines of their own, and are cut into elements that match. -/
structure TwinLine (text text' : List Char) : Prop where
  begins : text.head?.any (!isBlank ·) = true
  begins' : text'.head?.any (!isBlank ·) = true
  cut : ∃ es es' tail tail', Spelling text es tail ∧ Spelling text' es' tail' ∧
    Matched (es ++ commented tail) (es' ++ commented tail')

theorem IsLine.twins {text : List Char} (h : IsLine text) : TwinLine text text := by
  obtain ⟨es, tail, hs⟩ := h.spells
  exact ⟨h.begins, h.begins, es, es, tail, tail, hs, hs, matched_self _⟩

/-- Lines that a comment ends are twins if they agree up to the comment. -/
theorem twinLine_of_comment {text text' tail tail' : List Char} {es : List Element} (h : Spelling text es tail)
    (h' : Spelling text' es tail') (ht : tail ≠ []) (ht' : tail' ≠ []) (hb : text.head?.any (!isBlank ·) = true)
    (hb' : text'.head?.any (!isBlank ·) = true) : TwinLine text text' := by
  have hline {text tail : List Char} (h : Spelling text es tail) : '\n' ∉ tail :=
    fun hx => h.line (h.flatten ▸ List.mem_append_right _ hx)
  exact ⟨hb, hb', es, es, tail, tail', h, h', (matched_self es).append (matched_commented ht ht' (hline h) (hline h'))⟩

end TestHooks.Swift

namespace TestHooks.Proxy

open TestHooks.Swift TestHooks.Text

/-- Lines that are twins one by one, whatever their levels. -/
def TwinLines (ls ls' : List Line) : Prop :=
  List.Forall₂ (fun l l' => TwinLine l.text.toList l'.text.toList) ls ls'

/-- A text of lines is cut into the elements of its first line, and of the page that the others stand on. -/
theorem ofText_lines {indent : String} {l : Line} {ls : List Line} (hl : l.level = 0) {es fs : List Element}
    {tail : List Char} (hs : Spelling l.text.toList es tail)
    (hp : Page (ls.map fun l => (l.write indent).toList) fs) :
    Tokens.ofText (writeLines indent (l :: ls)) =
      ⟨Token.ofElements .origin [] (es ++ (commented tail ++ fs)), none⟩ := by
  have hbreak : (fs.flatMap Element.text ++ []).head?.all (· == '\n') = true := hp.separated rfl
  have hline : '\n' ∉ tail := fun hx => hs.line (hs.flatten ▸ List.mem_append_right _ hx)
  apply ofText_of_fitting
  · rw [fitting_append, fitting_append, List.flatMap_append, commented_flatten, List.append_assoc]
    exact ⟨hs.fits _ (separated_of_break hbreak), comment_fits hs.comment hline hbreak, hp.fits rfl⟩
  · obtain ⟨level, text⟩ := l
    obtain rfl : level = 0 := hl
    rw [List.flatMap_append, List.flatMap_append, commented_flatten, hp.flatten, ← List.append_assoc, hs.flatten,
      toList_writeLines, toList_write, brokenLines, List.flatMap_map]
    rfl

section

variable {indent indent' : String} (hindent : ∀ c ∈ indent.toList, c = ' ') (hindent' : ∀ c ∈ indent'.toList, c = ' ')

include hindent hindent'

/-- The pages that twin lines stand on are cut into elements that match. -/
theorem pages_match {ls ls' : List Line} (h : TwinLines ls ls') :
    ∃ es es', Page (ls.map fun l => (l.write indent).toList) es ∧
      Page (ls'.map fun l => (l.write indent').toList) es' ∧ Matched es es' := by
  induction h with
  | nil => exact ⟨[], [], .nil, .nil, matched_nil⟩
  | @cons l l' ls ls' hl _ ih =>
    obtain ⟨fs, fs', hp, hp', hmore⟩ := ih
    obtain ⟨es, es', tail, tail', hs, hs', hes⟩ := hl.cut
    have hmatch := (matched_lineBreak (margin indent l.level) (margin indent' l'.level)).append (hes.append hmore)
    rw [List.append_assoc, List.append_assoc] at hmatch
    exact ⟨_, _, page_line hindent l.level hs hl.begins hp, page_line hindent' l'.level hs' hl.begins' hp', hmatch⟩

/-- Texts of twin lines pass or fail together. -/
theorem complaint_twins {l l' : Line} {ls ls' : List Line} (hl : l.level = 0) (hl' : l'.level = 0)
    (h : TwinLines (l :: ls) (l' :: ls')) (site : Option Position) :
    complaint? (writeLines indent (l :: ls)) site = none ↔ complaint? (writeLines indent' (l' :: ls')) site = none := by
  obtain ⟨hfirst, hrest⟩ := List.forall₂_cons.1 h
  obtain ⟨fs, fs', hp, hp', hmore⟩ := pages_match hindent hindent' hrest
  obtain ⟨es, es', tail, tail', hs, hs', hes⟩ := hfirst.cut
  have htokens := ofText_lines hl hs hp
  have htokens' := ofText_lines hl' hs' hp'
  refine singleExtension_twins (by rw [htokens]) (by rw [htokens']) ?_
  rw [htokens, htokens', ← List.append_assoc, ← List.append_assoc]
  exact (hes.append hmore).twinned rfl rfl

end

end TestHooks.Proxy
