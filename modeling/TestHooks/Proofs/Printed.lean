import TestHooks.Proofs.Printing
import TestHooks.Proofs.Receiver

/-!
# Printed text is cut as it was printed

Next to each other the elements of a printed declaration stay apart: words stand before blanks and marks, and what is
skipped stands before a separator (`page_fits`).
-/

namespace TestHooks.Swift

open TestHooks.Text

/-! ### Texts before separators -/

/-- A text that is cut to its end, and that a comment on a line does not end, is cut in the same way before a
separator. If it ends with blanks, that must not be one. -/
theorem fitting_closed {es : List Element} {after : List Char} (h : Fitting es [])
    (hc : ∀ e, es.getLast? = some e → e.shape ≠ .lineComment)
    (hb : (∀ e, es.getLast? = some e → e.shape ≠ .blank) ∨ after.head?.any isBlank = false) (ha : Separated after) :
    Fitting es after := by
  induction es with
  | nil => trivial
  | cons e es ih =>
    refine ⟨?_, ih h.2 (fun f hf => hc f (getLast_cons hf)) (hb.imp (fun hb f hf => hb f (getLast_cons hf)) id)⟩
    have hfirst := h.1
    rw [List.append_nil] at hfirst
    have hnext : es ≠ [] → ∃ d ds, es.flatMap Element.text = d :: ds := by
      intro hn
      obtain ⟨f, fs, rfl⟩ := List.exists_cons_of_ne_nil hn
      obtain ⟨d, ds, ht, -⟩ := head_of_fits h.2.1
      exact ⟨d, ds ++ fs.flatMap Element.text, by rw [List.flatMap_cons, ht, List.cons_append]⟩
    by_cases hs : e.shape = .lineComment
    · obtain ⟨d, ds, hd⟩ := hnext (by rintro rfl; exact hc e rfl hs)
      rw [hd] at hfirst ⊢
      exact hfirst.lineComment_before hs id
    · have hi : Agrees isInside (es.flatMap Element.text ++ after) (es.flatMap Element.text ++ []) :=
        (agrees_of_separated ha []).respaced (fun c hc => inside_not_blank hc) (respaced_refl false _)
      rw [List.append_nil] at hi
      refine hfirst.respaced hs (respaced_refl false _) hi.quieter (hi.mono fun c hc => quoting_inside hc) fun hbl hx => ?_
      by_cases hn : es = []
      · subst hn
        rcases hb with hb | hb
        · exact absurd hbl (hb e rfl)
        · exact hb
      · obtain ⟨d, ds, hd⟩ := hnext hn
        rw [hd] at hx ⊢
        exact hx

theorem fitting_of_cut {es : List Element} (h : Cut.ofText (es.flatMap Element.text) = ⟨es, [], none⟩) :
    Fitting es [] := by
  have hf := fitting_ofText (es.flatMap Element.text)
  rwa [h] at hf

theorem Excerpt.fits (x : Excerpt) {after : List Char} (ha : Separated after) : Fitting x.elements after := by
  have hlast : ∀ e, x.elements.getLast? = some e → ∃ kind, e.shape = .lexeme kind := by
    obtain ⟨front, kind, cs, he⟩ := x.ends
    intro e hx
    rw [he, List.getLast?_concat, Option.some.injEq] at hx
    exact ⟨kind, by rw [← hx]⟩
  apply fitting_closed (fitting_of_cut x.cut) _ (.inl _) ha
  all_goals
    intro e he hx
    obtain ⟨kind, hk⟩ := hlast e he
    rw [hk] at hx
    cases hx

/-! ### Single elements -/

/-- The elements begin with a lexeme. -/
def Starts (es : List Element) : Prop :=
  ∃ kind c cs more, es = ⟨.lexeme kind, c :: cs⟩ :: more ∧ isBlank c = false

theorem starts_word {cs : List Char} (h : Name cs) (more : List Element) : Starts (.word cs :: more) := by
  obtain ⟨c, cs, rfl, -, -, -, hb⟩ := name_begins h
  exact ⟨_, c, cs, more, rfl, hb⟩

theorem Starts.append {es : List Element} (h : Starts es) (more : List Element) : Starts (es ++ more) := by
  obtain ⟨kind, c, cs, fs, rfl, hb⟩ := h
  exact ⟨kind, c, cs, fs ++ more, rfl, hb⟩

theorem Starts.not_blank {es : List Element} (h : Starts es) (after : List Char) :
    (es.flatMap Element.text ++ after).head?.any isBlank = false := by
  obtain ⟨kind, c, cs, fs, rfl, hb⟩ := h
  exact hb

theorem Excerpt.begins (x : Excerpt) : Starts x.elements := by
  obtain ⟨kind, cs, more, he⟩ := x.starts
  have hf := fitting_of_cut x.cut
  rw [he] at hf ⊢
  obtain ⟨c, cs, rfl, hb⟩ := head_of_fits hf.1
  exact ⟨kind, c, cs, more, rfl, Bool.eq_false_iff.2 fun hx => nomatch hb.2 hx⟩

/-- A space before a lexeme. -/
theorem fitting_space {es : List Element} {after : List Char} (hs : Starts es) (h : Fitting es after) :
    Fitting (.space :: es) after :=
  ⟨space_fits (hs.not_blank after), h⟩

theorem fitting_break {es : List Element} {after : List Char}
    (hb : (es.flatMap Element.text ++ after).head?.any isBlank = false) (h : Fitting es after) :
    Fitting (.lineBreak [] :: es) after :=
  ⟨lineBreak_fits (List.forall_mem_nil _) hb, h⟩

theorem fitting_mark {kind : TokenKind} {c : Char} {es : List Element} {after : List Char} (hk : kind.mark? = some c)
    (hd : c ≠ '.') (h : Fitting es after) : Fitting (.mark kind c :: es) after :=
  ⟨mark_fits hk fun hx => absurd hx hd, h⟩

theorem fitting_word {cs : List Char} {es : List Element} {after : List Char} (hn : Name cs)
    (hw : (es.flatMap Element.text ++ after).head?.any isWordChar = false) (h : Fitting es after) :
    Fitting (.word cs :: es) after :=
  ⟨word_fits hn hw, h⟩

/-- A name before a separator. -/
theorem fitting_apart {cs : List Char} {es : List Element} {after : List Char} (hn : Name cs)
    (hs : Separated (es.flatMap Element.text ++ after)) (h : Fitting es after) : Fitting (.word cs :: es) after :=
  fitting_word hn (hs.head_not fun _ => word_goes_on) h

/-- Nothing, or elements that begin with a separator. -/
def Apart (es : List Element) : Prop :=
  ∀ after, Separated after → Separated (es.flatMap Element.text ++ after)

theorem apart_nil : Apart [] := fun _ h => h

theorem apart_cons {e : Element} (es : List Element) (h : e.text.head?.any isSeparator = true) : Apart (e :: es) := by
  intro after _
  rw [List.flatMap_cons, List.append_assoc]
  cases ht : e.text with
  | nil =>
    rw [ht] at h
    cases h
  | cons c cs =>
    rw [ht] at h
    exact h

theorem Apart.append {es fs : List Element} (h : Apart es) (h' : Apart fs) : Apart (es ++ fs) := by
  intro after ha
  rw [List.flatMap_append, List.append_assoc]
  exact h _ (h' after ha)

theorem apart_flatMap {α : Type} {f : α → List Element} {xs : List α} (h : ∀ x ∈ xs, Apart (f x)) :
    Apart (xs.flatMap f) := by
  induction xs with
  | nil => exact apart_nil
  | cons x xs ih =>
    rw [List.flatMap_cons]
    exact (h x List.mem_cons_self).append (ih fun y hy => h y (List.mem_cons_of_mem _ hy))

theorem apart_elim {α : Type} {f : α → List Element} (h : ∀ x, Apart (f x)) (x : Option α) : Apart (x.elim [] f) := by
  cases x with
  | none => exact apart_nil
  | some x => exact h x

/-- The elements are cut as they stand before every separator. -/
def Stands (es : List Element) : Prop := ∀ after, Separated after → Fitting es after

theorem stands_nil : Stands [] := fun _ _ => trivial

theorem Stands.append {es fs : List Element} (h : Stands es) (h' : Stands fs) (ha : Apart fs) : Stands (es ++ fs) := by
  intro after hs
  rw [fitting_append]
  exact ⟨h _ (ha after hs), h' after hs⟩

theorem Stands.space {es : List Element} (h : Stands es) (hs : Starts es) : Stands (.space :: es) :=
  fun after ha => fitting_space hs (h after ha)

theorem Stands.mark {kind : TokenKind} {c : Char} {es : List Element} (h : Stands es) (hk : kind.mark? = some c)
    (hd : c ≠ '.') : Stands (.mark kind c :: es) :=
  fun after ha => fitting_mark hk hd (h after ha)

theorem Stands.word {cs : List Char} {es : List Element} (h : Stands es) (hn : Name cs) (ha : Apart es) :
    Stands (.word cs :: es) :=
  fun after hs => fitting_apart hn (ha after hs) (h after hs)

theorem stands_flatMap {α : Type} {f : α → List Element} (hf : ∀ x, Stands (f x)) (ha : ∀ x, Apart (f x))
    (xs : List α) : Stands (xs.flatMap f) := by
  induction xs with
  | nil => exact stands_nil
  | cons x xs ih =>
    rw [List.flatMap_cons]
    exact (hf x).append ih (apart_flatMap fun y _ => ha y)

theorem stands_elim {α : Type} {f : α → List Element} (h : ∀ x, Stands (f x)) (x : Option α) : Stands (x.elim [] f) := by
  cases x with
  | none => exact stands_nil
  | some x => exact h x

/-! ### Words -/

/-- A word of the characters that words are made of. -/
def isPlainWord (cs : List Char) : Bool :=
  cs.head?.any isWordStart && cs.all isWordChar

theorem name_of_plain {cs : List Char} (h : isPlainWord cs = true) : Name cs := by
  rw [isPlainWord, Bool.and_eq_true, List.all_eq_true] at h
  cases cs with
  | nil => cases h.1
  | cons c cs => exact .plain h.1 fun d hd => h.2 d (List.mem_cons_of_mem _ hd)

theorem modifier_name {word : String} (h : word ∈ modifierWords) : Name word.toList :=
  name_of_plain ((by decide : ∀ w ∈ modifierWords, isPlainWord w.toList = true) word h)

theorem accessor_name (a : Accessor) : Name a.text.toList :=
  name_of_plain (by cases a <;> decide)

theorem effect_name (e : Effect) : Name e.text.toList :=
  name_of_plain (by cases e <;> decide)

/-! ### Types -/

/-- The end of a text, or a text that goes on with nothing that a word or an operator goes on with. -/
def Quiet (after : List Char) : Prop :=
  after.head?.any isWordChar = false ∧ after.head?.any isOperatorChar = false

theorem Separated.quiet {after : List Char} (h : Separated after) : Quiet after :=
  ⟨h.head_not fun _ => word_goes_on, h.head_not fun _ => operator_goes_on⟩

theorem quiet_cons {c : Char} (hw : isWordChar c = false) (ho : isOperatorChar c = false) (cs : List Char) :
    Quiet (c :: cs) := ⟨hw, ho⟩

theorem starts_type (t : TypeTerm) : Starts t.elements := by
  cases t with
  | named first others arguments marks => exact starts_word first.isName _
  | array element marks => exact ⟨_, '[', [], _, rfl, by decide⟩
  | dictionary key value marks => exact ⟨_, '[', [], _, rfl, by decide⟩
  | tuple elements marks => exact ⟨_, '(', [], _, rfl, by decide⟩
  | function parameters effects result => exact ⟨_, '(', [], _, rfl, by decide⟩

theorem optionalMarks_fits (n : Nat) {after : List Char} (ha : Quiet after) : Fitting (optionalMarks n) after := by
  cases n with
  | zero => trivial
  | succ n =>
    refine ⟨⟨'?', List.replicate n '?', rfl, ?_⟩, trivial⟩
    have hr : ((List.replicate n '?' ++ after).takeWhile isOperatorChar).length = n := by
      have := (@length_takeWhile_append isOperatorChar (List.replicate n '?') after).2
        ⟨fun c hc => by rw [List.eq_of_mem_replicate hc]; decide, ha.2⟩
      rwa [List.length_replicate] at this
    have hc : '?' ≠ backtick ∧ isWordStart '?' = false ∧ isDecimalDigit '?' = false ∧ isOperatorChar '?' = true := by
      decide
    rw [List.flatMap_nil, List.nil_append, List.length_replicate]
    generalize List.replicate n '?' ++ after = rest at hr ⊢
    have hw : wordLexeme? '?' rest = some (.operator, n) := by simp [wordLexeme?, hr, hc]
    have hq : literalOpening? ('?' :: rest) = none := literal_none_of_ne (by decide) (by decide)
    exact measure_of_lexeme (by decide) (fun hx => absurd hx (by decide)) (lexeme_of_word (.inr rfl) hq hw)

theorem optionalMarks_head (n : Nat) {after : List Char} (ha : Quiet after) :
    ((optionalMarks n).flatMap Element.text ++ after).head?.any isWordChar = false := by
  cases n with
  | zero => exact ha.1
  | succ n =>
    have hc : isWordChar '?' = false := by decide
    exact hc

theorem path_fits (others : List Identifier) {after : List Char} (ha : after.head?.any isWordChar = false) :
    Fitting (others.flatMap fun i => [.mark .dot '.', i.element]) after ∧
      ((others.flatMap fun i => [.mark .dot '.', i.element]).flatMap Element.text ++ after).head?.any isWordChar = false := by
  induction others with
  | nil => exact ⟨trivial, ha⟩
  | cons i others ih =>
    have hdot : isWordChar '.' = false := by decide
    refine ⟨⟨mark_fits rfl ?_, word_fits i.isName ih.2, ih.1⟩, hdot⟩
    rintro -
    obtain ⟨c, cs, hc, hne, -⟩ := name_begins i.isName
    change (i.text.toList ++ _ ++ after).head? ≠ some '.'
    rw [hc]
    exact fun hx => hne.1 (Option.some.inj hx)

theorem effects_stand (effects : List Effect) : Stands (effectElements effects) :=
  stands_flatMap (fun e => ((stands_nil.word (effect_name e) apart_nil).space (starts_word (effect_name e) [])))
    (fun _ => apart_cons _ (by decide)) effects

mutual

theorem type_fits (t : TypeTerm) {after : List Char} (ha : Quiet after) : Fitting t.elements after := by
  have hclosed (c : Char) (hc : isSeparator c = true) (cs : List Char) : Quiet (c :: cs) := Separated.quiet hc
  cases t with
  | named first others arguments marks =>
    have hmarks := optionalMarks_head marks ha
    have harguments : Fitting (if arguments.isEmpty then [] else
        .mark .leftAngle '<' :: (typeList arguments ++ [.mark .rightAngle '>']))
          ((optionalMarks marks).flatMap Element.text ++ after) ∧
        ((if arguments.isEmpty then [] else .mark .leftAngle '<' :: (typeList arguments ++
          [.mark .rightAngle '>'])).flatMap Element.text ++ ((optionalMarks marks).flatMap Element.text ++
            after)).head?.any isWordChar = false := by
      split
      · exact ⟨trivial, hmarks⟩
      · have hangle : isWordChar '<' = false := by decide
        refine ⟨fitting_mark rfl (by decide) (fitting_append.2 ⟨typeList_fits arguments ?_, ?_⟩), hangle⟩
        · exact quiet_cons (by decide) (by decide) _
        · exact fitting_mark rfl (by decide) trivial
    have hpath := path_fits others harguments.2
    refine fitting_word first.isName ?_ (fitting_append.2 ⟨?_, fitting_append.2 ⟨harguments.1, optionalMarks_fits marks ha⟩⟩)
    · rw [List.flatMap_append, List.flatMap_append, List.append_assoc, List.append_assoc]
      exact hpath.2
    · rw [List.flatMap_append, List.append_assoc]
      exact hpath.1
  | array element marks =>
    exact fitting_mark rfl (by decide) (fitting_append.2 ⟨type_fits element (hclosed ']' (by decide) _),
      fitting_mark rfl (by decide) (optionalMarks_fits marks ha)⟩)
  | dictionary key value marks =>
    exact fitting_mark rfl (by decide) (fitting_append.2 ⟨type_fits key (hclosed ':' (by decide) _),
      fitting_mark rfl (by decide) (fitting_space ((starts_type value).append _)
        (fitting_append.2 ⟨type_fits value (hclosed ']' (by decide) _),
          fitting_mark rfl (by decide) (optionalMarks_fits marks ha)⟩))⟩)
  | tuple elements marks =>
    exact fitting_mark rfl (by decide) (fitting_append.2 ⟨typeList_fits elements (hclosed ')' (by decide) _),
      fitting_mark rfl (by decide) (optionalMarks_fits marks ha)⟩)
  | function parameters effects result =>
    have hstart : Starts (arrowElement :: .space :: result.elements) := ⟨_, '-', ['>'], _, rfl, by decide⟩
    have harrow : Fitting (.space :: arrowElement :: .space :: result.elements) after :=
      fitting_space hstart ⟨arrow_fits _, fitting_space (starts_type result) (type_fits result ha)⟩
    exact fitting_mark rfl (by decide) (fitting_append.2 ⟨typeList_fits parameters (hclosed ')' (by decide) _),
      fitting_mark rfl (by decide) (fitting_append.2 ⟨effects_stand effects _ rfl, harrow⟩)⟩)

theorem typeList_fits (ts : List TypeTerm) {after : List Char} (ha : Quiet after) : Fitting (typeList ts) after := by
  cases ts with
  | nil => trivial
  | cons t ts =>
    obtain ⟨hrest, hquiet⟩ := typesAfter_fits ts ha
    exact fitting_append.2 ⟨type_fits t hquiet, hrest⟩

theorem typesAfter_fits (ts : List TypeTerm) {after : List Char} (ha : Quiet after) :
    Fitting (typesAfter ts) after ∧ Quiet ((typesAfter ts).flatMap Element.text ++ after) := by
  cases ts with
  | nil => exact ⟨trivial, ha⟩
  | cons t ts =>
    obtain ⟨hrest, hquiet⟩ := typesAfter_fits ts ha
    exact ⟨fitting_mark rfl (by decide) (fitting_space ((starts_type t).append _)
      (fitting_append.2 ⟨type_fits t hquiet, hrest⟩)), quiet_cons (by decide) (by decide) _⟩

end

theorem type_stands (t : TypeTerm) : Stands t.elements := fun _ ha => type_fits t ha.quiet

theorem types_stand (ts : List TypeTerm) : Stands (typeList ts) := fun _ ha => typeList_fits ts ha.quiet

/-! ### Members -/

theorem Block.stands (b : Block) : Stands b.elements := by
  intro after _
  refine fitting_mark rfl (by decide) (fitting_append.2 ⟨?_, fitting_mark rfl (by decide) trivial⟩)
  have hbrace : isBlank '\x7d' = false := by decide
  exact fitting_closed (fitting_of_cut b.cut) b.closes (.inr hbrace) rfl

theorem block_stands (b : Option Block) : Stands (blockElements b) :=
  stands_elim (fun b => b.stands.space ⟨_, '\x7b', [], _, rfl, by decide⟩) b

theorem block_apart (b : Option Block) : Apart (blockElements b) := apart_elim (fun _ => apart_cons _ (by decide)) b

theorem Literal.fitting (l : Literal) : Fitting [l.element] [] := by
  apply fitting_of_cut
  have := l.cut
  simpa [Literal.element] using this

theorem starts_literal (l : Literal) (more : List Element) : Starts (l.element :: more) := by
  obtain ⟨c, cs, ht, hb⟩ := head_of_fits l.fitting.1
  have hb : isBlank c = false := Bool.eq_false_iff.2 fun hx => nomatch hb.2 hx
  refine ⟨l.kind, c, cs, more, ?_, hb⟩
  rw [← ht]
  rfl

theorem Literal.stands (l : Literal) : Stands [l.element] := by
  have hlast (e : Element) (he : [l.element].getLast? = some e) : e.shape = .lexeme l.kind := by
    cases he
    rfl
  intro after ha
  refine fitting_closed l.fitting (fun e he => ?_) (.inl fun e he => ?_) ha
  · rw [hlast e he]
    nofun
  · rw [hlast e he]
    nofun

theorem equals_stands {es : List Element} (h : Stands es) (hs : Starts es) :
    Stands (.space :: ⟨.lexeme .operator, ['=']⟩ :: .space :: es) := by
  have hspace : isOperatorChar ' ' = false := by decide
  exact fun after ha => fitting_space ⟨_, '=', [], _, rfl, by decide⟩
    ⟨operator_fits (.inl rfl) hspace, fitting_space hs (h after ha)⟩

theorem value_stands (value : Literal) : Stands (valueElements value) :=
  equals_stands value.stands (starts_literal value [])

section Parts

variable {allowed : List Accessor}

theorem part_starts (p : Part allowed) : Starts p.elements := starts_word (accessor_name p.accessor) _

theorem part_stands (p : Part allowed) : Stands p.elements :=
  (block_stands p.body).word (accessor_name p.accessor) (block_apart p.body)

theorem parts_apart (ps : Parts allowed) : Apart ps.elements := apart_cons _ (by decide)

theorem parts_stand (ps : Parts allowed) : Stands ps.elements := by
  have hclose : Stands [.space, .mark .rightBrace '\x7d'] :=
    (stands_nil.mark rfl (by decide)).space ⟨_, '\x7d', [], _, rfl, by decide⟩
  have hothers : Stands (ps.others.flatMap fun p => .space :: p.elements) :=
    stands_flatMap (fun p => (part_stands p).space (part_starts p)) (fun _ => apart_cons _ (by decide)) _
  have happart : Apart (ps.others.flatMap fun p => .space :: p.elements) :=
    apart_flatMap fun _ _ => apart_cons _ (by decide)
  have hend : Apart [.space, .mark .rightBrace '\x7d'] := apart_cons _ (by decide)
  have hinside := (part_stands ps.first).append (hothers.append hclose hend) (happart.append hend)
  exact ((hinside.space ((part_starts ps.first).append _)).mark rfl (by decide)).space ⟨_, '\x7b', [], _, rfl, by decide⟩

end Parts

theorem content_apart (c : Content) : Apart c.elements := by
  cases c with
  | nothing => exact apart_nil
  | computed parts => exact parts_apart parts
  | stored value => exact apart_cons _ (by decide)
  | observed value observers => exact apart_cons _ (by decide)

theorem content_stands (c : Content) : Stands c.elements := by
  cases c with
  | nothing => exact stands_nil
  | computed parts => exact parts_stand parts
  | stored value => exact value_stands value
  | observed value observers => exact (value_stands value).append (parts_stand observers) (parts_apart observers)

theorem annotation_apart (type : Option TypeTerm) :
    Apart (type.elim [] fun t => .mark .colon ':' :: .space :: t.elements) :=
  apart_elim (fun _ => apart_cons _ (by decide)) type

theorem annotation_stands (type : Option TypeTerm) :
    Stands (type.elim [] fun t => .mark .colon ':' :: .space :: t.elements) :=
  stands_elim (fun t => ((type_stands t).space (starts_type t)).mark rfl (by decide)) type

theorem variable_starts (v : Variable) : Starts v.elements := starts_word v.name.isName _

theorem variable_stands (v : Variable) : Stands v.elements :=
  ((annotation_stands v.type).append (content_stands v.content) (content_apart v.content)).word v.name.isName
    ((annotation_apart v.type).append (content_apart v.content))

theorem slot_starts (s : Slot) : Starts s.elements := starts_word s.label.isName _

theorem slot_stands (s : Slot) : Stands s.elements := by
  have htype := ((type_stands s.type).space (starts_type s.type)).mark (show TokenKind.mark? .colon = some ':' from rfl)
    (by decide)
  have hcolon : Apart (.mark .colon ':' :: .space :: s.type.elements) := apart_cons _ (by decide)
  have hsecond : Stands (s.second.elim [] fun n => [.space, n.element]) :=
    stands_elim (fun n => (stands_nil.word n.isName apart_nil).space (starts_word n.isName [])) _
  have hapart : Apart (s.second.elim [] fun n => [.space, n.element]) := apart_elim (fun _ => apart_cons _ (by decide)) _
  exact (hsecond.append htype hcolon).word s.label.isName (hapart.append hcolon)

theorem slots_apart (slots : List Slot) : Apart (slotsAfter slots) := apart_flatMap fun _ _ => apart_cons _ (by decide)

theorem slots_stand (slots : List Slot) : Stands (slotList slots) := by
  cases slots with
  | nil => exact stands_nil
  | cons s slots =>
    have hothers : Stands (slotsAfter slots) :=
      stands_flatMap (fun s => ((slot_stands s).space (slot_starts s)).mark rfl (by decide))
        (fun _ => apart_cons _ (by decide)) _
    exact (slot_stands s).append hothers (slots_apart slots)

theorem result_stands (result : Option TypeTerm) :
    Stands (result.elim [] fun t => .space :: arrowElement :: .space :: t.elements) := by
  refine stands_elim (fun t => ?_) result
  have harrow : Stands (arrowElement :: .space :: t.elements) :=
    fun after ha => ⟨arrow_fits _, (type_stands t).space (starts_type t) after ha⟩
  exact harrow.space ⟨_, '-', ['>'], _, rfl, by decide⟩

theorem tail_stands (f : Routine) : Stands f.tail := by
  have hresult : Apart (f.result.elim [] fun t => .space :: arrowElement :: .space :: t.elements) :=
    apart_elim (fun _ => apart_cons _ (by decide)) _
  have hbody := block_apart f.body
  exact (effects_stand f.effects).append ((result_stands f.result).append (block_stands f.body) hbody)
    (hresult.append hbody)

theorem routine_stands (f : Routine) : Stands f.elements := by
  have hclause := (tail_stands f).mark (show TokenKind.mark? .rightParen = some ')' from rfl) (by decide)
  have hopen := ((slots_stand f.slots).append hclause (apart_cons _ (by decide))).mark
    (show TokenKind.mark? .leftParen = some '(' from rfl) (by decide)
  exact hopen.word f.name.isName (apart_cons _ (by decide))

/-! ### Declarations -/

theorem Qualifier.isKnown (q : Qualifier) : q.word ∈ modifierWords := List.mem_of_mem_erase q.isModifier

theorem qualifier_starts (q : Qualifier) : Starts q.elements := starts_word (modifier_name q.isKnown) _

/-- Words with a space before more that begins with a lexeme. -/
theorem spaced_stands {cs : List Char} (hn : Name cs) {es : List Element} (h : Stands es) (hs : Starts es) :
    Stands (.word cs :: .space :: es) :=
  (h.space hs).word hn (apart_cons _ (by decide))

theorem qualifier_stands (q : Qualifier) {es : List Element} (h : Stands es) (hs : Starts es) :
    Stands (q.elements ++ es) := by
  have hword := modifier_name q.isKnown
  unfold Qualifier.elements
  cases hd : q.detail with
  | none => exact spaced_stands hword h hs
  | some d =>
    have hdetail := q.isName d hd
    have hclose := (h.space hs).mark (show TokenKind.mark? .rightParen = some ')' from rfl) (by decide)
    have hopen := (hclose.word hdetail (apart_cons _ (by decide))).mark
      (show TokenKind.mark? .leftParen = some '(' from rfl) (by decide)
    exact hopen.word hword (apart_cons _ (by decide))

theorem qualifiers_stand (qs : List Qualifier) {es : List Element} (h : Stands es) (hs : Starts es) :
    Stands (qualifierElements qs ++ es) ∧ Starts (qualifierElements qs ++ es) := by
  induction qs with
  | nil => exact ⟨h, hs⟩
  | cons q qs ih =>
    rw [qualifierElements, List.flatMap_cons, List.append_assoc]
    exact ⟨qualifier_stands q ih.1 ih.2, (qualifier_starts q).append _⟩

theorem member_stands (q : Qualifiers) {es : List Element} (h : Stands es) (hs : Starts es) :
    Stands (q.elements ++ es) ∧ Starts (q.elements ++ es) := by
  have hclass : Name "class".toList := name_of_plain (by decide)
  unfold Qualifiers.elements
  rw [List.append_assoc]
  split
  · exact qualifiers_stand q.front (spaced_stands hclass h hs) (starts_word hclass _)
  · exact qualifiers_stand q.front h hs

theorem skipped_stands (s : Skipped) : Stands s.elements ∧ Starts s.elements := by
  have hrest (rest : Remainder) : Stands rest.elements := fun _ ha => rest.fits ha
  cases s with
  | initializer rest =>
    have hn : Name "init".toList := name_of_plain (by decide)
    exact ⟨spaced_stands hn (hrest rest) rest.begins, starts_word hn _⟩
  | deinitializer rest =>
    have hn : Name "deinit".toList := name_of_plain (by decide)
    exact ⟨spaced_stands hn (hrest rest) rest.begins, starts_word hn _⟩
  | synonym name rest =>
    have hn : Name "typealias".toList := name_of_plain (by decide)
    exact ⟨spaced_stands hn (spaced_stands name.isName (hrest rest) rest.begins) (starts_word name.isName _),
      starts_word hn _⟩

theorem inheritance_stands (inherited : List TypeTerm) :
    Stands (inheritanceElements inherited) ∧ Apart (inheritanceElements inherited) := by
  cases inherited with
  | nil => exact ⟨stands_nil, apart_nil⟩
  | cons t ts =>
    exact ⟨((types_stand (t :: ts)).space ((starts_type t).append _)).mark rfl (by decide), apart_cons _ (by decide)⟩

theorem variables_stand (first : Variable) (others : List Variable) :
    Stands (first.elements ++ others.flatMap fun v => .mark .comma ',' :: .space :: v.elements) := by
  have hothers : Stands (others.flatMap fun v => .mark .comma ',' :: .space :: v.elements) :=
    stands_flatMap (fun v => ((variable_stands v).space (variable_starts v)).mark rfl (by decide))
      (fun _ => apart_cons _ (by decide)) _
  exact (variable_stands first).append hothers (apart_flatMap fun _ _ => apart_cons _ (by decide))

theorem directive_stands (keyword : ClauseKeyword) {es : List Element} (h : Stands es) (ha : Apart es) :
    Stands (directiveElement keyword :: es) := by
  intro after hs
  refine ⟨?_, h after hs⟩
  have hw : (es.flatMap Element.text ++ after).head?.any isWordChar = false := (ha after hs).head_not fun _ => word_goes_on
  cases keyword with
  | ifClause =>
    exact @directive_fits 'i' ['f'] _ (by decide) (by decide) hw
  | elseifClause =>
    exact @directive_fits 'e' ['l', 's', 'e', 'i', 'f'] _ (by decide) (by decide) hw
  | elseClause =>
    exact @directive_fits 'e' ['l', 's', 'e'] _ (by decide) (by decide) hw

theorem endif_stands : Stands [⟨.lexeme .hashWord, "#endif".toList⟩] := by
  intro after hs
  exact ⟨@directive_fits 'e' ['n', 'd', 'i', 'f'] _ (by decide) (by decide) (hs.head_not fun _ => word_goes_on), trivial⟩

theorem Stands.lineBreak {es : List Element} (h : Stands es) (hs : Starts es) : Stands (.lineBreak [] :: es) :=
  fun after ha => fitting_break (hs.not_blank after) (h after ha)

theorem directive_starts (keyword : ClauseKeyword) (es : List Element) : Starts (directiveElement keyword :: es) := by
  cases keyword <;> exact ⟨_, '#', _, _, rfl, by decide⟩

theorem clauseLine_stands (keyword : ClauseKeyword) (condition : Condition) {es : List Element} (h : Stands es)
    (hs : Starts es) : Stands (clauseLine keyword condition ++ es) := by
  have hbreak : Apart (.lineBreak [] :: es) := apart_cons _ (by decide)
  have hcondition : Stands (condition.elements ++ .lineBreak [] :: es) :=
    Stands.append (fun _ ha => condition.fits ha) (h.lineBreak hs) hbreak
  have := directive_stands keyword (hcondition.space (condition.begins.append _)) (apart_cons _ (by decide))
  simpa [clauseLine] using this

mutual

theorem source_stands (s : Source) : Stands s.elements ∧ Starts s.elements := by
  cases s with
  | type qualifiers keyword name inherited members =>
    have hkeyword : Name keyword.text.toList := name_of_plain (by cases keyword <;> decide)
    have hbrace : Starts [.mark .rightBrace '\x7d'] := ⟨_, '\x7d', [], _, rfl, by decide⟩
    obtain ⟨hmembers, hstarts⟩ := page_stands members (stands_nil.mark rfl (by decide)) hbrace
    obtain ⟨hinherited, hapart⟩ := inheritance_stands inherited
    have hblock := (hmembers.lineBreak hstarts).mark (show TokenKind.mark? .leftBrace = some '\x7b' from rfl) (by decide)
    have hspace := hblock.space ⟨_, '\x7b', [], _, rfl, by decide⟩
    have hopen := apart_cons (e := .space) (.mark .leftBrace '\x7b' :: .lineBreak [] :: (page members ++
      [.mark .rightBrace '\x7d'])) (by decide)
    have hname := (hinherited.append hspace hopen).word name.isName (hapart.append hopen)
    exact qualifiers_stand qualifiers (spaced_stands hkeyword hname (starts_word name.isName _)) (starts_word hkeyword _)
  | variableList qualifiers keyword first others =>
    have hkeyword : Name keyword.text.toList := name_of_plain (by cases keyword <;> decide)
    have hfirst := (variable_starts first).append (others.flatMap fun v => .mark .comma ',' :: .space :: v.elements)
    exact member_stands qualifiers (spaced_stands hkeyword (variables_stand first others) hfirst) (starts_word hkeyword _)
  | function qualifiers routine =>
    have hfunc : Name "func".toList := name_of_plain (by decide)
    exact member_stands qualifiers (spaced_stands hfunc (routine_stands routine) (starts_word routine.name.isName _))
      (starts_word hfunc _)
  | skipped qualifiers skipped =>
    obtain ⟨hs, hstarts⟩ := skipped_stands skipped
    exact qualifiers_stand qualifiers hs hstarts
  | conditional condition members arms =>
    have hend : Starts [⟨.lexeme .hashWord, "#endif".toList⟩] := ⟨_, '#', _, _, rfl, by decide⟩
    obtain ⟨harms, hstarts⟩ := arms_stand arms endif_stands hend
    obtain ⟨hmembers, hstarts⟩ := page_stands members harms hstarts
    exact ⟨clauseLine_stands _ condition hmembers hstarts, directive_starts _ _⟩

theorem page_stands (ss : List Source) {es : List Element} (h : Stands es) (hs : Starts es) :
    Stands (page ss ++ es) ∧ Starts (page ss ++ es) := by
  cases ss with
  | nil => exact ⟨h, hs⟩
  | cons s ss =>
    obtain ⟨hfirst, hstarts⟩ := source_stands s
    obtain ⟨hrest, hrests⟩ := page_stands ss h hs
    rw [page, List.append_assoc]
    exact ⟨hfirst.append (hrest.lineBreak hrests) (apart_cons _ (by decide)), hstarts.append _⟩

theorem arms_stand (arms : List Arm) {es : List Element} (h : Stands es) (hs : Starts es) :
    Stands (armElements arms ++ es) ∧ Starts (armElements arms ++ es) := by
  match arms with
  | [] => exact ⟨h, hs⟩
  | .mk (some condition) members :: arms =>
    obtain ⟨harms, hstarts⟩ := arms_stand arms h hs
    obtain ⟨hmembers, hstarts⟩ := page_stands members harms hstarts
    rw [armElements, List.append_assoc, List.append_assoc]
    exact ⟨clauseLine_stands _ condition hmembers hstarts, directive_starts _ _⟩
  | .mk none members :: arms =>
    obtain ⟨harms, hstarts⟩ := arms_stand arms h hs
    obtain ⟨hmembers, hstarts⟩ := page_stands members harms hstarts
    rw [armElements, List.cons_append, List.cons_append, List.append_assoc]
    exact ⟨directive_stands _ (hmembers.lineBreak hstarts) (apart_cons _ (by decide)), directive_starts _ _⟩

end

/-- The text of a file is cut into what was printed. -/
theorem page_fits (sources : List Source) : Fitting (page sources) [] := by
  induction sources with
  | nil => trivial
  | cons s sources ih =>
    rw [page, fitting_append]
    refine ⟨(source_stands s).1 _ rfl, fitting_break ?_ ih⟩
    cases sources with
    | nil => rfl
    | cons s sources => exact ((source_stands s).2.append _).not_blank []

end TestHooks.Swift
