import TestHooks.Proofs.Chains
import TestHooks.Proofs.Gate

/-!
# The lines of an extension

An extension is written line by line: the lines that open its block and its proxy, the lines of the forwarded members,
each moved in by two levels, and the lines that close everything. Each line is cut into the elements that it was put
together from.
-/

namespace TestHooks.Proxy

open TestHooks.Swift TestHooks.Swift.Reader TestHooks.Text TestHooks.Reader

/-! ### Lines -/

theorem splitAt_of_not_mem {sep : Char} {piece : List Char} (h : sep ∉ piece) : Text.splitAt sep piece = [piece] := by
  induction piece with
  | nil => rfl
  | cons c piece ih =>
    rw [List.mem_cons, not_or] at h
    rw [Text.splitAt, if_neg (Ne.symm h.1), ih h.2]

theorem splitAt_append {sep : Char} {piece : List Char} (h : sep ∉ piece) (rest : List Char) :
    Text.splitAt sep (piece ++ sep :: rest) = piece :: Text.splitAt sep rest := by
  induction piece with
  | nil => rw [List.nil_append, Text.splitAt, if_pos rfl]
  | cons c piece ih =>
    rw [List.mem_cons, not_or] at h
    rw [List.cons_append, Text.splitAt, if_neg (Ne.symm h.1), ih h.2]

theorem splitAt_joinWith {sep : Char} {first : List Char} {others : List (List Char)}
    (h : ∀ piece ∈ first :: others, sep ∉ piece) :
    Text.splitAt sep (joinWith [sep] (first :: others)) = first :: others := by
  induction others generalizing first with
  | nil => exact splitAt_of_not_mem (h first List.mem_cons_self)
  | cons next others ih =>
    rw [joinWith, List.append_assoc, List.singleton_append, splitAt_append (h first List.mem_cons_self),
      ih fun piece hp => h piece (List.mem_cons_of_mem first hp)]

theorem lines_unlines {texts : List String} (hne : texts ≠ []) (h : ∀ t ∈ texts, '\n' ∉ t.toList) :
    lines (unlines texts) = texts := by
  obtain ⟨first, others, rfl⟩ := List.exists_cons_of_ne_nil hne
  have hpieces : ∀ piece ∈ first.toList :: others.map String.toList, '\n' ∉ piece := by
    intro piece hp
    rw [← List.map_cons] at hp
    obtain ⟨t, ht, rfl⟩ := List.mem_map.1 hp
    exact h t ht
  have hsep : "\n".toList = ['\n'] := rfl
  rw [lines, unlines, joinTexts, String.toList_ofList, hsep, List.map_cons, splitAt_joinWith hpieces, ← List.map_cons,
    List.map_map]
  simp [Function.comp_def]

/-- A line of a member as it stands in a proxy. -/
def memberText (indent : String) (l : Line) : List Char :=
  (Line.write indent ⟨2, l.write indent⟩).toList

section

variable {indent : String} (hindent : ∀ c ∈ indent.toList, c = ' ')

include hindent

theorem spaces_of_level (level : Nat) : ∀ c ∈ (List.replicate level indent).flatMap String.toList, c = ' ' := by
  intro c hc
  obtain ⟨s, hs, hc⟩ := List.mem_flatMap.1 hc
  rw [List.eq_of_mem_replicate hs] at hc
  exact hindent c hc

theorem indents_memberText : Indents (memberText indent) := by
  intro l
  refine ⟨(List.replicate 2 indent).flatMap String.toList ++ (List.replicate l.level indent).flatMap String.toList, ?_, ?_⟩
  · intro c hc
    rcases List.mem_append.1 hc with hc | hc
    · exact spaces_of_level hindent 2 c hc
    · exact spaces_of_level hindent l.level c hc
  · have hl : (l.write indent).toList = (List.replicate l.level indent).flatMap String.toList ++ l.text.toList :=
      toList_write indent l.level l.text
    rw [memberText, toList_write, hl, List.append_assoc]

theorem fragmentLines_writeLines {ls : List Line} {es : List Element} (h : Page (ls.map (memberText indent)) es) :
    (fragmentLines (writeLines indent ls)).map (fun l => (l.write indent).toList) = ls.map (memberText indent) := by
  have hlines : ∀ l ∈ ls, '\n' ∉ (l.write indent).toList ∧ ∃ c cs, (l.write indent).toList = c :: cs := by
    intro l hl
    obtain ⟨hbreak, c, hc, hspace⟩ := h.line (List.mem_map_of_mem hl)
    rw [memberText, toList_write, List.mem_append, not_or] at hbreak
    rw [memberText, toList_write, List.mem_append] at hc
    refine ⟨hbreak.2, ?_⟩
    rcases hc with hc | hc
    · exact absurd (spaces_of_level hindent 2 c hc) hspace
    · exact List.exists_cons_of_ne_nil (List.ne_nil_of_mem hc)
  have hne : ∀ l ∈ ls, (l.write indent).isEmpty = false := by
    intro l hl
    obtain ⟨-, c, cs, hc⟩ := hlines l hl
    exact isEmpty_of_cons hc
  cases ls with
  | nil => rfl
  | cons l ls =>
    have hwritten : (writeLines indent (l :: ls)).isEmpty = false := by
      obtain ⟨-, c, cs, hc⟩ := hlines l List.mem_cons_self
      have htext := toList_writeLines indent l ls
      rw [hc] at htext
      exact isEmpty_of_cons htext
    have hsplit : lines (writeLines indent (l :: ls)) = (l :: ls).map (Line.write indent) := by
      refine lines_unlines (by simp) ?_
      intro t ht
      obtain ⟨k, hk, rfl⟩ := List.mem_map.1 ht
      exact (hlines k hk).1
    rw [fragmentLines, hwritten, if_neg Bool.false_ne_true, hsplit, List.map_map, List.map_map]
    refine List.map_congr_left fun k hk => ?_
    simp only [Function.comp_apply, hne k hk, Bool.false_eq_true, if_false]
    rfl

end

/-! ### The lines of the frame -/

/-- What stands before a line of some level. -/
def margin (indent : String) (level : Nat) : List Char :=
  (List.replicate level indent).flatMap String.toList

/-- A line before the others on a page. -/
theorem page_line {indent : String} (hindent : ∀ c ∈ indent.toList, c = ' ') (level : Nat) {text : String} {tail : List Char}
    {es fs : List Element} {more : List (List Char)} (hs : Spelling text.toList es tail)
    (hb : text.toList.head?.any (!isBlank ·) = true) (hp : Page more fs) :
    Page ((Line.write indent ⟨level, text⟩).toList :: more)
      (.lineBreak (margin indent level) :: (es ++ (commented tail ++ fs))) := by
  have := Page.cons (spaces_of_level hindent level) hb hs hp
  rwa [← toList_write] at this

/-- A text that is cut into elements, none of them a comment on a line, and a word or a mark at its end. -/
theorem spelling_of_cut {text : List Char} {es : List Element} (h : Cut.ofText text = ⟨es, [], none⟩)
    (hc : ∀ e ∈ es, e.shape ≠ .lineComment) (he : EndsInLexeme es) (hl : '\n' ∉ text) : Spelling text es [] := by
  have hfit := fitting_ofText text
  have hflat := Cut.flatten_ofText text
  rw [h] at hfit
  rw [Cut.flatten, h, List.append_nil] at hflat
  obtain ⟨front, kind, cs, rfl⟩ := he
  have hblank : ([] : List Char) = [] → ∀ e, (front ++ [(⟨.lexeme kind, cs⟩ : Element)]).getLast? = some e → e.shape ≠ .blank := by
    rintro - e hx
    rw [List.getLast?_concat, Option.some.injEq] at hx
    rw [← hx]
    exact fun hx => Shape.noConfusion hx
  exact ⟨by rw [List.append_nil, hflat], fun after ha => fitting_separated hfit hc hblank ha, hl, .inl rfl⟩

/-- The elements of the line that opens the conditional block. -/
def gateElements : List Element :=
  [⟨.lexeme .hashWord, "#if".toList⟩, .space, .word "DEBUG".toList]

/-- The elements of the first line of the variable that gives the proxy. -/
def hooksElements : List Element :=
  .word "var".toList :: (nameElements "testHooks" ++ [.word "TestHooks".toList, .space, .mark .leftBrace '\x7b'])

/-- The elements of the line that makes a proxy. -/
def makerElements : List Element :=
  [.word "return".toList, .space, .word "TestHooks".toList, .mark .leftParen '(', .word "target".toList,
    .mark .colon ':', .space, .word "self".toList, .mark .rightParen ')']

/-- The elements of the first line of the proxy. -/
def proxyElements : List Element :=
  [.word "struct".toList, .space, .word "TestHooks".toList, .space, .mark .leftBrace '\x7b']

/-- The elements of the line that declares the stored instance. -/
def referenceElements (reference : String) (nes : List Element) : List Element :=
  .word "private".toList :: .space :: .word "var".toList :: (nameElements reference ++ nes)

/-- The elements of the first line of the initializer. -/
def initializerElements (nes : List Element) : List Element :=
  .word "fileprivate".toList :: .space :: .word "init".toList :: .mark .leftParen '(' :: .word "target".toList ::
    .mark .colon ':' :: .space :: (nes ++ [.mark .rightParen ')', .space, .mark .leftBrace '\x7b'])

/-- The elements of the line that stores the instance. -/
def storeElements (reference : String) : List Element :=
  [.word "self".toList, .mark .dot '.', .word reference.toList, .space, ⟨.lexeme .operator, ['=']⟩, .space,
    .word "target".toList]

theorem gate_spelling : Spelling "#if DEBUG".toList gateElements [] :=
  spelling_of_cut (by decide +kernel) (by decide) ⟨[_, _], _, _, rfl⟩ (by decide)

theorem hooks_spelling : Spelling "var testHooks: TestHooks \x7b".toList hooksElements [] :=
  spelling_of_cut (by decide +kernel) (by decide) ⟨[_, _, _, _, _, _, _], _, _, rfl⟩ (by decide)

theorem maker_spelling : Spelling "return TestHooks(target: self)".toList makerElements [] :=
  spelling_of_cut (by decide +kernel) (by decide) ⟨[_, _, _, _, _, _, _, _], _, _, rfl⟩ (by decide)

theorem proxy_spelling : Spelling "struct TestHooks \x7b".toList proxyElements [] :=
  spelling_of_cut (by decide +kernel) (by decide) ⟨[_, _, _, _], _, _, rfl⟩ (by decide)

theorem brace_line : Spelling "\x7d".toList [.mark .rightBrace '\x7d'] [] :=
  spelling_of_cut (by decide +kernel) (by decide) ⟨[], _, _, rfl⟩ (by decide)

theorem endif_spelling : Spelling "#endif".toList [⟨.lexeme .hashWord, "#endif".toList⟩] [] :=
  spelling_of_cut (by decide +kernel) (by decide) ⟨[], _, _, rfl⟩ (by decide)

theorem store_spelling {reference : String} (hn : Name reference.toList) :
    Spelling ("self." ++ reference ++ " = target").toList (storeElements reference) [] := by
  have ht : Name "target".toList := .plain (by decide) (by decide)
  have hs : Name "self".toList := .plain (by decide) (by decide)
  have hvalue := ((spelling_nil.word ht rfl).space (by decide)).operator (.inl rfl) (by decide)
  have hmember := (receiver_word hs).member hn (hvalue.space (by decide)) (by decide)
  have htext : ("self." ++ reference ++ " = target").toList =
      "self".toList ++ '.' :: (reference.toList ++ " = target".toList) := by
    simp [String.toList_append]
  rw [htext]
  exact hmember

theorem reference_spelling {name reference : String} (hn : Name reference.toList) {nes : List Element} {tail : List Char}
    (h : Spelling name.toList nes tail) (hb : name.toList.head?.any (!isBlank ·) = true) :
    Spelling ("private var " ++ reference ++ ": " ++ name).toList (referenceElements reference nes) tail := by
  have hvar : Name "var".toList := .plain (by decide) (by decide)
  have hprivate : Name "private".toList := .plain (by decide) (by decide)
  have hspace : isWordChar ' ' = false := by decide
  have hv : isBlank 'v' = false := by decide
  have hnamed := (name_spelling hn h hb).word hvar hspace
  have := (hnamed.space (by rw [show "var".toList = ['v', 'a', 'r'] from rfl]; simp [hv])).word hprivate hspace
  have htext : ("private var " ++ reference ++ ": " ++ name).toList = "private".toList ++ ' ' :: ("var".toList ++
      ' ' :: (reference.toList ++ ':' :: ' ' :: name.toList)) := by
    simp [String.toList_append]
  rw [htext]
  exact this

theorem close_spelling : Spelling [')', ' ', '\x7b'] [.mark .rightParen ')', .space, .mark .leftBrace '\x7b'] [] :=
  ((spelling_nil.mark rfl (by decide)).space (by decide)).mark rfl (by decide)

/-- What stands before the type in the first line of the initializer. -/
theorem initializer_spelling {name : String} {es : List Element} {tail : List Char}
    (h : Spelling (name.toList ++ [')', ' ', '\x7b']) es tail) (hb : name.toList.head?.any (!isBlank ·) = true) :
    Spelling ("fileprivate init(target: " ++ name ++ ") \x7b").toList
      (.word "fileprivate".toList :: .space :: .word "init".toList :: .mark .leftParen '(' :: .word "target".toList ::
        .mark .colon ':' :: .space :: es) tail := by
  have ht : Name "target".toList := .plain (by decide) (by decide)
  have hi : Name "init".toList := .plain (by decide) (by decide)
  have hf : Name "fileprivate".toList := .plain (by decide) (by decide)
  have hmarks : isWordChar ' ' = false ∧ isWordChar ':' = false ∧ isWordChar '(' = false := by decide
  have hblank : isBlank 'i' = false := by decide
  have hclause := (h.space (begins_before hb _)).mark
    (show TokenKind.mark? .colon = some ':' from rfl) fun hx => absurd hx (by decide)
  have hopen := (hclause.word ht hmarks.2.1).mark (show TokenKind.mark? .leftParen = some '(' from rfl)
    fun hx => absurd hx (by decide)
  have hinit := hopen.word hi hmarks.2.2
  have := (hinit.space (by rw [show "init".toList = ['i', 'n', 'i', 't'] from rfl]; simp [hblank])).word hf hmarks.1
  have htext : ("fileprivate init(target: " ++ name ++ ") \x7b").toList = "fileprivate".toList ++ ' ' ::
      ("init".toList ++ '(' :: ("target".toList ++ ':' :: ' ' :: (name.toList ++ [')', ' ', '\x7b']))) := by
    simp [String.toList_append]
  rw [htext]
  exact this

/-- The elements of the lines between the one that opens the block and the members of the proxy. -/
def scopeElements (indent reference : String) (nes rest : List Element) : List Element :=
  .lineBreak (margin indent 1) :: (hooksElements ++ (insideElements (margin indent 2) (margin indent 1) makerElements ++
    .lineBreak (margin indent 1) :: (proxyElements ++ .lineBreak (margin indent 2) :: (referenceElements reference nes ++
      .lineBreak (margin indent 2) :: (initializerElements nes ++
        (insideElements (margin indent 3) (margin indent 2) (storeElements reference) ++ rest))))))

/-- The elements of the lines before the members of a proxy. -/
def frontElements (indent reference : String) (nes rest : List Element) : List Element :=
  .lineBreak (margin indent 1) :: (gateElements ++ scopeElements indent reference nes rest)

/-- The elements of the lines behind the proxy. -/
def backElements (indent : String) : List Element :=
  [.lineBreak (margin indent 1), ⟨.lexeme .hashWord, "#endif".toList⟩, .lineBreak (margin indent 0), .mark .rightBrace '\x7d']

section Frame

variable {indent : String} (hindent : ∀ c ∈ indent.toList, c = ' ')

include hindent

theorem front_page {plan : Plan} (hcondition : plan.condition = "DEBUG") {nes rest : List Element}
    (hr : Receiver plan.typeName.toList nes) (hn : Name plan.reference.toList) {more : List (List Char)}
    (hp : Page more rest) :
    Page (((openingLines plan).tail.map fun l => (l.write indent).toList) ++ more)
      (frontElements indent plan.reference nes rest) := by
  have hbrace (level : Nat) {more : List (List Char)} {fs : List Element} (hp : Page more fs) :=
    page_line hindent level brace_line (by decide) hp
  have hstore := page_line hindent 3 (store_spelling hn) (by simp [String.toList_append, show isBlank 's' = false by decide]) (hbrace 2 hp)
  have hfirst : Spelling ("fileprivate init(target: " ++ plan.typeName ++ ") \x7b").toList (initializerElements nes) [] :=
    initializer_spelling (hr.spelling.append close_spelling rfl) hr.begins
  have hinit := page_line hindent 2 hfirst (by simp [String.toList_append, show isBlank 'f' = false by decide]) hstore
  have hreference := page_line hindent 2 (reference_spelling hn hr.spelling hr.begins) (by simp [String.toList_append, show isBlank 'p' = false by decide]) hinit
  have hproxy := page_line hindent 1 proxy_spelling (by decide) hreference
  have hmaker := page_line hindent 2 maker_spelling (by decide) (hbrace 1 hproxy)
  have hgate := page_line hindent 1 gate_spelling (by decide) (page_line hindent 1 hooks_spelling (by decide) hmaker)
  rw [openingLines, hcondition]
  simpa [frontElements, scopeElements, insideElements, commented] using hgate

theorem back_page :
    Page (closingLines.map fun l => (l.write indent).toList) (endElements (margin indent 1) ++ backElements indent) :=
  page_line hindent 1 brace_line (by decide) (page_line hindent 1 endif_spelling (by decide)
    (page_line hindent 0 brace_line (by decide) Page.nil))

end Frame

end TestHooks.Proxy
