import TestHooks.Proofs.Nesting

/-!
# What members are called on

A receiver is written before a dot and the name of a member. Names are receivers, and so is the name of a type that
nests its brackets (`IsPlain`).
-/

namespace TestHooks.Swift

open TestHooks.Text

/-- True if the name of a type nests its brackets, has no braces, and outside brackets has nothing that ends a type. -/
def isPlain (name : String) : Bool :=
  let read := Tokens.ofText name
  read.failure.isNone && nests [] read.tokens

/-! ### Receivers -/

structure Receiver (text : List Char) (es : List Element) : Prop where
  begins : text.head?.any (!isBlank ·) = true
  spelling : Spelling text es []
  dotted : ∀ {c : Char} {cs : List Char}, c ≠ '.' ∧ c ≠ '<' → isDecimalDigit c = false → Fitting es ('.' :: c :: cs)
  ends : EndsInLexeme es
  nests : nests [] (bareTokens es) = true

/-- What may stand before a dot and the name of a member. -/
structure Stem (text : List Char) (es : List Element) : Prop where
  begins : text.head?.any (!isBlank ·) = true
  spelling : Spelling text es []
  dotted : ∀ {c : Char} {cs : List Char}, c ≠ '.' ∧ c ≠ '<' → isDecimalDigit c = false → Fitting es ('.' :: c :: cs)

theorem begins_before {text : List Char} (h : text.head?.any (!isBlank ·) = true) (rest : List Char) :
    (text ++ rest).head?.any (!isBlank ·) = true := by
  cases text with
  | nil => cases h
  | cons c cs => exact h

theorem name_begins {cs : List Char} (h : Name cs) :
    ∃ c ds, cs = c :: ds ∧ (c ≠ '.' ∧ c ≠ '<') ∧ isDecimalDigit c = false ∧ isOperatorChar c = false ∧
      isBlank c = false := by
  obtain ⟨c, ds, rfl, hb⟩ := h.titled.begins
  refine ⟨c, ds, rfl, ?_⟩
  cases h with
  | plain hc _ =>
    have hd : isDecimalDigit c = false := by
      rw [isWordStart, Bool.and_eq_true, Bool.not_eq_true'] at hc
      exact hc.2
    refine ⟨⟨word_start_ne hc (by decide), word_start_ne hc (by decide)⟩, hd, ?_, hb⟩
    have ho : ∀ c ∈ "/=-+!*%&|^~?\\".toList, isWordStart c = false := by decide
    rw [Bool.eq_false_iff]
    intro hx
    rw [ho c (List.contains_iff_mem.1 hx)] at hc
    cases hc
  | dollar _ _ => decide
  | escaped _ _ => decide

theorem receiver_word {cs : List Char} (h : Name cs) : Receiver cs [.word cs] where
  begins := by
    obtain ⟨c, ds, rfl, -, -, -, hb⟩ := name_begins h
    rw [List.head?_cons, Option.any_some, hb]
    rfl
  spelling := by
    have := spelling_nil.word h rfl
    rwa [List.append_nil] at this
  dotted {c cs} _ _ := by
    have hd : isWordChar '.' = false := by decide
    exact ⟨word_fits h hd, trivial⟩
  ends := ⟨[], _, _, rfl⟩
  nests := rfl

theorem Receiver.stem {text : List Char} {es : List Element} (h : Receiver text es) : Stem text es :=
  ⟨h.begins, h.spelling, h.dotted⟩

/-- A name behind a dot. -/
theorem Stem.member {text name rest tail : List Char} {es fs : List Element} (h : Stem text es) (hn : Name name)
    (hr : Spelling rest fs tail) (hs : rest.head?.any isWordChar = false) :
    Spelling (text ++ '.' :: (name ++ rest)) (es ++ .mark .dot '.' :: .word name :: fs) tail := by
  obtain ⟨c, ds, rfl, hc, hd, -⟩ := name_begins hn
  have hm : Spelling ('.' :: (c :: ds ++ rest)) (.mark .dot '.' :: .word (c :: ds) :: fs) tail := by
    apply (hr.word hn hs).mark rfl
    rintro - hx
    exact hc.1 (Option.some.inj hx)
  have ht := h.spelling.flatten
  rw [List.append_nil] at ht
  constructor
  · rw [List.flatMap_append, List.append_assoc, hm.flatten, ht]
  · intro after ha
    rw [fitting_append, ← List.append_assoc, hm.flatten]
    exact ⟨h.dotted hc hd, hm.fits after ha⟩
  · rw [List.mem_append, not_or]
    exact ⟨h.spelling.line, hm.line⟩
  · exact hm.comment

theorem Receiver.member {text name rest tail : List Char} {es fs : List Element} (h : Receiver text es) (hn : Name name)
    (hr : Spelling rest fs tail) (hs : rest.head?.any isWordChar = false) :
    Spelling (text ++ '.' :: (name ++ rest)) (es ++ .mark .dot '.' :: .word name :: fs) tail :=
  h.stem.member hn hr hs

/-- The stored instance where a parameter has its name. -/
theorem receiver_self {cs : List Char} (h : Name cs) :
    Receiver ("self.".toList ++ cs) [.word "self".toList, .mark .dot '.', .word cs] where
  begins := rfl
  spelling := by
    have hs : Name "self".toList := .plain (by decide) (by decide)
    have := (receiver_word hs).member h spelling_nil rfl
    rwa [List.append_nil] at this
  dotted {c ds} _ _ := by
    have hs : Name "self".toList := .plain (by decide) (by decide)
    have hd : isWordChar '.' = false := by decide
    obtain ⟨b, cs, rfl, hb, -⟩ := name_begins h
    refine ⟨word_fits hs hd, mark_fits rfl ?_, word_fits h hd, trivial⟩
    rintro - hx
    exact hb.1 (Option.some.inj hx)
  ends := ⟨[.word "self".toList, .mark .dot '.'], _, _, rfl⟩
  nests := rfl

/-! ### Names of types -/

/-- Elements of a line fit before other text, if the text behind each of them answers the same questions. -/
theorem fitting_exchange {es : List Element} {tail after : List Char} (h : Fitting es tail)
    (hs : ∀ e ∈ es, e.shape ≠ .lineComment) (hb : tail = [] → ∀ e, es.getLast? = some e → e.shape ≠ .blank)
    (ha : ∀ front back, es = front ++ back → front ≠ [] →
      Quieter (back.flatMap Element.text ++ (tail ++ after)) (back.flatMap Element.text ++ tail) ∧
        Agrees isQuoting (back.flatMap Element.text ++ (tail ++ after)) (back.flatMap Element.text ++ tail)) :
    Fitting es (tail ++ after) := by
  induction es with
  | nil => trivial
  | cons e es ih =>
    obtain ⟨hq, hg⟩ := ha [e] es rfl (List.cons_ne_nil _ _)
    constructor
    · apply h.1.respaced (hs e List.mem_cons_self) (respaced_refl false _) hq hg
      intro hsh hx
      cases hc : es.flatMap Element.text ++ tail with
      | nil =>
        obtain ⟨hes, rfl⟩ := List.append_eq_nil_iff.1 hc
        cases es with
        | nil => exact absurd hsh (hb rfl e rfl)
        | cons f es =>
          obtain ⟨c, cs, ht, -⟩ := head_of_fits h.2.1
          rw [List.flatMap_cons, ht] at hes
          cases hes
      | cons c cs =>
        rw [hc] at hx
        rw [← List.append_assoc, hc]
        exact hx
    · apply ih h.2 (fun f hf => hs f (List.mem_cons_of_mem _ hf)) (fun ht f hf => hb ht f (getLast_cons hf))
      intro front back he hn
      exact ha (e :: front) back (by rw [he, List.cons_append]) (List.cons_ne_nil _ _)

theorem fitting_separated {es : List Element} {tail after : List Char} (h : Fitting es tail)
    (hs : ∀ e ∈ es, e.shape ≠ .lineComment) (hb : tail = [] → ∀ e, es.getLast? = some e → e.shape ≠ .blank)
    (ha : Separated after) : Fitting es (tail ++ after) := by
  apply fitting_exchange h hs hb
  intro front back _ _
  have hi : Agrees isInside (back.flatMap Element.text ++ tail ++ after) (back.flatMap Element.text ++ tail ++ []) :=
    (agrees_of_separated ha []).respaced (fun c hc => inside_not_blank hc) (respaced_refl false _)
  rw [List.append_nil, List.append_assoc] at hi
  exact ⟨hi.quieter, hi.mono fun c hc => quoting_inside hc⟩

/-- A comment on a line takes the rest of it. -/
theorem comment_swallows {e : Element} {rest : List Char} (h : e.Fits rest) (hs : e.shape = .lineComment)
    (hl : '\n' ∉ e.text ++ rest) : rest = [] ∧ ∃ cs, e.text = '/' :: '/' :: cs := by
  obtain ⟨body, rfl, -, ha⟩ := comment_of_fits h hs
  refine ⟨?_, body, rfl⟩
  cases rest with
  | nil => rfl
  | cons d ds =>
    obtain rfl : d = '\n' := by simpa using ha
    exact absurd (List.mem_append_right _ List.mem_cons_self) hl

/-- The characters that names end with. -/
def isNameEnd (c : Char) : Bool := isWordChar c || c == backtick

theorem Name.ends {cs : List Char} (h : Name cs) : ∃ d, cs.getLast? = some d ∧ isNameEnd d = true := by
  have hlast {c : Char} {ds : List Char} (hd : ∀ d ∈ ds, isWordChar d = true) (hn : ds = [] → isWordChar c = true) :
      ∃ d, (c :: ds).getLast? = some d ∧ isNameEnd d = true := by
    refine ⟨_, List.getLast?_eq_some_getLast (List.cons_ne_nil c ds), ?_⟩
    rw [isNameEnd, Bool.or_eq_true]
    left
    cases ds with
    | nil => exact hn rfl
    | cons d ds =>
      rw [List.getLast_cons (List.cons_ne_nil d ds)]
      exact hd _ (List.getLast_mem _)
  cases h with
  | plain hc hs =>
    rw [isWordStart, Bool.and_eq_true] at hc
    exact hlast hs fun _ => hc.1
  | dollar hn hs => exact hlast hs fun hx => absurd hx hn
  | escaped _ _ =>
    refine ⟨backtick, ?_, by decide⟩
    rw [← List.cons_append, List.getLast?_append, List.getLast?_singleton, Option.some_or]

/-- What ends like a name ends with a word or a mark, or in a comment. -/
theorem last_of_nameEnd {es : List Element} {e : Element} {d : Char} (hf : Fitting es []) (hl : es.getLast? = some e)
    (hd : (es.flatMap Element.text).getLast? = some d) (hn : isNameEnd d = true) (hc : e.shape ≠ .lineComment) :
    ∃ c cs kind, e.shape = .lexeme kind ∧ e.text = c :: cs ∧ lexemeAt c cs = .ok (kind, cs.length) ∧
      e.text.getLast? = some d := by
  obtain ⟨front, rfl⟩ := List.getLast?_eq_some_iff.1 hl
  have hfit : e.Fits [] := (fitting_append.1 hf).2.1
  have hlast : e.text.getLast? = some d := by
    obtain ⟨c, cs, ht, -⟩ := head_of_fits hfit
    rw [List.flatMap_append, List.flatMap_cons, List.flatMap_nil, List.append_nil,
      List.getLast?_append_of_ne_nil _ (by rw [ht]; exact List.cons_ne_nil c cs)] at hd
    exact hd
  cases fits_iff.1 hfit with
  | @blank b bs hb hbs _ =>
    have hall : ∀ x ∈ b :: bs, isBlank x = true := List.forall_mem_cons.2 ⟨hb, hbs⟩
    have hbl := hall d (List.mem_of_getLast? hlast)
    rw [isNameEnd, Bool.or_eq_true, beq_iff_eq] at hn
    rcases hn with hn | rfl
    · rw [word_not_blank hn] at hbl
      cases hbl
    · exact absurd hbl (by decide)
  | lineComment => exact absurd rfl hc
  | blockComment htail =>
    rw [comment_last htail] at hlast
    cases hlast
    exact absurd hn (by decide)
  | lexeme _ _ hx =>
    rw [List.append_nil] at hx
    exact ⟨_, _, _, rfl, rfl, hx, hlast⟩

/-- The text before a comment at the end of a line is spelled by its elements. -/
theorem comment_split {es : List Element} (hf : Fitting es []) (hl : '\n' ∉ es.flatMap Element.text) :
    (∀ e ∈ es, e.shape ≠ .lineComment) ∨
      ∃ front tail, es = front ++ [⟨.lineComment, tail⟩] ∧ (∀ e ∈ front, e.shape ≠ .lineComment) ∧
        ∃ cs, tail = '/' :: '/' :: cs := by
  induction es with
  | nil => exact .inl nofun
  | cons e es ih =>
    rw [List.flatMap_cons] at hl
    by_cases hs : e.shape = .lineComment
    · right
      have hsw := comment_swallows hf.1 hs (by rwa [List.append_nil])
      rw [List.append_nil] at hsw
      have hn : es = [] := by
        cases es with
        | nil => rfl
        | cons f es =>
          obtain ⟨c, cs, ht, -⟩ := head_of_fits hf.2.1
          rw [List.flatMap_cons, ht] at hsw
          cases hsw.1
      refine ⟨[], e.text, ?_, nofun, hsw.2⟩
      rw [hn, ← hs]
      rfl
    · rw [List.mem_append, not_or] at hl
      rcases ih hf.2 hl.2 with hall | ⟨front, tail, rfl, hall, hc⟩
      · left
        intro f hm
        rcases List.mem_cons.1 hm with rfl | hm
        · exact hs
        · exact hall f hm
      · right
        refine ⟨e :: front, tail, rfl, ?_, hc⟩
        intro f hm
        rcases List.mem_cons.1 hm with rfl | hm
        · exact hs
        · exact hall f hm

/-- A lexeme that ends like a name is neither a dot nor an arrow. -/
theorem not_bridge_of_nameEnd {c d : Char} {cs : List Char} {kind : TokenKind}
    (h : lexemeAt c cs = .ok (kind, cs.length)) (hd : (c :: cs).getLast? = some d) (hn : isNameEnd d = true) :
    kind ≠ .dot ∧ kind ≠ .arrow := by
  cases lexeme_at_cases h with
  | mark _ hp hlen =>
    have hm := mark_of_punctuation hp
    rw [List.eq_nil_of_length_eq_zero hlen] at hd
    cases hd
    constructor
    · rintro rfl
      cases hm
      exact absurd hn (by decide)
    · rintro rfl
      cases hm
  | string => simp
  | word _ _ hw =>
    cases word_lexeme_cases hw with
    | arrow _ hh hlen =>
      obtain ⟨x, rfl⟩ := List.length_eq_one_iff.1 hlen
      cases hh
      rw [List.getLast?_cons_cons, List.getLast?_singleton, Option.some.injEq] at hd
      rw [← hd] at hn
      exact absurd hn (by decide)
    | atWord | hashWord | escaped | dollar | word | number | ellipsis | operator => simp

/-- Elements that end like a name, none of them a comment to the end of its line. -/
structure NameEnded (es : List Element) : Prop where
  fits : Fitting es []
  uncommented : ∀ e ∈ es, e.shape ≠ .lineComment
  ends : ∃ d, (es.flatMap Element.text).getLast? = some d ∧ isNameEnd d = true

namespace NameEnded

variable {es : List Element} (h : NameEnded es)

include h

theorem last : ∃ front kind c cs d, es = front ++ [⟨.lexeme kind, c :: cs⟩] ∧
    lexemeAt c cs = .ok (kind, cs.length) ∧ (c :: cs).getLast? = some d ∧ isNameEnd d = true := by
  obtain ⟨d, hd, hn⟩ := h.ends
  cases hlast : es.getLast? with
  | none =>
    rw [List.getLast?_eq_none_iff.1 hlast] at hd
    cases hd
  | some e =>
    obtain ⟨c, cs, kind, hk, ht, hlex, hend⟩ :=
      last_of_nameEnd h.fits hlast hd hn (h.uncommented e (List.mem_of_getLast? hlast))
    obtain ⟨front, rfl⟩ := List.getLast?_eq_some_iff.1 hlast
    refine ⟨front, kind, c, cs, d, ?_, hlex, ht ▸ hend, hn⟩
    rw [← hk, ← ht]

theorem endsInLexeme : EndsInLexeme es := by
  obtain ⟨front, kind, c, cs, -, he, -⟩ := h.last
  exact ⟨front, kind, c :: cs, he⟩

theorem last_not_blank : ([] : List Char) = [] → ∀ e, es.getLast? = some e → e.shape ≠ .blank := by
  obtain ⟨front, kind, c, cs, -, rfl, -⟩ := h.last
  rintro - e he
  rw [List.getLast?_append, List.getLast?_singleton, Option.some_or] at he
  cases he
  nofun

theorem separated {after : List Char} (ha : Separated after) : Fitting es after :=
  fitting_separated h.fits h.uncommented h.last_not_blank ha

/-- Such elements may stand before the dot of a member. -/
theorem dotted {x : Char} {xs : List Char} (hx : x ≠ '.' ∧ x ≠ '<') (hdx : isDecimalDigit x = false) :
    Fitting es ('.' :: x :: xs) := by
  have hq : isQuoting '.' = false := by decide
  obtain ⟨d, hd, hn⟩ := h.ends
  rw [← List.nil_append ('.' :: x :: xs)]
  apply fitting_exchange h.fits h.uncommented h.last_not_blank
  intro front back hs _
  rw [List.nil_append]
  have ha : Agrees isQuoting (back.flatMap Element.text ++ '.' :: x :: xs) (back.flatMap Element.text ++ []) :=
    (agrees_of_head (by rw [List.head?_cons, Option.any_some, hq]) []).respaced (fun c hc => quoting_not_blank hc)
      (respaced_refl false _)
  refine ⟨?_, ha⟩
  by_cases hb : back.flatMap Element.text = []
  · rw [hb]
    exact quieter_of_dot hx hdx []
  · apply quieter_append_dot hb
    intro hdot
    rw [hs, List.flatMap_append, hdot, List.getLast?_append, List.getLast?_singleton, Option.some_or] at hd
    cases hd
    exact absurd hn (by decide)

theorem last_not_continues {t : Token} (ht : (bareTokens es).getLast? = some t) : t.continuesType = false := by
  obtain ⟨front, kind, c, cs, d, rfl, hlex, hend, hn⟩ := h.last
  have hbare : bareTokens [⟨.lexeme kind, c :: cs⟩] = [⟨kind, String.ofList (c :: cs), "", .origin⟩] := rfl
  rw [bareTokens_append, hbare, List.getLast?_append, List.getLast?_singleton, Option.some_or] at ht
  cases ht
  obtain ⟨hdot, harrow⟩ := not_bridge_of_nameEnd hlex hend hn
  simp [Token.continuesType, hdot, harrow]

end NameEnded

/-- What can be cut to its end and ends like a name may stand before a member, or a comment takes its end. -/
theorem stem_of_cut {text : List Char} (ht : Titled text) (he : ∃ d, text.getLast? = some d ∧ isNameEnd d = true)
    (hfault : (Cut.ofText text).fault = none) :
    (Stem text (Cut.ofText text).elements ∧ EndsInLexeme (Cut.ofText text).elements ∧
        ∀ t, (bareTokens (Cut.ofText text).elements).getLast? = some t → t.continuesType = false) ∨
      ∃ front tail, tail ≠ [] ∧ Spelling text front tail ∧ (∀ e ∈ front, e.shape ≠ .lineComment) ∧
        bareTokens front = bareTokens (Cut.ofText text).elements := by
  have hl := ht.line
  have hb : text.head?.any (!isBlank ·) = true := by
    obtain ⟨c, cs, hc, hb⟩ := ht.begins
    rw [hc, List.head?_cons, Option.any_some, hb]
    rfl
  obtain ⟨hfit, hflat⟩ := elements_of_no_fault hfault
  generalize (Cut.ofText text).elements = es at hfit hflat ⊢
  subst hflat
  rcases comment_split hfit hl with hc | ⟨front, tail, rfl, hc, cs, rfl⟩
  · left
    have hended : NameEnded es := ⟨hfit, hc, he⟩
    exact ⟨⟨hb, ⟨by rw [List.append_nil], fun _ ha => hended.separated ha, hl, .inl rfl⟩, hended.dotted⟩,
      hended.endsInLexeme, fun _ => hended.last_not_continues⟩
  · right
    rw [fitting_append, List.flatMap_cons, List.flatMap_nil, List.append_nil, List.append_nil] at hfit
    rw [List.flatMap_append, List.flatMap_cons, List.flatMap_nil, List.append_nil] at hl ⊢
    refine ⟨front, _, List.cons_ne_nil _ _, ⟨rfl, fun after ha => ?_, hl, .inr ⟨cs, rfl⟩⟩, hc, ?_⟩
    · exact fitting_separated hfit.1 hc (fun hx => absurd hx (List.cons_ne_nil _ _)) ha
    · rw [bareTokens_append, show bareTokens [⟨.lineComment, '/' :: '/' :: cs⟩] = [] from rfl, List.append_nil]

/-- The name of a type that nests its brackets is a receiver, or a comment takes its end. -/
theorem receiver_of_plain {name : String} (ht : Titled name.toList)
    (he : ∃ d, name.toList.getLast? = some d ∧ isNameEnd d = true) (hp : isPlain name = true) :
    (∃ es, Receiver name.toList es ∧ ∀ t, (bareTokens es).getLast? = some t → t.continuesType = false) ∨
      ∃ front tail, tail ≠ [] ∧ Spelling name.toList front tail ∧ nests [] (bareTokens front) = true := by
  simp only [isPlain, Bool.and_eq_true, Option.isNone_iff_eq_none] at hp
  obtain ⟨hfail, hnest⟩ := hp
  have hbare : nests [] (bareTokens (Cut.ofText name.toList).elements) = true := by
    rw [← map_bare_ofElements .origin [], nests_bare]
    exact hnest
  rcases stem_of_cut ht he (no_failure_iff.1 hfail) with ⟨hs, hends, hlast⟩ | ⟨front, tail, htail, hs, -, hfront⟩
  · exact .inl ⟨_, ⟨hs.begins, hs.spelling, hs.dotted, hends, hbare⟩, hlast⟩
  · exact .inr ⟨front, tail, htail, hs, hfront ▸ hbare⟩

end TestHooks.Swift
