import TestHooks.Proofs.Printed

/-!
# Phrases that were printed

Types, literals, blocks and what is skipped are read from the tokens of what was printed: each ends where it was written
to end, because its brackets are balanced and because something that can only follow it comes next.
-/

namespace TestHooks.Swift

open TestHooks.Reader TestHooks.Text Reader

/-! ### Balance -/

section Balance

variable {ends : Token → Bool} {unclosed : List TokenKind} {t : Token} {ts : List Token}

/-- The steps of balance: a bracket opens, the innermost one is closed, or something else stands there. -/
theorem balances_cases (h : balances ends unclosed (t :: ts) = true) :
    (∃ closer, t.kind.closer? = some closer ∧ balances ends (closer :: unclosed) ts = true) ∨
      (∃ outer, unclosed = t.kind :: outer ∧ t.closesBracket = true ∧ balances ends outer ts = true) ∨
      (t.kind.closer? = none ∧ t.closesBracket = false ∧ (unclosed = [] → ends t = false) ∧
        balances ends unclosed ts = true) := by
  rw [balances] at h
  split at h
  · next closer hk => exact .inl ⟨closer, hk, h⟩
  · next hk =>
    split at h
    · next hc =>
      rw [Bool.and_eq_true, beq_iff_eq] at h
      obtain ⟨hh, h⟩ := h
      obtain ⟨outer, rfl⟩ := List.head?_eq_some_iff.1 hh
      exact .inr (.inl ⟨outer, rfl, hc, h⟩)
    · next hc =>
      rw [Bool.and_eq_true, Bool.or_eq_true] at h
      refine .inr (.inr ⟨hk, Bool.eq_false_iff.2 hc, ?_, h.2⟩)
      rintro rfl
      simpa using h.1

theorem closer_cases {kind closer : TokenKind} (h : kind.closer? = some closer) :
    (kind = .leftBrace ∧ closer = .rightBrace) ∨ (kind = .leftParen ∧ closer = .rightParen) ∨
      (kind = .leftBracket ∧ closer = .rightBracket) := by
  cases kind <;> cases h <;> simp

theorem closes_cases (h : t.closesBracket = true) :
    t.kind = .rightBrace ∨ t.kind = .rightParen ∨ t.kind = .rightBracket := by
  simpa [Token.closesBracket, or_assoc] using h

theorem opens_of_closer_none (h : t.kind.closer? = none) : t.opensBracket = false := by
  rw [Bool.eq_false_iff]
  intro ho
  simp only [Token.opensBracket, Bool.or_eq_true, beq_iff_eq] at ho
  rcases ho with (hk | hk) | hk <;> rw [hk] at h <;> cases h

/-- Tokens that agree in what `ends` looks at are balanced alike. -/
theorem balances_like (hends : ∀ ⦃t u : Token⦄, t.Like u → ends t = ends u) {us : List Token}
    (h : List.Forall₂ Token.Like ts us) : balances ends unclosed ts = balances ends unclosed us := by
  induction h generalizing unclosed with
  | nil => rfl
  | @cons t u ts us htu _ ih =>
    rw [balances, balances, htu.kind, htu.closesBracket, hends htu, ih, ih]
    split
    · exact ih
    · rfl

/-- A block of balanced tokens is closed by the brace behind them. -/
theorem split_of_balanced (h : balances ends unclosed ts = true) {closer : Token} (hc : closer.kind = .rightBrace)
    (rest : List Token) :
    splitGroup .leftBrace .rightBrace (unclosed.count .rightBrace) (ts ++ closer :: rest) =
      some (ts ++ [closer], rest) := by
  induction ts generalizing unclosed with
  | nil =>
    rw [balances, List.isEmpty_iff] at h
    simp [h, splitGroup, hc]
  | cons t ts ih =>
    rw [List.cons_append]
    unfold splitGroup
    rcases balances_cases h with ⟨inner, hk, h⟩ | ⟨outer, rfl, hk, h⟩ | ⟨hk, hx, -, h⟩
    · have := ih h
      rcases closer_cases hk with ⟨ho, rfl⟩ | ⟨ho, rfl⟩ | ⟨ho, rfl⟩
      · rw [List.count_cons_self] at this
        rw [if_pos ho, this]
        rfl
      all_goals
        rw [List.count_cons_of_ne (by decide)] at this
        rw [if_neg (by simp [ho]), if_neg (by simp [ho]), this]
        rfl
    · have := ih h
      rcases closes_cases hk with hk | hk | hk
      · rw [if_neg (by simp [hk]), if_pos hk, hk, List.count_cons_self]
        dsimp only
        rw [this]
        rfl
      all_goals
        rw [if_neg (by simp [hk]), if_neg (by simp [hk]), hk, List.count_cons_of_ne (by decide), this]
        rfl
    · have ho := opens_of_closer_none hk
      simp only [Token.opensBracket, Token.closesBracket, Bool.or_eq_false_iff, beq_eq_false_iff_ne] at ho hx
      rw [if_neg ho.1.1, if_neg hx.1.1, ih h]
      rfl

/-- A statement goes on over balanced tokens none of which ends it. -/
theorem afterStatement_of_balanced (h : balances Token.endsStatement unclosed ts = true) (isFirst : Bool)
    (rest : List Token) :
    afterStatement unclosed.length isFirst (ts ++ rest) = afterStatement 0 (isFirst && ts.isEmpty) rest := by
  induction ts generalizing unclosed isFirst with
  | nil =>
    rw [balances, List.isEmpty_iff] at h
    simp [h]
  | cons t ts ih =>
    have hgoes : unclosed = [] → t.kind ≠ .rightBrace ∧ t.endsStatement = false := by
      rintro rfl
      rcases balances_cases h with ⟨inner, hk, -⟩ | ⟨outer, he, -⟩ | ⟨-, hk, he, -⟩
      · rcases closer_cases hk with ⟨hk, -⟩ | ⟨hk, -⟩ | ⟨hk, -⟩ <;>
          simp [Token.endsStatement, Token.startsDeclaration, Token.isOneOf, hk]
      · cases he
      · simp only [Token.closesBracket, Bool.or_eq_false_iff, beq_eq_false_iff_ne] at hk
        exact ⟨hk.1.1, he rfl⟩
    have hdepth : ∃ inner, balances Token.endsStatement inner ts = true ∧
        statementDepth unclosed.length t = (inner.length : Int) := by
      rcases balances_cases h with ⟨inner, hk, h⟩ | ⟨outer, rfl, hk, h⟩ | ⟨hk, hx, -, h⟩
      · refine ⟨_, h, ?_⟩
        rcases closer_cases hk with ⟨hk, -⟩ | ⟨hk, -⟩ | ⟨hk, -⟩ <;> simp [statementDepth, Token.opensBracket, hk]
      · refine ⟨outer, h, ?_⟩
        rcases closes_cases hk with hk | hk | hk <;>
          simp [statementDepth, Token.opensBracket, Token.closesBracket, hk]
      · exact ⟨unclosed, h, by simp [statementDepth, opens_of_closer_none hk, hx]⟩
    obtain ⟨inner, hinner, hd⟩ := hdepth
    have hstep : afterStatement unclosed.length isFirst (t :: (ts ++ rest)) =
        afterStatement (statementDepth unclosed.length t) false (ts ++ rest) := by
      by_cases hz : unclosed = []
      · obtain ⟨hb, he⟩ := hgoes hz
        simp only [Token.endsStatement, Bool.or_eq_false_iff, beq_eq_false_iff_ne, Bool.and_eq_false_iff] at he
        exact afterStatement_step hb he.1 (.inr he.2) _ _
      · exact afterStatement_inside (by simpa using hz) _ _ _
    rw [List.cons_append, hstep, hd, ih hinner, List.isEmpty_cons, Bool.and_false, Bool.false_and]

end Balance

/-! ### Tokens of what was printed -/

theorem reads_like {broken : Bool} {es : List Element} {ts us : List Token} (ht : Reads broken es ts)
    (hu : Reads broken es us) : List.Forall₂ Token.Like ts us := by
  obtain ⟨place, gap, hg, rfl⟩ := ht
  obtain ⟨place', gap', hg', rfl⟩ := hu
  induction es generalizing place gap place' gap' broken with
  | nil => exact .nil
  | cons e es ih =>
    rw [Token.ofElements, Token.ofElements]
    split
    · refine .cons ⟨rfl, rfl, ?_⟩ (ih _ _ rfl _ _ rfl)
      rw [Token.newlineBefore, Token.newlineBefore, String.toList_ofList, String.toList_ofList, hg, hg']
    · have hgap (gap : List Char) : (gap ++ e.text).contains '\n' = (gap.contains '\n' || e.text.contains '\n') := by
        rw [Bool.eq_iff_iff]
        simp
      exact @ih (broken || e.text.contains '\n') _ _ (by rw [hgap, hg]) _ _ (by rw [hgap, hg'])

theorem reads_origin (es : List Element) : Reads false es (Token.ofElements .origin [] es) :=
  ⟨.origin, [], rfl, rfl⟩

@[simp] theorem bareTokens_nil : bareTokens [] = [] := rfl

@[simp] theorem bareTokens_lexeme (kind : TokenKind) (cs : List Char) (es : List Element) :
    bareTokens (⟨.lexeme kind, cs⟩ :: es) = ⟨kind, String.ofList cs, "", .origin⟩ :: bareTokens es := rfl

@[simp] theorem bareTokens_word (cs : List Char) (es : List Element) :
    bareTokens (.word cs :: es) = ⟨.identifier, String.ofList cs, "", .origin⟩ :: bareTokens es := rfl

@[simp] theorem bareTokens_mark (kind : TokenKind) (c : Char) (es : List Element) :
    bareTokens (.mark kind c :: es) = ⟨kind, String.ofList [c], "", .origin⟩ :: bareTokens es := rfl

@[simp] theorem bareTokens_space (es : List Element) : bareTokens (.space :: es) = bareTokens es := rfl

/-! ### Types -/

/-- The elements of a type nest their brackets in every context. -/
def NestsAlways (es : List Element) : Prop :=
  ∀ unclosed us, nests unclosed (bareTokens es ++ us) = nests unclosed us

theorem nests_identifier (unclosed : List TokenKind) (cs : List Char) (us : List Token) :
    nests unclosed (⟨.identifier, String.ofList cs, "", .origin⟩ :: us) = nests unclosed us := by
  simp [nests, Token.endsType]

theorem nests_dot (unclosed : List TokenKind) (us : List Token) :
    nests unclosed (⟨.dot, String.ofList ['.'], "", .origin⟩ :: us) = nests unclosed us := by
  simp [nests, Token.endsType]

theorem nests_inside (unclosed : List TokenKind) {kind : TokenKind} (hk : kind = .comma ∨ kind = .colon) (closer : TokenKind)
    (text : String) (us : List Token) :
    nests (closer :: unclosed) (⟨kind, text, "", .origin⟩ :: us) = nests (closer :: unclosed) us := by
  rcases hk with rfl | rfl <;> simp [nests]

theorem optionalMarks_nest (n : Nat) : NestsAlways (optionalMarks n) := by
  intro unclosed us
  cases n with
  | zero => rfl
  | succ n => simp [optionalMarks, nests, Token.endsType, List.replicate_succ]

theorem path_nests (others : List Identifier) :
    NestsAlways (others.flatMap fun i => [.mark .dot '.', i.element]) := by
  intro unclosed us
  induction others with
  | nil => rfl
  | cons i others ih =>
    rw [List.flatMap_cons, bareTokens_append, List.append_assoc]
    exact (nests_dot _ _).trans ((nests_identifier _ _ _).trans ih)

theorem effects_nest (effects : List Effect) : NestsAlways (effectElements effects) := by
  intro unclosed us
  induction effects with
  | nil => rfl
  | cons e effects ih =>
    rw [← ih]
    simp [effectElements, nests, Token.endsType]

mutual

theorem type_nests (t : TypeTerm) : NestsAlways t.elements := by
  intro unclosed us
  cases t with
  | named first others arguments marks =>
    have harguments : NestsAlways (if arguments.isEmpty then [] else
        .mark .leftAngle '<' :: (typeList arguments ++ [.mark .rightAngle '>'])) := by
      intro unclosed us
      split
      · rfl
      · rw [bareTokens_mark, bareTokens_append, List.cons_append, List.append_assoc, nests]
        dsimp only
        rw [typeList_nests arguments]
        simp [nests]
    rw [TypeTerm.elements, Identifier.element, bareTokens_word, bareTokens_append, bareTokens_append, List.cons_append,
      nests_identifier, List.append_assoc, List.append_assoc, path_nests, harguments, optionalMarks_nest]
  | array element marks =>
    rw [TypeTerm.elements, bareTokens_mark, bareTokens_append, List.cons_append, List.append_assoc, nests]
    dsimp only
    rw [type_nests element, bareTokens_mark, List.cons_append, nests]
    simpa using optionalMarks_nest marks unclosed us
  | dictionary key value marks =>
    rw [TypeTerm.elements, bareTokens_mark, bareTokens_append, List.cons_append, List.append_assoc, nests]
    dsimp only
    rw [type_nests key, bareTokens_mark, bareTokens_space, bareTokens_append, List.cons_append, List.append_assoc,
      nests_inside _ (.inr rfl), type_nests value, bareTokens_mark, List.cons_append, nests]
    simpa using optionalMarks_nest marks unclosed us
  | tuple elements marks =>
    rw [TypeTerm.elements, bareTokens_mark, bareTokens_append, List.cons_append, List.append_assoc, nests]
    dsimp only
    rw [typeList_nests elements, bareTokens_mark, List.cons_append, nests]
    simpa using optionalMarks_nest marks unclosed us
  | function parameters effects result =>
    have harrow : nests unclosed (bareTokens (.space :: arrowElement :: .space :: result.elements) ++ us) = nests unclosed us := by
      rw [← type_nests result unclosed us]
      simp [arrowElement, nests, Token.endsType]
    rw [TypeTerm.elements, bareTokens_mark, bareTokens_append, List.cons_append, List.append_assoc, nests]
    dsimp only
    rw [typeList_nests parameters, bareTokens_mark, bareTokens_append, List.cons_append, List.append_assoc, nests]
    simp only [List.head?_cons, List.tail_cons, beq_self_eq_true, Bool.true_and]
    rw [effects_nest, harrow]

theorem typeList_nests (ts : List TypeTerm) (unclosed : List TokenKind) (closer : TokenKind) (us : List Token) :
    nests (closer :: unclosed) (bareTokens (typeList ts) ++ us) = nests (closer :: unclosed) us := by
  cases ts with
  | nil => rfl
  | cons t ts => rw [typeList, bareTokens_append, List.append_assoc, type_nests t, typesAfter_nests ts]

theorem typesAfter_nests (ts : List TypeTerm) (unclosed : List TokenKind) (closer : TokenKind) (us : List Token) :
    nests (closer :: unclosed) (bareTokens (typesAfter ts) ++ us) = nests (closer :: unclosed) us := by
  cases ts with
  | nil => rfl
  | cons t ts =>
    rw [typesAfter, bareTokens_mark, bareTokens_space, bareTokens_append, List.cons_append, List.append_assoc,
      nests_inside _ (.inl rfl), type_nests t, typesAfter_nests ts]

end

/-- The element stands on one line and is not the word `where`. -/
def Element.isOrdinary (e : Element) : Prop :=
  '\n' ∉ e.text ∧ (e.token?.any (·.isOneOf ["where"])) = false

instance (e : Element) : Decidable e.isOrdinary := inferInstanceAs (Decidable (_ ∧ _))

theorem ordinary_name (i : Identifier) : i.element.isOrdinary := by
  refine ⟨i.isName.titled.line, ?_⟩
  have hw : i.text ≠ "where" := by
    intro hx
    apply i.isFree
    rw [hx]
    decide
  simp [Identifier.element, Element.word, Element.token?, Token.isOneOf, hw]

theorem ordinary_mark {kind : TokenKind} {c : Char} (hk : kind.mark? = some c) : (Element.mark kind c).isOrdinary := by
  cases kind <;> cases hk <;> decide

theorem ordinary_space : Element.space.isOrdinary := by decide

theorem optionalMarks_ordinary (n : Nat) : ∀ e ∈ optionalMarks n, e.isOrdinary := by
  cases n with
  | zero => exact List.forall_mem_nil _
  | succ n =>
    intro e he
    cases List.mem_singleton.1 he
    refine ⟨?_, rfl⟩
    intro hm
    cases List.eq_of_mem_replicate hm

theorem effects_ordinary (effects : List Effect) : ∀ e ∈ effectElements effects, e.isOrdinary := by
  intro e he
  obtain ⟨effect, -, he⟩ := List.mem_flatMap.1 he
  rcases List.mem_cons.1 he with rfl | he
  · exact ordinary_space
  · cases List.mem_singleton.1 he
    cases effect <;> decide

theorem forall_mem_append_cons {e : Element} {es fs : List Element} {p : Element → Prop} (he : ∀ x ∈ es, p x) (h : p e)
    (hf : ∀ x ∈ fs, p x) : ∀ x ∈ es ++ e :: fs, p x :=
  List.forall_mem_append.2 ⟨he, List.forall_mem_cons.2 ⟨h, hf⟩⟩

mutual

theorem type_ordinary (t : TypeTerm) : ∀ e ∈ t.elements, e.isOrdinary := by
  cases t with
  | named first others arguments marks =>
    refine List.forall_mem_cons.2 ⟨ordinary_name first, List.forall_mem_append.2 ⟨fun e he => ?_,
      List.forall_mem_append.2 ⟨?_, optionalMarks_ordinary marks⟩⟩⟩
    · obtain ⟨i, -, he⟩ := List.mem_flatMap.1 he
      rcases List.mem_cons.1 he with rfl | he
      · exact ordinary_mark rfl
      · cases List.mem_singleton.1 he
        exact ordinary_name i
    · split
      · exact List.forall_mem_nil _
      · exact List.forall_mem_cons.2 ⟨ordinary_mark rfl,
          forall_mem_append_cons (typeList_ordinary arguments) (ordinary_mark rfl) (List.forall_mem_nil _)⟩
  | array element marks =>
    exact List.forall_mem_cons.2 ⟨ordinary_mark rfl,
      forall_mem_append_cons (type_ordinary element) (ordinary_mark rfl) (optionalMarks_ordinary marks)⟩
  | dictionary key value marks =>
    exact List.forall_mem_cons.2 ⟨ordinary_mark rfl, forall_mem_append_cons (type_ordinary key) (ordinary_mark rfl)
      (List.forall_mem_cons.2 ⟨ordinary_space,
        forall_mem_append_cons (type_ordinary value) (ordinary_mark rfl) (optionalMarks_ordinary marks)⟩)⟩
  | tuple elements marks =>
    exact List.forall_mem_cons.2 ⟨ordinary_mark rfl,
      forall_mem_append_cons (typeList_ordinary elements) (ordinary_mark rfl) (optionalMarks_ordinary marks)⟩
  | function parameters effects result =>
    have harrow : arrowElement.isOrdinary := by decide
    exact List.forall_mem_cons.2 ⟨ordinary_mark rfl,
      forall_mem_append_cons (typeList_ordinary parameters) (ordinary_mark rfl)
        (forall_mem_append_cons (effects_ordinary effects) ordinary_space
          (List.forall_mem_cons.2 ⟨harrow, List.forall_mem_cons.2 ⟨ordinary_space, type_ordinary result⟩⟩))⟩

theorem typeList_ordinary (ts : List TypeTerm) : ∀ e ∈ typeList ts, e.isOrdinary := by
  cases ts with
  | nil => exact List.forall_mem_nil _
  | cons t ts => exact List.forall_mem_append.2 ⟨type_ordinary t, typesAfter_ordinary ts⟩

theorem typesAfter_ordinary (ts : List TypeTerm) : ∀ e ∈ typesAfter ts, e.isOrdinary := by
  cases ts with
  | nil => exact List.forall_mem_nil _
  | cons t ts =>
    exact List.forall_mem_cons.2 ⟨ordinary_mark rfl, List.forall_mem_cons.2 ⟨ordinary_space,
      List.forall_mem_append.2 ⟨type_ordinary t, typesAfter_ordinary ts⟩⟩⟩

end

theorem type_line (t : TypeTerm) : '\n' ∉ t.elements.flatMap Element.text := by
  intro hm
  obtain ⟨e, hm, hx⟩ := List.mem_flatMap.1 hm
  exact (type_ordinary t e hm).1 hx

/-- The elements end in a lexeme after which a type does not go on over a line break. -/
def EndsType (es : List Element) : Prop :=
  ∃ front kind cs, es = front ++ [⟨.lexeme kind, cs⟩] ∧ kind ≠ .arrow ∧ kind ≠ .dot

theorem EndsType.append {es : List Element} (h : EndsType es) (front : List Element) : EndsType (front ++ es) := by
  obtain ⟨fs, kind, cs, rfl, hk⟩ := h
  exact ⟨front ++ fs, kind, cs, (List.append_assoc _ _ _).symm, hk⟩

theorem EndsType.marked {es : List Element} (h : EndsType es) (n : Nat) : EndsType (es ++ optionalMarks n) := by
  cases n with
  | zero =>
    rw [optionalMarks, List.append_nil]
    exact h
  | succ n => exact ⟨es, _, _, rfl, nofun, nofun⟩

theorem endsType_bracket {front : List Element} {kind : TokenKind} {c : Char} (hk : kind ≠ .arrow ∧ kind ≠ .dot) (n : Nat) :
    EndsType (front ++ .mark kind c :: optionalMarks n) := by
  have h : EndsType (front ++ [.mark kind c]) := ⟨front, kind, [c], rfl, hk⟩
  simpa using h.marked n

theorem type_ends (t : TypeTerm) : EndsType t.elements := by
  match t with
  | .named first others arguments marks =>
    have hpath : EndsType (first.element :: others.flatMap fun i => [.mark .dot '.', i.element]) := by
      cases hx : others.getLast? with
      | none =>
        rw [List.getLast?_eq_none_iff.1 hx]
        exact ⟨[], _, _, rfl, nofun, nofun⟩
      | some last =>
        obtain ⟨front, rfl⟩ := List.getLast?_eq_some_iff.1 hx
        refine ⟨first.element :: ((front.flatMap fun i => [.mark .dot '.', i.element]) ++ [.mark .dot '.']), .identifier,
          last.text.toList, ?_, nofun, nofun⟩
        simp [Identifier.element, Element.word]
    have hbefore : EndsType ((first.element :: others.flatMap fun i => [.mark .dot '.', i.element]) ++
        if arguments.isEmpty then [] else .mark .leftAngle '<' :: (typeList arguments ++ [.mark .rightAngle '>'])) := by
      split
      · rw [List.append_nil]
        exact hpath
      · exact (EndsType.append ⟨[], .rightAngle, ['>'], rfl, nofun, nofun⟩ (.mark .leftAngle '<' :: typeList arguments)).append _
    rw [TypeTerm.elements, ← List.append_assoc, ← List.cons_append]
    exact hbefore.marked marks
  | .array element marks =>
    exact @endsType_bracket (.mark .leftBracket '[' :: element.elements) .rightBracket ']' ⟨nofun, nofun⟩ marks
  | .dictionary key value marks =>
    have := (@endsType_bracket (.space :: value.elements) .rightBracket ']' ⟨nofun, nofun⟩ marks).append
      (.mark .leftBracket '[' :: (key.elements ++ [.mark .colon ':']))
    simpa [TypeTerm.elements] using this
  | .tuple elements marks =>
    exact @endsType_bracket (.mark .leftParen '(' :: typeList elements) .rightParen ')' ⟨nofun, nofun⟩ marks
  | .function parameters effects result =>
    have := (type_ends result).append (.mark .leftParen '(' :: (typeList parameters ++ .mark .rightParen ')' ::
      (effectElements effects ++ [.space, arrowElement, .space])))
    simpa [TypeTerm.elements] using this

/-- What comes next ends a type: a mark that can only follow one, or something on a new line. -/
def FollowsType (vs : List Token) : Prop :=
  vs.head?.all (fun v => v.endsType || (v.newlineBefore && !v.continuesType)) = true

/-- A type is read as it was printed. -/
theorem reads_typeTerm {stops : List String} (hstops : stops = [] ∨ stops = ["where"]) (t : TypeTerm) {fs : List Element}
    {ts : List Token} (h : Reads false (t.elements ++ fs) ts) :
    ∃ vs, Reads false fs vs ∧ (FollowsType vs → (typeText stops).run ts = .ok (t.text, vs)) := by
  obtain ⟨front, kind, cs, he, hk⟩ := type_ends t
  obtain ⟨us, vs, rfl, hu, hv⟩ := reads_append h ⟨front, kind, cs, he⟩
  refine ⟨vs, hv, fun hf => ?_⟩
  have hnests : nests [] us = true := by
    have := type_nests t [] []
    rw [List.append_nil] at this
    rw [← nests_bare, reads_bare hu, this]
    rfl
  have hwords : ∀ u ∈ us, u.isOneOf stops = false := by
    intro u hm
    have hb : u.bare ∈ bareTokens t.elements := by
      rw [← reads_bare hu]
      exact List.mem_map_of_mem hm
    obtain ⟨e, hm, hx⟩ := List.mem_filterMap.1 hb
    have := (type_ordinary t e hm).2
    rw [hx, Option.any_some] at this
    rcases hstops with rfl | rfl
    · simp [Token.isOneOf]
    · exact this
  obtain ⟨last, hlast, hcontinues⟩ : ∃ last, us.getLast? = some last ∧ last.continuesType = false := by
    have hb := reads_bare hu
    rw [he, bareTokens_append, bareTokens_lexeme, bareTokens_nil] at hb
    obtain ⟨us, last, rfl, -, hl⟩ := List.map_eq_append_iff.1 hb
    obtain ⟨last, rfl, hlast⟩ := List.map_eq_singleton_iff.1 hl
    refine ⟨last, List.getLast?_concat, ?_⟩
    have hkind : last.kind = kind := (congrArg Token.kind hlast :)
    simp [Token.continuesType, hkind, hk]
  rcases @nests_split stops _ _ hnests (reads_unbroken hu (type_line t)) none vs with hs | ⟨front, u, back, rfl, hx, -⟩
  · have hz : splitType stops 0 (some last) vs = ([], vs) := by
      cases vs with
      | nil => rfl
      | cons v vs =>
        rw [FollowsType, List.head?_cons, Option.all_some, Bool.or_eq_true, Bool.and_eq_true, Bool.not_eq_true'] at hf
        rw [splitType, if_pos]
        rcases hf with hf | hf
        · simp [hf]
        · simp [Token.breaksType, hf.1, hcontinues, hf.2]
    rw [hlast, Option.some_or, hz, List.append_nil] at hs
    have hphrase := reads_phrase hu ⟨_, _, _, (starts_type t).choose_spec.choose_spec.choose_spec.choose_spec.1⟩
      ⟨front, kind, cs, he⟩
    cases us with
    | nil => cases hlast
    | cons u us =>
      rw [typeText, phraseBy_eq_ok]
      exact ⟨u, us, hs, hphrase.symm⟩
  · rw [hwords u (by simp)] at hx
    cases hx

/-! ### Blocks, values and what is skipped -/

theorem reads_mark {broken : Bool} {kind : TokenKind} {c : Char} {es : List Element} {ts : List Token}
    (h : Reads broken (.mark kind c :: es) ts) :
    ∃ t more, ts = t :: more ∧ t.kind = kind ∧ Reads false es more := by
  obtain ⟨t, more, rfl, ht, hr⟩ := reads_lexeme h
  exact ⟨t, more, rfl, ht.kind, hr⟩

/-- A block is a group in braces. -/
theorem reads_block (b : Block) {broken : Bool} {fs : List Element} {ts : List Token}
    (h : Reads broken (b.elements ++ fs) ts) :
    ∃ o rest inside vs, ts = o :: rest ∧ o.kind = .leftBrace ∧ (group .rightBrace o).run rest = .ok (inside, vs) ∧
      Reads false fs vs := by
  rw [Block.elements, List.cons_append, List.append_assoc] at h
  obtain ⟨o, rest, rfl, ho, h⟩ := reads_mark h
  obtain ⟨us, vs, before, rfl, hu, hv⟩ := reads_split h
  obtain ⟨k, vs, rfl, hk, hv⟩ := reads_mark hv
  refine ⟨o, _, o :: (us ++ [k]), vs, rfl, ho, ?_, hv⟩
  have hbalanced : balances (fun _ => false) [] us = true := by
    rw [balances_like (fun _ _ _ => rfl) (reads_like hu (reads_origin b.inside))]
    exact b.isBalanced
  have hs := split_of_balanced hbalanced hk vs
  rw [List.count_nil] at hs
  simp only [group, ho, hs]

/-- What comes next ends a value that has been read. -/
def FollowsValue : List Token → Prop
  | [] => True
  | v :: vs => v.endsExpression false vs = true

theorem reads_literal (l : Literal) {fs : List Element} {ts : List Token} (h : Reads false (l.element :: fs) ts) :
    ∃ vs, Reads false fs vs ∧ (FollowsValue vs → expressionText.run ts = .ok (l.text, vs)) := by
  have hends : EndsInLexeme [l.element] := ⟨[], l.kind, l.chars, rfl⟩
  obtain ⟨us, vs, rfl, hu, hv⟩ := @reads_append _ [l.element] fs _ h hends
  have hphrase := reads_phrase hu ⟨_, _, _, rfl⟩ hends
  obtain ⟨t, none, rfl, ht, hnone⟩ := reads_lexeme hu
  obtain rfl := reads_nil.1 hnone
  refine ⟨vs, hv, fun hf => ?_⟩
  have hkind : t.endsExpression true vs = false ∧ t.opensBracket = false ∧ t.closesBracket = false := by
    rcases l.isLiteral with hk | hk | ⟨hk, -⟩ <;>
      simp [Token.endsExpression, Token.opensBracket, Token.closesBracket, ht.kind, hk]
  have hrest : splitExpression 0 false vs = ([], vs) := by
    cases vs with
    | nil => rfl
    | cons v vs =>
      have hend : v.endsExpression false vs = true := hf
      rw [splitExpression, if_pos (by simp [hend])]
  rw [expressionText, phraseBy_eq_ok]
  refine ⟨t, [], ?_, hphrase.symm⟩
  rw [List.singleton_append, splitExpression, if_neg (by simp [hkind.1]), expressionDepth, hkind.2.1, hkind.2.2]
  simp [hrest]

/-- The end of what was read: the end of the text, or a closing brace or a declaration on a new line. -/
def Ended (vs : List Token) : Prop :=
  vs.head?.all (fun v => v.newlineBefore && (v.kind == .rightBrace || v.startsDeclaration)) = true

theorem ended_cases {v : Token} {vs : List Token} (h : Ended (v :: vs)) :
    v.newlineBefore = true ∧ (v.kind = .rightBrace ∨ v.startsDeclaration = true) := by
  simpa [Ended] using h

theorem afterStatement_ended {vs : List Token} (h : Ended vs) : afterStatement 0 false vs = vs := by
  cases vs with
  | nil => rfl
  | cons v vs =>
    obtain ⟨hn, hv⟩ := ended_cases h
    exact afterStatement_stop (hv.imp_right fun hs => ⟨hn, hs⟩) vs

/-- The rest of a declaration is skipped up to where it ends. -/
theorem reads_remainder (r : Remainder) {fs : List Element} {ts : List Token} (h : Reads false (r.elements ++ fs) ts) :
    ∃ vs, Reads false fs vs ∧ (Ended vs → afterStatement 0 true ts = vs ∧ afterStatement 0 false ts = vs) := by
  obtain ⟨us, vs, rfl, hu, hv⟩ := reads_append h r.ends
  refine ⟨vs, hv, fun he => ?_⟩
  have hends : ∀ ⦃t u : Token⦄, t.Like u → t.endsStatement = u.endsStatement := fun t u h => by
    rw [Token.endsStatement, Token.endsStatement, h.kind, h.newline, h.startsDeclaration]
  have hbalanced : balances Token.endsStatement [] us = true := by
    rw [balances_like hends (reads_like hu (reads_origin r.elements))]
    exact r.isBalanced
  have hne : us.isEmpty = false := by
    obtain ⟨kind, cs, more, hx⟩ := r.starts
    rw [hx] at hu
    obtain ⟨t, us, rfl, -⟩ := reads_lexeme hu
    rfl
  have hskip (isFirst : Bool) : afterStatement 0 isFirst (us ++ vs) = vs := by
    have := afterStatement_of_balanced hbalanced isFirst vs
    rw [hne, Bool.and_false, afterStatement_ended he] at this
    exact this
  exact ⟨hskip true, hskip false⟩

/-- The condition of a directive is the rest of its line. -/
theorem reads_condition (c : Condition) (directive : Token) {fs : List Element} {ts : List Token}
    (h : Reads false (c.elements ++ .lineBreak [] :: fs) ts) :
    ∃ vs, Reads true fs vs ∧
      ((∀ v, vs.head? = some v → v.newlineBefore = true) → (condition directive).run ts = .ok (spanText c.elements, vs)) := by
  obtain ⟨us, vs, rfl, hu, hv⟩ := reads_append h c.ends
  have hbreak : Reads true fs vs := @reads_break _ [] [] _ _ hv
  refine ⟨vs, hbreak, fun hn => ?_⟩
  have hphrase := reads_phrase hu c.starts c.ends
  have hline := reads_unbroken hu c.line
  obtain ⟨kind, cs, more, hx⟩ := c.starts
  rw [hx] at hu
  obtain ⟨t, us, rfl, ht, -⟩ := reads_lexeme hu
  have hfirst := hline t List.mem_cons_self
  have hspan : (us ++ vs).takeWhile (!·.newlineBefore) = us ∧ (us ++ vs).dropWhile (!·.newlineBefore) = vs := by
    have hus : ∀ u ∈ us, (!u.newlineBefore) = true := fun u hm => by rw [hline u (List.mem_cons_of_mem _ hm)]; rfl
    rw [List.takeWhile_append_of_pos hus, List.dropWhile_append_of_pos hus]
    cases vs with
    | nil => simp
    | cons v vs => simp [hn v rfl]
  simp only [condition, List.cons_append, hfirst, Bool.false_eq_true, if_false, hspan.1, hspan.2, hphrase]
  rfl

end TestHooks.Swift
