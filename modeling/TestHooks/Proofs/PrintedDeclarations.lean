import TestHooks.Proofs.PrintedHeaders

/-!
# Declarations that were printed

What was printed is parsed as what it stands for, but for positions (`parse_printed`). By induction on the tree every
declaration is read up to its line break, because the next line begins with a closing brace, a directive, or a word that
a declaration begins with.
-/

namespace TestHooks.Swift

open TestHooks.Reader TestHooks.Text Reader

/-! ### Modifiers -/

theorem Qualifier.isNotClass (q : Qualifier) : q.word ≠ "class" := by
  have hn : modifierWords.Nodup := by decide
  exact (hn.mem_erase_iff.1 q.isModifier).1

/-- A modifier before another word has nothing in parentheses. -/
theorem splitModifiers_bare {t k : Token} {rest : List Token} (hk : k.kind = .identifier)
    (ht : (t.isOneOf modifierWords && (t.text != "class" || modifiesMember (k :: rest))) = true) :
    splitModifiers (t :: k :: rest) =
      (⟨t.text, none⟩ :: (splitModifiers (k :: rest)).1, (splitModifiers (k :: rest)).2) := by
  have hdetail : modifierDetail? (k :: rest) = none := by
    unfold modifierDetail?
    split
    · next he =>
      cases he
      simp [hk]
    · rfl
  rw [splitModifiers, if_pos ht, hdetail]
  rfl

/-- A modifier that is not `class` is read whatever word follows it. -/
theorem reads_qualifier (q : Qualifier) {w : List Char} {es : List Element} {broken : Bool} {ts : List Token}
    (h : Reads broken (q.elements ++ .word w :: es) ts) :
    ∃ t more after, ts = t :: more ∧ t.kind = .identifier ∧ Reads false (.word w :: es) after ∧
      splitModifiers ts = (q.modifier :: (splitModifiers after).1, (splitModifiers after).2) := by
  rw [Qualifier.elements, List.cons_append, List.append_assoc] at h
  obtain ⟨t, more, rfl, ht, h⟩ := reads_lexeme h
  have htext : t.text = q.word := by rw [ht.text, String.ofList_toList]
  have htest : (t.isOneOf modifierWords && (t.text != "class" || modifiesMember more)) = true := by
    have hw : modifierWords.contains q.word = true := List.contains_iff_mem.2 q.isKnown
    rw [Token.isOneOf, ht.kind, htext, hw, bne_iff_ne.2 q.isNotClass]
    rfl
  cases hd : q.detail with
  | none =>
    rw [hd] at h
    have hafter : Reads false (.word w :: es) more := reads_space h
    refine ⟨t, more, more, rfl, ht.kind, hafter, ?_⟩
    obtain ⟨u, us, rfl, hu, -⟩ := reads_lexeme hafter
    rw [splitModifiers_bare hu.kind htest, Qualifier.modifier, hd, htext]
  | some d =>
    rw [hd] at h
    obtain ⟨a, more, rfl, ha, h⟩ := reads_mark h
    obtain ⟨b, more, rfl, hb, h⟩ := reads_lexeme h
    obtain ⟨c, more, rfl, hc, h⟩ := reads_mark h
    have hdetail : modifierDetail? (a :: b :: c :: more) = some d := by
      simp [modifierDetail?, ha, hb.kind, hc, hb.text]
    refine ⟨t, _, more, rfl, ht.kind, reads_space h, ?_⟩
    rw [splitModifiers, if_pos htest, hdetail, Qualifier.modifier, hd, htext]
    rfl

theorem reads_qualifiers (qs : List Qualifier) {w : List Char} {es : List Element} {broken : Bool} {ts : List Token}
    (h : Reads broken (qualifierElements qs ++ .word w :: es) ts) :
    ∃ t more after before, ts = t :: more ∧ t.kind = .identifier ∧ Reads before (.word w :: es) after ∧
      splitModifiers ts = (qs.map Qualifier.modifier ++ (splitModifiers after).1, (splitModifiers after).2) := by
  induction qs generalizing broken ts with
  | nil =>
    have hword : Reads broken (.word w :: es) ts := h
    obtain ⟨t, more, rfl, ht, -⟩ := reads_lexeme hword
    exact ⟨t, more, _, broken, rfl, ht.kind, hword, rfl⟩
  | cons q qs ih =>
    obtain ⟨w', es', he⟩ : ∃ w' es', qualifierElements qs ++ .word w :: es = .word w' :: es' := by
      cases qs with
      | nil => exact ⟨w, es, rfl⟩
      | cons q' qs => exact ⟨_, _, rfl⟩
    rw [qualifierElements, List.flatMap_cons, List.append_assoc] at h
    change Reads broken (q.elements ++ (qualifierElements qs ++ .word w :: es)) ts at h
    rw [he] at h
    obtain ⟨t, more, after, rfl, ht, hafter, hsplit⟩ := reads_qualifier q h
    rw [← he] at hafter
    obtain ⟨-, -, left, before, -, -, hleft, hrest⟩ := ih hafter
    refine ⟨t, more, left, before, rfl, ht, hleft, ?_⟩
    rw [hsplit, hrest]
    rfl

/-- The head of a declaration without attributes. -/
theorem headFrom_modifiers {t k : Token} {more rest : List Token} {ms : List Modifier} (ht : t.kind = .identifier)
    (h : splitModifiers (t :: more) = (ms, k :: rest)) :
    (headFrom t).run (t :: more) = .ok (⟨[], ms, t.position⟩, k :: rest) := by
  have hnone : attributes.run (t :: more) = .ok ([], t :: more) := whileNext_skip (by simp [ht])
  unfold headFrom
  rw [run_bind_eq_ok]
  exact ⟨_, _, hnone, run_bind_eq_ok.2 ⟨_, _, congrArg Except.ok h, rfl⟩⟩

/-- The head and the keyword of a declaration are read from tokens that begin with a word. -/
def HeadRead (ms : List Modifier) (word : String) (ts rest : List Token) : Prop :=
  ∃ t more k, ts = t :: more ∧ t.kind = .identifier ∧ k.kind = .identifier ∧ k.text = word ∧
    (headFrom t).run (t :: more) = .ok (⟨[], ms, t.position⟩, k :: rest)

/-- Modifiers before a keyword that is none. -/
theorem reads_head_word (qs : List Qualifier) {word : String} (hw : word ∉ modifierWords) {es : List Element} {broken : Bool}
    {ts : List Token} (h : Reads broken (qualifierElements qs ++ .word word.toList :: es) ts) :
    ∃ rest, Reads false es rest ∧ HeadRead (qs.map Qualifier.modifier) word ts rest := by
  obtain ⟨t, more, after, before, rfl, ht, hafter, hsplit⟩ := reads_qualifiers qs h
  obtain ⟨k, rest, rfl, hk, hrest⟩ := reads_lexeme hafter
  have htext : k.text = word := by rw [hk.text, String.ofList_toList]
  have hnone : modifierWords.contains k.text = false := by
    rw [Bool.eq_false_iff, ne_eq, List.contains_iff_mem, htext]
    exact hw
  rw [splitModifiers_word hnone, List.append_nil] at hsplit
  exact ⟨rest, hrest, t, more, k, rfl, ht, hk.kind, htext, headFrom_modifiers ht hsplit⟩

/-- Modifiers before the keyword `class` of a type, whose name is no modifier. -/
theorem reads_head_class (qs : List Qualifier) (name : Identifier) {es : List Element} {broken : Bool} {ts : List Token}
    (h : Reads broken (qualifierElements qs ++ .word "class".toList :: .space :: name.element :: es) ts) :
    ∃ rest, Reads false (.space :: name.element :: es) rest ∧ HeadRead (qs.map Qualifier.modifier) "class" ts rest := by
  obtain ⟨t, more, after, before, rfl, ht, hafter, hsplit⟩ := reads_qualifiers qs h
  obtain ⟨k, rest, rfl, hk, hrest⟩ := reads_lexeme hafter
  have htext : k.text = "class" := hk.text
  have hnone : splitModifiers (k :: rest) = ([], k :: rest) := by
    obtain ⟨n, left, rfl, hn, -⟩ := reads_spaced hrest
    have hfree := name.isFree
    have hmember : n.text ∉ modifierWords ∧ n.text ∉ ["var", "let", "func", "subscript"] := by
      rw [hn.text, String.ofList_toList]
      have hsub : ∀ w ∈ modifierWords ++ ["var", "let", "func", "subscript"], w ∈ reservedWords := by decide
      exact ⟨fun hx => hfree (hsub _ (List.mem_append_left _ hx)), fun hx => hfree (hsub _ (List.mem_append_right _ hx))⟩
    rw [splitModifiers, if_neg]
    have hother : modifiesMember (n :: left) = false := by
      rw [modifiesMember, Token.isOneOf, Token.isOneOf, Bool.or_eq_false_iff, Bool.and_eq_false_iff, Bool.and_eq_false_iff]
      refine ⟨.inr ?_, .inr ?_⟩ <;> rw [Bool.eq_false_iff, ne_eq, List.contains_iff_mem]
      · exact hmember.1
      · exact hmember.2
    simp [htext, hother]
  rw [hnone, List.append_nil] at hsplit
  exact ⟨rest, hrest, t, more, k, rfl, ht, hk.kind, htext, headFrom_modifiers ht hsplit⟩

/-- Modifiers before `var`, `let` or `func`. -/
theorem reads_head_member (q : Qualifiers) {word : String} (hw : word ∈ ["var", "let", "func"]) {es : List Element}
    {broken : Bool} {ts : List Token} (h : Reads broken (q.elements ++ .word word.toList :: es) ts) :
    ∃ rest, Reads false es rest ∧ HeadRead q.modifiers word ts rest := by
  have hplain : word ∉ modifierWords := (by decide : ∀ w ∈ ["var", "let", "func"], w ∉ modifierWords) word hw
  unfold Qualifiers.elements at h
  rw [List.append_assoc] at h
  cases hc : q.ofClass with
  | false =>
    rw [hc] at h
    have hm : q.modifiers = q.front.map Qualifier.modifier := by
      rw [Qualifiers.modifiers, hc]
      exact List.append_nil _
    rw [hm]
    exact reads_head_word q.front hplain h
  | true =>
    rw [hc] at h
    obtain ⟨t, more, after, before, rfl, ht, hafter, hsplit⟩ := reads_qualifiers q.front h
    obtain ⟨c, left, rfl, hcl, hleft⟩ := reads_lexeme hafter
    obtain ⟨k, rest, rfl, hk, hrest⟩ := reads_spaced hleft
    have htext : k.text = word := by rw [hk.text, String.ofList_toList]
    have hclass : c.text = "class" := hcl.text
    have hnone : modifierWords.contains k.text = false := by
      rw [Bool.eq_false_iff, ne_eq, List.contains_iff_mem, htext]
      exact hplain
    have hmember : modifiesMember (k :: rest) = true := by
      have : ["var", "let", "func", "subscript"].contains word = true :=
        (by decide : ∀ w ∈ ["var", "let", "func"], ["var", "let", "func", "subscript"].contains w = true) word hw
      rw [modifiesMember, Token.isOneOf, Token.isOneOf, hk.kind, htext, this, Bool.or_eq_true]
      exact .inr rfl
    have htest : (c.isOneOf modifierWords && (c.text != "class" || modifiesMember (k :: rest))) = true := by
      rw [hmember, Token.isOneOf, hcl.kind, hclass]
      decide
    rw [splitModifiers_bare hk.kind htest, splitModifiers_word hnone, hclass] at hsplit
    refine ⟨rest, hrest, t, more, k, rfl, ht, hk.kind, htext, ?_⟩
    have hm : q.modifiers = q.front.map Qualifier.modifier ++ [⟨"class", none⟩] := by rw [Qualifiers.modifiers, hc]; rfl
    rw [hm]
    exact headFrom_modifiers ht hsplit

/-! ### Headers of types -/

/-- What follows a type in a list: another one, or the brace of the members. -/
def FollowsInherited (vs : List Token) : Prop :=
  vs.head?.any (fun v => v.kind == .comma || v.kind == .leftBrace) = true

theorem followsInherited_type {vs : List Token} (h : FollowsInherited vs) : FollowsType vs := by
  cases vs with
  | nil => cases h
  | cons v vs =>
    simp only [FollowsInherited, List.head?_cons, Option.any_some, Bool.or_eq_true, beq_iff_eq] at h
    rcases h with h | h <;> simp [FollowsType, Token.endsType, h]

theorem reads_otherTypes (ts : List TypeTerm) {fs : List Element} {us : List Token}
    (h : Reads false (typesAfter ts ++ .space :: .mark .leftBrace '\x7b' :: fs) us) :
    ∃ o vs, o.kind = .leftBrace ∧ Reads false fs vs ∧ FollowsInherited us ∧
      whileNextRun (·.kind == .comma) (fun _ => typeText ["where"]) us = .ok (ts.map TypeTerm.text, o :: vs) := by
  induction ts generalizing us with
  | nil =>
    obtain ⟨o, vs, rfl, ho, hv⟩ := reads_mark (reads_space h)
    exact ⟨o, vs, ho, hv, by simp [FollowsInherited, ho], whileNext_skip (by simp [ho])⟩
  | cons t ts ih =>
    simp only [typesAfter, List.cons_append, List.append_assoc] at h
    obtain ⟨c, us, rfl, hc, h⟩ := reads_mark h
    obtain ⟨after, hafter, ht⟩ := reads_typeTerm (.inr rfl) t (reads_space h)
    obtain ⟨o, vs, ho, hv, hf, hrest⟩ := ih hafter
    exact ⟨o, vs, ho, hv, by simp [FollowsInherited, hc],
      whileNextRun_step (by simp [hc]) (ht (followsInherited_type hf)) hrest⟩

/-- What a type inherits, up to the brace of its members. -/
theorem reads_inheritance (ts : List TypeTerm) {fs : List Element} {us : List Token}
    (h : Reads false (inheritanceElements ts ++ .space :: .mark .leftBrace '\x7b' :: fs) us) :
    ∃ o vs, o.kind = .leftBrace ∧ Reads false fs vs ∧
      us.head?.any (fun v => v.kind == .colon || v.kind == .leftBrace) = true ∧
      inheritance.run us = .ok (ts.map TypeTerm.text, o :: vs) := by
  cases ts with
  | nil =>
    obtain ⟨o, vs, rfl, ho, hv⟩ := reads_mark (reads_space h)
    refine ⟨o, vs, ho, hv, by simp [ho], ?_⟩
    unfold inheritance
    rw [run_bind_eq_ok]
    exact ⟨none, o :: vs, optionally_skip (by simp [ho]), rfl⟩
  | cons t ts =>
    simp only [inheritanceElements, typeList, List.cons_append, List.append_assoc] at h
    obtain ⟨c, us, rfl, hc, h⟩ := reads_mark h
    obtain ⟨after, hafter, ht⟩ := reads_typeTerm (.inr rfl) t (reads_space h)
    obtain ⟨o, vs, ho, hv, hf, hrest⟩ := reads_otherTypes ts hafter
    refine ⟨o, vs, ho, hv, by simp [hc], ?_⟩
    have hlist : (byCommas (typeText ["where"])).run us = .ok (t.text :: ts.map TypeTerm.text, o :: vs) := by
      unfold byCommas
      rw [run_bind_eq_ok]
      exact ⟨_, _, ht (followsInherited_type hf), run_bind_eq_ok.2 ⟨_, _, hrest, rfl⟩⟩
    unfold inheritance
    rw [run_bind_eq_ok]
    exact ⟨_, _, optionally_take (by simp [hc]) hlist, rfl⟩

theorem reads_typeName (keyword : TypeKeyword) (name : Identifier) {fs : List Element} {ts : List Token}
    (h : Reads false (name.element :: fs) ts) :
    ∃ us, Reads false fs us ∧ (us.head?.any (fun v => v.kind == .colon || v.kind == .leftBrace) = true →
      (typeName keyword).run ts = .ok ((typeNameOf keyword name, none), us)) := by
  have hnext {us : List Token} (hu : us.head?.any (fun v => v.kind == .colon || v.kind == .leftBrace) = true) :
      FollowsType us ∧ us.head?.any (·.kind == .leftAngle) = false := by
    cases us with
    | nil => cases hu
    | cons u us =>
      simp only [List.head?_cons, Option.any_some, Bool.or_eq_true, beq_iff_eq] at hu
      rcases hu with hk | hk <;> simp [FollowsType, Token.endsType, hk]
  unfold typeName typeNameOf
  split
  · obtain ⟨us, hus, hrun⟩ := reads_typeTerm (.inr rfl) (.named name [] [] 0) h
    refine ⟨us, hus, fun hu => ?_⟩
    rw [run_bind_eq_ok]
    exact ⟨_, _, hrun (hnext hu).1, rfl⟩
  · obtain ⟨t, us, rfl, ht, hus⟩ := reads_lexeme h
    refine ⟨us, hus, fun hu => ?_⟩
    rw [run_bind_eq_ok]
    refine ⟨t, us, token_eq_ok.2 ⟨rfl, ht.kind⟩, run_bind_eq_ok.2 ⟨none, us, optionally_skip (hnext hu).2, ?_⟩⟩
    rw [ht.text, String.ofList_toList]
    rfl

/-- The header of a type after its keyword. -/
theorem reads_typeHeader (keyword : TypeKeyword) (name : Identifier) (inherited : List TypeTerm) {fs : List Element}
    {ts : List Token}
    (h : Reads false (.space :: name.element :: (inheritanceElements inherited ++ .space :: .mark .leftBrace '\x7b' :: fs)) ts) :
    ∃ vs, Reads false fs vs ∧ (typeHeader keyword).run ts =
      .ok (⟨keyword, typeNameOf keyword name, none, inherited.map TypeTerm.text⟩, vs) := by
  obtain ⟨us, hus, hname⟩ := reads_typeName keyword name (reads_space h)
  obtain ⟨o, vs, ho, hv, hnext, hinherited⟩ := reads_inheritance inherited hus
  refine ⟨vs, hv, ?_⟩
  unfold typeHeader
  rw [run_bind_eq_ok]
  exact ⟨_, _, hname hnext, run_bind_eq_ok.2 ⟨_, _, hinherited, run_bind_eq_ok.2 ⟨none, o :: vs,
    optionally_skip (by simp [Token.isIdentifier, ho]), run_bind_eq_ok.2 ⟨o, vs, token_eq_ok.2 ⟨rfl, ho⟩, rfl⟩⟩⟩⟩

/-! ### Where the next line begins -/

/-- Nothing, or what a line begins with: a closing brace, a directive, or a word that a declaration begins with. -/
def Opens (es : List Element) : Prop :=
  es = [] ∨ ∃ kind cs more, es = ⟨.lexeme kind, cs⟩ :: more ∧ (kind = .rightBrace ∨ kind = .hashWord ∨
    kind = .identifier ∧ String.ofList cs ∈ declarationKeywords ++ modifierWords)

theorem opens_word {word : String} (h : word ∈ declarationKeywords ++ modifierWords) (es : List Element) :
    Opens (.word word.toList :: es) :=
  .inr ⟨_, _, es, rfl, .inr (.inr ⟨rfl, by rwa [String.ofList_toList]⟩)⟩

theorem ended_of_opens {es : List Element} {vs : List Token} (h : Reads true es vs) (ho : Opens es) : Ended vs := by
  rcases ho with rfl | ⟨kind, cs, more, rfl, hk⟩
  · rw [reads_nil.1 h]
    rfl
  · obtain ⟨t, vs, rfl, ht, -⟩ := reads_lexeme h
    rw [Ended, List.head?_cons, Option.all_some, ht.newlineBefore, Bool.true_and, Bool.or_eq_true, beq_iff_eq, ht.kind]
    rcases hk with hk | hk | ⟨hk, hw⟩
    · exact .inl hk
    · exact .inr (by simp [Token.startsDeclaration, ht.kind, hk])
    · right
      rcases List.mem_append.1 hw with hw | hw <;>
        simp [Token.startsDeclaration, Token.isOneOf, ht.kind, ht.text, hk, hw]

theorem qualifiers_open (qs : List Qualifier) {es : List Element} (h : Opens es) : Opens (qualifierElements qs ++ es) := by
  cases qs with
  | nil => exact h
  | cons q qs => exact opens_word (List.mem_append_right _ q.isKnown) _

theorem source_opens (s : Source) (es : List Element) : Opens (s.elements ++ es) := by
  have hmember (q : Qualifiers) {fs : List Element} (h : Opens fs) : Opens (q.elements ++ fs) := by
    rw [Qualifiers.elements, List.append_assoc]
    apply qualifiers_open
    split
    · exact @opens_word "class" (by decide) _
    · exact h
  match s with
  | .type qualifiers keyword name inherited members =>
    rw [Source.elements, List.append_assoc]
    exact qualifiers_open qualifiers (opens_word (by cases keyword <;> decide) _)
  | .variableList qualifiers keyword first others =>
    rw [Source.elements, List.append_assoc]
    exact hmember qualifiers (opens_word (by cases keyword <;> decide) _)
  | .function qualifiers routine =>
    rw [Source.elements, List.append_assoc]
    exact hmember qualifiers (@opens_word "func" (by decide) _)
  | .skipped qualifiers skipped =>
    rw [Source.elements, List.append_assoc]
    apply qualifiers_open qualifiers
    cases skipped with
    | initializer rest => exact @opens_word "init" (by decide) _
    | deinitializer rest => exact @opens_word "deinit" (by decide) _
    | synonym name rest => exact @opens_word "typealias" (by decide) _
  | .conditional condition members arms => exact .inr ⟨.hashWord, _, _, rfl, .inr (.inl rfl)⟩

theorem page_opens (ss : List Source) {es : List Element} (h : Opens es) : Opens (page ss ++ es) := by
  cases ss with
  | nil => exact h
  | cons s ss =>
    rw [page, List.append_assoc]
    exact source_opens s _

theorem arms_open (arms : List Arm) {es : List Element} (h : Opens es) : Opens (armElements arms ++ es) := by
  cases arms with
  | nil => exact h
  | cons arm arms =>
    obtain ⟨_ | condition, members⟩ := arm
    · exact .inr ⟨.hashWord, _, _, rfl, .inr (.inl rfl)⟩
    · exact .inr ⟨.hashWord, _, _, rfl, .inr (.inl rfl)⟩

/-! ### Declarations without members -/

theorem Skipped.isPlain (s : Skipped) : s.keyword ∉ modifierWords := by
  have hw : ∀ w ∈ ["init", "deinit", "typealias"], w ∉ modifierWords := by decide
  exact hw s.keyword (by cases s <;> simp [Skipped.keyword])

theorem introducer_skipped {k : Token} (s : Skipped) (hk : k.kind = .identifier) (ht : k.text = s.keyword) :
    Introducer.ofToken? k = some (.other s.keyword) := by
  rw [Introducer.ofToken?, hk, ht]
  cases s <;> rfl

/-- The rest of a declaration whose inside is skipped. -/
theorem reads_skipped (s : Skipped) {fs : List Element} {ts : List Token} (h : Reads false (s.inside ++ fs) ts) :
    ∃ vs, Reads false fs vs ∧ (Ended vs → (otherName s.keyword).run ts = .ok (s.name, vs)) := by
  cases s with
  | initializer rest =>
    obtain ⟨vs, hv, hskip⟩ := reads_remainder rest (reads_space h)
    refine ⟨vs, hv, fun hends => (otherName_eq (hskip hends).1).trans ?_⟩
    cases ts.head? <;> simp [nameAfter, Skipped.keyword, Skipped.name]
  | deinitializer rest =>
    obtain ⟨vs, hv, hskip⟩ := reads_remainder rest (reads_space h)
    refine ⟨vs, hv, fun hends => (otherName_eq (hskip hends).1).trans ?_⟩
    cases ts.head? <;> simp [nameAfter, Skipped.keyword, Skipped.name]
  | synonym name rest =>
    obtain ⟨t, ts, rfl, ht, h⟩ := reads_spaced h
    obtain ⟨vs, hv, hskip⟩ := reads_remainder rest (reads_space h)
    refine ⟨vs, hv, fun hends => ?_⟩
    have hall : afterStatement 0 true (t :: ts) = vs := by
      rw [afterStatement]
      simpa [ht.kind, statementDepth, Token.opensBracket, Token.closesBracket] using (hskip hends).2
    rw [otherName_eq hall]
    simp [nameAfter, ht.kind, ht.text, Skipped.keyword, Skipped.name]

/-- A declaration that is `d` but for places is read from `ts` up to `vs`. -/
def Declares (strict : Bool) (d : Decl) (ts vs : List Token) : Prop :=
  ∃ t rest found, ts = t :: rest ∧ (t.kind = .identifier ∨ t.kind = .hashWord ∧ t.text = "#if") ∧
    declarationRun strict t rest = .ok (some found, vs) ∧ found.unplaced = d

theorem declares_flat {strict : Bool} {ms : List Modifier} {word : String} {ts rest vs : List Token} {d : Decl}
    {introducer : Introducer} {made : Head → Decl} (hhead : HeadRead ms word ts rest)
    (hi : ∀ k : Token, k.kind = .identifier → k.text = word → Introducer.ofToken? k = some introducer)
    (hflat : ∀ keyword, introducer ≠ .type keyword)
    (hrun : ∀ head k, (flatDeclaration strict head k (some introducer)).run rest = .ok (some (made head), vs))
    (hd : ∀ position, (made ⟨[], ms, position⟩).unplaced = d) : Declares strict d ts vs := by
  obtain ⟨t, more, k, rfl, ht, hk, hword, hh⟩ := hhead
  have hintroducer := hi k hk hword
  refine ⟨t, more, _, rfl, .inl ht, declarationRun_flat (by simp [ht]) hh ?_ (by rw [hintroducer]; exact hrun _ k), hd _⟩
  intro keyword hx
  rw [hintroducer, Option.some.injEq] at hx
  exact hflat keyword hx

theorem reads_variableList (strict : Bool) (q : Qualifiers) (keyword : VariableKeyword) (first : Variable)
    (others : List Variable) {fs : List Element} {broken : Bool} {ts : List Token}
    (h : Reads broken ((Source.variableList q keyword first others).elements ++ fs) ts) :
    ∃ vs, Reads false fs vs ∧ (Ended vs → Declares strict (Source.variableList q keyword first others).decl ts vs) := by
  simp only [Source.elements, List.append_assoc, List.cons_append] at h
  obtain ⟨rest, hrest, hhead⟩ := reads_head_member q (by cases keyword <;> decide) h
  obtain ⟨vs, hv, hrun⟩ := reads_variables first others (reads_space hrest)
  refine ⟨vs, hv, fun hends => ?_⟩
  refine @declares_flat strict _ _ _ _ _ _ _ (Decl.variableList · keyword (first.binding :: others.map Variable.binding))
    hhead (fun k hk ht => introducer_variable hk ht) nofun (fun head k => ?_) fun position => rfl
  unfold flatDeclaration
  rw [run_bind_eq_ok]
  exact ⟨_, _, hrun hends, rfl⟩

theorem reads_function (strict : Bool) (q : Qualifiers) (routine : Routine) {fs : List Element} {broken : Bool}
    {ts : List Token} (h : Reads broken ((Source.function q routine).elements ++ fs) ts) :
    ∃ vs, Reads false fs vs ∧ (Ended vs → Declares strict (Source.function q routine).decl ts vs) := by
  simp only [Source.elements, List.append_assoc, List.cons_append] at h
  obtain ⟨rest, hrest, hhead⟩ := reads_head_member q (by decide) h
  obtain ⟨vs, hv, hrun⟩ := reads_routine routine (reads_space hrest)
  refine ⟨vs, hv, fun hends => ?_⟩
  refine @declares_flat strict _ _ _ _ _ _ _ (Decl.function · routine.signature) hhead
    (fun k hk ht => introducer_function hk ht) nofun (fun head k => ?_) fun position => rfl
  unfold flatDeclaration
  rw [run_bind_eq_ok]
  exact ⟨_, _, hrun hends, rfl⟩

theorem reads_other (strict : Bool) (qs : List Qualifier) (s : Skipped) {fs : List Element} {broken : Bool}
    {ts : List Token} (h : Reads broken ((Source.skipped qs s).elements ++ fs) ts) :
    ∃ vs, Reads false fs vs ∧ (Ended vs → Declares strict (Source.skipped qs s).decl ts vs) := by
  simp only [Source.elements, Skipped.elements, List.append_assoc, List.cons_append] at h
  obtain ⟨rest, hrest, hhead⟩ := reads_head_word qs s.isPlain h
  obtain ⟨vs, hv, hrun⟩ := reads_skipped s hrest
  refine ⟨vs, hv, fun hends => ?_⟩
  refine @declares_flat strict _ _ _ _ _ _ _ (Decl.other · s.keyword s.name) hhead
    (fun k hk ht => introducer_skipped s hk ht) nofun (fun head k => ?_) fun position => rfl
  unfold flatDeclaration
  rw [run_bind_eq_ok]
  exact ⟨_, _, hrun hends, rfl⟩

/-! ### Declarations with members -/

theorem reads_head_type (qs : List Qualifier) (keyword : TypeKeyword) (name : Identifier) {es : List Element}
    {broken : Bool} {ts : List Token}
    (h : Reads broken (qualifierElements qs ++ .word keyword.text.toList :: .space :: name.element :: es) ts) :
    ∃ rest, Reads false (.space :: name.element :: es) rest ∧ HeadRead (qs.map Qualifier.modifier) keyword.text ts rest := by
  by_cases hk : keyword = .classType
  · subst hk
    exact reads_head_class qs name h
  · exact reads_head_word qs (by revert hk; cases keyword <;> decide) h

/-- The clauses from a directive on that ends the clause before it. -/
def OtherClauses (strict : Bool) (start : Token) (found : List Clause) (ts vs : List Token) : Prop :=
  ∃ t rest, ts = t :: rest ∧ ((clauseMark? t = some .finish ∧ found = [] ∧ vs = rest) ∨
    ∃ keyword, clauseMark? t = some (.next keyword) ∧ clausesRun strict start t keyword rest = .ok (found, vs))

theorem clausesRun_of_others {strict : Bool} {start mark : Token} {keyword : ClauseKeyword} {condition : String}
    {ts inside after vs : List Token} {found : List Decl} {others : List Clause}
    (hc : (clauseCondition keyword mark).run ts = .ok (condition, inside))
    (hm : ∀ t rest m, after = t :: rest → clauseMark? t = some m →
      clauseMembersRun strict start inside = .ok ((found, t, m), rest))
    (ho : OtherClauses strict start others after vs) :
    clausesRun strict start mark keyword ts = .ok (.mk keyword condition found :: others, vs) := by
  obtain ⟨t, rest, rfl, ⟨hmark, rfl, rfl⟩ | ⟨keyword', hmark, hothers⟩⟩ := ho
  · exact clausesRun_finish hc (hm t _ _ rfl hmark)
  · exact clausesRun_next hc (hm t _ _ rfl hmark) hothers

/-- The line of a directive with a condition is read up to the next line. -/
theorem reads_clauseCondition {keyword : ClauseKeyword} (hk : keyword ≠ .elseClause) (c : Condition) (mark : Token)
    {fs : List Element} {ts : List Token} (h : Reads false (.space :: (c.elements ++ .lineBreak [] :: fs)) ts)
    (ho : Opens fs) :
    ∃ vs, Reads true fs vs ∧ (clauseCondition keyword mark).run ts = .ok (spanText c.elements, vs) := by
  obtain ⟨vs, hv, hrun⟩ := reads_condition c mark (reads_space h)
  refine ⟨vs, hv, ?_⟩
  rw [clauseCondition, if_neg hk]
  apply hrun
  intro v hhead
  have hends := ended_of_opens hv ho
  cases vs with
  | nil => cases hhead
  | cons w vs =>
    cases hhead
    exact (ended_cases hends).1

theorem declaration_not_mark {t : Token} (h : t.kind = .identifier ∨ t.kind = .hashWord ∧ t.text = "#if") :
    clauseMark? t = none ∧ t.kind ≠ .semicolon ∧ t.kind ≠ .rightBrace := by
  rcases h with hk | ⟨hk, ht⟩
  · simp [clauseMark?, hk]
  · simp [clauseMark?, hk, ht]

mutual

/-- A declaration is read up to the line after it. -/
theorem reads_source (s : Source) (strict : Bool) {fs : List Element} {broken : Bool} {ts : List Token}
    (h : Reads broken (s.elements ++ .lineBreak [] :: fs) ts) (ho : Opens fs) :
    ∃ vs, Reads true fs vs ∧ Declares strict s.decl ts vs := by
  have hline {vs : List Token} (hv : Reads false (.lineBreak [] :: fs) vs) : Reads true fs vs :=
    @reads_break _ [] [] _ _ hv
  match s with
  | .type qualifiers keyword name inherited ms =>
    simp only [Source.elements, List.append_assoc, List.cons_append, List.nil_append] at h
    obtain ⟨rest, hrest, t, more, k, rfl, ht, hk, hword, hhead⟩ := reads_head_type qualifiers keyword name h
    obtain ⟨inside, hinside, hheader⟩ := reads_typeHeader keyword name inherited hrest
    obtain ⟨found, vs, hv, hmembers, hfound⟩ := reads_members ms (@reads_break _ [] [] _ _ hinside)
    refine ⟨vs, hline hv, t, more, _, rfl, .inl ht,
      declarationRun_group (by simp [ht]) hhead (introducer_type hk hword) hheader hmembers, ?_⟩
    rw [Decl.unplaced, Source.decl, hfound]
    rfl
  | .variableList qualifiers keyword first others =>
    obtain ⟨vs, hv, hrun⟩ := reads_variableList strict qualifiers keyword first others h
    exact ⟨vs, hline hv, hrun (ended_of_opens (hline hv) ho)⟩
  | .function qualifiers routine =>
    obtain ⟨vs, hv, hrun⟩ := reads_function strict qualifiers routine h
    exact ⟨vs, hline hv, hrun (ended_of_opens (hline hv) ho)⟩
  | .skipped qualifiers skipped =>
    obtain ⟨vs, hv, hrun⟩ := reads_other strict qualifiers skipped h
    exact ⟨vs, hline hv, hrun (ended_of_opens (hline hv) ho)⟩
  | .conditional condition ms arms =>
    simp only [Source.elements, clauseLine, List.append_assoc, List.cons_append, List.nil_append] at h
    obtain ⟨t, ts, rfl, ht, h⟩ := reads_lexeme h
    have hend : Opens (⟨.lexeme .hashWord, "#endif".toList⟩ :: .lineBreak [] :: fs) :=
      .inr ⟨_, _, _, rfl, .inr (.inl rfl)⟩
    obtain ⟨inside, hinside, hcondition⟩ :=
      @reads_clauseCondition .ifClause (by decide) condition t _ _ h (page_opens ms (arms_open arms hend))
    obtain ⟨found, after, hafter, hmembers, hfound⟩ := reads_enclosed ms strict t hinside (arms_open arms hend)
    obtain ⟨others, vs, hv, hothers, hclauses⟩ := reads_arms arms strict t hafter
    refine ⟨vs, hline hv, t, ts, _, rfl, .inr ⟨ht.kind, ht.text⟩,
      declarationRun_conditional ht.kind ht.text (clausesRun_of_others hcondition hmembers hothers), ?_⟩
    rw [Decl.unplaced, Source.decl, unplacedClauses, hfound, hclauses]

/-- Members are read through the closing brace. -/
theorem reads_members (ss : List Source) {fs : List Element} {ts : List Token}
    (h : Reads true (page ss ++ .mark .rightBrace '\x7d' :: fs) ts) :
    ∃ found vs, Reads false fs vs ∧ membersRun ts = .ok (found, vs) ∧ unplacedMembers found = declList ss := by
  match ss with
  | [] =>
    obtain ⟨t, vs, rfl, ht, hv⟩ := reads_mark h
    exact ⟨[], vs, hv, membersRun_close ht, rfl⟩
  | s :: ss =>
    rw [page, List.append_assoc, List.cons_append] at h
    obtain ⟨after, hafter, t, rest, d, rfl, ht, hd, hunplaced⟩ :=
      reads_source s true h (page_opens ss (.inr ⟨_, _, _, rfl, .inl rfl⟩))
    obtain ⟨found, vs, hv, hmembers, hfound⟩ := reads_members ss hafter
    obtain ⟨-, hsemicolon, hbrace⟩ := declaration_not_mark ht
    refine ⟨d :: found, vs, hv, membersRun_member hbrace hsemicolon hd hmembers, ?_⟩
    rw [unplacedMembers, hunplaced, hfound, declList]

/-- The members of a clause are read up to the directive after them. -/
theorem reads_enclosed (ss : List Source) (strict : Bool) (start : Token) {fs : List Element} {ts : List Token}
    (h : Reads true (page ss ++ fs) ts) (ho : Opens fs) :
    ∃ found after, Reads true fs after ∧ (∀ t rest mark, after = t :: rest → clauseMark? t = some mark →
      clauseMembersRun strict start ts = .ok ((found, t, mark), rest)) ∧ unplacedMembers found = declList ss := by
  match ss with
  | [] =>
    refine ⟨[], ts, h, fun t rest mark he hmark => ?_, rfl⟩
    subst he
    exact clauseMembersRun_mark hmark
  | s :: ss =>
    rw [page, List.append_assoc, List.cons_append] at h
    obtain ⟨left, hleft, t, rest, d, rfl, ht, hd, hunplaced⟩ := reads_source s strict h (page_opens ss ho)
    obtain ⟨found, after, hafter, hmembers, hfound⟩ := reads_enclosed ss strict start hleft ho
    obtain ⟨hmark, hsemicolon, hbrace⟩ := declaration_not_mark ht
    refine ⟨d :: found, after, hafter, fun u more mark he hu =>
      clauseMembersRun_member hmark hsemicolon hbrace hd (hmembers u more mark he hu), ?_⟩
    rw [unplacedMembers, hunplaced, hfound, declList]

/-- The further clauses of a block are read through the directive that ends it. -/
theorem reads_arms (arms : List Arm) (strict : Bool) (start : Token) {fs : List Element} {ts : List Token}
    (h : Reads true (armElements arms ++ ⟨.lexeme .hashWord, "#endif".toList⟩ :: fs) ts) :
    ∃ others vs, Reads false fs vs ∧ OtherClauses strict start others ts vs ∧ unplacedClauses others = clauseList arms := by
  have hend : Opens (⟨.lexeme .hashWord, "#endif".toList⟩ :: fs) := .inr ⟨_, _, _, rfl, .inr (.inl rfl)⟩
  match arms with
  | [] =>
    obtain ⟨t, vs, rfl, ht, hv⟩ := reads_lexeme h
    have htext : t.text = "#endif" := ht.text
    exact ⟨[], vs, hv, ⟨t, vs, rfl, .inl ⟨by simp [clauseMark?, ht.kind, htext], rfl, rfl⟩⟩, rfl⟩
  | .mk (some condition) ms :: arms =>
    simp only [armElements, clauseLine, List.append_assoc, List.cons_append, List.nil_append] at h
    obtain ⟨t, ts, rfl, ht, h⟩ := reads_lexeme h
    have htext : t.text = "#elseif" := ht.text
    obtain ⟨inside, hinside, hcondition⟩ :=
      @reads_clauseCondition .elseifClause (by decide) condition t _ _ h (page_opens ms (arms_open arms hend))
    obtain ⟨found, after, hafter, hmembers, hfound⟩ := reads_enclosed ms strict start hinside (arms_open arms hend)
    obtain ⟨others, vs, hv, hothers, hclauses⟩ := reads_arms arms strict start hafter
    refine ⟨_, vs, hv, ⟨t, ts, rfl, .inr ⟨.elseifClause, by simp [clauseMark?, ht.kind, htext],
      clausesRun_of_others hcondition hmembers hothers⟩⟩, ?_⟩
    rw [unplacedClauses, clauseList, hfound, hclauses]
  | .mk none ms :: arms =>
    simp only [armElements, List.append_assoc, List.cons_append] at h
    obtain ⟨t, ts, rfl, ht, h⟩ := reads_lexeme h
    have htext : t.text = "#else" := ht.text
    obtain ⟨found, after, hafter, hmembers, hfound⟩ :=
      reads_enclosed ms strict start (@reads_break _ [] [] _ _ h) (arms_open arms hend)
    obtain ⟨others, vs, hv, hothers, hclauses⟩ := reads_arms arms strict start hafter
    refine ⟨_, vs, hv, ⟨t, ts, rfl, .inr ⟨.elseClause, by simp [clauseMark?, ht.kind, htext],
      @clausesRun_of_others _ _ _ .elseClause "" _ _ _ _ _ _ rfl hmembers hothers⟩⟩, ?_⟩
    rw [unplacedClauses, clauseList, hfound, hclauses]

end

/-- What stands at the top of a file is read to its end. -/
theorem reads_page (ss : List Source) {broken : Bool} {ts : List Token} (h : Reads broken (page ss) ts) :
    ∃ found, topLevel ts = .ok found ∧ unplacedMembers found = declList ss := by
  induction ss generalizing broken ts with
  | nil =>
    rw [reads_nil.1 h, topLevel]
    exact ⟨[], rfl, rfl⟩
  | cons s ss ih =>
    have hopens : Opens (page ss) := by
      have := page_opens ss (.inl rfl)
      rwa [List.append_nil] at this
    obtain ⟨after, hafter, t, rest, d, rfl, ht, hd, hunplaced⟩ := reads_source s false h hopens
    obtain ⟨found, htop, hfound⟩ := ih hafter
    obtain ⟨-, hsemicolon, hbrace⟩ := declaration_not_mark ht
    refine ⟨d :: found, ?_, by rw [unplacedMembers, hunplaced, hfound, declList]⟩
    rw [topLevel_declaration hsemicolon hbrace hd, htop]
    rfl

theorem cut_printed (sources : List Source) : Cut.ofText (printed sources).toList = ⟨page sources, [], none⟩ := by
  rw [printed, String.toList_ofList]
  exact cut_flatten (page_fits sources)

/-- Declarations that are printed are parsed as what they are. -/
theorem parse_printed (sources : List Source) :
    (parse (printed sources)).map unplacedMembers = .ok (declList sources) := by
  obtain ⟨found, htop, hfound⟩ := @reads_page sources false _ ⟨.origin, [], rfl, rfl⟩
  have htokens : Tokens.ofText (printed sources) = ⟨Token.ofElements .origin [] (page sources), none⟩ := by
    rw [Tokens.ofText, cut_printed]
    rfl
  rw [parse, htokens]
  simp only [htop]
  exact congrArg Except.ok hfound

/-- A string with two blanks in it. -/
def wideLiteral : Literal where
  kind := .string
  chars := "\"a  b\"".toList
  isLiteral := .inl rfl
  cut := by decide +kernel

/-- A variable that holds the string. -/
def wideVariable : Source :=
  .variableList ⟨[], false⟩ .varKeyword
    ⟨⟨"x", name_of_plain (by decide), by decide⟩, none, .stored wideLiteral⟩ []

/-- The keyword and the bindings of the only declaration, if it is a list of variables. -/
def onlyBindings? : List Decl → Option (VariableKeyword × List Binding)
  | [.variableList _ keyword bindings] => some (keyword, bindings)
  | _ => none

theorem onlyBindings?_eq_some {ds : List Decl} {keyword : VariableKeyword} {bindings : List Binding}
    (h : onlyBindings? ds = some (keyword, bindings)) : ∃ head, ds = [.variableList head keyword bindings] := by
  unfold onlyBindings? at h
  split at h
  · next head _ _ =>
    obtain ⟨rfl, rfl⟩ := Prod.mk.inj (Option.some.inj h)
    exact ⟨head, rfl⟩
  · cases h

/-- Blanks are squeezed in strings too, so the value that is read is another string than the one that was written. -/
theorem literal_squeezed :
    printed [wideVariable] = "var x = \"a  b\"\n" ∧ ∃ head, parse (printed [wideVariable]) =
      .ok [.variableList head .varKeyword [⟨"x", none, some "\"a b\"", none, false⟩]] := by
  constructor
  · decide +kernel
  · have h : (parse (printed [wideVariable])).toOption.any (fun ds =>
        onlyBindings? ds == some (.varKeyword, [⟨"x", none, some "\"a b\"", none, false⟩])) = true := by
      decide +kernel
    obtain ⟨ds, hds, hbindings⟩ := exists_ok h
    obtain ⟨head, rfl⟩ := onlyBindings?_eq_some (beq_iff_eq.1 hbindings)
    exact ⟨head, hds⟩

end TestHooks.Swift
