import TestHooks.Proofs.Frame
import TestHooks.Proofs.Lowered

/-!
# Extensions read back

The frame of an extension is read line by line: the header up to its brace, the conditional block, the variable, and the
proxy with the stored instance and the initializer. The forwarded members follow, up to the brace of the proxy
(`extension_reads`). A name of the type that ends in a comment takes the brace of the header, and the extension cannot be
read (`extension_swallowed`).
-/

namespace TestHooks.Proxy

open TestHooks.Swift TestHooks.Swift.Reader TestHooks.Text TestHooks.Reader

/-! ### Headers -/

/-- Behind its name a header goes on to the next brace, if anything is there to go over. -/
theorem header_tail {t opener : Token} {named back rest left : List Token} {header : TypeHeader} {ts : List Token}
    (h : (typeHeader .extensionType).run ts = .ok (header, left)) (hn : splitType ["where"] 0 none ts = (named, t :: (back ++ opener :: rest)))
    (ht : t.isIdentifier "where" = true) (hb : ∀ u ∈ back, u.kind ≠ .leftBrace) (ho : opener.kind = .leftBrace) :
    left = rest := by
  obtain ⟨behind, inherited, required, brace, hname, hinherit, hwhere, hbrace, -⟩ := typeHeader_cases h
  rcases typeName_cases hname with ⟨-, -, first, taken, hsplit, -⟩ | ⟨hx, -⟩
  · rw [hn, Prod.mk.injEq] at hsplit
    obtain ⟨-, rfl⟩ := hsplit
    have hk : t.kind = .identifier := by
      rw [Token.isIdentifier, Bool.and_eq_true, beq_iff_eq] at ht
      exact ht.1
    rw [inheritance_skip (by simp [hk]), Except.ok.injEq, Prod.mk.injEq] at hinherit
    obtain ⟨-, rfl⟩ := hinherit
    have hskip : (skipWhile (ε := Fault) fun t : Token => t.kind != .leftBrace).run (back ++ opener :: rest) =
        .ok ((), opener :: rest) := by
      have hall : ∀ u ∈ back, (u.kind != .leftBrace) = true := fun u hu => bne_iff_ne.2 (hb u hu)
      simp only [skipWhile, List.dropWhile_append_of_pos hall, List.dropWhile_cons, ho]
      rfl
    have htaken : (optionally (ε := Fault) (·.isIdentifier "where") fun _ => skipWhile (·.kind != .leftBrace)).run
        (t :: (back ++ opener :: rest)) = .ok (some (), opener :: rest) := optionally_take ht hskip
    rw [htaken, Except.ok.injEq, Prod.mk.injEq] at hwhere
    exact (List.cons.inj hwhere.2).2.symm
  · exact absurd rfl hx

/-- Behind its name a header goes on with nothing but a brace, a colon or requirements. -/
theorem header_next {t : Token} {named rest left : List Token} {header : TypeHeader} {ts : List Token}
    (h : (typeHeader .extensionType).run ts = .ok (header, left)) (hn : splitType ["where"] 0 none ts = (named, t :: rest))
    (hc : t.kind ≠ .colon) (hw : t.isIdentifier "where" = false) : t.kind = .leftBrace ∧ left = rest := by
  obtain ⟨behind, inherited, required, brace, hname, hinherit, hwhere, hbrace, -⟩ := typeHeader_cases h
  rcases typeName_cases hname with ⟨-, -, first, taken, hsplit, -⟩ | ⟨hx, -⟩
  · rw [hn, Prod.mk.injEq] at hsplit
    obtain ⟨-, rfl⟩ := hsplit
    rw [inheritance_skip (by simpa using hc), Except.ok.injEq, Prod.mk.injEq] at hinherit
    obtain ⟨-, rfl⟩ := hinherit
    rw [optionally_skip (by simpa using hw), Except.ok.injEq, Prod.mk.injEq] at hwhere
    obtain ⟨-, hcons⟩ := hwhere
    obtain ⟨rfl, rfl⟩ := List.cons.inj hcons
    exact ⟨hbrace, rfl⟩
  · exact absurd rfl hx

theorem isIdentifier_of_stop {t : Token} (h : t.isOneOf ["where"] = true) : t.isIdentifier "where" = true := by
  simpa [Token.isOneOf, Token.isIdentifier] using h

/-- A header whose name nests its brackets ends with the brace behind the name. -/
theorem header_ends {us rest left : List Token} {opener : Token} {header : TypeHeader} (hn : nests [] us = true)
    (hu : ∀ t ∈ us, t.newlineBefore = false) (ho : opener.kind = .leftBrace)
    (h : (typeHeader .extensionType).run (us ++ opener :: rest) = .ok (header, left)) : left = rest := by
  have hstop : splitType ["where"] 0 (us.getLast?.or none) (opener :: rest) = ([], opener :: rest) := by
    rw [splitType, if_pos (by simp [Token.endsType, ho])]
  have hsplit := @nests_split ["where"] [] us hn hu none (opener :: rest)
  rw [List.length_nil, hstop, List.append_nil] at hsplit
  rcases hsplit with hx | ⟨front, t, back, rfl, ht, hx⟩
  · exact (header_next h hx (by simp [ho]) (by simp [Token.isIdentifier, ho])).2
  · rw [List.cons_append] at hx
    have hfree := nests_noBraces hn
    refine header_tail h hx (isIdentifier_of_stop ht) (fun u hu => ?_) ho
    exact (hfree u (List.mem_append_right _ (List.mem_cons_of_mem _ hu))).1

/-- Where a comment takes the brace of a header, the header goes on to a brace that opens a body. -/
theorem header_swallowed {us vs rest left : List Token} {gate word next opener : Token} {header : TypeHeader}
    (hn : nests [] us = true) (hu : ∀ t ∈ us, t.newlineBefore = false) (hg : gate.kind = .hashWord)
    (hw : word.kind = .identifier ∧ word.text = "DEBUG") (hnext : next.kind = .identifier ∧ next.text = "var")
    (hbreak : next.newlineBefore = true) (hv : NoBraces vs) (ho : opener.kind = .leftBrace)
    (h : (typeHeader .extensionType).run (us ++ gate :: word :: next :: (vs ++ opener :: rest)) = .ok (header, left)) :
    left = rest := by
  have hrest : ∀ previous : Option Token, ∃ taken t more,
      splitType ["where"] 0 previous (gate :: word :: next :: (vs ++ opener :: rest)) = (taken, t :: more) ∧
        t.kind ≠ .colon ∧ t.kind ≠ .leftBrace ∧ t.isIdentifier "where" = false := by
    intro previous
    rw [splitType]
    split
    · exact ⟨[], gate, _, rfl, by simp [hg], by simp [hg], by simp [Token.isIdentifier, hg]⟩
    · have hd : typeDepth 0 gate = 0 ∧ typeDepth 0 word = 0 := by simp [typeDepth, hg, hw.1]
      rw [hd.1, splitType]
      split
      · exact ⟨[gate], word, _, rfl, by simp [hw.1], by simp [hw.1], by simp [Token.isIdentifier, hw.1, hw.2]⟩
      · have hword : word.continuesType = false := by simp [Token.continuesType, hw.1]
        have hnextType : next.continuesType = false := by simp [Token.continuesType, hnext.1]
        rw [hd.2, split_broken hbreak hword hnextType]
        exact ⟨[gate, word], next, _, rfl, by simp [hnext.1], by simp [hnext.1], by simp [Token.isIdentifier, hnext.2]⟩
  rcases @nests_split ["where"] [] us hn hu none (gate :: word :: next :: (vs ++ opener :: rest)) with
    hx | ⟨front, t, back, rfl, ht, hx⟩
  · obtain ⟨taken, t, more, hsplit, hcolon, hbrace, hwhere⟩ := hrest (us.getLast?.or none)
    rw [List.length_nil, hsplit] at hx
    exact absurd (header_next h hx hcolon hwhere).1 hbrace
  · rw [List.length_nil, List.cons_append] at hx
    have hx' : splitType ["where"] 0 none (front ++ t :: back ++ gate :: word :: next :: (vs ++ opener :: rest)) =
        (front, t :: ((back ++ gate :: word :: next :: vs) ++ opener :: rest)) := by
      rw [hx]
      simp
    have hfree := nests_noBraces hn
    refine header_tail h hx' (isIdentifier_of_stop ht) (fun u hu => ?_) ho
    rcases List.mem_append.1 hu with hu | hu
    · exact (hfree u (List.mem_append_right _ (List.mem_cons_of_mem _ hu))).1
    · simp only [List.mem_cons] at hu
      rcases hu with rfl | rfl | rfl | hu
      · simp [hg]
      · simp [hw.1]
      · simp [hnext.1]
      · exact (hv u hu).1

/-! ### The conditional block -/

/-- The line that opens the block is read up to the next line. -/
theorem gate_reads {broken : Bool} {margin margin' : List Char} {kind : TokenKind} {cs : List Char} {fs : List Element}
    {ts left : List Token} {found : List Decl}
    (h : Reads broken (.lineBreak margin :: (gateElements ++ .lineBreak margin' :: ⟨.lexeme kind, cs⟩ :: fs)) ts)
    (hrun : membersRun ts = .ok (found, left)) :
    ∃ gate vs inside last mark after, Reads false (.lineBreak margin' :: ⟨.lexeme kind, cs⟩ :: fs) vs ∧
      clauseMembersRun true gate vs = .ok ((inside, last, mark), after) ∧
        (mark = .finish → ∃ others, membersRun after = .ok (others, left) ∧
          found = .conditional gate.position [.mk .ifClause "DEBUG" inside] :: others) := by
  obtain ⟨gate, us, rfl, hg, h₁⟩ := reads_line h
  obtain ⟨word, vs, rfl, hw, h₂⟩ := reads_spaced h₁
  have h₂' : Reads false (.lineBreak margin' :: ⟨.lexeme kind, cs⟩ :: fs) vs := h₂
  obtain ⟨t, rest, he, hcases⟩ := membersRun_cases hrun
  obtain ⟨rfl, rfl⟩ := List.cons.inj he
  have hk : gate.kind = .hashWord := hg.kind
  rcases hcases with ⟨hx, -⟩ | ⟨hx, -⟩ | ⟨-, -, first, after, others, hdecl, hothers, rfl⟩
  · rw [hk] at hx
    cases hx
  · rw [hk] at hx
    cases hx
  rcases declarationRun_cases hdecl with ⟨-, -, clauses, rfl, hclauses⟩ | ⟨-, hx, -⟩ | ⟨-, -, -, hx, -⟩
  · obtain ⟨condition, inside, ms, last, hcondition, hclause⟩ := clausesRun_cases hclauses
    obtain ⟨next, more, rfl, hnext, -⟩ := reads_line h₂'
    have hread : (clauseCondition .ifClause gate).run (word :: next :: more) = .ok (phrase [word], next :: more) := by
      simp only [clauseCondition, reduceCtorEq, if_false, Reader.condition, hw.newlineBefore, Bool.false_eq_true,
        List.takeWhile_cons, List.dropWhile_cons, hnext.newlineBefore, Bool.not_true]
    have hphrase : phrase [word] = "DEBUG" := by
      rw [phrase, hw.text]
      decide
    rw [hread, hphrase, Except.ok.injEq, Prod.mk.injEq] at hcondition
    obtain ⟨rfl, rfl⟩ := hcondition
    rcases hclause with ⟨hms, rfl⟩ | ⟨keyword, after', others', hms, -⟩
    · exact ⟨gate, _, ms, last, .finish, after, h₂', hms, fun _ => ⟨others, hothers, rfl⟩⟩
    · exact ⟨gate, _, ms, last, .next keyword, after', h₂', hms, fun hx => ClauseMark.noConfusion hx⟩
  · exact absurd (by rw [hg.text]; rfl) hx
  · exact absurd hk hx

/-! ### Declarations of the frame -/

/-- The variable that gives the proxy. -/
def hooksVariable (p : Position) : Decl :=
  .variableList ⟨[], [], p⟩ .varKeyword [⟨"testHooks", some "TestHooks", none, some [.get], false⟩]

/-- The proxy with its members. -/
def proxyType (ms : List Decl) (p : Position) : Decl :=
  .group ⟨[], [], p⟩ ⟨.structType, "TestHooks", none, []⟩ ms

/-- The variable that stores the instance. -/
def storedReference (reference type : String) (p : Position) : Decl :=
  .variableList ⟨[], [⟨"private", none⟩], p⟩ .varKeyword [⟨reference, some type, none, none, false⟩]

/-- The initializer of the proxy. -/
def proxyInitializer (p : Position) : Decl :=
  .other ⟨[], [⟨"fileprivate", none⟩], p⟩ "init" ""

theorem maker_body : Body "return TestHooks(target: self)".toList makerElements :=
  ⟨maker_spelling, ⟨_, rfl⟩, by decide⟩

theorem hooks_reads {broken : Bool} {m m₁ m₂ : List Char} {fs : List Element} {ts : List Token}
    (h : Reads broken (.lineBreak m :: (hooksElements ++ (insideElements m₁ m₂ makerElements ++ fs))) ts)
    (hc : ∀ {vs : List Token}, Reads false fs vs → vs.head?.any (·.kind == .comma) = false) :
    ∃ t more vs, ts = t :: more ∧ t.kind = .identifier ∧ Reads false fs vs ∧ ∀ {found : Option Decl} {left : List Token},
      declarationRun true t more = .ok (found, left) → found = some (hooksVariable t.position) ∧ left = vs := by
  obtain ⟨t, us, rfl, ht, h₁⟩ := reads_line h
  obtain ⟨name, us, rfl, hname, h₂⟩ := reads_spaced h₁
  obtain ⟨colon, us, rfl, hcolon, h₃⟩ := reads_lexeme h₂
  obtain ⟨type, us, rfl, htype, h₄⟩ := reads_spaced h₃
  obtain ⟨opener, us, rfl, ho, h₅⟩ := reads_spaced h₄
  obtain ⟨inside, closer, vs, rfl, hi, hfree, hcl, hvs⟩ := inside_reads h₅ (nests_noBraces maker_body.nests)
  obtain ⟨word, inside, rfl, hword, -⟩ := reads_lexeme hi
  refine ⟨t, _, vs, rfl, ht.kind, hvs, fun {found left} hd => ?_⟩
  have htext : t.text = "var" ∧ name.text = "testHooks" ∧ type.text = "TestHooks" ∧ word.text = "return" := by
    rw [ht.text, hname.text, htype.text, hword.text]
    simp
  have hk := ht.kind
  have hhead := headFrom_word hk (by rw [htext.1]; decide) (name :: colon :: type :: opener :: (word :: inside ++ closer :: vs))
  obtain ⟨bs, hbs, rfl⟩ := variable_cases hk hhead hk htext.1 hd
  have htypeText : (typeText []).run (type :: opener :: (word :: inside ++ closer :: vs)) =
      .ok ("TestHooks", opener :: (word :: inside ++ closer :: vs)) := by
    refine phraseBy_eq_ok.2 ⟨type, [], ?_, ?_⟩
    · have hend : type.endsType = false := by simp [Token.endsType, htype.kind]
      have hdepth : typeDepth 0 type = 0 := by simp [typeDepth, htype.kind]
      rw [splitType, if_neg (by simp [hend, Token.isOneOf, Token.breaksType]), hdepth, splitType,
        if_pos (by simp [Token.endsType, ho.kind])]
    · rw [phrase, htext.2.2.1]
      decide
  have hbinding : binding.run (name :: colon :: type :: opener :: (word :: inside ++ closer :: vs)) =
      .ok (⟨"testHooks", some "TestHooks", none, some [.get], false⟩, vs) := by
    unfold binding
    rw [run_bind_eq_ok]
    refine ⟨_, _, bindingName_word hname.kind _, run_bind_eq_ok.2 ⟨some "TestHooks", _,
      optionally_take (by simp [hcolon.kind]) htypeText, run_bind_eq_ok.2 ⟨none, _, optionally_skip
        (by simp [isAssignment, ho.kind]), run_bind_eq_ok.2 ⟨some [.get], vs, ?_, ?_⟩⟩⟩⟩
    · exact optionally_take (by simp [ho.kind]) (accessorBlock_plain ho.kind hword.kind htext.2.2.2 hfree hcl)
    · rw [htext.2.1]
      rfl
  rw [byCommas_one hbinding (hc hvs)] at hbs
  cases hbs
  exact ⟨rfl, rfl⟩

theorem proxy_reads {broken : Bool} {m : List Char} {fs : List Element} {ts : List Token}
    (h : Reads broken (.lineBreak m :: (proxyElements ++ fs)) ts) :
    ∃ t more vs, ts = t :: more ∧ t.kind = .identifier ∧ Reads false fs vs ∧ ∀ {found : Option Decl} {left : List Token},
      declarationRun true t more = .ok (found, left) →
        ∃ ms, membersRun vs = .ok (ms, left) ∧ found = some (proxyType ms t.position) := by
  obtain ⟨t, us, rfl, ht, h₁⟩ := reads_line h
  obtain ⟨name, us, rfl, hname, h₂⟩ := reads_spaced h₁
  obtain ⟨opener, vs, rfl, ho, hvs⟩ := reads_spaced h₂
  refine ⟨t, _, vs, rfl, ht.kind, hvs, fun {found left} hd => ?_⟩
  have htext : t.text = "struct" ∧ name.text = "TestHooks" := by
    rw [ht.text, hname.text]
    simp
  have hk := ht.kind
  have hi : Introducer.ofToken? t = some (.type .structType) := introducer_type hk htext.1
  have hheader : (typeHeader .structType).run (name :: opener :: vs) = .ok (⟨.structType, "TestHooks", none, []⟩, vs) := by
    rw [typeHeader_named (by decide) hname.kind ho.kind, htext.2]
  obtain ⟨header, inside, ms, hh, hm, rfl⟩ :=
    group_cases (by simp [hk]) (headFrom_word hk (by rw [htext.1]; decide) _) hi hd
  rw [hheader, Except.ok.injEq, Prod.mk.injEq] at hh
  obtain ⟨rfl, rfl⟩ := hh
  exact ⟨ms, hm, rfl⟩

theorem noBraces_of_plain {ts : List Token} (h : ∀ t ∈ ts, t.opensBracket = false ∧ t.closesBracket = false) :
    NoBraces ts := by
  intro t ht
  obtain ⟨ho, hc⟩ := h t ht
  simp only [Token.opensBracket, Token.closesBracket, Bool.or_eq_false_iff, beq_eq_false_iff_ne] at ho hc
  exact ⟨ho.1.1, hc.1.1⟩

/-- A statement goes on over tokens that are no brackets, if brackets are open. -/
theorem afterStatement_plain {depth : Int} (hd : depth ≠ 0) {ts : List Token}
    (h : ∀ t ∈ ts, t.opensBracket = false ∧ t.closesBracket = false) (rest : List Token) :
    afterStatement depth false (ts ++ rest) = afterStatement depth false rest := by
  induction ts with
  | nil => rfl
  | cons t ts ih =>
    obtain ⟨ho, hc⟩ := h t List.mem_cons_self
    rw [List.cons_append, afterStatement_inside hd, statementDepth, ho, hc]
    exact ih fun u hu => h u (List.mem_cons_of_mem t hu)

/-- A clause in parentheses and a block in braces behind it are one statement. -/
theorem afterStatement_block {opener closer brace last : Token} {clause inside : List Token} (ho : opener.kind = .leftParen)
    (hclause : ∀ rest, afterStatement 1 false (clause ++ rest) = afterStatement 1 false rest)
    (hcloser : closer.kind = .rightParen) (hbrace : brace.kind = .leftBrace) (hline : brace.newlineBefore = false)
    (hinside : ∀ t ∈ inside, t.opensBracket = false ∧ t.closesBracket = false) (hlast : last.kind = .rightBrace)
    (vs : List Token) :
    afterStatement 0 true (opener :: (clause ++ closer :: brace :: (inside ++ last :: vs))) =
      afterStatement 0 false vs := by
  have hone := Int.one_ne_zero
  have hdepth : statementDepth 0 opener = 1 ∧ statementDepth 1 closer = 0 ∧ statementDepth 0 brace = 1 ∧
      statementDepth 1 last = 0 := by
    simp [statementDepth, Token.opensBracket, Token.closesBracket, ho, hcloser, hbrace, hlast]
  obtain ⟨h₁, h₂, h₃, h₄⟩ := hdepth
  calc afterStatement 0 true (opener :: (clause ++ closer :: brace :: (inside ++ last :: vs)))
    _ = afterStatement 1 false (closer :: brace :: (inside ++ last :: vs)) := by
      rw [afterStatement_step (by simp [ho]) (by simp [ho]) (.inl rfl), h₁, hclause]
    _ = afterStatement 0 false (brace :: (inside ++ last :: vs)) := by rw [afterStatement_inside hone, h₂]
    _ = afterStatement 1 false (inside ++ last :: vs) := by
      rw [afterStatement_step (by simp [hbrace]) (by simp [hbrace]) (.inr (.inl hline)), h₃]
    _ = afterStatement 0 false vs := by rw [afterStatement_plain hone hinside, afterStatement_inside hone, h₄]

/-- A statement ends where a declaration of the extension or its end follows. -/
theorem afterStatement_opens {broken : Bool} {fs : List Element} (hf : Opens fs) {vs : List Token}
    (h : Reads broken fs vs) : afterStatement 0 false vs = vs := by
  obtain ⟨next, more, rfl, hbreak, hnext⟩ := opens_reads hf h
  refine afterStatement_stop (hnext.imp_right fun hx => ⟨hbreak, ?_⟩) more
  have hword : declarationKeywords.contains next.text = true ∨ modifierWords.contains next.text = true := by
    have hx := hx.2
    simp only [List.mem_cons, List.not_mem_nil, or_false] at hx
    rcases hx with hx | hx | hx | hx <;> rw [hx] <;> decide
  rw [Token.startsDeclaration, Token.isOneOf, Token.isOneOf, hx.1]
  rcases hword with hw | hw <;> simp only [hw, beq_self_eq_true, Bool.true_and, Bool.or_true, Bool.true_or]

/-- The line that stores the instance has no brackets. -/
theorem store_plain (reference : String) :
    ∀ t ∈ bareTokens (storeElements reference), t.opensBracket = false ∧ t.closesBracket = false := by
  intro u hu
  simp only [storeElements, bareTokens, Element.token?, Element.word, Element.mark, Element.space, List.mem_filterMap,
    List.mem_cons, List.not_mem_nil, or_false] at hu
  obtain ⟨e, he, hu⟩ := hu
  rcases he with rfl | rfl | rfl | rfl | rfl | rfl | rfl <;> cases hu <;> exact ⟨rfl, rfl⟩

section Name

variable {name : String} {nes : List Element} (hr : Receiver name.toList nes)

include hr

/-- The tokens of the name of a type. -/
theorem receiver_reads {fs : List Element} {ts : List Token} (h : Reads false (nes ++ fs) ts) :
    ∃ us vs, ts = us ++ vs ∧ us ≠ [] ∧ us.map Token.bare = bareTokens nes ∧ nests [] us = true ∧
      (∀ t ∈ us, t.newlineBefore = false) ∧ Reads false fs vs := by
  obtain ⟨us, vs, rfl, hu, hv⟩ := reads_append h hr.ends
  have hbare := reads_bare hu
  have hflat := hr.spelling.flatten
  rw [List.append_nil] at hflat
  refine ⟨us, vs, rfl, ?_, hbare, ?_, reads_unbroken hu (hflat ▸ hr.spelling.line), hv⟩
  · rintro rfl
    obtain ⟨front, kind, cs, he⟩ := hr.ends
    rw [he, bareTokens_append] at hbare
    have := congrArg List.length hbare
    simp [bareTokens, Element.token?] at this
  · rw [← nests_bare, hbare]
    exact hr.nests

theorem reference_reads {reference : String} {broken : Bool} {m m' : List Char} {kind : TokenKind} {cs : List Char}
    (hl : ∀ t, (bareTokens nes).getLast? = some t → t.continuesType = false) (hk : kind = .identifier) {fs : List Element}
    {ts : List Token}
    (h : Reads broken (.lineBreak m :: (referenceElements reference nes ++ .lineBreak m' :: ⟨.lexeme kind, cs⟩ :: fs)) ts) :
    ∃ t more vs, ts = t :: more ∧ t.kind = .identifier ∧ Reads false (.lineBreak m' :: ⟨.lexeme kind, cs⟩ :: fs) vs ∧
      ∀ {found : Option Decl} {left : List Token}, declarationRun true t more = .ok (found, left) →
        ∃ type, found = some (storedReference reference type t.position) ∧ left = vs := by
  subst hk
  obtain ⟨t, us, rfl, ht, h₁⟩ := reads_line h
  obtain ⟨word, us, rfl, hword, h₂⟩ := reads_spaced h₁
  obtain ⟨stored, us, rfl, hstored, h₃⟩ := reads_spaced h₂
  obtain ⟨colon, us, rfl, hcolon, h₄⟩ := reads_lexeme h₃
  obtain ⟨us, vs, rfl, hne, hbare, hnests, hline, hvs⟩ := receiver_reads hr (reads_space h₄)
  refine ⟨t, _, vs, rfl, ht.kind, hvs, fun {found left} hd => ?_⟩
  have htext : t.text = "private" ∧ word.text = "var" ∧ stored.text = reference := by
    rw [ht.text, hword.text, hstored.text]
    simp
  have htk := ht.kind
  have hwk := hword.kind
  have hhead := headFrom_modifier hwk (by rw [htext.2.1]; decide) htk (by rw [htext.1]; decide) (by rw [htext.1]; decide)
    (stored :: colon :: (us ++ vs))
  obtain ⟨bs, hbs, rfl⟩ := variable_cases htk hhead hwk htext.2.1 hd
  obtain ⟨next, more, rfl, hnext, -⟩ := reads_line hvs
  have hnk : next.kind = .identifier := hnext.kind
  have hsplit : splitType [] 0 none (us ++ next :: more) = (us, next :: more) := by
    obtain ⟨last, hlast⟩ : ∃ last, us.getLast? = some last := ⟨_, List.getLast?_eq_some_getLast hne⟩
    have hgoes : last.continuesType = false := by
      have := hl last.bare (by rw [← hbare, List.getLast?_map, hlast]; rfl)
      exact this
    have hbroken : splitType [] 0 (us.getLast?.or none) (next :: more) = ([], next :: more) := by
      rw [hlast]
      exact split_broken hnext.newlineBefore hgoes (by simp [Token.continuesType, hnk]) more
    rcases @nests_split [] [] us hnests hline none (next :: more) with hx | ⟨front, u, back, -, hu, -⟩
    · rwa [List.length_nil, hbroken, List.append_nil] at hx
    · simp [Token.isOneOf] at hu
  obtain ⟨first, rest, rfl⟩ := List.exists_cons_of_ne_nil hne
  have hbinding : binding.run (stored :: colon :: (first :: rest ++ next :: more)) =
      .ok (⟨reference, some (phrase (first :: rest)), none, none, false⟩, next :: more) := by
    unfold binding
    rw [run_bind_eq_ok]
    refine ⟨_, _, bindingName_word hstored.kind _, run_bind_eq_ok.2 ⟨some _, _,
      optionally_take (by simp [hcolon.kind]) (phraseBy_eq_ok.2 ⟨first, rest, hsplit, rfl⟩), run_bind_eq_ok.2 ⟨none, _,
        optionally_skip (by simp [isAssignment, hnk]), run_bind_eq_ok.2 ⟨none, _, optionally_skip (by simp [hnk]), ?_⟩⟩⟩⟩
    rw [htext.2.2]
    rfl
  rw [byCommas_one hbinding (by simp [hnk])] at hbs
  cases hbs
  refine ⟨phrase (first :: rest), ?_, rfl⟩
  rw [storedReference, htext.1]

/-- The initializer is read as a statement behind its keyword. -/
theorem initializer_reads {reference : String} {broken : Bool} {m m₁ m₂ : List Char}
    {fs : List Element} (hf : Opens fs) {ts : List Token}
    (h : Reads broken (.lineBreak m :: (initializerElements nes ++ (insideElements m₁ m₂ (storeElements reference) ++ fs))) ts) :
    ∃ t more vs, ts = t :: more ∧ t.kind = .identifier ∧ Reads false fs vs ∧ ∀ {found : Option Decl} {left : List Token},
      declarationRun true t more = .ok (found, left) → found = some (proxyInitializer t.position) ∧ left = vs := by
  obtain ⟨t, us, rfl, ht, h₁⟩ := reads_line h
  obtain ⟨word, us, rfl, hword, h₂⟩ := reads_spaced h₁
  obtain ⟨opener, us, rfl, ho, h₃⟩ := reads_lexeme h₂
  obtain ⟨label, us, rfl, hlabel, h₄⟩ := reads_lexeme h₃
  obtain ⟨colon, us, rfl, hcolon, h₅⟩ := reads_lexeme h₄
  have h₆ : Reads false (nes ++ .mark .rightParen ')' :: .space :: .mark .leftBrace '\x7b' ::
      (insideElements m₁ m₂ (storeElements reference) ++ fs)) us := by
    simpa using reads_space h₅
  obtain ⟨us, ws, rfl, -, -, hnests, -, h₇⟩ := receiver_reads hr h₆
  obtain ⟨closer, ws, rfl, hclose, h₈⟩ := reads_lexeme h₇
  obtain ⟨brace, ws, rfl, hbrace, h₉⟩ := reads_spaced h₈
  obtain ⟨inside, last, vs, rfl, hi, -, hlast, hvs⟩ := inside_reads h₉ (noBraces_of_plain (store_plain reference))
  refine ⟨t, _, vs, rfl, ht.kind, hvs, fun {found left} hd => ?_⟩
  have htext : t.text = "fileprivate" ∧ word.text = "init" := by
    rw [ht.text, hword.text]
    simp
  have htk := ht.kind
  have hwk := hword.kind
  have hinside : ∀ t ∈ inside, t.opensBracket = false ∧ t.closesBracket = false := fun u hu =>
    store_plain reference u.bare (reads_bare hi ▸ List.mem_map_of_mem hu)
  -- The label and its colon stand in the parentheses before the type.
  have hclause (rest : List Token) :
      afterStatement 1 false (label :: colon :: us ++ rest) = afterStatement 1 false rest := by
    have hflat : ∀ u ∈ [label, colon], u.opensBracket = false ∧ u.closesBracket = false := by
      simp [Token.opensBracket, Token.closesBracket, hlabel.kind, hcolon.kind]
    exact (afterStatement_plain Int.one_ne_zero hflat (us ++ rest)).trans (nests_statement hnests Int.one_pos rest)
  have hstatement := afterStatement_block ho.kind hclause hclose.kind hbrace.kind hbrace.newlineBefore hinside hlast vs
  rw [afterStatement_opens hf hvs] at hstatement
  have hintroducer : Introducer.ofToken? word = some (.other "init") := by
    rw [Introducer.ofToken?, hwk, htext.2]
    decide
  have hhead := headFrom_modifier hwk (by rw [htext.2]; decide) htk (by rw [htext.1]; decide) (by rw [htext.1]; decide)
    (opener :: label :: colon :: (us ++ closer :: brace :: (inside ++ last :: vs)))
  obtain ⟨rfl, rfl⟩ := other_cases htk hhead hintroducer hd
  refine ⟨?_, hstatement⟩
  rw [proxyInitializer, htext.1]
  simp [nameAfter]

/-- The block is read up to the directive that ends it. -/
theorem scope_reads {lines : List (List Char)} {ds : List (Position → Decl)} {es : List Element}
    (hf : Forwards lines ds es) (hl : ∀ t, (bareTokens nes).getLast? = some t → t.continuesType = false)
    {indent reference : String} {gate last : Token} {mark : ClauseMark} {vs after : List Token} {inside : List Decl}
    (h : Reads false (scopeElements indent reference nes (es ++ (endElements (margin indent 1) ++ backElements indent))) vs)
    (hrun : clauseMembersRun true gate vs = .ok ((inside, last, mark), after)) :
    mark = .finish ∧ Reads false [.lineBreak (margin indent 0), .mark .rightBrace '\x7d'] after ∧
      ∃ p₁ p₂ p₃ p₄ type ms, Stand ds ms ∧ inside =
        [hooksVariable p₁, proxyType (storedReference reference type p₂ :: proxyInitializer p₃ :: ms) p₄] := by
  obtain ⟨t, more, vs₁, rfl, hk, h₁, hhooks⟩ := hooks_reads h fun {ws} hw => by
    obtain ⟨u, us, rfl, hu, -⟩ := reads_line hw
    simp [hu.kind]
  obtain ⟨first, after₁, others₁, hd₁, hrest₁, rfl⟩ := clause_word hk hrun
  obtain ⟨rfl, rfl⟩ := hhooks hd₁
  obtain ⟨u, more₁, vs₂, rfl, hu, h₂, hproxy⟩ := proxy_reads h₁
  obtain ⟨first, after₂, others₂, hd₂, hrest₂, rfl⟩ := clause_word hu hrest₁
  obtain ⟨ms, hms, rfl⟩ := hproxy hd₂
  obtain ⟨v, more₂, vs₃, rfl, hv, h₃, hreference⟩ := reference_reads hr hl rfl h₂
  obtain ⟨first, after₃, others₃, hd₃, hms₃, rfl⟩ := members_word hv hms
  obtain ⟨type, rfl, rfl⟩ := hreference hd₃
  obtain ⟨w, more₃, vs₄, rfl, hw, h₄, hinit⟩ := initializer_reads hr (hf.opens _ _) h₃
  obtain ⟨first, after₄, others₄, hd₄, hms₄, rfl⟩ := members_word hw hms₃
  obtain ⟨rfl, rfl⟩ := hinit hd₄
  have hback : Rises (bareTokens (backElements indent)) := ⟨0, rfl⟩
  rcases members_read hf hback h₄ hms₄ with ⟨hstand, hclosed⟩ | ⟨lines', ds', es', hf', hleft⟩
  · obtain ⟨final, rest, rfl, hfinal, hbrace⟩ := reads_line hclosed
    have hfinish : clauseMark? final = some .finish := by
      rw [clauseMark?, hfinal.kind, hfinal.text]
      decide
    rw [clauseMembersRun_mark hfinish] at hrest₂
    cases hrest₂
    exact ⟨rfl, hbrace, t.position, v.position, w.position, u.position, type, _, hstand, rfl⟩
  · exact absurd hrest₂ (clause_fails hf' hback hleft)

end Name

/-! ### The whole extension -/

theorem toList_extension (plan : Plan) (fragments : Fragments) :
    (writeExtension plan fragments).toList = (extensionLine plan.typeName).toList ++
      (((openingLines plan).tail.map fun l => (l.write plan.indent).toList) ++
        ((fragments.ordered.flatMap fragmentLines).map (fun l => (l.write plan.indent).toList) ++
          closingLines.map fun l => (l.write plan.indent).toList)).flatMap ('\n' :: ·) := by
  have hlines : extensionLines plan fragments = ⟨0, extensionLine plan.typeName⟩ ::
      ((openingLines plan).tail ++ (fragments.ordered.flatMap fragmentLines ++ closingLines)) := by
    rw [extensionLines, List.append_assoc]
    rfl
  rw [writeExtension, hlines, toList_writeLines, toList_write, brokenLines, ← List.map_append, ← List.map_append,
    List.flatMap_map]
  rfl

theorem header_spelling {name : String} {es : List Element} {tail : List Char} (hs : Spelling (name ++ " \x7b").toList es tail)
    (hb : (name ++ " \x7b").toList.head?.any (!isBlank ·) = true) :
    Spelling (extensionLine name).toList (.word "extension".toList :: .space :: es) tail := by
  have he : Name "extension".toList := .plain (by decide) (by decide)
  have hspace : isWordChar ' ' = false := by decide
  have := (hs.space hb).word he hspace
  have htext : (extensionLine name).toList = "extension".toList ++ ' ' :: (name ++ " \x7b").toList := by
    simp [extensionLine, String.toList_append]
  rwa [htext]

/-- Elements that fit are what the front of a text is cut into, whatever stands behind them. -/
theorem reads_front {text : String} {es : List Element} {rest : List Char} (hf : Fitting es rest)
    (ht : text.toList = es.flatMap Element.text ++ rest) :
    ∃ fs, Reads false (es ++ fs) (Tokens.ofText text).tokens :=
  ⟨(Cut.ofText rest).elements, .origin, [], rfl, by rw [Tokens.ofText, ht, ofText_flatten hf]⟩

theorem tokens_of_fitting {text : String} {es : List Element} (hf : Fitting es []) (ht : es.flatMap Element.text = text.toList) :
    Reads false es (Tokens.ofText text).tokens := by
  refine ⟨.origin, [], rfl, ?_⟩
  rw [ofText_of_fitting hf ht]

/-- The text is read as an extension with these members, through its last token. -/
def ReadThrough (code : String) (members : List Decl) : Prop :=
  ∃ t ts header inside, (Tokens.ofText code).tokens = t :: ts ∧ t.kind = .identifier ∧ t.text = "extension" ∧
    (typeHeader .extensionType).run ts = .ok (header, inside) ∧ membersRun inside = .ok (members, [])

section Extension

variable {plan : Plan} {fragments : Fragments} (hindent : ∀ c ∈ plan.indent.toList, c = ' ')
  (hcondition : plan.condition = "DEBUG") {found : List Decl} (hparse : parse (writeExtension plan fragments) = .ok found)

include hindent hcondition hparse

/-- An extension of a type whose name is a receiver reads back as a block with a variable and a proxy, whose members
are as expected. -/
theorem extension_reads {nes : List Element} (hr : Receiver plan.typeName.toList nes)
    (hl : ∀ t, (bareTokens nes).getLast? = some t → t.continuesType = false) (hn : Name plan.reference.toList)
    {ds : List (Position → Decl)} {es : List Element}
    (hf : Forwards ((fragments.ordered.flatMap fragmentLines).map fun l => (l.write plan.indent).toList) ds es) :
    ∃ head header members p p₁ p₂ p₃ p₄ type ms, Stand ds ms ∧ ReadThrough (writeExtension plan fragments) members ∧
      found = [.group head header members] ∧ members = [.conditional p [.mk .ifClause "DEBUG"
        [hooksVariable p₁, proxyType (storedReference plan.reference type p₂ :: proxyInitializer p₃ :: ms) p₄]]] := by
  have hpage := front_page hindent hcondition hr hn (hf.page.append (back_page hindent))
  have hbrace : Spelling [' ', '\x7b'] [.space, .mark .leftBrace '\x7b'] [] :=
    (spelling_nil.mark rfl (by decide)).space (by decide)
  have hbegins := begins_before hr.begins [' ', '\x7b']
  have hline := header_spelling (by rw [String.toList_append]; exact hr.spelling.append hbrace rfl)
    (by rw [String.toList_append]; exact hbegins)
  have htext := toList_extension plan fragments
  have hflat := hline.flatten
  rw [List.append_nil] at hflat
  rw [← hpage.flatten, ← hflat, ← List.flatMap_append] at htext
  have hfit : Fitting _ [] := hpage.fits rfl
  have hwhole : Fitting (.word "extension".toList :: .space :: (nes ++ [.space, .mark .leftBrace '\x7b']) ++
      frontElements plan.indent plan.reference nes
        (es ++ (endElements (margin plan.indent 1) ++ backElements plan.indent))) [] := by
    rw [fitting_append]
    refine ⟨?_, hfit⟩
    rw [List.append_nil]
    exact hline.fits _ (separated_of_break rfl)
  have hreads := tokens_of_fitting hwhole htext.symm
  obtain ⟨t, us, htokens, ht, h₁⟩ := reads_lexeme hreads
  have htop := (parse_cases hparse).2
  rw [htokens] at htop
  obtain ⟨head, header, inside, members, left, others, hh, hm, hothers, rfl⟩ := top_extension ht.kind (by rw [ht.text]; rfl) htop
  have h₂ : Reads false (nes ++ .space :: .mark .leftBrace '\x7b' :: frontElements plan.indent plan.reference nes
      (es ++ (endElements (margin plan.indent 1) ++ backElements plan.indent))) us := by
    simpa using reads_space h₁
  obtain ⟨us, vs, rfl, -, -, hnests, hunbroken, h₃⟩ := receiver_reads hr h₂
  obtain ⟨opener, vs, rfl, ho, h₄⟩ := reads_spaced h₃
  obtain rfl := header_ends hnests hunbroken ho.kind hh
  obtain ⟨gate, ws, block, last, mark, after, h₅, hclause, hfinish⟩ := gate_reads h₄ hm
  obtain ⟨rfl, hend, p₁, p₂, p₃, p₄, type, ms, hstand, rfl⟩ := scope_reads hr hf hl h₅ hclause
  obtain ⟨rest, hrest, rfl⟩ := hfinish rfl
  obtain ⟨closer, none, rfl, hcloser, hnil⟩ := reads_line hend
  obtain rfl := reads_nil.1 hnil
  rw [membersRun_close hcloser.kind] at hrest
  cases hrest
  rw [topLevel] at hothers
  cases hothers
  exact ⟨head, header, _, gate.position, p₁, p₂, p₃, p₄, type, ms, hstand,
    ⟨t, _, header, _, htokens, ht.kind, by rw [ht.text]; rfl, hh, hm⟩, rfl, rfl⟩

omit hparse in
variable (fragments) in
/-- The text of an extension up to the body of its variable, when the first line is spelled by other elements and a
comment. -/
theorem front_reads {es : List Element} {line : List Char} (hs : Spelling (extensionLine plan.typeName).toList es line) :
    ∃ fs, Reads false (es ++ (commented line ++ (.lineBreak (margin plan.indent 1) :: (gateElements ++
      .lineBreak (margin plan.indent 1) :: (hooksElements ++ .lineBreak (margin plan.indent 2) :: makerElements))) ++ fs))
        (Tokens.ofText (writeExtension plan fragments)).tokens := by
  obtain ⟨ls, hls⟩ : ∃ ls, ls = .lineBreak (margin plan.indent 1) :: (gateElements ++
    .lineBreak (margin plan.indent 1) :: (hooksElements ++ .lineBreak (margin plan.indent 2) :: makerElements)) := ⟨_, rfl⟩
  have hpage : Page ([⟨1, "#if DEBUG"⟩, ⟨1, "var testHooks: TestHooks \x7b"⟩, ⟨2, "return TestHooks(target: self)"⟩].map
      fun l => (Line.write plan.indent l).toList) ls := by
    have hmaker := page_line hindent 2 maker_spelling (by decide) Page.nil
    have := page_line hindent 1 gate_spelling (by decide) (page_line hindent 1 hooks_spelling (by decide) hmaker)
    simpa [hls, commented] using this
  rw [← hls]
  have hflat : (es ++ (commented line ++ ls)).flatMap Element.text =
      (extensionLine plan.typeName).toList ++ ls.flatMap Element.text := by
    rw [List.flatMap_append, List.flatMap_append, commented_flatten, ← List.append_assoc, hs.flatten]
  obtain ⟨more, hmore⟩ : ∃ more, (writeExtension plan fragments).toList =
      (es ++ (commented line ++ ls)).flatMap Element.text ++ '\n' :: more := by
    rw [hflat, hpage.flatten, toList_extension, openingLines, hcondition]
    exact ⟨_, by simp only [List.tail_cons, List.map_cons, List.flatMap_cons, List.cons_append, List.append_assoc,
      List.flatMap_nil, List.map_nil, List.nil_append]; rfl⟩
  have hfit : Fitting (es ++ (commented line ++ ls)) ('\n' :: more) := by
    have hbreak : (ls.flatMap Element.text ++ '\n' :: more).head?.all (· == '\n') = true := hpage.separated rfl
    rw [fitting_append, fitting_append, List.flatMap_append, commented_flatten, List.append_assoc]
    refine ⟨hs.fits _ (separated_of_break hbreak), comment_fits hs.comment ?_ hbreak, hpage.fits rfl⟩
    exact fun hx => hs.line (hs.flatten ▸ List.mem_append_right _ hx)
  obtain ⟨fs, hreads⟩ := reads_front hfit hmore
  exact ⟨fs, by simpa using hreads⟩

/-- A comment in the name of the type takes the brace of the extension, which then cannot be read. -/
theorem extension_swallowed {front : List Element} {tail : List Char} (hs : Spelling plan.typeName.toList front tail)
    (ht : tail ≠ []) (hb : plan.typeName.toList.head?.any (!isBlank ·) = true)
    (hnests : nests [] (bareTokens front) = true) : False := by
  have hline := header_spelling (by rw [String.toList_append]; exact hs.swallow ht rfl (by decide))
    (by rw [String.toList_append]; exact begins_before hb _)
  obtain ⟨fs, hreads⟩ := front_reads fragments hindent hcondition hline
  obtain ⟨t, us, htokens, hword, h₁⟩ := reads_lexeme hreads
  have h₂ : Reads false (front ++ (commented (tail ++ " \x7b".toList) ++ .lineBreak (margin plan.indent 1) :: (gateElements ++
      .lineBreak (margin plan.indent 1) :: (hooksElements ++ .lineBreak (margin plan.indent 2) :: (makerElements ++ fs))))) us := by
    simpa using reads_space h₁
  obtain ⟨us, vs, before, rfl, hname, h₃⟩ := reads_split h₂
  obtain ⟨gate, vs, rfl, hgate, h₄⟩ := reads_lexeme (reads_break h₃)
  obtain ⟨word, vs, rfl, hdebug, h₅⟩ := reads_spaced h₄
  obtain ⟨next, vs, rfl, hnext, h₆⟩ := reads_line h₅
  obtain ⟨named, vs, rfl, hnamed, h₇⟩ := reads_spaced h₆
  obtain ⟨colon, vs, rfl, hcolon, h₈⟩ := reads_lexeme h₇
  obtain ⟨type, vs, rfl, htype, h₉⟩ := reads_spaced h₈
  obtain ⟨opener, vs, rfl, hopener, h₁₀⟩ := reads_spaced h₉
  obtain ⟨first, vs, rfl, hfirst, -⟩ := reads_line h₁₀
  have htop := (parse_cases hparse).2
  rw [htokens] at htop
  obtain ⟨head, header, inside, members, left, rest, hh, hm, -⟩ := top_extension hword.kind (by rw [hword.text]; rfl) htop
  have hunbroken := hs.flatten ▸ hs.line
  have hbetween : NoBraces [named, colon, type] := by
    intro u hu
    simp only [List.mem_cons, List.not_mem_nil, or_false] at hu
    rcases hu with rfl | rfl | rfl
    · simp [hnamed.kind]
    · simp [hcolon.kind]
    · simp [htype.kind]
  obtain rfl := header_swallowed (by rw [← nests_bare, reads_bare hname]; exact hnests)
    (reads_unbroken hname fun hx => hunbroken (List.mem_append_left _ hx)) hgate.kind ⟨hdebug.kind, by rw [hdebug.text]; rfl⟩
    ⟨hnext.kind, by rw [hnext.text]; rfl⟩ hnext.newlineBefore hbetween hopener.kind hh
  obtain ⟨found, after, others, hdecl, -⟩ := members_word hfirst.kind hm
  exact no_declaration hfirst.kind (by rw [hfirst.text]; decide) hdecl

end Extension

end TestHooks.Proxy
