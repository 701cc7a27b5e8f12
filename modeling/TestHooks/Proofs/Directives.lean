import TestHooks.Proofs.Composing

/-!
# The last directive of a text

A conditional block whose text has no other hash sign ends at the `#endif` on a line of its own. No literal, comment or
escaped name reaches over that line, since what follows has no character that could end it (`ends_at_directive`). Whatever
the block holds is then read as its one clause (`members_of_block`).
-/

namespace TestHooks.Swift

open TestHooks.Text TestHooks.Reader

/-! ### Literals without hashes -/

theorem quotes_of_closer {multiline : Bool} {c : Char} {cs : List Char} (h : literalCloser 0 multiline <+: c :: cs) :
    c = '"' ∧ ∀ d ∈ cs.take ((literalCloser 0 multiline).length - 1), d = '"' := by
  obtain ⟨more, hm⟩ := h
  cases multiline with
  | false =>
    obtain ⟨rfl, -⟩ := List.cons.inj hm
    exact ⟨rfl, nofun⟩
  | true =>
    obtain ⟨rfl, rfl⟩ := List.cons.inj hm
    refine ⟨rfl, fun d hd => ?_⟩
    simpa [literalCloser, quoteMark] using hd

/-- A literal without hashes ends with a quote. -/
theorem Closes.last_quote {multiline : Bool} {after cs : List Char} {frames : List Frame} {skip : Nat}
    (h : Closes after frames skip cs) (hf : frames.getLast? = some (.literal 0 multiline)) {c : Char}
    (hc : cs.getLast? = some c) : c = '"' := by
  obtain ⟨front, closer, d, frame, rfl, hs, hl⟩ := h.last_step (by rintro rfl; cases hf)
  obtain rfl := hl 0 multiline hf
  rw [List.getLast?_append_of_ne_nil _ (List.cons_ne_nil d closer)] at hc
  rcases step_literal_cases hs with ⟨hp, -, hk⟩ | ⟨-, -, -, hi⟩ | ⟨-, -, -, hi, -⟩
  · obtain ⟨hd, hq⟩ := quotes_of_closer hp
    rcases List.mem_cons.1 (List.mem_of_getLast? hc) with rfl | hm
    · exact hd
    · exact hq c (by rwa [← hk, List.take_left])
  · split at hi <;> cases hi
  · cases hi

/-- A literal that does not begin with a hash ends with a quote. -/
theorem string_last {c d : Char} {cs after : List Char} (h : lexemeAt c (cs ++ after) = .ok (.string, cs.length))
    (hc : c ≠ '#') (hd : (c :: cs).getLast? = some d) : d = '"' := by
  obtain ⟨hashes, multiline, ho, hcloses⟩ := string_closes h
  obtain ⟨_, _, ⟨⟩, -, hp, -⟩ := literal_opening_iff.1 ho
  cases hashes with
  | succ n => exact absurd (List.cons_prefix_cons.1 hp).1.symm hc
  | zero =>
    cases cs with
    | nil =>
      cases hd
      cases multiline <;> exact (List.cons_prefix_cons.1 hp).1.symm
    | cons e cs =>
      rw [List.getLast?_cons_cons] at hd
      exact hcloses.last_quote rfl hd

/-! ### The hash of a directive -/

/-- An element with a hash behind a blank is a literal, a comment or an escaped name, and shows at its end what it
is. -/
theorem hash_begins {e : Element} {p q rest : List Char} (h : e.Fits rest) (ht : e.text = p ++ '#' :: q)
    (hp : '#' ∉ p) (hblank : ∀ d, p.getLast? = some d → isBlank d = true) (hline : '\n' ∈ p ∨ ∀ d ∈ p, isBlank d = true)
    (hq : ∀ d, ('#' :: q).getLast? = some d → d ≠ '"' ∧ d ≠ '/' ∧ d ≠ backtick) : p = [] := by
  by_contra hne
  obtain ⟨c, p, rfl⟩ := List.exists_cons_of_ne_nil hne
  have hcp : c ≠ '#' := fun hx => hp (hx ▸ List.mem_cons_self)
  have hhash : isBlank '#' = false := by decide
  obtain ⟨d, hd⟩ : ∃ d, ('#' :: q).getLast? = some d := ⟨_, List.getLast?_eq_some_getLast (List.cons_ne_nil _ _)⟩
  have hlast : e.text.getLast? = some d := by rw [ht, List.getLast?_append, hd, Option.some_or]
  have hmem : '#' ∈ e.text := by
    rw [ht]
    exact List.mem_append_right _ List.mem_cons_self
  cases fits_iff.1 h with
  | @blank b bs hb hbs _ =>
    have hall : ∀ x ∈ b :: bs, isBlank x = true := List.forall_mem_cons.2 ⟨hb, hbs⟩
    exact absurd (hall '#' hmem) (by decide)
  | @lineComment body hbody _ =>
    obtain ⟨rfl, hrest⟩ := List.cons.inj ht
    rcases hline with hn | hb
    · have hbreak : '\n' ∈ '/' :: body := by
        rw [hrest]
        exact List.mem_append_left _ ((List.mem_cons.1 hn).resolve_left (by decide))
      simp [hbody] at hbreak
    · exact absurd (hb '/' List.mem_cons_self) (by decide)
  | blockComment htail =>
    rw [comment_last htail] at hlast
    exact (hq d hd).2.1 (Option.some.inj hlast).symm
  | @lexeme kind b cs hb _ hl =>
    rw [List.cons_append] at ht
    obtain ⟨rfl, rfl⟩ := List.cons.inj ht
    by_cases hs : kind = .string
    · subst hs
      exact (hq d hd).1 (string_last hl hcp hlast)
    · by_cases hbt : b = backtick
      · subst hbt
        obtain rfl := escaped_is_identifier hl
        obtain ⟨body, -, -, hbody⟩ := (name_of_lexeme hl).of_backtick
        rw [hbody, ← List.cons_append, List.getLast?_concat, Option.some.injEq] at hlast
        exact (hq d hd).2.2 hlast.symm
      · have hchars := lexeme_chars hl hs hbt
        cases hx : p.getLast? with
        | none =>
          rw [List.getLast?_eq_none_iff.1 hx] at hblank
          rw [hblank b rfl] at hb
          cases hb
        | some x =>
          have hbx := hblank x (getLast_cons hx)
          rw [hchars x (List.mem_append_left _ (List.mem_of_getLast? hx))] at hbx
          cases hbx

/-- The element that a character belongs to. -/
theorem element_of_char {es : List Element} {before after : List Char} {x : Char}
    (h : es.flatMap Element.text = before ++ x :: after) :
    ∃ front e back p q, es = front ++ e :: back ∧ before = front.flatMap Element.text ++ p ∧
      e.text = p ++ x :: q ∧ after = q ++ back.flatMap Element.text := by
  induction es generalizing before with
  | nil => simp at h
  | cons e es ih =>
    rw [List.flatMap_cons] at h
    rcases List.append_eq_append_iff.1 h with ⟨more, rfl, hrest⟩ | ⟨piece, htext, hpiece⟩
    · obtain ⟨front, f, back, p, q, rfl, rfl, hf, ha⟩ := ih hrest
      exact ⟨e :: front, f, back, p, q, rfl, by simp, hf, ha⟩
    · cases piece with
      | nil =>
        have hback : es.flatMap Element.text = [] ++ x :: after := by simpa using hpiece.symm
        obtain ⟨front, f, back, p, q, rfl, hp, hf, ha⟩ := ih hback
        refine ⟨e :: front, f, back, p, q, rfl, ?_, hf, ha⟩
        rw [List.flatMap_cons, List.append_assoc, ← hp, htext, List.append_nil, List.append_nil]
      | cons y piece =>
        obtain ⟨rfl, hafter⟩ := List.cons.inj hpiece
        exact ⟨[], e, es, before, piece, rfl, by simp, htext, hafter⟩

/-- The elements of the text of elements that fit are these elements. -/
theorem elements_flatten {es : List Element} (h : Fitting es []) :
    (Cut.ofText (es.flatMap Element.text)).elements = es := by
  rw [cut_flatten h]

/-- The elements of the end of a conditional block, after its members. -/
def closingElements : List Element :=
  [⟨.lexeme .hashWord, "#endif".toList⟩, .lineBreak [], .mark .rightBrace '\x7d']

theorem ends_at_directive {es : List Element} {before margin : List Char} (hf : Fitting es [])
    (hm : ∀ c ∈ margin, c = ' ') (hb : '#' ∉ before)
    (ht : es.flatMap Element.text = before ++ '\n' :: (margin ++ "#endif\n\x7d".toList)) :
    ∃ front, es = front ++ closingElements ∧ '#' ∉ front.flatMap Element.text := by
  have hmargin : ∀ d ∈ '\n' :: margin, isBlank d = true := by
    intro d hd
    rcases List.mem_cons.1 hd with rfl | hd
    · exact isBlank_newline
    · rw [hm d hd]
      exact isBlank_space
  have hlead : '#' ∉ before ++ '\n' :: margin := by
    rw [List.mem_append, not_or]
    refine ⟨hb, fun hx => ?_⟩
    exact absurd (hmargin _ hx) (by decide)
  have hsplit : es.flatMap Element.text = (before ++ '\n' :: margin) ++ '#' :: "endif\n\x7d".toList := by
    rw [ht, List.append_assoc]
    rfl
  obtain ⟨front, e, back, p, q, rfl, hp, he, hq⟩ := element_of_char hsplit
  rw [hp, List.mem_append, not_or] at hlead
  obtain ⟨hfit, hrest⟩ := fitting_append.1 hf |>.2
  rw [List.append_nil] at hfit
  have hempty : p = [] := by
    refine hash_begins hfit he hlead.2 ?_ ?_ ?_
    · intro d hd
      have hl : (before ++ '\n' :: margin).getLast? = some d := by
        rw [hp, List.getLast?_append, hd, Option.some_or]
      rw [List.getLast?_append, List.getLast?_eq_some_getLast (List.cons_ne_nil _ _), Option.some_or,
        Option.some.injEq] at hl
      rw [← hl]
      exact hmargin _ (List.getLast_mem _)
    · rcases List.append_eq_append_iff.1 hp with ⟨more, -, hmore⟩ | ⟨more, -, rfl⟩
      · right
        intro d hd
        exact hmargin d (hmore ▸ List.mem_append_right _ hd)
      · exact .inl (List.mem_append_right _ List.mem_cons_self)
    · intro d hd
      have hmem : d ∈ '#' :: "endif\n\x7d".toList := by
        rw [hq, ← List.cons_append]
        exact List.mem_append_left _ (List.mem_of_getLast? hd)
      have hall : ∀ d ∈ '#' :: "endif\n\x7d".toList, d ≠ '"' ∧ d ≠ '/' ∧ d ≠ backtick := by decide
      exact hall d hmem
  subst hempty
  refine ⟨front, ?_, hlead.1⟩
  have hend : (e :: back).flatMap Element.text = "#endif\n\x7d".toList := by
    rw [List.flatMap_cons, he, List.nil_append, List.cons_append, ← hq]
    rfl
  have hfits : Fitting (e :: back) [] := ⟨by rwa [List.append_nil], hrest⟩
  have hback := elements_flatten hfits
  rw [hend] at hback
  have hcomputed : (Cut.ofText "#endif\n\x7d".toList).elements = closingElements := by decide +kernel
  rw [← hback, hcomputed]

/-! ### Reading up to the last directive -/

theorem hash_of_fits {e : Element} {rest : List Char} (h : e.Fits rest) (hs : e.shape = .lexeme .hashWord) :
    '#' ∈ e.text := by
  obtain ⟨c, cs, ht, -, -, hl⟩ := lexeme_of_fits h hs
  cases lexeme_at_cases hl with
  | mark _ hp _ => cases mark_of_punctuation hp
  | word _ _ hw =>
    cases word_lexeme_cases hw with
    | hashWord hc _ =>
      rw [ht, hc]
      exact List.mem_cons_self

/-- Text without hashes has no directives. -/
theorem no_directive {es : List Element} {rest : List Char} (h : Fitting es rest) (hn : '#' ∉ es.flatMap Element.text) :
    ∀ t ∈ bareTokens es, t.kind ≠ .hashWord := by
  intro t ht hk
  obtain ⟨e, he, hte⟩ := List.mem_filterMap.1 ht
  obtain ⟨front, back, rfl⟩ := List.append_of_mem he
  have hfit := (fitting_append.1 h).2.1
  unfold Element.token? at hte
  split at hte
  · next kind hs =>
    cases hte
    apply hn
    rw [List.flatMap_append, List.flatMap_cons]
    exact List.mem_append_right _ (List.mem_append_left _ (hash_of_fits hfit (hs.trans (congrArg _ hk))))
  · cases hte

theorem hashWord_of_clauseMark {t : Token} {m : ClauseMark} (h : clauseMark? t = some m) : t.kind = .hashWord := by
  unfold clauseMark? at h
  split at h
  · cases h
  · next hk => simpa using hk

/-- The members of a clause are read up to a directive. -/
theorem clauseMembers_end {strict : Bool} {start : Token} {ts left : List Token} {found : List Decl}
    {last : Token × ClauseMark} (h : clauseMembersRun strict start ts = .ok ((found, last), left)) :
    last.1.kind = .hashWord ∧ clauseMark? last.1 = some last.2 ∧ last.1 :: left <:+ ts := by
  obtain ⟨t, rest, hts, hcases⟩ := clauseMembersRun_cases h
  have hshorter : rest.length < ts.length := by
    rw [hts, List.length_cons]
    exact Nat.lt_succ_self _
  have hrest : rest <:+ ts := hts ▸ List.suffix_cons t rest
  rcases hcases with ⟨m, hm, -, rfl, rfl⟩ | ⟨-, -, h⟩ | ⟨-, -, -, first, after, others, hd, h, -⟩
  · exact ⟨hashWord_of_clauseMark hm, hm, hts ▸ List.suffix_refl _⟩
  · obtain ⟨hk, hl, hs⟩ := clauseMembers_end h
    exact ⟨hk, hl, hs.trans hrest⟩
  · have hsuffix := declarationRun_suffix hd
    have hle := hsuffix.length_le
    obtain ⟨hk, hl, hs⟩ := clauseMembers_end h
    exact ⟨hk, hl, (hs.trans hsuffix).trans hrest⟩
termination_by ts.length
decreasing_by
  · exact hshorter
  · omega

/-- The only directive among some tokens is the one that a suffix of them begins with. -/
theorem only_directive {front back left : List Token} {t u : Token} (hfront : ∀ v ∈ front, v.kind ≠ .hashWord)
    (hback : ∀ v ∈ back, v.kind ≠ .hashWord) (hu : u.kind = .hashWord) (h : u :: left <:+ front ++ t :: back) :
    u = t ∧ left = back := by
  induction front with
  | nil =>
    rcases List.suffix_cons_iff.1 h with h | h
    · exact List.cons.inj h
    · exact absurd hu (hback u (h.subset List.mem_cons_self))
  | cons v front ih =>
    rcases List.suffix_cons_iff.1 h with h | h
    · obtain ⟨rfl, -⟩ := List.cons.inj h
      exact absurd hu (hfront u List.mem_cons_self)
    · exact ih (fun w hw => hfront w (List.mem_cons_of_mem v hw)) h

section

variable {strict : Bool} {start mark : Token} {ts left : List Token}

/-- A conditional block with one more directive, which ends it, has one clause. -/
theorem single_clause {found : List Clause} {keyword : ClauseKeyword} {condition : String} {front back : List Token}
    {last : Token} (h : clausesRun strict start mark keyword ts = .ok (found, left))
    (hc : (clauseCondition keyword mark).run ts = .ok (condition, front ++ last :: back))
    (hfront : ∀ t ∈ front, t.kind ≠ .hashWord) (hback : ∀ t ∈ back, t.kind ≠ .hashWord)
    (hlast : clauseMark? last = some .finish) :
    ∃ members, found = [.mk keyword condition members] ∧ left = back := by
  obtain ⟨condition', inside, ms, t, hc', h⟩ := clausesRun_cases h
  rw [hc, Except.ok.injEq, Prod.mk.injEq] at hc'
  obtain ⟨rfl, rfl⟩ := hc'
  rcases h with ⟨hm, rfl⟩ | ⟨keyword', after, others, hm, -⟩
  · obtain ⟨hk, -, hs⟩ := clauseMembers_end hm
    exact ⟨ms, rfl, (only_directive hfront hback hk hs).2⟩
  · obtain ⟨hk, hl, hs⟩ := clauseMembers_end hm
    obtain ⟨rfl, -⟩ := only_directive hfront hback hk hs
    rw [hlast] at hl
    cases hl

/-- The members of a type that holds a conditional block up to its closing brace. -/
theorem members_of_block {opener word last brace : Token} {front : List Token} {found : List Decl}
    (ho : opener.kind = .hashWord) (hif : opener.text = "#if") (hw : word.newlineBefore = false)
    (hbreak : (front ++ [last]).head?.any Token.newlineBefore = true) (hfront : ∀ t ∈ front, t.kind ≠ .hashWord)
    (hlast : clauseMark? last = some .finish) (hbrace : brace.kind = .rightBrace)
    (h : membersRun (opener :: word :: (front ++ [last, brace])) = .ok (found, left)) :
    ∃ inside, found = [.conditional opener.position [.mk .ifClause (phrase [word]) inside]] ∧ left = [] := by
  obtain ⟨t, rest, hts, h⟩ := membersRun_cases h
  obtain ⟨rfl, rfl⟩ := List.cons.inj hts
  rcases h with ⟨hk, -⟩ | ⟨hk, -⟩ | ⟨-, -, first, after, others, hd, hm, rfl⟩
  · rw [ho] at hk
    cases hk
  · rw [ho] at hk
    cases hk
  rcases declarationRun_cases hd with ⟨-, -, clauses, rfl, hclauses⟩ | ⟨-, hne, -⟩ | ⟨-, -, -, hne, -⟩
  · have hcondition : (clauseCondition .ifClause opener).run (word :: (front ++ [last, brace])) =
        .ok (phrase [word], front ++ last :: [brace]) := by
      have hstop : (front ++ [last, brace]).takeWhile (!·.newlineBefore) = [] ∧
          (front ++ [last, brace]).dropWhile (!·.newlineBefore) = front ++ [last, brace] := by
        cases front with
        | nil =>
          have hl : last.newlineBefore = true := hbreak
          simp [hl]
        | cons v front =>
          have hv : v.newlineBefore = true := hbreak
          simp [hv]
      simp only [clauseCondition, reduceCtorEq, if_false, Reader.condition, hw, Bool.false_eq_true, hstop.1, hstop.2]
    have hback : ∀ t ∈ [brace], t.kind ≠ .hashWord := by
      intro t ht hk
      rw [List.mem_singleton.1 ht, hbrace] at hk
      cases hk
    obtain ⟨inside, rfl, rfl⟩ := single_clause hclauses hcondition hfront hback hlast
    rw [membersRun_close hbrace] at hm
    cases hm
    exact ⟨inside, rfl, rfl⟩
  · exact absurd hif hne
  · exact absurd ho hne

end

end TestHooks.Swift
