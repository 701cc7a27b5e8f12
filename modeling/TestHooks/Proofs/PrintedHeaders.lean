import TestHooks.Proofs.PrintedPhrases

/-!
# Headers that were printed

Variables with their accessors, functions, modifiers and the headers of types are read as they were printed, part by
part. Each optional part shows by its first token whether it is there.
-/

namespace TestHooks.Swift

open TestHooks.Reader TestHooks.Text Reader

/-! ### What comes next -/

theorem startsDeclaration_cases {t : Token} (h : t.startsDeclaration = true) :
    t.kind = .atWord ∨ t.kind = .hashWord ∨ t.kind = .identifier ∧ t.text ∈ declarationKeywords ++ modifierWords := by
  simp only [Token.startsDeclaration, Token.isOneOf, Bool.or_eq_true, Bool.and_eq_true, beq_iff_eq,
    List.contains_iff_mem] at h
  rcases h with ((h | h) | ⟨hk, h⟩) | ⟨hk, h⟩
  · exact .inl h
  · exact .inr (.inl h)
  · exact .inr (.inr ⟨hk, List.mem_append_left _ h⟩)
  · exact .inr (.inr ⟨hk, List.mem_append_right _ h⟩)

/-- What a declaration ends before is a closing brace, an attribute, a directive or a word that declares. -/
theorem ended_head {vs : List Token} (h : Ended vs) {test : Token → Bool}
    (hk : ∀ t : Token, t.kind = .rightBrace ∨ t.kind = .atWord ∨ t.kind = .hashWord → test t = false)
    (hw : ∀ t : Token, t.kind = .identifier → t.text ∈ declarationKeywords ++ modifierWords → test t = false) :
    vs.head?.any test = false := by
  cases vs with
  | nil => rfl
  | cons v vs =>
    obtain ⟨-, hb | hs⟩ := ended_cases h
    · exact hk v (.inl hb)
    · rcases startsDeclaration_cases hs with h | h | ⟨h, ht⟩
      · exact hk v (.inr (.inl h))
      · exact hk v (.inr (.inr h))
      · exact hw v h ht

theorem ended_kind {vs : List Token} (h : Ended vs) {kind : TokenKind}
    (hk : kind ∉ [.rightBrace, .atWord, .hashWord, .identifier]) : vs.head?.any (·.kind == kind) = false := by
  simp only [List.mem_cons, List.not_mem_nil, or_false, not_or] at hk
  apply ended_head h
  · rintro t (ht | ht | ht) <;> rw [beq_eq_false_iff_ne, ht]
    · exact fun hx => hk.1 hx.symm
    · exact fun hx => hk.2.1 hx.symm
    · exact fun hx => hk.2.2.1 hx.symm
  · intro t ht _
    rw [beq_eq_false_iff_ne, ht]
    exact fun hx => hk.2.2.2 hx.symm

theorem ended_assignment {vs : List Token} (h : Ended vs) : vs.head?.any isAssignment = false := by
  apply ended_head h
  · rintro t (ht | ht | ht) <;> simp [isAssignment, ht]
  · intro t ht _
    simp [isAssignment, ht]

theorem ended_follows {vs : List Token} (h : Ended vs) : FollowsType vs := by
  cases vs with
  | nil => rfl
  | cons v vs =>
    rw [FollowsType, List.head?_cons, Option.all_some, Bool.or_eq_true, Bool.and_eq_true]
    obtain ⟨hn, hb | hs⟩ := ended_cases h
    · exact .inl (by simp [Token.endsType, hb])
    · refine .inr ⟨hn, ?_⟩
      rcases startsDeclaration_cases hs with h | h | ⟨h, -⟩ <;> simp [Token.continuesType, h]

theorem ended_value {vs : List Token} (h : Ended vs) : FollowsValue vs := by
  cases vs with
  | nil => trivial
  | cons v vs =>
    obtain ⟨hn, hb | hs⟩ := ended_cases h
    · simp [FollowsValue, Token.endsExpression, Token.closesBracket, hb]
    · simp [FollowsValue, Token.endsExpression, hn, hs]

/-! ### Effects -/

theorem effectOf_word {t : Token} {broken : Bool} {e : Effect} (h : t.Is .identifier e.text.toList broken) :
    effectOf? t = some e := by
  rw [effectOf?, if_pos h.kind, h.text, String.ofList_toList]
  cases e <;> decide

theorem ended_effect {vs : List Token} (h : Ended vs) : vs.head?.any (fun t => (effectOf? t).isSome) = false := by
  apply ended_head h
  · rintro t (ht | ht | ht) <;> simp [effectOf?, ht]
  · intro t _ ht
    have hd : ∀ w ∈ declarationKeywords ++ modifierWords, w ∉ Effect.all.map Effect.text := by decide
    rw [effectOf_none (hd _ ht)]
    rfl

/-- No further effect, and no argument of one, comes next. -/
def FollowsEffects (vs : List Token) : Prop :=
  vs.head?.any (fun t => (effectOf? t).isSome) = false ∧ vs.head?.any (·.kind == .leftParen) = false

theorem followsEffects_of_kind {t : Token} (hi : t.kind ≠ .identifier) (hp : t.kind ≠ .leftParen) (vs : List Token) :
    FollowsEffects (t :: vs) := by
  constructor
  · simp [effectOf?, hi]
  · simpa using hp

theorem reads_effects (es : List Effect) {fs : List Element} {ts : List Token}
    (h : Reads false (effectElements es ++ fs) ts) :
    ∃ vs, Reads false fs vs ∧ (FollowsEffects vs → effects.run ts = .ok (es, vs)) := by
  have hloop : ∃ vs, Reads false fs vs ∧ (FollowsEffects vs →
      (ts.head?.any (·.kind == .leftParen) = false ∧ whileNextRun (fun t => (effectOf? t).isSome) (fun t => do
        let _ ← optionally (·.kind == .leftParen) (group .rightParen)
        pure (effectOf? t)) ts = .ok (es.map some, vs))) := by
    induction es generalizing ts with
    | nil => exact ⟨ts, h, fun hf => ⟨hf.2, whileNext_skip hf.1⟩⟩
    | cons e es ih =>
      rw [effectElements, List.flatMap_cons] at h
      obtain ⟨t, ts, rfl, ht, h⟩ := reads_spaced h
      obtain ⟨vs, hv, hrun⟩ := ih h
      refine ⟨vs, hv, fun hf => ?_⟩
      obtain ⟨hparen, hrest⟩ := hrun hf
      refine ⟨by simp [ht.kind], whileNextRun_step (by rw [effectOf_word ht]; rfl) ?_ hrest⟩
      rw [run_bind_eq_ok]
      exact ⟨none, ts, optionally_skip hparen, by rw [effectOf_word ht]; rfl⟩
  obtain ⟨vs, hv, hrun⟩ := hloop
  refine ⟨vs, hv, fun hf => ?_⟩
  unfold effects
  rw [run_bind_eq_ok]
  refine ⟨es.map some, vs, (hrun hf).2, ?_⟩
  rw [run_pure_eq_ok, List.filterMap_map]
  exact ⟨List.filterMap_some, rfl⟩

/-! ### Accessors -/

theorem accessorOf_word {t : Token} {broken : Bool} {a : Accessor} (h : t.Is .identifier a.text.toList broken) :
    accessorOf? t = some a := by
  rw [accessorOf?, if_pos h.kind, h.text, String.ofList_toList]
  cases a <;> decide

/-- The body of something, if it has one. -/
theorem reads_body (b : Option Block) {fs : List Element} {ts : List Token} (h : Reads false (blockElements b ++ fs) ts) :
    ∃ vs, Reads false fs vs ∧ (vs.head?.any (·.kind == .leftBrace) = false →
      ∃ body, (optionally (·.kind == .leftBrace) (group .rightBrace)).run ts = .ok (body, vs) ∧
        body.isSome = b.isSome) ∧ (b.isSome = true → ts.head?.any (·.kind == .leftBrace) = true) ∧ (b = none → ts = vs) := by
  cases b with
  | none => exact ⟨ts, h, fun hn => ⟨none, optionally_skip hn, rfl⟩, nofun, fun _ => rfl⟩
  | some b =>
    obtain ⟨o, rest, inside, vs, rfl, ho, hg, hv⟩ := reads_block b (reads_space h)
    exact ⟨vs, hv, fun _ => ⟨some inside, optionally_take (by simp [ho]) hg, rfl⟩, fun _ => by simp [ho], nofun⟩

section Parts

variable {allowed : List Accessor}

/-- Another accessor or the closing brace comes next. -/
def FollowsPart (vs : List Token) : Prop :=
  vs.head?.any (fun v => v.kind == .rightBrace || v.kind == .identifier && (effectOf? v).isNone) = true

theorem reads_part (p : Part allowed) {broken : Bool} {fs : List Element} {ts : List Token}
    (h : Reads broken (p.elements ++ fs) ts) :
    ∃ t more vs, ts = t :: more ∧ t.Is .identifier p.accessor.text.toList broken ∧ Reads false fs vs ∧
      (FollowsPart vs → accessor.run ts = .ok (p.accessor, vs) ∧
        more.head?.any (fun v => v.kind == .leftBrace || v.kind == .rightBrace || v.kind == .identifier) = true) := by
  rw [Part.elements, List.cons_append] at h
  obtain ⟨t, more, rfl, ht, h⟩ := reads_lexeme h
  obtain ⟨vs, hv, hbody, hopens, hnone⟩ := reads_body p.body h
  refine ⟨t, more, vs, rfl, ht, hv, fun hf => ?_⟩
  have hnext : vs.head?.any (·.kind == .leftBrace) = false ∧ FollowsEffects vs ∧
      vs.head?.any (fun v => v.kind == .leftBrace || v.kind == .rightBrace || v.kind == .identifier) = true := by
    cases vs with
    | nil => cases hf
    | cons v vs =>
      simp only [FollowsPart, List.head?_cons, Option.any_some, Bool.or_eq_true, Bool.and_eq_true, beq_iff_eq,
        Option.isNone_iff_eq_none] at hf
      rcases hf with hk | ⟨hk, he⟩
      · exact ⟨by simp [hk], followsEffects_of_kind (by simp [hk]) (by simp [hk]) vs, by simp [hk]⟩
      · exact ⟨by simp [hk], ⟨by simp [he], by simp [hk]⟩, by simp [hk]⟩
  have hmore : FollowsEffects more ∧
      more.head?.any (fun v => v.kind == .leftBrace || v.kind == .rightBrace || v.kind == .identifier) = true := by
    cases hb : p.body with
    | none =>
      rw [hnone hb]
      exact hnext.2
    | some b =>
      have ho := hopens (by rw [hb]; rfl)
      cases more with
      | nil => cases ho
      | cons o more =>
        rw [List.head?_cons, Option.any_some, beq_iff_eq] at ho
        exact ⟨followsEffects_of_kind (by simp [ho]) (by simp [ho]) more, by simp [ho]⟩
  obtain ⟨body, hbody, -⟩ := hbody hnext.1
  have hnoAttributes : attributes.run (t :: more) = .ok ([], t :: more) := whileNext_skip (by simp [ht.kind])
  have hnoPrefixes : (skipWhile (·.isOneOf accessorPrefixes) : Reader Unit).run (t :: more) = .ok ((), t :: more) := by
    simp [skipWhile, (accessor_word (accessorOf_word ht)).2.1]
  have hnamed : (accessorNamed t).run more = .ok (p.accessor, more) := by
    rw [accessorNamed, accessorOf_word ht]
    rfl
  have hnoEffects : effects.run more = .ok ([], more) := by
    unfold effects
    rw [run_bind_eq_ok]
    exact ⟨[], more, whileNext_skip hmore.1.1, rfl⟩
  refine ⟨?_, hmore.2⟩
  unfold accessor
  rw [run_bind_eq_ok]
  refine ⟨_, _, hnoAttributes, run_bind_eq_ok.2 ⟨_, _, hnoPrefixes, run_bind_eq_ok.2 ⟨t, more, token_eq_ok.2 ⟨rfl, ht.kind⟩,
    run_bind_eq_ok.2 ⟨_, _, hnamed, run_bind_eq_ok.2 ⟨none, more, optionally_skip hmore.1.2, run_bind_eq_ok.2
      ⟨_, _, hnoEffects, run_bind_eq_ok.2 ⟨body, vs, hbody, rfl⟩⟩⟩⟩⟩⟩⟩

/-- The accessors of a block up to its closing brace. -/
theorem reads_otherParts (ps : List (Part allowed)) {fs : List Element} {ts : List Token}
    (h : Reads false ((ps.flatMap fun p => .space :: p.elements) ++ .space :: .mark .rightBrace '\x7d' :: fs) ts) :
    ∃ k vs, k.kind = .rightBrace ∧ Reads false fs vs ∧ FollowsPart ts ∧
      untilNextRun (·.kind == .rightBrace) accessor strict_accessor ts = .ok (ps.map Part.accessor, k :: vs) := by
  induction ps generalizing ts with
  | nil =>
    obtain ⟨k, vs, rfl, hk, hv⟩ := reads_mark (reads_space h)
    refine ⟨k, vs, hk, hv, by simp [FollowsPart, hk], ?_⟩
    rw [untilNextRun_eq, if_pos (by simp [hk])]
    rfl
  | cons p ps ih =>
    rw [List.flatMap_cons, List.cons_append, List.cons_append, List.append_assoc] at h
    obtain ⟨t, more, left, rfl, ht, hleft, hrun⟩ := reads_part p (reads_space h)
    obtain ⟨k, vs, hk, hv, hf, hothers⟩ := ih hleft
    have hplain := (accessor_word (accessorOf_word ht)).2.2
    refine ⟨k, vs, hk, hv, by simp [FollowsPart, ht.kind, hplain], ?_⟩
    exact untilNextRun_step (by simp [ht.kind]) (hrun hf).1 hothers

/-- A block of accessors is read as one. -/
theorem reads_parts (ps : Parts allowed) {fs : List Element} {ts : List Token} (h : Reads false (ps.elements ++ fs) ts) :
    ∃ o t more vs, ts = o :: t :: more ∧ o.kind = .leftBrace ∧ t.kind = .identifier ∧ t.text = ps.first.accessor.text ∧
      Reads false fs vs ∧ (accessorBlock o).run (t :: more) = .ok (ps.accessors, vs) := by
  simp only [Parts.elements, List.cons_append, List.append_assoc, List.nil_append] at h
  obtain ⟨o, ts, rfl, ho, h⟩ := reads_mark (reads_space h)
  obtain ⟨t, more, left, rfl, ht, hleft, hrun⟩ := reads_part ps.first (reads_space h)
  obtain ⟨k, vs, hk, hv, hf, hothers⟩ := reads_otherParts ps.others hleft
  obtain ⟨hfirst, hmore⟩ := hrun hf
  refine ⟨o, t, more, vs, rfl, ho, ht.kind, by rw [ht.text, String.ofList_toList], hv, ?_⟩
  have hlists : listsAccessors (t :: more) = true := by
    have hstay : (t.kind == .atWord || t.isOneOf accessorPrefixes) = false := by
      rw [(accessor_word (accessorOf_word ht)).2.1, ht.kind]
      rfl
    rw [listsAccessors, List.dropWhile_cons, hstay]
    simp only [Bool.false_eq_true, if_false, accessorOf_word ht]
    cases more with
    | nil => cases hmore
    | cons v more =>
      rw [List.head?_cons, Option.any_some] at hmore
      have hparen : v.kind ≠ .leftParen := by
        intro hx
        rw [hx] at hmore
        cases hmore
      simp only [if_neg hparen, hmore]
  have hlisted : listedAccessors.run (t :: more) = .ok (ps.accessors, vs) := by
    unfold listedAccessors
    rw [run_bind_eq_ok]
    exact ⟨_, _, untilNextRun_step (by simp [ht.kind]) hfirst hothers, run_bind_eq_ok.2
      ⟨k, vs, token_eq_ok.2 ⟨rfl, hk⟩, rfl⟩⟩
  unfold accessorBlock
  rw [run_bind_eq_ok]
  refine ⟨true, t :: more, by rw [← hlists]; rfl, ?_⟩
  rw [if_pos rfl]
  exact hlisted

end Parts

/-! ### Variables -/

/-- What follows a variable: another one, or the end of the declaration. -/
def FollowsVariable (vs : List Token) : Prop := vs.head?.any (·.kind == .comma) = true ∨ Ended vs

/-- What a variable holds shows that its type has ended. -/
structure AfterType (ts : List Token) : Prop where
  follows : FollowsType ts
  noColon : ts.head?.any (·.kind == .colon) = false

theorem afterType_of_mark {t : Token} (hk : t.kind = .comma ∨ t.kind = .leftBrace ∨ isAssignment t = true) (ts : List Token) :
    AfterType (t :: ts) := by
  rcases hk with hk | hk | hk
  · exact ⟨by simp [FollowsType, Token.endsType, hk], by simp [hk]⟩
  · exact ⟨by simp [FollowsType, Token.endsType, hk], by simp [hk]⟩
  · simp only [isAssignment, Bool.and_eq_true, beq_iff_eq] at hk
    exact ⟨by simp [FollowsType, Token.endsType, hk], by simp [hk]⟩

/-- Where a variable has ended, none of its parts begins. -/
theorem followsVariable_ends {vs : List Token} (h : FollowsVariable vs) :
    AfterType vs ∧ vs.head?.any isAssignment = false ∧ vs.head?.any (·.kind == .leftBrace) = false ∧ FollowsValue vs := by
  rcases h with h | h
  · cases vs with
    | nil => cases h
    | cons v vs =>
      rw [List.head?_cons, Option.any_some, beq_iff_eq] at h
      exact ⟨afterType_of_mark (.inl h) vs, by simp [isAssignment, h], by simp [h],
        by simp [FollowsValue, Token.endsExpression, h]⟩
  · exact ⟨⟨ended_follows h, ended_kind h (by decide)⟩, ended_assignment h, ended_kind h (by decide), ended_value h⟩

/-- A value is read up to what ends it. -/
theorem reads_value (value : Literal) {fs : List Element} {ts : List Token}
    (h : Reads false (valueElements value ++ fs) ts) :
    AfterType ts ∧ ∃ vs, Reads false fs vs ∧ (FollowsValue vs →
      (optionally isAssignment fun _ => expressionText).run ts = .ok (some value.text, vs)) := by
  obtain ⟨t, ts, rfl, ht, h⟩ := reads_spaced h
  obtain ⟨vs, hv, hrun⟩ := reads_literal value (reads_space h)
  have hassign : isAssignment t = true := by
    rw [isAssignment, ht.kind, ht.text]
    rfl
  exact ⟨afterType_of_mark (.inr (.inr hassign)) ts, vs, hv, fun hf => optionally_take hassign (hrun hf)⟩

theorem reads_content (c : Content) {fs : List Element} {ts : List Token} (h : Reads false (c.elements ++ fs) ts) :
    ∃ vs, Reads false fs vs ∧ (FollowsVariable vs → AfterType ts ∧ ∃ left,
      (optionally isAssignment fun _ => expressionText).run ts = .ok (c.value?.map Literal.text, left) ∧
        (optionally (·.kind == .leftBrace) accessorBlock).run left = .ok (c.accessors?, vs)) := by
  cases c with
  | nothing =>
    refine ⟨ts, h, fun hf => ?_⟩
    obtain ⟨hafter, hassign, hbrace, -⟩ := followsVariable_ends hf
    exact ⟨hafter, ts, optionally_skip hassign, optionally_skip hbrace⟩
  | computed parts =>
    obtain ⟨o, t, more, vs, rfl, ho, -, -, hv, hrun⟩ := reads_parts parts h
    refine ⟨vs, hv, fun _ => ⟨afterType_of_mark (.inr (.inl ho)) _, _, optionally_skip ?_, optionally_take ?_ hrun⟩⟩
    · simp [isAssignment, ho]
    · simp [ho]
  | stored value =>
    obtain ⟨hafter, vs, hv, hrun⟩ := reads_value value h
    refine ⟨vs, hv, fun hf => ?_⟩
    obtain ⟨-, -, hbrace, hvalue⟩ := followsVariable_ends hf
    exact ⟨hafter, vs, hrun hvalue, optionally_skip hbrace⟩
  | observed value observers =>
    rw [Content.elements, List.append_assoc] at h
    obtain ⟨hafter, left, hleft, hvalue⟩ := reads_value value h
    obtain ⟨o, t, more, vs, rfl, ho, hk, ht, hv, hrun⟩ := reads_parts observers hleft
    refine ⟨vs, hv, fun _ => ⟨hafter, _, hvalue ?_, optionally_take (by simp [ho]) hrun⟩⟩
    have hword : t.isOneOf ["willSet", "didSet"] = true := by
      rw [Token.isOneOf, hk, ht]
      have := observers.first.isAllowed
      revert this
      cases observers.first.accessor <;> decide
    simp [FollowsValue, Token.endsExpression, ho, hword]

theorem reads_annotation (type : Option TypeTerm) {fs : List Element} {ts : List Token}
    (h : Reads false ((type.elim [] fun t => .mark .colon ':' :: .space :: t.elements) ++ fs) ts) :
    ∃ vs, Reads false fs vs ∧ (AfterType vs →
      (optionally (·.kind == .colon) fun _ => typeText []).run ts = .ok (type.map TypeTerm.text, vs)) := by
  cases type with
  | none => exact ⟨ts, h, fun hf => optionally_skip hf.noColon⟩
  | some type =>
    obtain ⟨t, ts, rfl, hk, h⟩ := reads_mark h
    obtain ⟨vs, hv, hrun⟩ := reads_typeTerm (.inl rfl) type (reads_space h)
    exact ⟨vs, hv, fun hf => optionally_take (by simp [hk]) (hrun hf.follows)⟩

theorem reads_variable (v : Variable) {broken : Bool} {fs : List Element} {ts : List Token}
    (h : Reads broken (v.elements ++ fs) ts) :
    ∃ vs, Reads false fs vs ∧ (FollowsVariable vs → binding.run ts = .ok (v.binding, vs)) := by
  rw [Variable.elements, List.cons_append, List.append_assoc] at h
  obtain ⟨t, ts, rfl, ht, h⟩ := reads_lexeme h
  obtain ⟨after, hafter, htype⟩ := reads_annotation v.type h
  obtain ⟨vs, hv, hcontent⟩ := reads_content v.content hafter
  refine ⟨vs, hv, fun hf => ?_⟩
  obtain ⟨hends, left, hvalue, haccessors⟩ := hcontent hf
  have hname : bindingName.run (t :: ts) = .ok ((v.name.text, false), ts) := by
    rw [bindingName_word ht.kind, ht.text, String.ofList_toList]
  unfold binding
  rw [run_bind_eq_ok]
  exact ⟨_, _, hname, run_bind_eq_ok.2 ⟨_, _, htype hends, run_bind_eq_ok.2 ⟨_, _, hvalue, run_bind_eq_ok.2
    ⟨_, _, haccessors, rfl⟩⟩⟩⟩

theorem reads_otherVariables (others : List Variable) {fs : List Element} {ts : List Token}
    (h : Reads false ((others.flatMap fun v => .mark .comma ',' :: .space :: v.elements) ++ fs) ts) :
    ∃ vs, Reads false fs vs ∧ (Ended vs → FollowsVariable ts ∧
      whileNextRun (·.kind == .comma) (fun _ => binding) ts = .ok (others.map Variable.binding, vs)) := by
  induction others generalizing ts with
  | nil => exact ⟨ts, h, fun he => ⟨.inr he, whileNext_skip (ended_kind he (by decide))⟩⟩
  | cons v others ih =>
    simp only [List.flatMap_cons, List.cons_append, List.append_assoc] at h
    obtain ⟨t, ts, rfl, hk, h⟩ := reads_mark h
    obtain ⟨after, hafter, hv⟩ := reads_variable v (reads_space h)
    obtain ⟨vs, hvs, hrun⟩ := ih hafter
    refine ⟨vs, hvs, fun he => ⟨.inl (by simp [hk]), ?_⟩⟩
    obtain ⟨hf, hrest⟩ := hrun he
    exact whileNextRun_step (by simp [hk]) (hv hf) hrest

/-- Variables with commas between them. -/
theorem reads_variables (first : Variable) (others : List Variable) {broken : Bool} {fs : List Element} {ts : List Token}
    (h : Reads broken (first.elements ++ ((others.flatMap fun v => .mark .comma ',' :: .space :: v.elements) ++ fs)) ts) :
    ∃ vs, Reads false fs vs ∧
      (Ended vs → (byCommas binding).run ts = .ok (first.binding :: others.map Variable.binding, vs)) := by
  obtain ⟨after, hafter, hfirst⟩ := reads_variable first h
  obtain ⟨vs, hvs, hrun⟩ := reads_otherVariables others hafter
  refine ⟨vs, hvs, fun he => ?_⟩
  obtain ⟨hf, hrest⟩ := hrun he
  unfold byCommas
  rw [run_bind_eq_ok]
  exact ⟨_, _, hfirst hf, run_bind_eq_ok.2 ⟨_, _, hrest, rfl⟩⟩

/-! ### Functions -/

/-- What follows a parameter: another one, or the end of the clause. -/
def FollowsSlot (vs : List Token) : Prop :=
  vs.head?.any (fun v => v.kind == .comma || v.kind == .rightParen) = true

theorem reads_slot (s : Slot) {fs : List Element} {ts : List Token} (h : Reads false (s.elements ++ fs) ts) :
    ∃ vs, Reads false fs vs ∧ (FollowsSlot vs → parameterUnlessClosed.run ts = .ok (some s.parameter, vs)) := by
  simp only [Slot.elements, List.cons_append, List.append_assoc] at h
  obtain ⟨t, ts, rfl, ht, h⟩ := reads_lexeme h
  obtain ⟨second, u, after, hu, hafter, hrun, hname⟩ : ∃ (second : Option Token) (u : Token) (after : List Token),
      u.kind = .colon ∧ Reads false (.space :: (s.type.elements ++ fs)) after ∧
        (optionally (·.kind == .identifier) pure : Reader (Option Token)).run ts = .ok (second, u :: after) ∧
        second.map Token.text = s.second.map Identifier.text := by
    cases hs : s.second with
    | none =>
      rw [hs] at h
      obtain ⟨u, after, rfl, hu, hafter⟩ := reads_mark h
      exact ⟨none, u, after, hu, hafter, optionally_skip (by simp [hu]), rfl⟩
    | some n =>
      rw [hs] at h
      obtain ⟨w, ts, rfl, hw, h⟩ := reads_spaced h
      obtain ⟨u, after, rfl, hu, hafter⟩ := reads_mark h
      refine ⟨some w, u, after, hu, hafter, optionally_take (by simp [hw.kind]) rfl, ?_⟩
      rw [Option.map_some, hw.text, String.ofList_toList]
      rfl
  obtain ⟨vs, hv, htype⟩ := reads_typeTerm (.inl rfl) s.type (reads_space hafter)
  refine ⟨vs, hv, fun hf => ?_⟩
  have hends : FollowsType vs ∧ vs.head?.any isAssignment = false := by
    cases vs with
    | nil => cases hf
    | cons v vs =>
      simp only [FollowsSlot, List.head?_cons, Option.any_some, Bool.or_eq_true, beq_iff_eq] at hf
      rcases hf with hk | hk <;> simp [FollowsType, Token.endsType, isAssignment, hk]
  have hnoAttributes : attributes.run (t :: ts) = .ok ([], t :: ts) := whileNext_skip (by simp [ht.kind])
  have hparameter : parameter.run (t :: ts) = .ok (s.parameter, vs) := by
    unfold parameter
    rw [run_bind_eq_ok]
    refine ⟨_, _, hnoAttributes, run_bind_eq_ok.2 ⟨t, ts, token_eq_ok.2 ⟨rfl, ht.kind⟩, run_bind_eq_ok.2 ⟨_, _, hrun,
      run_bind_eq_ok.2 ⟨u, after, token_eq_ok.2 ⟨rfl, hu⟩, run_bind_eq_ok.2 ⟨_, _, htype hends.1, run_bind_eq_ok.2
        ⟨none, vs, optionally_skip hends.2, ?_⟩⟩⟩⟩⟩⟩
    rw [run_pure_eq_ok, hname, ht.text, String.ofList_toList]
    exact ⟨rfl, rfl⟩
  unfold parameterUnlessClosed
  rw [run_bind_eq_ok]
  refine ⟨false, t :: ts, by simp [look, ht.kind], ?_⟩
  exact run_bind_eq_ok.2 ⟨_, _, hparameter, rfl⟩

theorem reads_otherSlots (slots : List Slot) {fs : List Element} {ts : List Token}
    (h : Reads false (slotsAfter slots ++ .mark .rightParen ')' :: fs) ts) :
    ∃ k vs, k.kind = .rightParen ∧ Reads false fs vs ∧ FollowsSlot ts ∧
      whileNextRun (·.kind == .comma) (fun _ => parameterUnlessClosed) ts =
        .ok (slots.map fun s => some s.parameter, k :: vs) := by
  induction slots generalizing ts with
  | nil =>
    obtain ⟨k, vs, rfl, hk, hv⟩ := reads_mark h
    exact ⟨k, vs, hk, hv, by simp [FollowsSlot, hk], whileNext_skip (by simp [hk])⟩
  | cons s slots ih =>
    simp only [slotsAfter, List.flatMap_cons, List.cons_append, List.append_assoc] at h
    obtain ⟨t, ts, rfl, ht, h⟩ := reads_mark h
    obtain ⟨after, hafter, hs⟩ := reads_slot s (reads_space h)
    obtain ⟨k, vs, hk, hv, hf, hrest⟩ := ih hafter
    exact ⟨k, vs, hk, hv, by simp [FollowsSlot, ht], whileNextRun_step (by simp [ht]) (hs hf) hrest⟩

theorem parameterClause_step {o k : Token} {ts after rest : List Token} {first : Option Parameter}
    {others : List (Option Parameter)} (ho : o.kind = .leftParen) (hk : k.kind = .rightParen)
    (hfirst : parameterUnlessClosed.run ts = .ok (first, after))
    (hothers : whileNextRun (·.kind == .comma) (fun _ => parameterUnlessClosed) after = .ok (others, k :: rest)) :
    parameterClause.run (o :: ts) = .ok ((first :: others).filterMap id, rest) := by
  unfold parameterClause
  rw [run_bind_eq_ok]
  exact ⟨o, ts, token_eq_ok.2 ⟨rfl, ho⟩, run_bind_eq_ok.2 ⟨_, _, hfirst, run_bind_eq_ok.2 ⟨_, _, hothers,
    run_bind_eq_ok.2 ⟨k, rest, token_eq_ok.2 ⟨rfl, hk⟩, rfl⟩⟩⟩⟩

/-- The parameters of a function in parentheses. -/
theorem reads_clause (slots : List Slot) {broken : Bool} {fs : List Element} {ts : List Token}
    (h : Reads broken (.mark .leftParen '(' :: (slotList slots ++ .mark .rightParen ')' :: fs)) ts) :
    ∃ o rest vs, ts = o :: rest ∧ o.kind = .leftParen ∧ Reads false fs vs ∧
      parameterClause.run ts = .ok (slots.map Slot.parameter, vs) := by
  obtain ⟨o, ts, rfl, ho, h⟩ := reads_mark h
  have hlist : ∃ found others k after vs, k.kind = .rightParen ∧ Reads false fs vs ∧
      parameterUnlessClosed.run ts = .ok (found, after) ∧
      whileNextRun (·.kind == .comma) (fun _ => parameterUnlessClosed) after = .ok (others, k :: vs) ∧
      (found :: others).filterMap id = slots.map Slot.parameter := by
    cases slots with
    | nil =>
      obtain ⟨k, vs, rfl, hk, hv⟩ := reads_mark h
      refine ⟨none, [], k, _, vs, hk, hv, ?_, whileNext_skip (by simp [hk]), rfl⟩
      unfold parameterUnlessClosed
      rw [run_bind_eq_ok]
      exact ⟨true, k :: vs, by simp [look, hk], rfl⟩
    | cons s slots =>
      rw [slotList, List.append_assoc] at h
      obtain ⟨after, hafter, hs⟩ := reads_slot s h
      obtain ⟨k, vs, hk, hv, hf, hrest⟩ := reads_otherSlots slots hafter
      refine ⟨_, _, k, after, vs, hk, hv, hs hf, hrest, ?_⟩
      simp [List.filterMap_map]
  obtain ⟨found, others, k, after, vs, hk, hv, hfound, hothers, he⟩ := hlist
  exact ⟨o, ts, vs, rfl, ho, hv, he ▸ parameterClause_step ho hk hfound hothers⟩

theorem reads_result (result : Option TypeTerm) {fs : List Element} {ts : List Token}
    (h : Reads false ((result.elim [] fun t => .space :: arrowElement :: .space :: t.elements) ++ fs) ts) :
    ∃ vs, Reads false fs vs ∧ (FollowsType vs ∧ FollowsEffects vs ∧ vs.head?.any (·.kind == .arrow) = false →
      FollowsEffects ts ∧ (optionally (·.kind == .arrow) fun _ => typeText ["where"]).run ts =
        .ok (result.map TypeTerm.text, vs)) := by
  cases result with
  | none => exact ⟨ts, h, fun hf => ⟨hf.2.1, optionally_skip hf.2.2⟩⟩
  | some type =>
    obtain ⟨t, ts, rfl, ht, h⟩ := reads_spaced h
    obtain ⟨vs, hv, hrun⟩ := reads_typeTerm (.inr rfl) type (reads_space h)
    exact ⟨vs, hv, fun hf => ⟨followsEffects_of_kind (by simp [ht.kind]) (by simp [ht.kind]) ts,
      optionally_take (by simp [ht.kind]) (hrun hf.1)⟩⟩

/-- A function is read with the parameters that its clause is read with. -/
theorem reads_tail (f : Routine) {fs : List Element} {after : List Token} (h : Reads false (f.tail ++ fs) after) :
    ∃ vs, Reads false fs vs ∧ (Ended vs → ∀ {t o : Token} {rest : List Token} {parameters : List Parameter},
      t.kind = .identifier → o.kind = .leftParen → parameterClause.run (o :: rest) = .ok (parameters, after) →
        function.run (t :: o :: rest) = .ok ({ f.signature with name := t.text, parameters := parameters }, vs)) := by
  simp only [Routine.tail, List.append_assoc] at h
  obtain ⟨after₂, h, heffects⟩ := reads_effects f.effects h
  obtain ⟨after₃, h, hresult⟩ := reads_result f.result h
  obtain ⟨vs, hv, hbody, hopens, hnone⟩ := reads_body f.body h
  refine ⟨vs, hv, fun he => ?_⟩
  have hnext : (FollowsType after₃ ∧ FollowsEffects after₃ ∧ after₃.head?.any (·.kind == .arrow) = false) ∧
      after₃.head?.any (·.isIdentifier "where") = false := by
    cases hb : f.body with
    | none =>
      rw [hnone hb]
      refine ⟨⟨ended_follows he, ⟨ended_effect he, ended_kind he (by decide)⟩, ended_kind he (by decide)⟩, ?_⟩
      apply ended_head he
      · rintro t (ht | ht | ht) <;> simp [Token.isIdentifier, ht]
      · intro t _ ht
        have hw : "where" ∉ declarationKeywords ++ modifierWords := by decide
        have : t.text ≠ "where" := fun hx => hw (hx ▸ ht)
        simp [Token.isIdentifier, this]
    | some b =>
      have ho := hopens (by rw [hb]; rfl)
      cases after₃ with
      | nil => cases ho
      | cons o more =>
        rw [List.head?_cons, Option.any_some, beq_iff_eq] at ho
        exact ⟨⟨by simp [FollowsType, Token.endsType, ho], followsEffects_of_kind (by simp [ho]) (by simp [ho]) more,
          by simp [ho]⟩, by simp [Token.isIdentifier, ho]⟩
  obtain ⟨heffect, hresult⟩ := hresult hnext.1
  obtain ⟨body, hbody, hsome⟩ := hbody (ended_kind he (by decide))
  intro t o rest parameters ht ho hclause
  unfold function
  rw [run_bind_eq_ok]
  refine ⟨_, _, functionName_word ht _, run_bind_eq_ok.2 ⟨none, _, optionally_skip (by simp [ho]), run_bind_eq_ok.2 ⟨_, _,
    hclause, run_bind_eq_ok.2 ⟨_, _, heffects heffect, run_bind_eq_ok.2 ⟨_, _, hresult, run_bind_eq_ok.2
      ⟨none, _, optionally_skip hnext.2, run_bind_eq_ok.2 ⟨_, _, hbody, ?_⟩⟩⟩⟩⟩⟩⟩
  rw [run_pure_eq_ok, hsome]
  exact ⟨rfl, rfl⟩

/-- A function after its keyword. -/
theorem reads_routine (f : Routine) {broken : Bool} {fs : List Element} {ts : List Token}
    (h : Reads broken (f.elements ++ fs) ts) :
    ∃ vs, Reads false fs vs ∧ (Ended vs → function.run ts = .ok (f.signature, vs)) := by
  simp only [Routine.elements, List.cons_append, List.append_assoc] at h
  obtain ⟨t, ts, rfl, ht, h⟩ := reads_lexeme h
  obtain ⟨o, rest, after, rfl, ho, h, hclause⟩ := reads_clause f.slots h
  obtain ⟨vs, hv, hrun⟩ := reads_tail f (by simpa only [Routine.tail, List.append_assoc] using h)
  refine ⟨vs, hv, fun he => ?_⟩
  rw [hrun he ht.kind ho hclause, ht.text, String.ofList_toList]
  rfl

end TestHooks.Swift
