import TestHooks.Proofs.Attributes
import TestHooks.Proofs.Steady

/-!
# Headers are read one token ahead

The readers of phrases and of the headers of declarations are steady. A parameter must not be followed by an opening
brace, and of a brace behind an initializer the token that comes next must stay: the observers of a variable are told by
it.
-/

namespace TestHooks.Swift

/-! ### Where phrases end -/

theorem splitGroup_steady {opener closer : TokenKind} {depth : Nat} {used left group : List Token}
    (h : splitGroup opener closer depth (used ++ left) = some (group, left)) :
    group = used ∧ ∀ left', splitGroup opener closer depth (used ++ left') = some (used, left') := by
  obtain rfl : group = used := List.append_cancel_right (splitGroup_append h)
  refine ⟨rfl, fun left' => ?_⟩
  induction group generalizing depth with
  | nil =>
    obtain ⟨inside, last, hl, -⟩ := splitGroup_last h
    cases inside <;> cases hl
  | cons t used ih =>
    have step {d : Nat} (hd : (splitGroup opener closer d (used ++ left)).map (fun p => (t :: p.1, p.2)) =
        some (t :: used, left)) :
        (splitGroup opener closer d (used ++ left')).map (fun p => (t :: p.1, p.2)) = some (t :: used, left') := by
      obtain ⟨⟨g, r⟩, hg, he⟩ := Option.map_eq_some_iff.1 hd
      cases he
      rw [ih hg]
      rfl
    rw [List.cons_append] at h ⊢
    unfold splitGroup at h ⊢
    split at h
    · next hk =>
      rw [if_pos hk]
      exact step h
    · next hk =>
      rw [if_neg hk]
      split at h
      · next hc =>
        rw [if_pos hc]
        cases depth with
        | zero =>
          simp only [Option.some.injEq, Prod.mk.injEq, List.cons.injEq, true_and] at h ⊢
          obtain ⟨rfl, -⟩ := h
          exact ⟨rfl, rfl⟩
        | succ depth => exact step h
      · next hc =>
        rw [if_neg hc]
        exact step h

theorem kind_of_leading {t : Token} (h : t.leadsType = true) : t.kind = .atWord ∨ t.kind = .identifier :=
  (Token.leadsType_cases h).imp_right And.left

theorem continuesType_of_leading {t : Token} (h : t.leadsType = true) : t.continuesType = false := by
  rcases kind_of_leading h with hk | hk <;> simp [Token.continuesType, hk]

theorem splitType_stop {stops : List String} {depth : Nat} {previous : Option Token} {t : Token} {ts : List Token} :
    splitType stops depth previous (t :: ts) = ([], t :: ts) ↔
      depth = 0 ∧ (t.endsType || t.isOneOf stops || t.breaksType previous) = true := by
  rw [← decide_eq_true_iff (p := depth = 0), ← Bool.and_eq_true, splitType]
  split
  · next h => exact ⟨fun _ => h, fun _ => rfl⟩
  · next h => exact ⟨fun hx => absurd (congrArg Prod.fst hx) (List.cons_ne_nil _ _), fun hx => absurd hx h⟩

/-- Before an attribute a type ends by a line break only. -/
theorem ends_before_attribute {stops : List String} {previous : Option Token} {t : Token} (hk : t.kind = .atWord) :
    (t.endsType || t.isOneOf stops || t.breaksType previous) = t.breaksType previous := by
  have hends : t.endsType = false := by simp [Token.endsType, hk]
  have hstops : t.isOneOf stops = false := by simp [Token.isOneOf, hk]
  rw [hends, hstops, Bool.false_or, Bool.false_or]

theorem breaks_before_leading {previous : Option Token} {t u : Token} (hu : u.leadsType = true)
    (hn : t.newlineBefore = true → u.newlineBefore = true) (h : t.breaksType previous = true) :
    u.breaksType previous = true := by
  cases previous with
  | none => cases h
  | some last =>
    simp only [Token.breaksType, Option.any_some, Bool.and_eq_true] at h ⊢
    exact ⟨⟨hn h.1.1, h.1.2⟩, by rw [continuesType_of_leading hu]; rfl⟩

theorem splitType_steady {stops : List String} {depth : Nat} {previous : Option Token} {used left left' : List Token}
    (h : splitType stops depth previous (used ++ left) = (used, left)) (hf : Follows left left') :
    splitType stops depth previous (used ++ left') = (used, left') := by
  induction used generalizing depth previous with
  | nil =>
    cases hf with
    | same ht _ =>
      have hprevious : Option.Rel Token.Like previous previous := by
        cases previous with
        | none => exact .none
        | some p => exact .some ⟨rfl, rfl, rfl⟩
      rw [List.nil_append, splitType_stop] at h ⊢
      rwa [← ht.endsType, ← ht.isOneOf, ← breaksType_like hprevious ht]
    | leading hk hu hn =>
      rw [List.nil_append, splitType_stop] at h ⊢
      rw [ends_before_attribute hk] at h
      exact ⟨h.1, by rw [breaks_before_leading hu hn h.2, Bool.or_true]⟩
    | ending => rfl
  | cons t used ih =>
    rw [List.cons_append, splitType] at h ⊢
    split at h
    · next hx => cases congrArg Prod.fst h
    · next hx =>
      rw [if_neg hx]
      simp only [Prod.mk.injEq, List.cons.injEq, true_and] at h
      have hrest := ih (Prod.ext h.1 h.2)
      rw [hrest]

theorem splitExpression_stop {depth : Nat} {isFirst : Bool} {t : Token} {ts : List Token} :
    splitExpression depth isFirst (t :: ts) = ([], t :: ts) ↔ depth = 0 ∧ t.endsExpression isFirst ts = true := by
  rw [← decide_eq_true_iff (p := depth = 0), ← Bool.and_eq_true, splitExpression]
  split
  · next h => exact ⟨fun _ => h, fun _ => rfl⟩
  · next h => exact ⟨fun hx => absurd (congrArg Prod.fst hx) (List.cons_ne_nil _ _), fun hx => absurd hx h⟩

/-- Only of a brace it matters what stands behind it. -/
theorem endsExpression_eq {t : Token} (hk : t.kind ≠ .leftBrace) (isFirst : Bool) (ts us : List Token) :
    t.endsExpression isFirst ts = t.endsExpression isFirst us := by
  simp only [Token.endsExpression, beq_eq_false_iff_ne.2 hk, Bool.false_and]

/-- Where an expression ends before tokens, it ends before those that they give way to. -/
theorem endsExpression_steady {isFirst : Bool} {t u : Token} {ts us : List Token} (hf : Follows (t :: ts) (u :: us))
    (hb : Reader.BraceKept (t :: ts) (u :: us)) (h : t.endsExpression isFirst ts = true) :
    u.endsExpression isFirst us = true := by
  cases hf with
  | same ht _ =>
    rw [Token.endsExpression] at h ⊢
    rw [← ht.kind, ← ht.closesBracket, ← ht.newline, ← ht.startsDeclaration]
    by_cases hk : t.kind = .leftBrace
    · cases ts with
      | nil =>
        rw [List.head?_nil, Option.any_none, Bool.and_false, Bool.or_false] at h
        rw [h, Bool.true_or]
      | cons v more =>
        obtain ⟨u', more', hus⟩ := hb t v more rfl hk
        cases hus
        exact h
    · rw [beq_eq_false_iff_ne.2 hk, Bool.false_and] at h ⊢
      exact h
  | leading hk hu hn =>
    simp only [Token.endsExpression, Token.closesBracket, hk, Bool.or_eq_true, Bool.and_eq_true, beq_iff_eq,
      reduceCtorEq, false_and, or_false, false_or] at h
    simp only [Token.endsExpression, h.1.1, hn h.1.2, Token.startsDeclaration_of_leadsType hu, Bool.and_self,
      Bool.or_true, Bool.true_or]

theorem splitExpression_steady {depth : Nat} {isFirst : Bool} {used left left' : List Token}
    (h : splitExpression depth isFirst (used ++ left) = (used, left)) (hf : Follows left left')
    (hb : Reader.BraceKept left left') : splitExpression depth isFirst (used ++ left') = (used, left') := by
  induction used generalizing depth isFirst with
  | nil =>
    rw [List.nil_append] at h ⊢
    cases left' with
    | nil => rfl
    | cons u us =>
      cases left with
      | nil => cases hf
      | cons t ts =>
        rw [splitExpression_stop] at h ⊢
        exact h.imp_right (endsExpression_steady hf hb)
  | cons t used ih =>
    rw [List.cons_append, splitExpression] at h ⊢
    split at h
    · next hx => cases congrArg Prod.fst h
    · next hx =>
      simp only [Prod.mk.injEq, List.cons.injEq, true_and] at h
      have hinside : splitExpression (expressionDepth depth t) false (used ++ left) = (used, left) := Prod.ext h.1 h.2
      have hends : t.endsExpression isFirst (used ++ left) = t.endsExpression isFirst (used ++ left') := by
        cases used with
        | nil =>
          -- A brace would not be closed yet.
          refine endsExpression_eq (fun hk => ?_) _ _ _
          have hdepth : expressionDepth depth t = depth + 1 := by simp [expressionDepth, Token.opensBracket, hk]
          cases hf <;> exact absurd (splitExpression_stop.1 hinside).1 (by omega)
        | cons v used => rfl
      rw [← hends, if_neg hx, ih hinside]

/-- A statement ends before the brace of an enclosing block and before a declaration on a line of its own. -/
theorem afterStatement_before {depth : Int} {isFirst : Bool} {t : Token} {ts : List Token} :
    afterStatement depth isFirst (t :: ts) = t :: ts ↔
      depth = 0 ∧ (t.kind = .rightBrace ∨ isFirst = false ∧ t.newlineBefore = true ∧ t.startsDeclaration = true) := by
  constructor
  · intro h
    rw [afterStatement] at h
    split at h
    · next hx =>
      simp only [Bool.and_eq_true, decide_eq_true_eq, beq_iff_eq] at hx
      exact ⟨hx.1, .inl hx.2⟩
    · split at h
      · exact absurd h (ne_of_suffix (List.suffix_refl _))
      · split at h
        · next hx =>
          simp only [Bool.and_eq_true, decide_eq_true_eq, Bool.not_eq_true'] at hx
          exact ⟨hx.1.1.1, .inr ⟨hx.1.1.2, hx.1.2, hx.2⟩⟩
        · exact absurd h (ne_of_suffix (afterStatement_suffix _ _ _))
  · rintro ⟨rfl, hb | ⟨rfl, hd⟩⟩
    · rw [afterStatement, if_pos (by simp [hb])]
    · exact afterStatement_stop (.inr hd) ts

theorem afterStatement_steady {depth : Int} {isFirst : Bool} {used left left' : List Token}
    (h : afterStatement depth isFirst (used ++ left) = left) (hf : Follows left left') :
    afterStatement depth isFirst (used ++ left') = left' := by
  induction used generalizing depth isFirst with
  | nil =>
    rw [List.nil_append] at h ⊢
    cases hf with
    | same ht _ =>
      rw [afterStatement_before] at h ⊢
      rwa [← ht.kind, ← ht.newline, ← ht.startsDeclaration]
    | leading hk hu hn =>
      obtain ⟨hd, hb | ⟨hfirst, hline, -⟩⟩ := afterStatement_before.1 h
      · rw [hk] at hb
        cases hb
      · exact afterStatement_before.2 ⟨hd, .inr ⟨hfirst, hn hline, Token.startsDeclaration_of_leadsType hu⟩⟩
    | ending => rfl
  | cons t used ih =>
    have longer : t :: (used ++ left) ≠ left := (ne_of_suffix (List.suffix_append used left)).symm
    rw [List.cons_append, afterStatement] at h ⊢
    split at h
    · exact absurd h longer
    · next hx =>
      rw [if_neg hx]
      split at h
      · next hx =>
        rw [if_pos hx, eq_nil_of_append h, List.nil_append]
      · next hx =>
        rw [if_neg hx]
        split at h
        · exact absurd h longer
        · next hx =>
          rw [if_neg hx]
          exact ih h

namespace Reader

open TestHooks.Reader

variable {α : Type} {P : Boundary}

/-! ### Phrases -/

theorem steady_group (closer : TokenKind) (opener : Token) : Steady P (group closer opener) := by
  intro used left left' x h _ _
  simp only [group] at h ⊢
  split at h
  · next inside rest hs =>
    cases h
    obtain ⟨rfl, hall⟩ := splitGroup_steady hs
    rw [hall]
  · cases h

theorem steady_phraseBy {split : List Token → List Token × List Token} {happend : ∀ ts, (split ts).1 ++ (split ts).2 = ts}
    {missing : Cause} (hs : ∀ ⦃used left left' : List Token⦄, split (used ++ left) = (used, left) → Follows left left' →
      P left left' → split (used ++ left') = (used, left')) : Steady P (phraseBy split happend missing) := by
  intro used left left' x h hf hP
  obtain ⟨t, taken, htaken, rfl⟩ := phraseBy_eq_ok.1 h
  obtain rfl : used = t :: taken := by
    have ha := happend (used ++ left)
    rw [htaken] at ha
    exact (List.append_cancel_right ha).symm
  exact phraseBy_eq_ok.2 ⟨t, taken, hs htaken hf hP, rfl⟩

theorem steady_typeText (stops : List String) : Steady P (typeText stops) :=
  steady_phraseBy fun _ _ _ h hf _ => splitType_steady h hf

theorem steady_expressionText : Steady BraceKept expressionText :=
  steady_phraseBy fun _ _ _ h hf hb => splitExpression_steady h hf hb

theorem quits_newline : Quits P (!·.newlineBefore) := by
  intro t u ts us h _ ht
  simp only [Bool.not_eq_false'] at ht ⊢
  cases h with
  | same h _ => rw [← h.newline, ht]
  | leading _ _ hn => exact hn ht

theorem steady_condition (directive : Token) : Steady P (condition directive) := by
  intro used left left' x h hf hP
  cases used with
  | nil =>
    cases hf with
    | same | leading | ending =>
      simp only [List.nil_append, condition] at h
      split at h
      · cases h
      · exact absurd (congrArg Prod.snd (Except.ok.inj h)) (ne_of_suffix (List.dropWhile_suffix _))
  | cons t used =>
    simp only [List.cons_append, condition] at h ⊢
    split at h
    · cases h
    · next hn =>
      rw [if_neg hn]
      have hd : (used ++ left).dropWhile (!·.newlineBefore) = left := congrArg Prod.snd (Except.ok.inj h)
      obtain ⟨htake, hdrop⟩ := span_steady quits_newline hd hf hP
      have hsame : Follows left left := by cases hf <;> exact follows_cons _ _ _
      obtain ⟨htake', -⟩ := span_steady (P := Anything) quits_newline hd hsame trivial
      rw [htake'] at h
      rw [htake, hdrop, show phrase (t :: used) = x from congrArg Prod.fst (Except.ok.inj h)]

/-! ### Attributes -/

theorem quits_keyword {words : List String} {test : Token → Bool} (hl : Plain test)
    (ht : ∀ t : Token, test t = true → t.kind = .identifier ∧ t.text ∈ words)
    (hw : ∀ w ∈ words, w ∉ modifierWords ∧ w ∉ TypeKeyword.all.map TypeKeyword.text) : Quits P test := by
  refine quits_of hl fun _ u _ hu _ => ?_
  rw [Bool.eq_false_iff]
  intro hx
  obtain ⟨hk, hmem⟩ := ht u hx
  rcases Token.leadsType_cases hu with ha | ⟨-, ha | ha⟩
  · rw [hk] at ha
    cases ha
  · exact (hw _ hmem).1 ha
  · exact (hw _ hmem).2 ha

theorem plain_attached : Plain fun t => t.kind == .leftParen && t.isAttached := by
  intro t u h ha
  dsimp only
  rw [h.kind, ha]

theorem steady_attributeAfter (t : Token) : Steady P (attributeAfter t) := by
  refine (steady_optionally (quits_of plain_attached fun _ u _ hu _ => ?_) fun t => steady_group .rightParen t).bind
    fun arguments => steady_pure _
  rcases kind_of_leading hu with hk | hk <;> rw [hk] <;> rfl

/-- Attributes are read up to a token that is none. -/
theorem steady_attributes : Steady P attributes := by
  refine steady_rounds (quits_of (plain_kind .atWord) fun t u ht _ hx => ?_) fun t => steady_attributeAfter t
  rw [ht] at hx
  cases hx

/-! ### Variables -/

theorem quits_effect : Quits P fun t => (effectOf? t).isSome := by
  refine @quits_keyword P (Effect.all.map Effect.text) _ (fun t u h _ => ?_) (fun t ht => ?_) (by decide)
  · rw [effectOf?_like h]
  · unfold effectOf? at ht
    split at ht
    · next hk =>
      obtain ⟨effect, he⟩ := Option.isSome_iff_exists.1 ht
      have htext := List.find?_some he
      rw [beq_iff_eq] at htext
      exact ⟨hk, htext ▸ List.mem_map_of_mem (List.mem_of_find?_eq_some he)⟩
    · cases ht

theorem steady_skippedGroup {opener : TokenKind} (ha : opener ≠ .atWord) (hi : opener ≠ .identifier) (closer : TokenKind) :
    Steady P (optionally (·.kind == opener) (group closer)) :=
  steady_optionally (quits_kind ha hi) fun t => steady_group closer t

theorem steady_effects : Steady P effects :=
  (steady_rounds quits_effect fun t =>
    (steady_skippedGroup (show TokenKind.leftParen ≠ .atWord by decide) (by decide) .rightParen).bind fun _ =>
      steady_pure (effectOf? t)).bind
      fun found => steady_pure (found.filterMap id)

theorem steady_accessorNamed (t : Token) : Steady P (accessorNamed t) := by
  unfold accessorNamed
  split
  · exact steady_pure _
  · exact steady_fail _

theorem noAttribute_of_token {kind : TokenKind} (hk : kind ≠ .atWord) {f : Token → Reader α} {x : α}
    {ts left us : List Token} (h : (token kind >>= f).run ts = .ok (x, left)) : NoAttribute ts us := by
  obtain ⟨t, more, ht, -⟩ := run_bind_eq_ok.1 h
  obtain ⟨rfl, rfl⟩ := token_eq_ok.1 ht
  intro u hu
  cases hu
  exact hk

theorem quits_isOneOf (words : List String) : Quits NoAttribute (·.isOneOf words) :=
  quits_noAttribute fun _ _ h _ => h.isOneOf words

theorem steady_accessor : Steady P accessor := by
  refine Steady.bind steady_attributes fun _ => ?_
  refine (steady_skipWhile (quits_isOneOf _)).bind_of (fun _ => ?_) fun _ _ _ _ _ h _ =>
    noAttribute_of_token (by decide) h
  refine (steady_token .identifier).bind fun t => (steady_accessorNamed t).bind fun named => ?_
  refine (steady_skippedGroup (by decide) (by decide) .rightParen).bind fun _ => steady_effects.bind fun _ => ?_
  exact (steady_skippedGroup (by decide) (by decide) .rightBrace).bind fun _ => steady_pure named

theorem steady_listedAccessors : Steady P listedAccessors := by
  refine Steady.bind (steady_untilNext (plain_kind .rightBrace) (fun t ht => ?_) steady_accessor) fun listed =>
    (steady_token .rightBrace).bind fun _ => steady_pure listed
  rcases ht with ht | ht <;> rw [ht] <;> rfl

/-- Whether a block lists accessors is told before its closing brace. -/
theorem listsAccessors_eq {inside left left' : List Token} {last : Token} (hk : last.kind = .rightBrace) :
    listsAccessors (inside ++ last :: left) = listsAccessors (inside ++ last :: left') := by
  induction inside with
  | nil =>
    have hstop : (last.kind == .atWord || last.isOneOf accessorPrefixes) = false := by simp [Token.isOneOf, hk]
    have hnone : accessorOf? last = none := by simp [accessorOf?, hk]
    simp [listsAccessors, hstop, hnone]
  | cons t inside ih =>
    by_cases ht : (t.kind == .atWord || t.isOneOf accessorPrefixes) = true
    · have step (more : List Token) : listsAccessors (t :: more) = listsAccessors more := by
        simp only [listsAccessors, List.dropWhile_cons, ht, if_true]
      rw [List.cons_append, List.cons_append, step, step, ih]
    · simp only [listsAccessors, List.cons_append, List.dropWhile_cons, ht, Bool.false_eq_true, if_false]
      cases accessorOf? t <;> cases inside <;> rfl

theorem ends_of_listed {used left : List Token} {found : List Accessor}
    (h : listedAccessors.run (used ++ left) = .ok (found, left)) : ∃ inside last, used = inside ++ [last] ∧ last.kind = .rightBrace := by
  obtain ⟨listed, mid, hl, h⟩ := run_bind_eq_ok.1 h
  obtain ⟨last, rest, ht, h⟩ := run_bind_eq_ok.1 h
  obtain ⟨rfl, rfl⟩ := run_pure_eq_ok.1 h
  obtain ⟨rfl, hk⟩ := token_eq_ok.1 ht
  obtain ⟨inside, hi⟩ := (untilNext _ _ _).suffix hl
  refine ⟨inside, last, List.append_cancel_right (?_ : used ++ rest = _), hk⟩
  rw [← hi, List.append_assoc]
  rfl

theorem ends_of_group {closer : TokenKind} {opener : Token} {used left x : List Token}
    (h : (group closer opener).run (used ++ left) = .ok (x, left)) : ∃ inside last, used = inside ++ [last] ∧ last.kind = closer := by
  simp only [group] at h
  split at h
  · next hs =>
    cases h
    obtain ⟨rfl, -⟩ := splitGroup_steady hs
    exact splitGroup_last hs
  · cases h

theorem steady_accessorBlock (opener : Token) : Steady P (accessorBlock opener) := by
  intro used left left' x h hf hP
  obtain ⟨lists, mid, hlook, h⟩ := run_bind_eq_ok.1 h
  cases hlook
  have hends : ∃ inside last, used = inside ++ [last] ∧ last.kind = .rightBrace := by
    split at h
    · exact ends_of_listed h
    · obtain ⟨_, rest, hg, h⟩ := run_bind_eq_ok.1 h
      obtain ⟨-, rfl⟩ := run_pure_eq_ok.1 h
      exact ends_of_group hg
  obtain ⟨inside, last, hused, hk⟩ := hends
  have hlists : listsAccessors (used ++ left) = listsAccessors (used ++ left') := by
    rw [hused, List.append_assoc, List.append_assoc]
    exact listsAccessors_eq hk
  refine run_bind_eq_ok.2 ⟨_, _, rfl, ?_⟩
  rw [← hlists]
  split at h
  · next hx =>
    rw [if_pos hx]
    exact steady_listedAccessors h hf hP
  · next hx =>
    rw [if_neg hx]
    exact ((steady_group .rightBrace opener).bind fun _ => steady_pure [Accessor.get]) h hf hP

theorem steady_bindingName : Steady P bindingName := by
  refine (steady_skippedGroup (by decide) (by decide) .rightParen).bind fun pattern => ?_
  cases pattern with
  | none => exact (steady_token _).bind fun _ => steady_pure _
  | some pattern => exact steady_pure _

theorem quits_isAssignment : Quits P isAssignment := by
  refine quits_of (fun _ _ h _ => blindTest_isAssignment h) fun _ u _ hu _ => ?_
  rcases kind_of_leading hu with hk | hk <;> simp [isAssignment, hk]

theorem steady_type : Steady P (optionally (·.kind == .colon) fun _ => typeText []) :=
  steady_optionally (quits_kind (by decide) (by decide)) fun _ => steady_typeText []

theorem steady_value : Steady BraceKept (optionally isAssignment fun _ => expressionText) :=
  steady_optionally quits_isAssignment fun _ => steady_expressionText

/-- A block of accessors is not taken away from behind its brace. -/
theorem braceKept_accessors {used left left' : List Token} {x : Option (List Accessor)}
    (h : (optionally (·.kind == .leftBrace) accessorBlock).run (used ++ left) = .ok (x, left)) :
    BraceKept (used ++ left) (used ++ left') := by
  intro t u more hts hk
  rcases optionally_cases h with ⟨ht, -, -⟩ | ⟨t', after, block, hu, -, hr, -⟩
  · rw [hts, List.head?_cons, Option.any_some, hk] at ht
    cases ht
  · obtain ⟨inside, rfl, rfl⟩ := used_of_cons hu hr
    cases inside with
    | nil =>
      rw [List.nil_append] at hr
      obtain ⟨lists, mid, hlook, hr⟩ := run_bind_eq_ok.1 hr
      cases hlook
      split at hr
      · obtain ⟨inside, last, hx, -⟩ := @ends_of_listed [] _ _ hr
        cases inside <;> cases hx
      · obtain ⟨_, rest, hg, hr⟩ := run_bind_eq_ok.1 hr
        obtain ⟨-, rfl⟩ := run_pure_eq_ok.1 hr
        obtain ⟨inside, last, hx, -⟩ := @ends_of_group _ _ [] _ _ hg
        cases inside <;> cases hx
    | cons v inside =>
      cases hts
      exact ⟨_, _, rfl⟩

theorem steady_binding : Steady P binding := by
  refine steady_bindingName.bind fun name => steady_type.bind fun type => ?_
  refine steady_value.bind_of (fun value => ?_) fun _ _ _ _ _ h _ => ?_
  · exact (steady_optionally (quits_kind (by decide) (by decide)) steady_accessorBlock).bind fun _ => steady_pure _
  · obtain ⟨_, _, h, hr⟩ := run_bind_eq_ok.1 h
    obtain ⟨-, rfl⟩ := run_pure_eq_ok.1 hr
    exact braceKept_accessors h

theorem steady_byCommas {p : Reader α} (hp : Steady Anything p) : Steady P (byCommas p) :=
  hp.bind fun first => (steady_rounds (quits_kind (by decide) (by decide)) fun _ => hp).bind fun _ => steady_pure _

/-! ### Functions -/

theorem steady_operatorName : Steady P operatorName := by
  have hquits : Quits Anything continuesOperator := by
    refine quits_of (fun t u h ha => ?_) fun _ u _ hu _ => ?_
    · rw [continuesOperator, continuesOperator, h.kind, ha]
    · rcases kind_of_leading hu with hk | hk <;> simp [continuesOperator, hk]
  intro used left left' x h hf _
  cases used with
  | nil =>
    cases hf with
    | same | leading | ending =>
      simp only [List.nil_append, operatorName] at h
      split at h
      · exact absurd (congrArg Prod.snd (Except.ok.inj h)) (ne_of_suffix (List.dropWhile_suffix _))
      · cases h
  | cons t used =>
    simp only [List.cons_append, operatorName] at h ⊢
    split at h
    · next hs =>
      rw [if_pos hs]
      have hd : (used ++ left).dropWhile continuesOperator = left := congrArg Prod.snd (Except.ok.inj h)
      obtain ⟨htake, hdrop⟩ := span_steady hquits hd hf trivial
      have hsame : Follows left left := by cases hf <;> exact follows_cons _ _ _
      rw [(span_steady hquits hd hsame trivial).1] at h
      rw [htake, hdrop, show String.join (t.text :: used.map Token.text) = x from congrArg Prod.fst (Except.ok.inj h)]
    · cases h

theorem noAttribute_of_operator {ts left us : List Token} {x : String} (h : operatorName.run ts = .ok (x, left)) :
    NoAttribute ts us := by
  cases ts with
  | nil => cases h
  | cons t ts =>
    simp only [operatorName] at h
    split at h
    · next hs =>
      intro u hu hk
      cases hu
      simp [startsOperator, hk] at hs
    · cases h

theorem steady_functionName : Steady NoAttribute functionName := by
  refine (steady_optionally (quits_noAttribute (plain_kind .identifier)) steady_pure).bind_of (fun first => ?_)
    fun first x used left left' h hq => ?_
  · cases first with
    | none => exact steady_operatorName.bind fun _ => steady_pure _
    | some t => exact steady_pure _
  · cases first with
    | none =>
      obtain ⟨_, _, h, -⟩ := run_bind_eq_ok.1 h
      exact noAttribute_of_operator h
    | some t =>
      obtain ⟨-, hu⟩ := run_pure_eq_ok.1 h
      rwa [eq_nil_of_append hu]

theorem steady_genericClause : Steady P genericClause :=
  steady_optionally (quits_kind (by decide) (by decide)) fun t => (steady_group .rightAngle t).bind fun _ => steady_pure _

theorem steady_parameter : Steady NoBrace parameter := by
  refine Steady.bind steady_attributes fun _ => (steady_token .identifier).bind fun first => ?_
  refine (steady_optionally (quits_noAttribute (plain_kind .identifier)) steady_pure).bind_of (fun second => ?_)
    fun _ _ _ _ _ h _ => noAttribute_of_token (by decide) h
  refine (steady_token .colon).bind fun _ => (steady_typeText []).bind fun type => ?_
  refine steady_value.bind_of (fun value => steady_pure _) fun _ _ _ _ _ h hq => ?_
  obtain ⟨-, hu⟩ := run_pure_eq_ok.1 h
  rw [eq_nil_of_append hu]
  intro t u more hts hk
  exact absurd hk (hq t (by rw [List.nil_append] at hts; rw [hts]; rfl))

theorem steady_parameterUnlessClosed : Steady NoBrace parameterUnlessClosed := by
  intro used left left' x h hf hP
  obtain ⟨closed, mid, hlook, h⟩ := run_bind_eq_ok.1 h
  cases hlook
  have hclosed : (used ++ left).head?.any (·.kind == .rightParen) = (used ++ left').head?.any (·.kind == .rightParen) := by
    cases used with
    | nil =>
      cases hf with
      | same ht _ => simp only [List.nil_append, List.head?_cons, Option.any_some, ht.kind]
      | @leading t u _ _ hk hu _ =>
        have hclosed : u.kind ≠ .rightParen := by rcases kind_of_leading hu with hk | hk <;> simp [hk]
        rw [List.nil_append, List.nil_append, List.head?_cons, List.head?_cons, Option.any_some, Option.any_some, hk,
          beq_eq_false_iff_ne.2 hclosed]
        rfl
      | ending hk =>
        rw [List.nil_append, List.nil_append, List.head?_cons, Option.any_some, hk]
        rfl
    | cons t used => rfl
  refine run_bind_eq_ok.2 ⟨_, _, rfl, ?_⟩
  split at h
  · next hx =>
    rw [if_pos (hclosed.symm.trans hx)]
    exact steady_pure none h hf hP
  · next hx =>
    rw [if_neg fun hy => hx (hclosed.trans hy)]
    exact (steady_parameter.bind_of (fun p => steady_pure (some p)) fun _ _ _ _ _ h hq => by
      obtain ⟨-, hu⟩ := run_pure_eq_ok.1 h
      rwa [eq_nil_of_append hu]) h hf hP

theorem noBrace_of_token {kind : TokenKind} (hk : kind ≠ .leftBrace) {f : Token → Reader α} {x : α}
    {ts left us : List Token} (h : (token kind >>= f).run ts = .ok (x, left)) : NoBrace ts us := by
  obtain ⟨t, more, ht, -⟩ := run_bind_eq_ok.1 h
  obtain ⟨rfl, rfl⟩ := token_eq_ok.1 ht
  intro u hu
  cases hu
  exact hk

theorem steady_otherParameters : Steady NoBrace (whileNext (·.kind == .comma) fun _ => parameterUnlessClosed) := by
  refine steady_whileNext (quits_kind (by decide) (by decide)) (fun _ => steady_parameterUnlessClosed) (fun _ _ h => h)
    fun t ts us ht u hu => ?_
  cases hu
  rw [beq_iff_eq] at ht
  rw [ht]
  decide

theorem steady_parameterClause : Steady P parameterClause := by
  refine (steady_token .leftParen).bind fun _ => ?_
  refine steady_parameterUnlessClosed.bind_of (fun first => ?_) fun first x used left left' h _ => ?_
  · exact steady_otherParameters.bind_of (fun others => (steady_token .rightParen).bind fun _ => steady_pure _)
      fun _ _ _ _ _ h _ => noBrace_of_token (by decide) h
  · obtain ⟨others, mid, ho, h⟩ := run_bind_eq_ok.1 h
    rcases whileNext_cases ho with ⟨-, -, rfl⟩ | ⟨t, more, _, _, _, hts, ht, -⟩
    · exact noBrace_of_token (by decide) h
    · intro u hu
      rw [hts] at hu
      cases hu
      rw [beq_iff_eq] at ht
      rw [ht]
      decide

theorem quits_where : Quits P (·.isIdentifier "where") :=
  @quits_keyword P ["where"] _ (fun _ _ h _ => h.isIdentifier _)
    (fun t ht => by simpa [Token.isIdentifier] using ht) (by decide)

/-- What is skipped up to a brace goes on at attributes, too. -/
theorem quits_unlessBrace {test : Token → Bool} (hl : Plain test) (ha : ∀ t : Token, t.kind = .atWord → test t = true) :
    Quits P test :=
  quits_of hl fun t _ hk _ ht => by
    rw [ha t hk] at ht
    cases ht

theorem steady_functionRequirements : Steady P functionRequirements := by
  refine steady_optionally quits_where fun _ => steady_skipWhile (quits_unlessBrace (fun t u h _ => ?_) fun t ht => ?_)
  · simp only [h.kind]
  · simp only [ht]
    rfl

theorem steady_function : Steady P function := by
  refine steady_functionName.bind_of (fun name => steady_genericClause.bind fun generics => ?_)
    fun name x used left left' h _ => ?_
  · refine steady_parameterClause.bind fun parameters => steady_effects.bind fun effects => ?_
    refine (steady_optionally (quits_kind (by decide) (by decide)) fun _ => steady_typeText ["where"]).bind fun type => ?_
    refine steady_functionRequirements.bind fun _ => ?_
    exact (steady_skippedGroup (by decide) (by decide) .rightBrace).bind fun _ => steady_pure _
  · obtain ⟨generics, mid, hg, h⟩ := run_bind_eq_ok.1 h
    obtain ⟨_, _, h, -⟩ := run_bind_eq_ok.1 h
    rcases optionally_cases hg with ⟨-, -, rfl⟩ | ⟨t, more, _, hts, ht, -⟩
    · exact noAttribute_of_token (by decide) h
    · intro u hu
      rw [hts] at hu
      cases hu
      rw [beq_iff_eq] at ht
      rw [ht]
      decide

/-! ### Types -/

theorem steady_typeName (keyword : TypeKeyword) : Steady P (typeName keyword) := by
  unfold typeName
  split
  · exact (steady_typeText _).bind fun _ => steady_pure _
  · exact (steady_token _).bind fun _ => steady_genericClause.bind fun _ => steady_pure _

theorem steady_inheritance : Steady P inheritance :=
  (steady_optionally (quits_kind (by decide) (by decide)) fun _ => steady_byCommas (steady_typeText _)).bind
    fun _ => steady_pure _

theorem steady_typeHeader (keyword : TypeKeyword) : Steady P (typeHeader keyword) := by
  refine (steady_typeName keyword).bind fun name => steady_inheritance.bind fun inherited => ?_
  refine Steady.bind (steady_optionally quits_where fun _ => steady_skipWhile (quits_unlessBrace (fun t u h _ => ?_)
    fun t ht => ?_)) fun _ => (steady_token _).bind fun _ => steady_pure _
  · simp only [h.kind]
  · simp only [ht]
    rfl

/-! ### Other declarations -/

/-- The first token of a statement is skipped unless it is a closing brace. -/
theorem brace_of_afterStatement {t : Token} {ts : List Token} (h : afterStatement 0 true (t :: ts) = t :: ts) :
    t.kind = .rightBrace := by
  rw [afterStatement] at h
  split at h
  · next hx => simpa using hx
  · split at h
    · exact absurd h (ne_of_suffix (List.suffix_refl _))
    · split at h
      · next hx => simp at hx
      · exact absurd h (ne_of_suffix (afterStatement_suffix _ _ _))

theorem steady_otherName (keyword : String) : Steady P (otherName keyword) := by
  intro used left left' x h hf _
  rw [otherName_eq rfl, Except.ok.injEq, Prod.mk.injEq] at h ⊢
  obtain ⟨rfl, hafter⟩ := h
  refine ⟨?_, afterStatement_steady hafter hf⟩
  cases used with
  | nil =>
    cases hf with
    | same ht _ =>
      simp only [List.nil_append, List.head?_cons, nameAfter, ht.kind, ht.text]
    | leading hk _ _ | ending hk =>
      have hbrace := brace_of_afterStatement hafter
      rw [hk] at hbrace
      cases hbrace
  | cons t used => rfl

theorem steady_directive (t : Token) : Steady P (directive t) := by
  unfold directive
  split
  · exact steady_fail _
  · exact (steady_skippedGroup (by decide) (by decide) .rightParen).bind fun _ => steady_pure _

/-! ### Declarations without members -/

theorem steady_clauseCondition (keyword : ClauseKeyword) (directive : Token) : Steady P (clauseCondition keyword directive) := by
  unfold clauseCondition
  split
  · exact steady_pure _
  · exact steady_condition _

theorem steady_statementFrom (t : Token) : Steady P (statementFrom t) := by
  intro used left left' x h hf _
  have hafter : afterStatement (statementDepth 0 t) false (used ++ left) = left := congrArg Prod.snd (Except.ok.inj h)
  exact congrArg (fun ts => Except.ok ((), ts)) (afterStatement_steady hafter hf)

theorem steady_statementOrFault (strict : Bool) (head : Head) (t : Token) : Steady P (statementOrFault strict head t) := by
  unfold statementOrFault
  split
  · exact steady_fail _
  · exact (steady_statementFrom t).bind fun _ => steady_pure _

theorem steady_flatDeclaration (strict : Bool) (head : Head) (t : Token) (introducer : Option Introducer) :
    Steady P (flatDeclaration strict head t introducer) := by
  unfold flatDeclaration
  split
  · exact (steady_byCommas steady_binding).bind fun _ => steady_pure _
  · exact steady_function.bind fun _ => steady_pure _
  · exact (steady_otherName _).bind fun _ => steady_pure _
  · exact steady_statementOrFault _ _ _
  · exact steady_statementOrFault _ _ _

end Reader

end TestHooks.Swift
