import TestHooks.Proofs.Alike

/-!
# Headers are read without looking at places

Every reader of a phrase or of the header of a declaration agrees on lists of tokens that are alike. What it takes has
the same length in both, because where a phrase ends depends on kinds, texts and line breaks only.
-/

namespace TestHooks.Swift

open TestHooks.Text

/-! ### Tests -/

section Tests

variable {t u : Token} (h : t.Like u)

include h

theorem Token.Like.isOneOf (words : List String) : t.isOneOf words = u.isOneOf words := by
  rw [Token.isOneOf, Token.isOneOf, h.kind, h.text]

theorem Token.Like.isIdentifier (word : String) : t.isIdentifier word = u.isIdentifier word := by
  rw [Token.isIdentifier, Token.isIdentifier, h.kind, h.text]

theorem Token.Like.opensBracket : t.opensBracket = u.opensBracket := by
  rw [Token.opensBracket, Token.opensBracket, h.kind]

theorem Token.Like.closesBracket : t.closesBracket = u.closesBracket := by
  rw [Token.closesBracket, Token.closesBracket, h.kind]

theorem Token.Like.startsDeclaration : t.startsDeclaration = u.startsDeclaration := by
  rw [Token.startsDeclaration, Token.startsDeclaration, h.kind, h.isOneOf, h.isOneOf]

theorem Token.Like.endsType : t.endsType = u.endsType := by
  rw [Token.endsType, Token.endsType, h.kind, h.text]

theorem Token.Like.continuesType : t.continuesType = u.continuesType := by
  rw [Token.continuesType, Token.continuesType, h.kind]

end Tests

theorem fault_cause {t u : Token} {cause cause' : Cause} (h : cause = cause') :
    (t.fault cause).cause = (u.fault cause').cause := h

theorem head?_like {test : Token → Bool} (ht : Reader.BlindTest test) {ts us : List Token}
    (h : List.Forall₂ Token.Like ts us) : ts.head?.any test = us.head?.any test := by
  cases h with
  | nil => rfl
  | cons htu _ => exact ht htu

theorem Alike.suffix {ts us left left' : List Token} (h : Alike ts us) (ht : left <:+ ts) (hu : left' <:+ us)
    (hl : left.length = left'.length) : Alike left left' := by
  obtain ⟨taken, rfl⟩ := ht
  obtain ⟨taken', rfl⟩ := hu
  have hlength := h.like.length_eq
  rw [List.length_append, List.length_append] at hlength
  exact (h.cut rfl rfl (by omega)).2

theorem length_takeWhile_like {test : Token → Bool} (ht : Reader.BlindTest test) {ts us : List Token}
    (h : List.Forall₂ Token.Like ts us) : (ts.takeWhile test).length = (us.takeWhile test).length := by
  induction h with
  | nil => rfl
  | cons htu _ ih =>
    rw [List.takeWhile_cons, List.takeWhile_cons, ht htu]
    split
    · rw [List.length_cons, List.length_cons, ih]
    · rfl

/-- Lists whose first tokens are alike, too, cut at the same place. -/
theorem cut_inside {ts us taken left taken' left' : List Token} (h : List.Forall₂ Token.Alike ts us)
    (ht : taken ++ left = ts) (hu : taken' ++ left' = us) (hl : taken.length = taken'.length) :
    List.Forall₂ Token.Alike taken taken' ∧ List.Forall₂ Token.Alike left left' := by
  subst ht hu
  have htake := List.forall₂_take taken.length h
  have hdrop := List.forall₂_drop taken.length h
  rw [List.take_left' rfl, List.take_left' hl.symm] at htake
  rw [List.drop_left' rfl, List.drop_left' hl.symm] at hdrop
  exact ⟨htake, hdrop⟩

/-- What a blind test takes and leaves. -/
theorem Alike.span {test : Token → Bool} (ht : Reader.BlindTest test) {ts us : List Token} (h : Alike ts us) :
    Alike (ts.takeWhile test) (us.takeWhile test) ∧ Alike (ts.dropWhile test) (us.dropWhile test) :=
  h.cut List.takeWhile_append_dropWhile List.takeWhile_append_dropWhile (length_takeWhile_like ht h.like)

/-! ### Where phrases end -/

theorem splitGroup_like {opener closer : TokenKind} {ts us : List Token} (h : List.Forall₂ Token.Like ts us)
    (depth : Nat) :
    Option.Rel (fun p q => p.1.length = q.1.length) (splitGroup opener closer depth ts)
      (splitGroup opener closer depth us) := by
  induction h generalizing depth with
  | nil => exact .none
  | @cons t u ts us htu hs ih =>
    have hstep (d : Nat) : Option.Rel (fun p q => p.1.length = q.1.length)
        ((splitGroup opener closer d ts).map fun p => (t :: p.1, p.2))
        ((splitGroup opener closer d us).map fun p => (u :: p.1, p.2)) := by
      have hd := ih d
      revert hd
      cases splitGroup opener closer d ts <;> cases splitGroup opener closer d us <;> intro hd <;> cases hd
      · exact .none
      · next hd => exact .some (congrArg (· + 1) hd)
    unfold splitGroup
    rw [htu.kind]
    split
    · exact hstep _
    · split
      · cases depth with
        | zero => exact .some rfl
        | succ depth => exact hstep depth
      · exact hstep depth

theorem breaksType_like {p q : Option Token} {t u : Token} (hp : Option.Rel Token.Like p q) (h : t.Like u) :
    t.breaksType p = u.breaksType q := by
  cases hp with
  | none => rfl
  | some hp =>
    rw [Token.breaksType, Token.breaksType, Option.any_some, Option.any_some, h.newline, hp.continuesType,
      h.continuesType]

theorem typeDepth_like {t u : Token} (h : t.Like u) (depth : Nat) : typeDepth depth t = typeDepth depth u := by
  rw [typeDepth, typeDepth, h.kind]

theorem splitType_like {stops : List String} {ts us : List Token} (h : List.Forall₂ Token.Like ts us) (depth : Nat)
    {p q : Option Token} (hp : Option.Rel Token.Like p q) :
    (splitType stops depth p ts).1.length = (splitType stops depth q us).1.length := by
  induction h generalizing depth p q with
  | nil => rfl
  | cons htu _ ih =>
    rw [splitType, splitType, htu.endsType, htu.isOneOf, breaksType_like hp htu]
    split
    · rfl
    · rw [List.length_cons, List.length_cons, typeDepth_like htu, ih _ (.some htu)]

theorem expressionDepth_like {t u : Token} (h : t.Like u) (depth : Nat) :
    expressionDepth depth t = expressionDepth depth u := by
  rw [expressionDepth, expressionDepth, h.opensBracket, h.closesBracket]

theorem splitExpression_like {ts us : List Token} (h : List.Forall₂ Token.Like ts us) (depth : Nat)
    (isFirst : Bool) :
    (splitExpression depth isFirst ts).1.length = (splitExpression depth isFirst us).1.length := by
  induction h generalizing depth isFirst with
  | nil => rfl
  | @cons t u ts us htu hs ih =>
    have hends : t.endsExpression isFirst ts = u.endsExpression isFirst us := by
      rw [Token.endsExpression, Token.endsExpression, htu.kind, htu.closesBracket, htu.newline,
        htu.startsDeclaration, head?_like (fun _ _ h => h.isOneOf _) hs]
    rw [splitExpression, splitExpression, hends]
    split
    · rfl
    · rw [List.length_cons, List.length_cons, expressionDepth_like htu, ih]

theorem statementDepth_like {t u : Token} (h : t.Like u) (depth : Int) :
    statementDepth depth t = statementDepth depth u := by
  rw [statementDepth, statementDepth, h.opensBracket, h.closesBracket]

theorem length_afterStatement_like {ts us : List Token} (h : List.Forall₂ Token.Like ts us) (depth : Int)
    (isFirst : Bool) : (afterStatement depth isFirst ts).length = (afterStatement depth isFirst us).length := by
  induction h generalizing depth isFirst with
  | nil => rfl
  | @cons t u ts us htu hs ih =>
    have hl := hs.length_eq
    rw [afterStatement, afterStatement, htu.kind, htu.newline, htu.startsDeclaration]
    split
    · rw [List.length_cons, List.length_cons, hl]
    · split
      · exact hl
      · split
        · rw [List.length_cons, List.length_cons, hl]
        · rw [statementDepth_like htu, ih]

theorem Alike.afterStatement {ts us : List Token} (h : Alike ts us) (depth : Int) (isFirst : Bool) :
    Alike (afterStatement depth isFirst ts) (Swift.afterStatement depth isFirst us) :=
  h.suffix (afterStatement_suffix _ _ _) (afterStatement_suffix _ _ _) (length_afterStatement_like h.like _ _)

namespace Reader

open TestHooks.Reader

/-! ### Phrases -/

theorem blind_token (kind : TokenKind) : Blind Token.Like (token kind) (token kind) := by
  intro ts us hs
  cases hs with
  | nil => exact .error rfl
  | cons htu hs =>
    simp only [token, htu.kind]
    split
    · exact .ok htu (.of_forall₂ hs)
    · exact .error (fault_cause (by rw [htu.text]))

theorem blind_look {α : Type} {f : List Token → α} (h : ∀ ⦃ts us⦄, Alike ts us → f ts = f us) :
    Blind Eq (look f) (look f) :=
  fun _ _ hs => .ok (h hs) hs

theorem blind_skipWhile {test : Token → Bool} (ht : BlindTest test) : Blind Eq (skipWhile test) (skipWhile test) :=
  fun _ _ hs => .ok rfl (hs.span ht).2

/-- The tokens of a group are alike. -/
theorem blindInside_group (closer : TokenKind) {t u : Token} (h : t.Like u) :
    BlindInside Alike (group closer t) (group closer u) := by
  intro ts us hs
  have hsplit := @splitGroup_like u.kind closer ts us (hs.imp fun _ _ h => h.toLike) 0
  simp only [group, h.kind]
  revert hsplit
  cases hg : splitGroup u.kind closer 0 ts with
  | none =>
    intro hsplit
    cases hg' : splitGroup u.kind closer 0 us with
    | none => exact .error (fault_cause (by rw [h.text]))
    | some _ =>
      rw [hg'] at hsplit
      cases hsplit
  | some p =>
    intro hsplit
    cases hg' : splitGroup u.kind closer 0 us with
    | none =>
      rw [hg'] at hsplit
      cases hsplit
    | some q =>
      rw [hg'] at hsplit
      cases hsplit with
      | some hl =>
        obtain ⟨htaken, hleft⟩ := cut_inside hs (splitGroup_append hg) (splitGroup_append hg') hl
        exact .ok (.cons h htaken) (.of_forall₂ hleft)

/-- A group is skipped alike, wherever it begins. -/
theorem blind_group (closer : TokenKind) {t u : Token} (h : t.Like u) :
    Blind (fun _ _ => True) (group closer t) (group closer u) := by
  intro ts us hs
  have hsplit := @splitGroup_like u.kind closer ts us hs.like 0
  simp only [group, h.kind]
  revert hsplit
  cases hg : splitGroup u.kind closer 0 ts <;> cases hg' : splitGroup u.kind closer 0 us <;> intro hsplit <;>
    cases hsplit
  · exact .error (fault_cause (by rw [h.text]))
  · next hl => exact .ok trivial (hs.cut (splitGroup_append hg) (splitGroup_append hg') hl).2

theorem blind_phraseBy {split : List Token → List Token × List Token} (happend : ∀ ts, (split ts).1 ++ (split ts).2 = ts)
    (missing : Cause)
    (hlength : ∀ ⦃ts us⦄, List.Forall₂ Token.Like ts us → (split ts).1.length = (split us).1.length) :
    Blind Eq (phraseBy split happend missing) (phraseBy split happend missing) := by
  intro ts us hs
  obtain ⟨htaken, hleft⟩ := hs.cut (happend ts) (happend us) (hlength hs.like)
  simp only [phraseBy]
  revert htaken hleft
  generalize split ts = p
  generalize split us = q
  obtain ⟨taken, left⟩ := p
  obtain ⟨taken', left'⟩ := q
  intro htaken hleft
  dsimp only at htaken hleft
  cases htaken with
  | nil =>
    cases hleft with
    | nil => exact .error rfl
    | cons htu _ => exact .error rfl
  | cons htu hs => exact .ok (phrase_alike (.cons htu hs)) hleft

theorem blind_typeText (stops : List String) : Blind Eq (typeText stops) (typeText stops) :=
  blind_phraseBy _ _ fun _ _ h => splitType_like h 0 .none

theorem blind_expressionText : Blind Eq expressionText expressionText :=
  blind_phraseBy _ _ fun _ _ h => splitExpression_like h 0 true

theorem blind_statement : Blind Eq statement statement :=
  fun _ _ hs => .ok rfl (hs.afterStatement 0 true)

theorem blind_condition {t u : Token} (h : t.Like u) : Blind Eq (condition t) (condition u) := by
  intro ts us hs
  cases hs with
  | nil => exact .error (fault_cause (by rw [h.text]))
  | @cons v w ts us hvw hs =>
    have htest : BlindTest (!·.newlineBefore) := fun _ _ h => congrArg not h.newline
    obtain ⟨htaken, hleft⟩ := cut_inside hs List.takeWhile_append_dropWhile List.takeWhile_append_dropWhile
      (length_takeWhile_like htest (hs.imp fun _ _ h => h.toLike))
    simp only [condition, hvw.newline]
    split
    · exact .error (fault_cause (by rw [h.text]))
    · exact .ok (phrase_alike (.cons hvw htaken)) (.of_forall₂ hleft)

/-! ### Attributes and modifiers -/

end Reader

/-- The attribute without its place. -/
def Attribute.unplaced (a : Attribute) : Attribute := ⟨a.name, .origin, 0⟩

namespace Reader

open TestHooks.Reader

theorem eq_of_rel {α : Type} {x y : Option α} (h : Option.Rel Eq x y) : x = y := by
  cases h with
  | none => rfl
  | some h => rw [h]

/-- Something optional that both readings find alike. -/
theorem blind_optional {α : Type} {test : Token → Bool} {p : Token → Reader α} {q : Token → Reader α}
    (ht : BlindTest test) (h : ∀ t u, t.Like u → BlindInside Eq (p t) (q u)) :
    Blind Eq (optionally test p) (optionally test q) :=
  fun _ _ hs => (blind_optionally ht h hs).imp fun _ _ hx => eq_of_rel hx

/-- A group that may be there and is not looked at. -/
theorem blind_skippedGroup (opener closer : TokenKind) :
    Blind (fun _ _ => True) (optionally (·.kind == opener) (group closer)) (optionally (·.kind == opener) (group closer)) :=
  fun _ _ hs => (blind_optionally (fun _ _ h => by rw [h.kind]) (fun _ _ h => blindInside_group closer h) hs).imp
    fun _ _ _ => trivial

theorem blindInside_optionally {α β : Type} {R : α → β → Prop} {test : Token → Bool} {p : Token → Reader α}
    {q : Token → Reader β} (ht : ∀ ⦃t u : Token⦄, t.Alike u → test t = test u)
    (h : ∀ t u, t.Like u → BlindInside R (p t) (q u)) :
    BlindInside (Option.Rel R) (optionally test p) (optionally test q) := by
  intro ts us hs
  cases hs with
  | nil => exact .ok .none .nil
  | cons htu hs =>
    rw [optionally_cons, optionally_cons, ht htu]
    split
    · exact (h _ _ htu.toLike hs).bind fun x y _ _ _ _ hx hl => .ok (.some hx) hl
    · exact .ok .none (.cons htu.toLike hs)

theorem blindInside_attributeAfter {t u : Token} (h : t.Like u) :
    BlindInside (fun a b => a.unplaced = b.unplaced) (attributeAfter t) (attributeAfter u) :=
  (blindInside_optionally (fun _ _ h => by rw [h.kind, h.attached])
    fun _ _ h => blindInside_group .rightParen h).bind fun _ _ _ =>
      blind_pure (by rw [Attribute.unplaced, Attribute.unplaced, h.text])

theorem blind_attributes :
    Blind (List.Forall₂ fun a b => a.unplaced = b.unplaced) attributes attributes :=
  blind_whileNext (fun _ _ h => by rw [h.kind]) fun _ _ h => blindInside_attributeAfter h

theorem modifiesMember_alike {ts us : List Token} (h : List.Forall₂ Token.Like ts us) :
    modifiesMember ts = modifiesMember us := by
  cases h with
  | nil => rfl
  | cons h _ => rw [modifiesMember, modifiesMember, h.isOneOf, h.isOneOf]

theorem modifierDetail?_alike {ts us : List Token} (h : List.Forall₂ Token.Like ts us) :
    modifierDetail? ts = modifierDetail? us := by
  cases h with
  | nil => rfl
  | cons ha h =>
    cases h with
    | nil => rfl
    | cons hb h =>
      cases h with
      | nil => rfl
      | cons hc h => rw [modifierDetail?, modifierDetail?, ha.kind, hb.kind, hb.text, hc.kind]

theorem splitModifiers_alike {ts us : List Token} (h : Alike ts us) :
    (splitModifiers ts).1 = (splitModifiers us).1 ∧ Alike (splitModifiers ts).2 (splitModifiers us).2 := by
  induction hn : ts.length using Nat.strongRecOn generalizing ts us with
  | ind n ih =>
    cases h with
    | nil =>
      rw [splitModifiers]
      exact ⟨rfl, .nil⟩
    | @cons t u ts us htu hs =>
      have hlike := hs.imp fun _ _ h => Token.Alike.toLike h
      rw [splitModifiers, splitModifiers, htu.isOneOf, htu.text, modifiesMember_alike hlike]
      split
      · have hrest := (Alike.of_forall₂ hs).drop (if (modifierDetail? us).isSome then 3 else 0)
        rw [modifierDetail?_alike hlike]
        obtain ⟨hm, hl⟩ := ih _ (by rw [← hn, List.length_cons, List.length_drop]; omega) hrest rfl
        exact ⟨congrArg (_ :: ·) hm, hl⟩
      · exact ⟨rfl, .cons htu hs⟩

theorem blind_modifiers : Blind Eq modifiers modifiers :=
  fun _ _ hs => .ok (splitModifiers_alike hs).1 (splitModifiers_alike hs).2

/-! ### Variables -/

theorem effectOf?_like {t u : Token} (h : t.Like u) : effectOf? t = effectOf? u := by
  rw [effectOf?, effectOf?, h.kind, h.text]

theorem accessorOf?_like {t u : Token} (h : t.Like u) : accessorOf? t = accessorOf? u := by
  rw [accessorOf?, accessorOf?, h.kind, h.text]

theorem blind_effects : Blind Eq effects effects := by
  refine (blind_whileNext (R := Eq) (fun _ _ h => by rw [effectOf?_like h]) fun t u h =>
    ((blind_skippedGroup _ _).bind fun _ _ _ => blind_pure (effectOf?_like h)).inside).bind fun x y hx => ?_
  rw [List.forall₂_eq_eq_eq] at hx
  exact blind_pure (by rw [hx])

theorem listsAccessors_alike {ts us : List Token} (h : Alike ts us) : listsAccessors ts = listsAccessors us := by
  have htest : BlindTest fun t => t.kind == .atWord || t.isOneOf accessorPrefixes :=
    fun _ _ h => by simp only [h.kind, h.isOneOf]
  have hrest := (h.span htest).2
  unfold listsAccessors
  revert hrest
  generalize ts.dropWhile _ = ts'
  generalize us.dropWhile _ = us'
  intro hrest
  cases hrest with
  | nil => rfl
  | cons htu hs =>
    cases hs with
    | nil => simp only [accessorOf?_like htu]
    | cons hvw _ =>
      simp only [accessorOf?_like htu]
      cases accessorOf? _ with
      | none => rfl
      | some accessor => simp only [hvw.kind]

theorem blind_accessorNamed {t u : Token} (h : t.Like u) : Blind Eq (accessorNamed t) (accessorNamed u) := by
  rw [accessorNamed, accessorNamed, accessorOf?_like h]
  split
  · exact blind_pure rfl
  · exact blind_fail (fault_cause (by rw [h.text]))

theorem blind_accessor : Blind Eq accessor accessor :=
  blind_attributes.bind fun _ _ _ =>
    (blind_skipWhile fun _ _ h => h.isOneOf _).bind fun _ _ _ =>
      (blind_token _).bind fun _ _ h =>
        (blind_accessorNamed h).bind fun _ _ hx =>
          (blind_skippedGroup _ _).bind fun _ _ _ =>
            blind_effects.bind fun _ _ _ => (blind_skippedGroup _ _).bind fun _ _ _ => blind_pure hx

theorem blind_listedAccessors : Blind Eq listedAccessors listedAccessors := by
  refine (blind_untilNext (R := Eq) strict_accessor strict_accessor (fun _ _ h => by rw [h.kind])
    blind_accessor).bind fun x y hx => ?_
  rw [List.forall₂_eq_eq_eq] at hx
  exact (blind_token _).bind fun _ _ _ => blind_pure hx

theorem blind_accessorBlock {t u : Token} (h : t.Like u) : Blind Eq (accessorBlock t) (accessorBlock u) := by
  refine (blind_look fun _ _ h => listsAccessors_alike h).bind fun x y hx => ?_
  subst hx
  split
  · exact blind_listedAccessors
  · exact (blind_group _ h).bind fun _ _ _ => blind_pure rfl

theorem blind_bindingName : Blind Eq bindingName bindingName := by
  refine (blind_optionally (fun _ _ h => by rw [h.kind])
    fun _ _ h => blindInside_group .rightParen h).bind fun x y hx => ?_
  cases hx with
  | none => exact (blind_token _).bind fun _ _ h => blind_pure (by rw [h.text])
  | some hp => exact blind_pure (by rw [phrase_alike hp])

theorem blindTest_isAssignment : BlindTest isAssignment :=
  fun _ _ h => by rw [isAssignment, isAssignment, h.kind, h.text]

theorem blind_binding : Blind Eq binding binding := by
  refine blind_bindingName.bind fun name _ hname => ?_
  subst hname
  refine (blind_optional (fun _ _ h => by rw [h.kind]) fun _ _ _ => (blind_typeText _).inside).bind fun type _ htype => ?_
  subst htype
  refine (blind_optional blindTest_isAssignment fun _ _ _ => blind_expressionText.inside).bind fun value _ hvalue => ?_
  subst hvalue
  refine (blind_optional (fun _ _ h => by rw [h.kind]) fun _ _ h => (blind_accessorBlock h).inside).bind
    fun accessors _ haccessors => ?_
  subst haccessors
  exact blind_pure rfl

theorem blind_byCommas {p : Reader α} (hp : Blind Eq p p) : Blind Eq (byCommas p) (byCommas p) := by
  refine hp.bind fun first _ hfirst => ?_
  subst hfirst
  refine (blind_whileNext (R := Eq) (fun _ _ h => by rw [h.kind]) fun _ _ _ => hp.inside).bind fun others _ hothers => ?_
  rw [List.forall₂_eq_eq_eq] at hothers
  exact blind_pure (by rw [hothers])

/-! ### Functions -/

theorem blind_operatorName : Blind Eq operatorName operatorName := by
  intro ts us hs
  cases hs with
  | nil => exact .error rfl
  | @cons t u ts us htu hs =>
    have hstarts : startsOperator t = startsOperator u := by rw [startsOperator, startsOperator, htu.kind]
    have hlength : (ts.takeWhile continuesOperator).length = (us.takeWhile continuesOperator).length := by
      clear hstarts htu
      induction hs with
      | nil => rfl
      | @cons t u ts us h _ ih =>
        have hc : continuesOperator t = continuesOperator u := by
          rw [continuesOperator, continuesOperator, h.kind, h.attached]
        rw [List.takeWhile_cons, List.takeWhile_cons, hc]
        split
        · rw [List.length_cons, List.length_cons, ih]
        · rfl
    obtain ⟨htaken, hleft⟩ := cut_inside hs List.takeWhile_append_dropWhile List.takeWhile_append_dropWhile hlength
    have htexts : (ts.takeWhile continuesOperator).map Token.text = (us.takeWhile continuesOperator).map Token.text := by
      rw [← List.forall₂_eq_eq_eq, List.forall₂_map_left_iff, List.forall₂_map_right_iff]
      exact htaken.imp fun _ _ h => h.text
    simp only [operatorName, hstarts]
    split
    · exact .ok (by rw [htu.text, htexts]) (.of_forall₂ hleft)
    · exact .error (fault_cause rfl)

theorem blind_functionName : Blind Eq functionName functionName := by
  refine (blind_optionally (R := Token.Like) (fun _ _ h => by rw [h.kind]) fun _ _ h => (blind_pure h).inside).bind
    fun x y hx => ?_
  cases hx with
  | none => exact blind_operatorName.bind fun _ _ h => blind_pure (by rw [h])
  | some h => exact blind_pure (by rw [h.text])

theorem blind_genericClause : Blind Eq genericClause genericClause :=
  blind_optional (fun _ _ h => by rw [h.kind]) fun _ _ h =>
    (blindInside_group _ h).bind fun _ _ hp => blind_pure (phrase_alike hp)

theorem blind_parameter : Blind Eq parameter parameter := by
  refine blind_attributes.bind fun _ _ _ => (blind_token _).bind fun first first' hfirst => ?_
  refine (blind_optionally (R := Token.Like) (fun _ _ h => by rw [h.kind]) fun _ _ h => (blind_pure h).inside).bind
    fun second second' hsecond => (blind_token _).bind fun _ _ _ => ?_
  refine (blind_typeText _).bind fun type _ htype => ?_
  subst htype
  refine (blind_optional blindTest_isAssignment fun _ _ _ => blind_expressionText.inside).bind fun value _ hvalue => ?_
  subst hvalue
  have hname : second.map Token.text = second'.map Token.text := by
    cases hsecond with
    | none => rfl
    | some h => rw [Option.map_some, Option.map_some, h.text]
  exact blind_pure (by rw [hfirst.text, hname])

theorem blind_parameterUnlessClosed : Blind Eq parameterUnlessClosed parameterUnlessClosed := by
  refine (blind_look fun _ _ h => head?_like (fun _ _ h => by rw [h.kind]) h.like).bind fun x y hx => ?_
  subst hx
  split
  · exact blind_pure rfl
  · exact blind_parameter.bind fun _ _ h => blind_pure (by rw [h])

theorem blind_parameterClause : Blind Eq parameterClause parameterClause := by
  refine (blind_token _).bind fun _ _ _ => blind_parameterUnlessClosed.bind fun first _ hfirst => ?_
  subst hfirst
  refine (blind_whileNext (R := Eq) (fun _ _ h => by rw [h.kind]) fun _ _ _ =>
    blind_parameterUnlessClosed.inside).bind fun others _ hothers => ?_
  rw [List.forall₂_eq_eq_eq] at hothers
  subst hothers
  exact (blind_token _).bind fun _ _ _ => blind_pure rfl

theorem blind_functionRequirements : Blind Eq functionRequirements functionRequirements :=
  blind_optional (fun _ _ h => h.isIdentifier _) fun _ _ _ =>
    (blind_skipWhile fun _ _ h => by rw [h.kind]).inside

theorem blind_function : Blind Eq function function := by
  refine blind_functionName.bind fun name _ hname => ?_
  subst hname
  refine blind_genericClause.bind fun generics _ hgenerics => ?_
  subst hgenerics
  refine blind_parameterClause.bind fun parameters _ hparameters => ?_
  subst hparameters
  refine blind_effects.bind fun effects _ heffects => ?_
  subst heffects
  refine (blind_optional (fun _ _ h => by rw [h.kind]) fun _ _ _ => (blind_typeText _).inside).bind fun type _ htype => ?_
  subst htype
  refine blind_functionRequirements.bind fun _ _ _ => ?_
  refine (blind_optionally (fun _ _ h => by rw [h.kind]) fun _ _ h => blindInside_group .rightBrace h).bind
    fun body body' hbody => blind_pure ?_
  cases hbody <;> rfl

/-! ### Types -/

theorem blind_typeName (keyword : TypeKeyword) : Blind Eq (typeName keyword) (typeName keyword) := by
  unfold typeName
  split
  · exact (blind_typeText _).bind fun _ _ h => blind_pure (by rw [h])
  · exact (blind_token _).bind fun _ _ h => blind_genericClause.bind fun _ _ hg => blind_pure (by rw [h.text, hg])

theorem blind_inheritance : Blind Eq inheritance inheritance :=
  (blind_optional (fun _ _ h => by rw [h.kind]) fun _ _ _ => (blind_byCommas (blind_typeText _)).inside).bind
    fun _ _ h => blind_pure (by rw [h])

theorem blind_typeHeader (keyword : TypeKeyword) : Blind Eq (typeHeader keyword) (typeHeader keyword) := by
  refine (blind_typeName keyword).bind fun name _ hname => ?_
  subst hname
  refine blind_inheritance.bind fun inherited _ hinherited => ?_
  subst hinherited
  refine (blind_optional (fun _ _ h => h.isIdentifier _) fun _ _ _ =>
    (blind_skipWhile fun _ _ h => by rw [h.kind]).inside).bind fun _ _ _ => ?_
  exact (blind_token _).bind fun _ _ _ => blind_pure rfl

/-! ### Other declarations -/

theorem blind_next : Blind (Option.Rel Token.Like) (look List.head?) (look List.head?) := by
  intro ts us hs
  cases hs with
  | nil => exact .ok .none .nil
  | cons htu hs => exact .ok (.some htu) (.cons htu hs)

theorem blind_otherName (keyword : String) : Blind Eq (otherName keyword) (otherName keyword) := by
  refine blind_next.bind fun next next' hnext => blind_statement.bind fun _ _ _ => ?_
  cases hnext with
  | none => exact blind_pure rfl
  | some h => exact blind_pure (by rw [h.kind, h.text])

theorem blind_directive {t u : Token} (h : t.Like u) : Blind Eq (directive t) (directive u) := by
  rw [directive, directive, h.text]
  split
  · exact blind_fail (fault_cause rfl)
  · exact (blind_skippedGroup _ _).bind fun _ _ _ => blind_pure rfl

end Reader

end TestHooks.Swift
