import TestHooks.Proofs.Headers
import TestHooks.Proofs.Twins

/-!
# Headers of twins

Every reader of a header succeeds on both of two twins or on neither, and leaves twins again. What is read may differ:
of the values only that is kept which decides how reading goes on (`Even`).
-/

namespace TestHooks.Swift

open TestHooks.Reader

/-! ### Two readings -/

/-- Both readings find values in the relation `R` and leave tokens in the relation `Q`, or both fail. -/
inductive Both {α β : Type} (Q : List Token → List Token → Prop) (R : α → β → Prop) :
    Except Fault (α × List Token) → Except Fault (β × List Token) → Prop
  | ok {x : α} {y : β} {ts us : List Token} (hx : R x y) (hs : Q ts us) : Both Q R (.ok (x, ts)) (.ok (y, us))
  | error {f g : Fault} : Both Q R (.error f) (.error g)

/-- The two lists are twins. -/
abbrev Twins : List Token → List Token → Prop := Twin .outside

/-- Nothing is kept of two values. -/
def Unlooked {α β : Type} (_ : α) (_ : β) : Prop := True

theorem Both.imp {α β : Type} {Q Q' : List Token → List Token → Prop} {R R' : α → β → Prop}
    {r : Except Fault (α × List Token)} {r' : Except Fault (β × List Token)} (h : Both Q R r r')
    (hq : ∀ ts us, Q ts us → Q' ts us) (hr : ∀ x y, R x y → R' x y) : Both Q' R' r r' := by
  cases h with
  | ok hx hs => exact .ok (hr _ _ hx) (hq _ _ hs)
  | error => exact .error

theorem Both.bind {α β γ δ : Type} {Q W : List Token → List Token → Prop} {R : α → β → Prop} {S : γ → δ → Prop}
    {r : Except Fault (α × List Token)} {r' : Except Fault (β × List Token)}
    {f : α × List Token → Except Fault (γ × List Token)} {g : β × List Token → Except Fault (δ × List Token)}
    (h : Both Q R r r') (hf : ∀ x y ts us, r = .ok (x, ts) → R x y → Q ts us → Both W S (f (x, ts)) (g (y, us))) :
    Both W S (r >>= f) (r' >>= g) := by
  cases h with
  | ok hx hs => exact hf _ _ _ _ rfl hx hs
  | error => exact .error

theorem halted_of_twins {halts : Token → Bool} {ts us : List Token} (h : Twins ts us) : Halted halts ts us := .inl h

theorem twins_of_halted {ts us : List Token} (h : Halted (fun _ => false) ts us) : Twins ts us := by
  rcases h with h | ⟨-, hx⟩
  · exact h
  · cases ts <;> cases hx

/-- The name that stands first where reading stopped before the name of a member. -/
theorem dotted_cases {ts us : List Token} (h : Twin .dotted ts us) :
    ∃ t u ts' us', ts = t :: ts' ∧ us = u :: us' ∧ t.Resembles u ∧ t.kind = .identifier ∧ Twin .named ts' us' := by
  cases h with
  | name h hk _ hs => exact ⟨_, _, _, _, rfl, rfl, h, hk, hs⟩

/-- Behind the dot of a call reading stops before any name. -/
theorem Twin.behind_dot {ts us : List Token} (h : Twin .dotted ts us) :
    Halted (fun _ => true) (ts.dropWhile Reader.continuesOperator) (us.dropWhile Reader.continuesOperator) := by
  obtain ⟨t, u, ts', us', rfl, rfl, htu, hk, -⟩ := dotted_cases h
  have hstops {t : Token} (hk : t.kind = .identifier) : ¬Reader.continuesOperator t = true := by
    simp [Reader.continuesOperator, hk]
  rw [List.dropWhile_cons_of_neg (hstops hk), List.dropWhile_cons_of_neg (hstops (htu.kind ▸ hk))]
  exact .inr ⟨h, rfl⟩

namespace Reader

variable {α β γ δ : Type}

/-- On lists in the relation `P` both readers succeed or both fail, with values and rests in the relations given. -/
def Even (P Q : List Token → List Token → Prop) (R : α → β → Prop) (p : Reader α) (q : Reader β) : Prop :=
  ∀ ⦃ts us : List Token⦄, P ts us → Both Q R (p.run ts) (q.run us)

section Combinators

variable {P P' Q Q' W : List Token → List Token → Prop} {R R' : α → β → Prop} {S : γ → δ → Prop} {test : Token → Bool}
  {halts : Token → Bool}

theorem Even.imp {p : Reader α} {q : Reader β} (h : Even P Q R p q) (hp : ∀ ts us, P' ts us → P ts us)
    (hq : ∀ ts us, Q ts us → Q' ts us) (hr : ∀ x y, R x y → R' x y) : Even P' Q' R' p q :=
  fun _ _ hs => (h (hp _ _ hs)).imp hq hr

theorem Even.unlooked {p : Reader α} {q : Reader β} (h : Even P Q R p q) : Even P Q Unlooked p q :=
  h.imp (fun _ _ h => h) (fun _ _ h => h) fun _ _ _ => trivial

/-- Readers on twins that halt where they please. -/
theorem Even.halted {p : Reader α} {q : Reader β} (h : Even P Twins R p q) : Even P (Halted halts) R p q :=
  h.imp (fun _ _ h => h) (fun _ _ h => .inl h) fun _ _ h => h

theorem even_pure {x : α} {y : β} (h : R x y) : Even P P R (pure x) (pure y) := fun _ _ hs => .ok h hs

theorem even_fail (f g : Fault) : Even P Q R (fail f) (fail g) := fun _ _ _ => .error

theorem Even.bind {p : Reader α} {q : Reader β} {f : α → Reader γ} {g : β → Reader δ} (h : Even P Q R p q)
    (hf : ∀ x y, R x y → Even Q W S (f x) (g y)) : Even P W S (p >>= f) (q >>= g) := by
  intro ts us hs
  rw [run_bind_eq, run_bind_eq]
  exact (h hs).bind fun x y _ _ _ hx hl => hf x y hx hl

/-- A test that neither a dot satisfies nor a name that reading halts at. -/
structure Guards (halts test : Token → Bool) : Prop where
  sees : Sees test
  dot : ∀ t : Token, t.kind = .dot → test t = false
  name : ∀ t : Token, t.kind = .identifier → halts t = true → test t = false

theorem guards_kind {kind : TokenKind} (hd : kind ≠ .dot) (hi : kind ≠ .identifier) :
    Guards halts (·.kind == kind) where
  sees := sees_kind kind
  dot t h := by simp [h, hd.symm]
  name t h _ := by simp [h, hi.symm]

/-- Where reading halts nowhere, names may satisfy the test. -/
theorem guards_plain (hs : Sees test) (hd : ∀ t : Token, t.kind = .dot → test t = false) :
    Guards (fun _ => false) test where
  sees := hs
  dot := hd
  name _ _ h := absurd h Bool.false_ne_true

theorem Guards.head {ts us : List Token} (hg : Guards halts test) (h : Halted halts ts us) :
    (∃ t u ts' us', ts = t :: ts' ∧ us = u :: us' ∧ t.Resembles u ∧ test t = true ∧ test u = true ∧ Twins ts' us') ∨
      ts.head?.any test = false ∧ us.head?.any test = false := by
  rcases h with h | ⟨h, hhalts⟩
  · cases ts with
    | nil =>
      cases h
      exact .inr ⟨rfl, rfl⟩
    | cons t ts =>
      obtain ⟨u, vs, rfl, htu, hs⟩ := h.cons_cases
      cases ht : test t with
      | false => exact .inr ⟨ht, (hg.sees htu).symm.trans ht⟩
      | true =>
        rcases hs with hs | ⟨hk, -⟩
        · exact .inl ⟨t, u, ts, vs, rfl, rfl, htu, ht, hg.sees htu ▸ ht, hs⟩
        · rw [hg.dot t hk] at ht
          cases ht
  · obtain ⟨t, u, ts', us', rfl, rfl, htu, hk, -⟩ := dotted_cases h
    have ht := hg.name t hk hhalts
    exact .inr ⟨ht, (hg.sees htu).symm.trans ht⟩

theorem whileNextRun_skip {p : Token → Reader α} {ts : List Token} (h : ts.head?.any test = false) :
    whileNextRun test p ts = .ok ([], ts) := by
  cases ts with
  | nil => rw [whileNextRun]
  | cons t ts =>
    rw [List.head?_cons, Option.any_some] at h
    rw [whileNextRun_cons, if_neg (by rw [h]; exact Bool.false_ne_true)]

theorem even_optionally {p : Token → Reader α} {q : Token → Reader β} (hg : Guards halts test)
    (h : ∀ t u, t.Resembles u → test t = true → Even Twins (Halted halts) R (p t) (q u)) :
    Even (Halted halts) (Halted halts) (Option.Rel R) (optionally test p) (optionally test q) := by
  intro ts us hs
  rcases hg.head hs with ⟨t, u, ts', us', rfl, rfl, htu, ht, hu, hrest⟩ | ⟨ht, hu⟩
  · rw [optionally_cons, optionally_cons, if_pos ht, if_pos hu]
    exact (h t u htu ht hrest).bind fun x y _ _ _ hx hl => .ok (.some hx) hl
  · rw [optionally_skip ht, optionally_skip hu]
    exact .ok .none hs

theorem even_whileNext {p : Token → Reader α} {q : Token → Reader β} (hg : Guards halts test)
    (h : ∀ t u, t.Resembles u → test t = true → Even Twins (Halted halts) R (p t) (q u)) :
    Even (Halted halts) (Halted halts) (List.Forall₂ R) (whileNext test p) (whileNext test q) := by
  intro ts us hs
  change Both _ _ (whileNextRun test p ts) (whileNextRun test q us)
  induction hn : ts.length using Nat.strongRecOn generalizing ts us with
  | ind n ih =>
    rcases hg.head hs with ⟨t, u, ts', us', rfl, rfl, htu, ht, hu, hrest⟩ | ⟨ht, hu⟩
    · rw [whileNextRun_cons, whileNextRun_cons, if_pos ht, if_pos hu]
      refine (h t u htu ht hrest).bind fun x y left left' hr hx hl => ?_
      have hlt := (p t).length_le hr
      rw [List.length_cons] at hn
      exact (ih left.length (by omega) hl rfl).bind fun xs ys _ _ _ hxs hrest => .ok (.cons hx hxs) hrest
    · rw [whileNextRun_skip ht, whileNextRun_skip hu]
      exact .ok .nil hs

/-! The same where reading halts nowhere. -/

theorem even_option {p : Token → Reader α} {q : Token → Reader β} (hs : Sees test)
    (hd : ∀ t : Token, t.kind = .dot → test t = false)
    (h : ∀ t u, t.Resembles u → test t = true → Even Twins Twins R (p t) (q u)) :
    Even Twins Twins (Option.Rel R) (optionally test p) (optionally test q) :=
  (even_optionally (guards_plain hs hd) fun t u htu ht => (h t u htu ht).halted).imp (fun _ _ => halted_of_twins)
    (fun _ _ => twins_of_halted) fun _ _ h => h

theorem even_loop {p : Token → Reader α} {q : Token → Reader β} (hs : Sees test)
    (hd : ∀ t : Token, t.kind = .dot → test t = false)
    (h : ∀ t u, t.Resembles u → test t = true → Even Twins Twins R (p t) (q u)) :
    Even Twins Twins (List.Forall₂ R) (whileNext test p) (whileNext test q) :=
  (even_whileNext (guards_plain hs hd) fun t u htu ht => (h t u htu ht).halted).imp (fun _ _ => halted_of_twins)
    (fun _ _ => twins_of_halted) fun _ _ h => h

theorem even_untilNext {p : Reader α} {q : Reader β} (hp : Strict p) (hq : Strict q) (ht : Sees test)
    (h : Even Twins Twins R p q) : Even Twins Twins (List.Forall₂ R) (untilNext test p hp) (untilNext test q hq) := by
  intro ts us hs
  change Both _ _ (untilNextRun test p hp ts) (untilNextRun test q hq us)
  induction hn : ts.length using Nat.strongRecOn generalizing ts us with
  | ind n ih =>
    rw [untilNextRun_eq, untilNextRun_eq, hs.head ht]
    split
    · exact .ok .nil hs
    · refine (h hs).bind fun x y left left' hr hx hl => ?_
      have hlt := hp hr
      exact (ih left.length (by omega) hl rfl).bind fun xs ys _ _ _ hxs hrest => .ok (.cons hx hxs) hrest

end Combinators

/-! ### Phrases -/

theorem even_token {kind : TokenKind} (hd : kind ≠ .dot) :
    Even Twins Twins Token.Resembles (token kind) (token kind) := by
  intro ts us hs
  cases ts with
  | nil =>
    cases hs
    exact .error
  | cons t ts =>
    obtain ⟨u, vs, rfl, htu, hrest⟩ := hs.cons_cases
    simp only [token, ← htu.kind]
    split
    · next hk =>
      rcases hrest with hrest | ⟨hdot, -⟩
      · exact .ok htu hrest
      · exact absurd (hk.symm.trans hdot) hd
    · exact .error

theorem even_look {f : List Token → α} (h : ∀ ⦃ts us⦄, Twins ts us → f ts = f us) :
    Even Twins Twins Eq (look f) (look f) :=
  fun _ _ hs => .ok (h hs) hs

theorem even_group {closer : TokenKind} {t u : Token} (h : t.Resembles u) (hb : (t.kind, closer) ∈ groupBrackets) :
    Even Twins Twins Unlooked (group closer t) (group closer u) := by
  intro ts us hs
  have hsplit := hs.splitGroup hb 0 (by simp)
  simp only [group, ← h.kind]
  revert hsplit
  cases splitGroup t.kind closer 0 ts <;> cases splitGroup t.kind closer 0 us <;> intro hsplit <;> cases hsplit
  · exact .error
  · next hl => exact .ok trivial hl

/-- A group that may be there and is not looked at. -/
theorem even_skippedGroup {opener closer : TokenKind} (hb : (opener, closer) ∈ groupBrackets) :
    Even Twins Twins (Option.Rel Unlooked) (optionally (·.kind == opener) (group closer))
      (optionally (·.kind == opener) (group closer)) := by
  have hd : ∀ b ∈ groupBrackets, b.1 ≠ TokenKind.dot := by decide
  refine even_option (sees_kind _) (fun t ht => ?_) fun t u htu ht => even_group htu ?_
  · exact beq_eq_false_iff_ne.2 fun hk => hd _ hb (hk.symm.trans ht)
  · rwa [beq_iff_eq.1 ht]

theorem even_phraseBy {split : List Token → List Token × List Token} {halts : Token → Bool}
    (happend : ∀ ts, (split ts).1 ++ (split ts).2 = ts) (missing : Cause)
    (hn : ∀ ⦃ts us⦄, Twins ts us → ((split ts).1 = [] ↔ (split us).1 = []))
    (hl : ∀ ⦃ts us⦄, Twins ts us → Halted halts (split ts).2 (split us).2) :
    Even Twins (Halted halts) Unlooked (phraseBy split happend missing) (phraseBy split happend missing) := by
  intro ts us hs
  have hnil := hn hs
  have hleft := hl hs
  simp only [phraseBy]
  revert hnil hleft
  generalize split ts = p
  generalize split us = q
  obtain ⟨taken, left⟩ := p
  obtain ⟨taken', left'⟩ := q
  intro hnil hleft
  cases taken with
  | nil =>
    obtain rfl : taken' = [] := hnil.1 rfl
    cases left <;> cases left' <;> exact .error
  | cons t taken =>
    cases taken' with
    | nil => cases hnil.2 rfl
    | cons u taken' => exact .ok trivial hleft

theorem even_typeText (stops : List String) :
    Even Twins (Halted (·.isOneOf stops)) Unlooked (typeText stops) (typeText stops) :=
  even_phraseBy _ _ (fun _ _ h => h.splitType_nil) fun _ _ h => h.splitType 0 (fun _ => .none) (by simp)

/-- A type that stops at no word leaves twins. -/
theorem even_plainType : Even Twins Twins Unlooked (typeText []) (typeText []) := by
  refine (even_typeText []).imp (fun _ _ h => h) (fun ts us h => ?_) fun _ _ h => h
  rcases h with h | ⟨-, hx⟩
  · exact h
  · have hnone : (fun t : Token => t.isOneOf []) = fun _ => false := by
      funext t
      simp [Token.isOneOf]
    rw [hnone] at hx
    cases ts <;> cases hx

theorem even_expressionText : Even Twins Twins Unlooked expressionText expressionText := by
  have h : Even Twins (Halted fun _ => false) Unlooked expressionText expressionText :=
    even_phraseBy _ _ (fun _ _ h => h.splitExpression_nil) fun _ _ h => .inl (h.splitExpression 0 (fun _ => rfl) (by simp))
  exact h.imp (fun _ _ h => h) (fun _ _ => twins_of_halted) fun _ _ h => h

theorem even_statement : Even Twins Twins Unlooked statement statement :=
  fun _ _ hs => .ok trivial (hs.afterStatement 0 fun _ => rfl)

theorem even_condition (t u : Token) : Even Twins Twins Unlooked (condition t) (condition u) := by
  intro ts us hs
  have htest : Sees (!·.newlineBefore) := fun _ _ h => congrArg not h.newline
  have hline : ∀ t : Token, t.newlineBefore = false →
      t.kind ∈ [TokenKind.identifier, .leftParen, .rightParen, .colon, .comma, .operator] →
      (!t.newlineBefore) = true := fun t hn _ => by simp [hn]
  cases ts with
  | nil =>
    cases hs
    exact .error
  | cons v ts =>
    obtain ⟨w, ws, rfl, hvw, hrest⟩ := hs.cons_cases
    simp only [condition, ← hvw.newline]
    split
    · exact .error
    · rcases hrest with hrest | ⟨-, hrest⟩
      · exact .ok trivial (hrest.dropWhile htest hline)
      · exact .ok trivial (hrest.dropWhile htest hline)

/-! ### Attributes and modifiers -/

theorem even_attributeAfter {t u : Token} : Even Twins Twins Unlooked (attributeAfter t) (attributeAfter u) := by
  refine (even_option (R := Unlooked) (fun _ _ h => by simp only [h.kind, h.attached]) (fun t ht => by simp [ht])
    fun t u htu ht => even_group htu ?_).bind fun _ _ _ => even_pure trivial
  simp only [Bool.and_eq_true, beq_iff_eq] at ht
  rw [ht.1]
  decide

/-- One list of values is empty if the other is. -/
def SameEmptiness {α β : Type} (xs : List α) (ys : List β) : Prop := xs.isEmpty = ys.isEmpty

theorem sameEmptiness_of_forall₂ {R : α → β → Prop} {xs : List α} {ys : List β} (h : List.Forall₂ R xs ys) :
    SameEmptiness xs ys := by
  cases h <;> rfl

theorem even_attributes : Even Twins Twins SameEmptiness attributes attributes :=
  (even_loop (R := Unlooked) (sees_kind _) (fun t ht => by simp [ht]) fun _ _ _ _ => even_attributeAfter).imp
    (fun _ _ h => h) (fun _ _ h => h) fun _ _ => sameEmptiness_of_forall₂

theorem isSome_modifierDetail? {ts : List Token} : (modifierDetail? ts).isSome = true ↔ ∃ a b c rest,
    ts = a :: b :: c :: rest ∧ a.kind = .leftParen ∧ b.kind = .identifier ∧ c.kind = .rightParen := by
  constructor
  · intro h
    unfold modifierDetail? at h
    split at h
    · next a b c rest =>
      split at h
      · next hk => exact ⟨a, b, c, rest, rfl, by simpa [and_assoc] using hk⟩
      · cases h
    · cases h
  · rintro ⟨a, b, c, rest, rfl, ha, hb, hc⟩
    simp [modifierDetail?, ha, hb, hc]

/-- The tokens of a detail are none of a call. -/
theorem twins_behindDetail {ts us : List Token} (h : Twins ts us) (hd : (modifierDetail? ts).isSome = true) :
    (modifierDetail? us).isSome = true ∧ Twins (ts.drop 3) (us.drop 3) := by
  obtain ⟨a, b, c, rest, rfl, ha, hb, hc⟩ := isSome_modifierDetail?.1 hd
  obtain ⟨a', us, rfl, -⟩ := h.cons_cases
  obtain ⟨haa, h⟩ := h.tail (by simp [ha])
  obtain ⟨b', us, rfl, -⟩ := h.cons_cases
  obtain ⟨hbb, h⟩ := h.tail (by simp [hb])
  obtain ⟨c', us, rfl, -⟩ := h.cons_cases
  obtain ⟨hcc, h⟩ := h.tail (by simp [hc])
  exact ⟨isSome_modifierDetail?.2 ⟨a', b', c', us, rfl, haa.kind ▸ ha, hbb.kind ▸ hb, hcc.kind ▸ hc⟩, h⟩

theorem modifierDetail?_twins {ts us : List Token} (h : Twins ts us) :
    (modifierDetail? ts).isSome = (modifierDetail? us).isSome := by
  rw [Bool.eq_iff_iff]
  exact ⟨fun hd => (twins_behindDetail h hd).1, fun hd => (twins_behindDetail h.symm hd).1⟩

theorem modifiesMember_twins {ts us : List Token} (h : Twins ts us) : modifiesMember ts = modifiesMember us := by
  have hhead (ts : List Token) : modifiesMember ts =
      ts.head?.any fun t => t.isOneOf modifierWords || t.isOneOf ["var", "let", "func", "subscript"] := by
    cases ts <;> rfl
  rw [hhead, hhead]
  exact h.head fun _ _ h => by simp only [h.isOneOf]

theorem splitModifiers_twins {ts us : List Token} (h : Twins ts us) :
    SameEmptiness (splitModifiers ts).1 (splitModifiers us).1 ∧ Twins (splitModifiers ts).2 (splitModifiers us).2 := by
  induction hn : ts.length using Nat.strongRecOn generalizing ts us with
  | ind n ih =>
    cases ts with
    | nil =>
      cases h
      rw [splitModifiers]
      exact ⟨rfl, .nil⟩
    | cons t ts =>
      obtain ⟨u, us, rfl, htu, -⟩ := h.cons_cases
      rw [splitModifiers, splitModifiers, ← htu.isOneOf, ← htu.text]
      by_cases hm : t.isOneOf modifierWords = true
      · have hdot : t.kind ≠ .dot := fun hk => by
          rw [isOneOf_of_ne (by simp [hk])] at hm
          cases hm
        obtain ⟨-, hs⟩ := h.tail hdot
        rw [← modifiesMember_twins hs]
        split
        · have hrest : Twins (ts.drop (if (modifierDetail? ts).isSome then 3 else 0))
              (us.drop (if (modifierDetail? us).isSome then 3 else 0)) := by
            rw [← modifierDetail?_twins hs]
            split
            · next hd => exact (twins_behindDetail hs hd).2
            · exact hs
          exact ⟨rfl, (ih _ (by rw [← hn, List.length_cons, List.length_drop]; omega) hrest rfl).2⟩
        · exact ⟨rfl, h⟩
      · rw [if_neg (by simp [hm]), if_neg (by simp [hm])]
        exact ⟨rfl, h⟩

theorem even_modifiers : Even Twins Twins SameEmptiness modifiers modifiers :=
  fun _ _ hs => .ok (splitModifiers_twins hs).1 (splitModifiers_twins hs).2

/-! ### Variables -/

theorem even_skipWhile {test : Token → Bool} (ht : Sees test) (hd : ∀ t : Token, t.kind = .dot → test t = false) :
    Even Twins Twins Unlooked (skipWhile test) (skipWhile test) :=
  fun _ _ hs => .ok trivial (hs.dropWhile_before ht hd)

theorem even_effects : Even Twins Twins Unlooked effects effects := by
  refine (even_loop (R := Unlooked) (fun _ _ h => by rw [effectOf?_like h.toLike]) (fun t ht => ?_) fun t u _ _ =>
    (even_skippedGroup (by decide)).bind fun _ _ _ => even_pure trivial).bind fun _ _ _ => even_pure trivial
  simp [effectOf?, ht]

theorem even_accessorNamed {t u : Token} (h : t.Resembles u) :
    Even Twins Twins Unlooked (accessorNamed t) (accessorNamed u) := by
  rw [accessorNamed, accessorNamed, accessorOf?_like h.toLike]
  split
  · exact even_pure trivial
  · exact even_fail _ _

theorem even_accessor : Even Twins Twins Unlooked accessor accessor :=
  even_attributes.bind fun _ _ _ =>
    (even_skipWhile (fun _ _ h => h.isOneOf _) fun _ ht => isOneOf_of_ne (by simp [ht]) _).bind fun _ _ _ =>
      (even_token (by decide)).bind fun _ _ h =>
        (even_accessorNamed h).bind fun _ _ _ =>
          (even_skippedGroup (by decide)).bind fun _ _ _ =>
            even_effects.bind fun _ _ _ =>
              (even_skippedGroup (by decide)).bind fun _ _ _ => even_pure trivial

theorem even_listedAccessors : Even Twins Twins Unlooked listedAccessors listedAccessors :=
  (even_untilNext strict_accessor strict_accessor (sees_kind _) even_accessor).bind fun _ _ _ =>
    (even_token (by decide)).bind fun _ _ _ => even_pure trivial

theorem listsAccessors_twins {ts us : List Token} (h : Twins ts us) : listsAccessors ts = listsAccessors us := by
  have htest : Sees fun t => t.kind == .atWord || t.isOneOf accessorPrefixes :=
    fun _ _ h => by simp only [h.kind, h.isOneOf]
  have hrest := h.dropWhile_before htest fun t ht => by simp [ht, isOneOf_of_ne]
  unfold listsAccessors
  revert hrest
  generalize ts.dropWhile _ = ts'
  generalize us.dropWhile _ = us'
  intro hrest
  cases ts' with
  | nil =>
    cases hrest
    rfl
  | cons t ts' =>
    obtain ⟨u, us', rfl, htu, -⟩ := hrest.cons_cases
    dsimp only
    rw [← accessorOf?_like htu.toLike]
    cases ha : accessorOf? t with
    | none => rfl
    | some accessor =>
      have hdot : t.kind ≠ .dot := fun hk => by simp [accessorOf?, hk] at ha
      obtain ⟨-, hs⟩ := hrest.tail hdot
      cases ts' with
      | nil =>
        cases hs
        rfl
      | cons v _ =>
        obtain ⟨w, _, rfl, hvw, -⟩ := hs.cons_cases
        simp only [hvw.kind]

theorem even_accessorBlock {t u : Token} (h : t.Resembles u) (hk : t.kind = .leftBrace) :
    Even Twins Twins Unlooked (accessorBlock t) (accessorBlock u) := by
  refine (even_look fun _ _ h => listsAccessors_twins h).bind fun x y hx => ?_
  subst hx
  split
  · exact even_listedAccessors
  · exact (even_group h (by rw [hk]; decide)).bind fun _ _ _ => even_pure trivial

theorem even_bindingName : Even Twins Twins Unlooked bindingName bindingName := by
  refine (even_skippedGroup (by decide)).bind fun x y hx => ?_
  cases hx with
  | none => exact (even_token (by decide)).bind fun _ _ _ => even_pure trivial
  | some _ => exact even_pure trivial

theorem sees_isAssignment : Sees isAssignment := sees_of_blind blindTest_isAssignment

theorem isAssignment_of_dot (t : Token) (h : t.kind = .dot) : isAssignment t = false := by simp [isAssignment, h]

theorem even_binding : Even Twins Twins Unlooked binding binding :=
  even_bindingName.bind fun _ _ _ =>
    (even_option (sees_kind _) (fun t ht => by simp [ht]) fun _ _ _ _ => even_plainType).bind fun _ _ _ =>
      (even_option sees_isAssignment isAssignment_of_dot fun _ _ _ _ => even_expressionText).bind fun _ _ _ =>
        (even_option (sees_kind _) (fun t ht => by simp [ht]) fun _ _ h ht =>
          even_accessorBlock h (beq_iff_eq.1 ht)).bind fun _ _ _ => even_pure trivial

/-- Things between commas, where reading may stop in front of the name of a member. -/
theorem even_byCommas {halts : Token → Bool} {p : Reader α} {q : Reader β}
    (h : Even Twins (Halted halts) Unlooked p q) :
    Even Twins (Halted halts) Unlooked (byCommas p) (byCommas q) :=
  h.bind fun _ _ _ => (even_whileNext (guards_kind (by decide) (by decide)) fun _ _ _ _ => h).bind fun _ _ _ =>
    even_pure trivial

theorem even_bindings : Even Twins Twins Unlooked (byCommas binding) (byCommas binding) :=
  (even_byCommas even_binding.halted).imp (fun _ _ h => h) (fun _ _ => twins_of_halted) fun _ _ h => h

/-! ### Functions -/

/-- What belongs to the name of an operator ends in front of the name of a member or outside of calls. -/
theorem halted_behindOperator {ts us : List Token} (h : Twins ts us) :
    Halted (fun _ => true) (ts.dropWhile continuesOperator) (us.dropWhile continuesOperator) := by
  have hsees : Sees continuesOperator := fun _ _ h => by simp only [continuesOperator, h.kind, h.attached]
  induction ts generalizing us with
  | nil =>
    cases h
    exact .inl .nil
  | cons t ts ih =>
    obtain ⟨u, us, rfl, htu, hs⟩ := h.cons_cases
    rw [List.dropWhile_cons, List.dropWhile_cons, ← hsees htu]
    split
    · rcases hs with hs | ⟨-, hs⟩
      · exact ih hs
      · exact hs.behind_dot
    · exact .inl h

theorem even_operatorName : Even Twins (Halted fun _ => true) Unlooked operatorName operatorName := by
  intro ts us hs
  cases ts with
  | nil =>
    cases hs
    exact .error
  | cons t ts =>
    obtain ⟨u, us, rfl, htu, hrest⟩ := hs.cons_cases
    have hstarts : startsOperator u = startsOperator t := by rw [startsOperator, startsOperator, htu.kind]
    simp only [operatorName, hstarts]
    split
    · rcases hrest with hrest | ⟨-, hrest⟩
      · exact .ok trivial (halted_behindOperator hrest)
      · exact .ok trivial hrest.behind_dot
    · exact .error

theorem even_functionName : Even Twins (Halted fun _ => true) Unlooked functionName functionName := by
  refine (even_option (R := Unlooked) (sees_kind _) (fun t ht => by simp [ht]) fun _ _ _ _ => even_pure trivial).bind
    fun x y hx => ?_
  cases hx with
  | none => exact even_operatorName.bind fun _ _ _ => even_pure trivial
  | some _ => exact (even_pure trivial).halted

theorem even_genericClause {halts : Token → Bool} :
    Even (Halted halts) (Halted halts) Unlooked genericClause genericClause :=
  (even_optionally (R := Unlooked) (guards_kind (by decide) (by decide)) fun _ _ h ht =>
    ((even_group h (by rw [beq_iff_eq.1 ht]; decide)).bind fun _ _ _ => even_pure trivial).halted).unlooked

/-- Where reading stopped before the name of a member, no other token comes next. -/
theorem even_tokenBehind {kind : TokenKind} {halts : Token → Bool} (hd : kind ≠ .dot) (hi : kind ≠ .identifier) :
    Even (Halted halts) Twins Token.Resembles (token kind) (token kind) := by
  intro ts us hs
  rcases hs with hs | ⟨hs, -⟩
  · exact even_token hd hs
  · obtain ⟨t, u, ts', us', rfl, rfl, htu, hk, -⟩ := dotted_cases hs
    have hne : t.kind ≠ kind := hk ▸ hi.symm
    simp only [token, ← htu.kind, if_neg hne]
    exact .error

theorem even_parameter : Even Twins Twins Unlooked parameter parameter :=
  even_attributes.bind fun _ _ _ => (even_token (by decide)).bind fun _ _ _ =>
    (even_option (R := Unlooked) (sees_kind _) (fun t ht => by simp [ht]) fun _ _ _ _ => even_pure trivial).bind
      fun _ _ _ => (even_token (by decide)).bind fun _ _ _ => even_plainType.bind fun _ _ _ =>
        (even_option sees_isAssignment isAssignment_of_dot fun _ _ _ _ => even_expressionText).bind fun _ _ _ =>
          even_pure trivial

theorem even_parameterUnlessClosed : Even Twins Twins Unlooked parameterUnlessClosed parameterUnlessClosed := by
  refine (even_look fun _ _ h => h.head (sees_kind _)).bind fun x y hx => ?_
  subst hx
  split
  · exact even_pure trivial
  · exact even_parameter.bind fun _ _ _ => even_pure trivial

theorem even_parameterClause : Even (Halted fun _ => true) Twins Unlooked parameterClause parameterClause :=
  (even_tokenBehind (by decide) (by decide)).bind fun _ _ _ => even_parameterUnlessClosed.bind fun _ _ _ =>
    (even_loop (sees_kind _) (fun t ht => by simp [ht]) fun _ _ _ _ => even_parameterUnlessClosed).bind fun _ _ _ =>
      (even_token (by decide)).bind fun _ _ _ => even_pure trivial

/-- The words that end a type in a header: only `where`. -/
abbrev HaltedAtWhere : List Token → List Token → Prop := Halted (·.isOneOf ["where"])

/-- Requirements are skipped to the same place, even if their first word names a member. -/
theorem even_requirements {test : Token → Bool} (ht : Sees test)
    (hp : ∀ t : Token, t.newlineBefore = false →
      t.kind ∈ [TokenKind.identifier, .leftParen, .rightParen, .colon, .comma, .operator] → test t = true) :
    Even HaltedAtWhere Twins Unlooked (optionally (·.isIdentifier "where") fun _ => skipWhile test)
      (optionally (·.isIdentifier "where") fun _ => skipWhile test) := by
  intro ts us hs
  rcases hs with hs | ⟨hs, hw⟩
  · exact (even_option (R := Unlooked) (fun _ _ h => h.isIdentifier _) (fun t ht => by simp [Token.isIdentifier, ht])
      fun _ _ _ _ _ _ hs => .ok trivial (hs.dropWhile ht hp)).unlooked hs
  · obtain ⟨t, u, ts', us', rfl, rfl, htu, -, hs⟩ := dotted_cases hs
    have hword : t.isIdentifier "where" = true := by
      simpa [Token.isOneOf, Token.isIdentifier] using hw
    rw [optionally_cons, optionally_cons, if_pos hword, if_pos (htu.isIdentifier _ ▸ hword)]
    exact .ok trivial (hs.dropWhile ht hp)

theorem even_functionRequirements : Even HaltedAtWhere Twins Unlooked functionRequirements functionRequirements := by
  refine even_requirements (fun _ _ h => by rw [h.kind]) fun t _ hk => ?_
  simp only [List.mem_cons, List.not_mem_nil, or_false] at hk
  rcases hk with hk | hk | hk | hk | hk | hk <;> simp [hk]

theorem even_function : Even Twins Twins Unlooked function function :=
  even_functionName.bind fun _ _ _ => even_genericClause.bind fun _ _ _ =>
    even_parameterClause.bind fun _ _ _ => even_effects.halted.bind fun _ _ _ =>
      (even_optionally (guards_kind (by decide) (by decide)) fun _ _ _ _ => even_typeText ["where"]).bind fun _ _ _ =>
        even_functionRequirements.bind fun _ _ _ => (even_skippedGroup (by decide)).bind fun _ _ _ => even_pure trivial

/-! ### Types -/

theorem even_typeName (keyword : TypeKeyword) :
    Even Twins HaltedAtWhere Unlooked (typeName keyword) (typeName keyword) := by
  unfold typeName
  split
  · exact (even_typeText _).bind fun _ _ _ => even_pure trivial
  · exact (even_token (by decide)).halted.bind fun _ _ _ => even_genericClause.bind fun _ _ _ => even_pure trivial

theorem even_inheritance : Even HaltedAtWhere HaltedAtWhere Unlooked inheritance inheritance :=
  (even_optionally (guards_kind (by decide) (by decide)) fun _ _ _ _ => even_byCommas (even_typeText ["where"])).bind
    fun _ _ _ => even_pure trivial

theorem even_typeHeader (keyword : TypeKeyword) :
    Even Twins Twins (fun x y => x.keyword = y.keyword) (typeHeader keyword) (typeHeader keyword) := by
  refine (even_typeName keyword).bind fun _ _ _ => even_inheritance.bind fun _ _ _ =>
    (even_requirements (fun _ _ h => by rw [h.kind]) fun t _ hk => ?_).bind fun _ _ _ =>
      (even_token (by decide)).bind fun _ _ _ => even_pure rfl
  simp only [List.mem_cons, List.not_mem_nil, or_false] at hk
  rcases hk with hk | hk | hk | hk | hk | hk <;> simp [hk]

/-! ### Other declarations -/

theorem even_otherName (keyword : String) : Even Twins Twins Unlooked (otherName keyword) (otherName keyword) := by
  have hnext : Even Twins Twins Unlooked (look List.head?) (look List.head?) := fun _ _ hs => .ok trivial hs
  refine hnext.bind fun x y _ => even_statement.bind fun _ _ _ => ?_
  cases x <;> cases y <;> exact even_pure trivial

theorem even_directive {t u : Token} (h : t.Resembles u) : Even Twins Twins Unlooked (directive t) (directive u) := by
  rw [directive, directive, h.text]
  split
  · exact even_fail _ _
  · exact (even_skippedGroup (by decide)).bind fun _ _ _ => even_pure trivial

end Reader

end TestHooks.Swift
