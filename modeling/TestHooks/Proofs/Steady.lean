import TestHooks.Proofs.BlindHeaders

/-!
# Readers look one token ahead

What a reader finds depends on the tokens that it takes and on the one that comes next. So it finds the same if
everything from the next token on is exchanged, as long as that token stays the same, or an attribute gives way to what
else may begin a type, or a word to the end of the file (`Steady`). Where a reader looks further, or stops at attributes
only, the reader behind it says what can follow.
-/

namespace TestHooks.Reader

/-! ### Rounds of a loop -/

variable {τ ε α : Type} {test : τ → Bool} {ts rest : List τ} {xs : List α}

theorem whileNext_cases {p : τ → Reader τ ε α} (h : (whileNext test p).run ts = .ok (xs, rest)) :
    (ts.head?.any test = false ∧ xs = [] ∧ rest = ts) ∨
      ∃ t more x after ys, ts = t :: more ∧ test t = true ∧ (p t).run more = .ok (x, after) ∧
        (whileNext test p).run after = .ok (ys, rest) ∧ xs = x :: ys := by
  change whileNextRun test p ts = .ok (xs, rest) at h
  fun_cases whileNextRun test p ts with
  | case1 =>
    rw [whileNextRun] at h
    cases h
    exact .inl ⟨rfl, rfl, rfl⟩
  | case2 t more ht x after hx ys left hw =>
    rw [whileNextRun_cons, if_pos ht, hx] at h
    change whileNextRun test p after >>= _ = _ at h
    rw [hw] at h
    cases h
    exact .inr ⟨t, more, x, after, ys, rfl, ht, hx, hw, rfl⟩
  | case3 t more ht x after hx fault hw =>
    rw [whileNextRun_cons, if_pos ht, hx] at h
    change whileNextRun test p after >>= _ = _ at h
    rw [hw] at h
    cases h
  | case4 t more ht fault hx =>
    rw [whileNextRun_cons, if_pos ht, hx] at h
    cases h
  | case5 t more ht =>
    rw [whileNextRun_cons, if_neg ht] at h
    cases h
    exact .inl ⟨by simpa using ht, rfl, rfl⟩

theorem whileNext_take {p : τ → Reader τ ε α} {t : τ} {more after : List τ} {x : α} (ht : test t = true)
    (hx : (p t).run more = .ok (x, after)) (hw : (whileNext test p).run after = .ok (xs, rest)) :
    (whileNext test p).run (t :: more) = .ok (x :: xs, rest) := by
  change whileNextRun test p after = _ at hw
  change whileNextRun test p (t :: more) = _
  rw [whileNextRun_cons, if_pos ht, hx]
  change whileNextRun test p after >>= _ = _
  rw [hw]
  rfl

theorem untilNext_cases {p : Reader τ ε α} {hs : Strict p} (h : (untilNext test p hs).run ts = .ok (xs, rest)) :
    (ts.head?.any test = true ∧ xs = [] ∧ rest = ts) ∨
      ∃ x after ys, ts.head?.any test = false ∧ p.run ts = .ok (x, after) ∧
        (untilNext test p hs).run after = .ok (ys, rest) ∧ xs = x :: ys := by
  change untilNextRun test p hs ts = .ok (xs, rest) at h
  rw [untilNextRun_eq] at h
  split at h
  · next ht =>
    cases h
    exact .inl ⟨ht, rfl, rfl⟩
  · next ht =>
    cases hx : p.run ts with
    | error fault =>
      rw [hx] at h
      cases h
    | ok found =>
      rw [hx] at h
      change untilNextRun test p hs found.2 >>= _ = _ at h
      cases hw : untilNextRun test p hs found.2 with
      | error fault =>
        rw [hw] at h
        cases h
      | ok others =>
        rw [hw] at h
        cases h
        exact .inr ⟨found.1, found.2, others.1, by simpa using ht, rfl, hw, rfl⟩

theorem untilNext_stop {p : Reader τ ε α} {hs : Strict p} (ht : ts.head?.any test = true) :
    (untilNext test p hs).run ts = .ok ([], ts) := by
  change untilNextRun test p hs ts = _
  rw [untilNextRun_eq, if_pos ht]

theorem untilNext_take {p : Reader τ ε α} {hs : Strict p} {after : List τ} {x : α} (ht : ts.head?.any test = false)
    (hx : p.run ts = .ok (x, after)) (hw : (untilNext test p hs).run after = .ok (xs, rest)) :
    (untilNext test p hs).run ts = .ok (x :: xs, rest) := by
  change untilNextRun test p hs after = _ at hw
  change untilNextRun test p hs ts = _
  rw [untilNextRun_eq, if_neg (by simp [ht]), hx]
  change untilNextRun test p hs after >>= _ = _
  rw [hw]
  rfl

end TestHooks.Reader

namespace TestHooks.Swift

/-! ### What follows -/

/-- True for attributes, modifiers and the keywords of types. -/
def Token.leadsType (t : Token) : Bool :=
  t.kind == .atWord || t.isOneOf modifierWords || t.isOneOf (TypeKeyword.all.map TypeKeyword.text)

theorem Token.leadsType_cases {t : Token} (h : t.leadsType = true) :
    t.kind = .atWord ∨ t.kind = .identifier ∧ (t.text ∈ modifierWords ∨ t.text ∈ TypeKeyword.all.map TypeKeyword.text) := by
  simp only [leadsType, isOneOf, Bool.or_eq_true, Bool.and_eq_true, beq_iff_eq, List.contains_iff_mem] at h
  tauto

theorem Token.startsDeclaration_of_leadsType {t : Token} (h : t.leadsType = true) : t.startsDeclaration = true := by
  simp only [startsDeclaration, isOneOf, declarationKeywords, Bool.or_eq_true, Bool.and_eq_true, beq_iff_eq,
    List.contains_iff_mem, List.mem_append]
  rcases Token.leadsType_cases h with h | ⟨hk, h | h⟩ <;> tauto

/-- The first tokens cannot be told apart, or an attribute gives way to another beginning of a type, before which a line
break stands if one stood before the attribute, or a word and what stands behind it give way to the end of the file. -/
inductive Follows : List Token → List Token → Prop
  | same {t u : Token} {ts us : List Token} (h : t.Like u) (ha : t.isAttached = u.isAttached) : Follows (t :: ts) (u :: us)
  | leading {t u : Token} {ts us : List Token} (ht : t.kind = .atWord) (hu : u.leadsType = true)
    (hn : t.newlineBefore = true → u.newlineBefore = true) : Follows (t :: ts) (u :: us)
  | ending {t : Token} {ts : List Token} (ht : t.kind = .identifier) : Follows (t :: ts) []

theorem follows_cons (t : Token) (ts us : List Token) : Follows (t :: ts) (t :: us) :=
  .same ⟨rfl, rfl, rfl⟩ rfl

theorem Follows.append {left left' : List Token} (h : Follows left left') (used : List Token) :
    Follows (used ++ left) (used ++ left') := by
  cases used with
  | nil => exact h
  | cons t used => exact follows_cons t _ _

/-- What a first reader leaves before a second one takes the rest. -/
theorem split_of_suffix {used left mid : List Token} (h : left <:+ mid) (hm : mid <:+ used ++ left) :
    ∃ first second, used = first ++ second ∧ mid = second ++ left := by
  obtain ⟨second, rfl⟩ := h
  obtain ⟨first, hf⟩ := hm
  rw [← List.append_assoc] at hf
  exact ⟨first, second, (List.append_cancel_right hf).symm, rfl⟩

theorem eq_nil_of_append {used left : List Token} (h : used ++ left = left) : used = [] :=
  List.append_left_eq_self.1 h

theorem ne_of_suffix {t : Token} {ts left : List Token} (h : left <:+ ts) : left ≠ t :: ts := by
  rintro rfl
  have := h.length_le
  rw [List.length_cons] at this
  omega

namespace Reader

open TestHooks.Reader

/-! ### Steady readers -/

/-- A condition on what follows and on what is put in its place. -/
abbrev Boundary := List Token → List Token → Prop

/-- It does not matter what follows. -/
def Anything : Boundary := fun _ _ => True

/-- No attribute follows. -/
def NoAttribute : Boundary := fun ts _ => ∀ t ∈ ts.head?, t.kind ≠ .atWord

/-- No opening brace follows. -/
def NoBrace : Boundary := fun ts _ => ∀ t ∈ ts.head?, t.kind ≠ .leftBrace

/-- What stands behind an opening brace stays there. -/
def BraceKept : Boundary := fun ts us =>
  ∀ t u more, ts = t :: u :: more → t.kind = .leftBrace → ∃ t' more', us = t' :: u :: more'

/-- The reader takes the same tokens and finds the same, whatever follows instead. -/
def Steady {α : Type} (P : Boundary) (p : Reader α) : Prop :=
  ∀ ⦃used left left' : List Token⦄ ⦃x : α⦄, p.run (used ++ left) = .ok (x, left) → Follows left left' →
    P left left' → p.run (used ++ left') = .ok (x, left')

/-- What the test refuses it also refuses when something else follows instead. -/
def Quits (P : Boundary) (test : Token → Bool) : Prop :=
  ∀ ⦃t u : Token⦄ ⦃ts us : List Token⦄, Follows (t :: ts) (u :: us) → P (t :: ts) (u :: us) → test t = false →
    test u = false

variable {α β : Type} {P Q : Boundary} {test : Token → Bool}

theorem Quits.head (hq : Quits P test) {ts us : List Token} (h : Follows ts us) (hp : P ts us)
    (ht : ts.head?.any test = false) : us.head?.any test = false := by
  cases h with
  | same h ha => exact hq (.same h ha) hp ht
  | leading hk hu hn => exact hq (.leading hk hu hn) hp ht
  | ending => rfl

/-- The test looks at nothing but the kind, the text and what stands right before the token. -/
def Plain (test : Token → Bool) : Prop :=
  ∀ ⦃t u : Token⦄, t.Like u → t.isAttached = u.isAttached → test t = test u

theorem quits_of (hl : Plain test)
    (hq : ∀ t u : Token, t.kind = .atWord → u.leadsType = true → test t = false → test u = false) : Quits P test := by
  intro t u ts us h _ ht
  cases h with
  | same h ha => rw [← hl h ha, ht]
  | leading hk hu _ => exact hq t u hk hu ht

theorem plain_kind (kind : TokenKind) : Plain (·.kind == kind) :=
  fun _ _ h _ => congrArg (· == kind) h.kind

theorem quits_kind {kind : TokenKind} (ha : kind ≠ .atWord) (hi : kind ≠ .identifier) : Quits P (·.kind == kind) := by
  refine quits_of (plain_kind kind) fun _ u _ hu _ => ?_
  rw [beq_eq_false_iff_ne]
  rcases Token.leadsType_cases hu with hk | ⟨hk, -⟩ <;> rw [hk]
  · exact ha.symm
  · exact hi.symm

theorem quits_noAttribute (hl : Plain test) : Quits NoAttribute test := by
  intro t u ts us h hp ht
  cases h with
  | same h ha => rw [← hl h ha, ht]
  | leading hk _ _ => exact absurd hk (hp t rfl)

theorem Steady.mono {p : Reader α} (hp : Steady P p) (h : ∀ ts us, Q ts us → P ts us) : Steady Q p :=
  fun _ _ _ _ hr hf hq => hp hr hf (h _ _ hq)

/-! ### Readers in a row -/

theorem steady_pure (x : α) : Steady P (pure x : Reader α) := by
  intro used left left' y h _ _
  obtain ⟨rfl, hu⟩ := run_pure_eq_ok.1 h
  rw [eq_nil_of_append hu]
  rfl

theorem steady_fail (fault : Fault) : Steady P (fail fault : Reader α) := by
  intro used left left' y h _ _
  cases h

/-- Readers in a row are steady if the first may be followed by what the second reads. -/
theorem Steady.bind_of {p : Reader α} {f : α → Reader β} (hp : Steady P p) (hf : ∀ x, Steady Q (f x))
    (hn : ∀ x y used left left', (f x).run (used ++ left) = .ok (y, left) → Q left left' →
      P (used ++ left) (used ++ left')) : Steady Q (p >>= f) := by
  intro used left left' y h hl hq
  obtain ⟨x, mid, hx, hy⟩ := run_bind_eq_ok.1 h
  obtain ⟨first, second, rfl, rfl⟩ := split_of_suffix ((f x).suffix hy) (p.suffix hx)
  rw [List.append_assoc] at hx ⊢
  exact run_bind_eq_ok.2 ⟨x, second ++ left', hp hx (hl.append second) (hn x y second left left' hy hq), hf x hy hl hq⟩

theorem Steady.bind {p : Reader α} {f : α → Reader β} (hp : Steady Anything p) (hf : ∀ x, Steady Q (f x)) :
    Steady Q (p >>= f) :=
  hp.bind_of hf fun _ _ _ _ _ _ _ => trivial

theorem steady_token (kind : TokenKind) : Steady P (token kind) := by
  intro used left left' t h _ _
  obtain ⟨hu, hk⟩ := token_eq_ok.1 h
  have hone : used = [t] := List.append_cancel_right hu
  rw [hone]
  exact token_eq_ok.2 ⟨rfl, hk⟩

/-- A reader behind a first token takes this token, too. -/
theorem used_of_cons {p : Reader α} {used left more : List Token} {t : Token} {x : α} (hu : used ++ left = t :: more)
    (h : p.run more = .ok (x, left)) : ∃ inside, used = t :: inside ∧ more = inside ++ left := by
  obtain ⟨inside, rfl⟩ := p.suffix h
  exact ⟨inside, List.append_cancel_right hu, rfl⟩

theorem steady_optionally {p : Token → Reader α} (hq : Quits P test) (hp : ∀ t, Steady P (p t)) :
    Steady P (optionally test p) := by
  intro used left left' x h hf hP
  rcases optionally_cases h with ⟨ht, rfl, hu⟩ | ⟨t, more, y, hu, ht, hr, rfl⟩
  · rw [eq_nil_of_append hu.symm] at ht ⊢
    exact optionally_skip (hq.head hf hP ht)
  · obtain ⟨inside, rfl, rfl⟩ := used_of_cons hu hr
    exact optionally_take ht (hp t hr hf hP)

/-! ### Loops -/

/-- A loop is steady if a round may be followed by the next one and by what may follow the loop. -/
theorem steady_whileNext {p : Token → Reader α} (hq : Quits Q test) (hp : ∀ t, Steady P (p t))
    (hlast : ∀ ts us, Q ts us → P ts us) (hnext : ∀ t ts us, test t = true → P (t :: ts) (t :: us)) :
    Steady Q (whileNext test p) := by
  intro used left left' xs h hf hQ
  induction hn : used.length using Nat.strongRecOn generalizing used xs with
  | ind n ih =>
    rcases whileNext_cases h with ⟨ht, rfl, hu⟩ | ⟨t, more, x, after, ys, hu, ht, hx, hw, rfl⟩
    · rw [eq_nil_of_append hu.symm] at ht ⊢
      exact whileNext_skip (hq.head hf hQ ht)
    · obtain ⟨inside, rfl⟩ := ((whileNext test p).suffix hw).trans ((p t).suffix hx)
      obtain rfl : used = t :: inside := List.append_cancel_right hu
      obtain ⟨first, second, rfl, rfl⟩ := split_of_suffix ((whileNext test p).suffix hw) ((p t).suffix hx)
      have hP : P (second ++ left) (second ++ left') := by
        cases second with
        | nil => exact hlast _ _ hQ
        | cons v second =>
          rcases whileNext_cases hw with ⟨-, -, hv⟩ | ⟨w, _, _, _, _, hv, hw, -⟩
          · cases eq_nil_of_append hv.symm
          · cases hv
            exact hnext v _ _ hw
      rw [List.append_assoc] at hx
      have hround := hp t hx (hf.append second) hP
      have hrest := ih second.length (by rw [← hn, List.length_cons, List.length_append]; omega) hw rfl
      rw [List.cons_append, List.append_assoc]
      exact whileNext_take ht hround hrest

theorem steady_rounds {p : Token → Reader α} (hq : Quits Q test) (hp : ∀ t, Steady Anything (p t)) :
    Steady Q (whileNext test p) :=
  steady_whileNext hq hp (fun _ _ _ => trivial) fun _ _ _ _ => trivial

theorem steady_untilNext {p : Reader α} {hs : Strict p} (hl : Plain test)
    (ha : ∀ t : Token, t.kind = .atWord ∨ t.kind = .identifier → test t = false) (hp : Steady Anything p) :
    Steady P (untilNext test p hs) := by
  intro used left left' xs h hf _
  induction hn : used.length using Nat.strongRecOn generalizing used xs with
  | ind n ih =>
    rcases untilNext_cases h with ⟨ht, rfl, hu⟩ | ⟨x, after, ys, ht, hx, hw, rfl⟩
    · rw [eq_nil_of_append hu.symm] at ht ⊢
      refine untilNext_stop ?_
      cases hf with
      | same hlike hat =>
        rw [List.nil_append, List.head?_cons, Option.any_some] at ht ⊢
        rw [← hl hlike hat, ht]
      | leading hk _ _ =>
        rw [List.nil_append, List.head?_cons, Option.any_some, ha _ (.inl hk)] at ht
        cases ht
      | ending hk =>
        rw [List.nil_append, List.head?_cons, Option.any_some, ha _ (.inr hk)] at ht
        cases ht
    · have hlt := hs hx
      obtain ⟨first, second, rfl, rfl⟩ := split_of_suffix ((untilNext test p hs).suffix hw) (p.suffix hx)
      have hfirst : first ≠ [] := by
        rintro rfl
        simp at hlt
      obtain ⟨v, first, rfl⟩ := List.exists_cons_of_ne_nil hfirst
      rw [List.append_assoc] at hx ht ⊢
      have hround := hp hx (hf.append second) trivial
      have hrest := ih second.length (by rw [← hn, List.length_append, List.length_cons]; omega) hw rfl
      exact untilNext_take ht hround hrest

omit P Q in
theorem span_stop {ts : List Token} : ts.dropWhile test = ts ↔ ts.head?.any test = false := by
  cases ts with
  | nil => simp
  | cons t ts =>
    rw [List.head?_cons, Option.any_some, List.dropWhile_cons]
    split
    · next ht =>
      have hl := (@List.dropWhile_suffix _ ts test).length_le
      simp only [ht, Bool.true_eq_false, iff_false]
      intro hx
      rw [hx, List.length_cons] at hl
      omega
    · next ht => simpa using ht

/-- What is skipped, and what comes next. -/
theorem span_steady (hq : Quits P test) {used left left' : List Token} (h : (used ++ left).dropWhile test = left)
    (hf : Follows left left') (hP : P left left') :
    (used ++ left').takeWhile test = used ∧ (used ++ left').dropWhile test = left' := by
  induction used with
  | nil =>
    have hstop := span_stop.2 (hq.head hf hP (span_stop.1 h))
    have hsplit := @List.takeWhile_append_dropWhile _ test left'
    rw [hstop] at hsplit
    exact ⟨eq_nil_of_append hsplit, hstop⟩
  | cons t used ih =>
    rw [List.cons_append] at h ⊢
    by_cases ht : test t = true
    · rw [List.dropWhile_cons_of_pos ht] at h
      rw [List.takeWhile_cons_of_pos ht, List.dropWhile_cons_of_pos ht, (ih h).1, (ih h).2]
      exact ⟨rfl, rfl⟩
    · rw [List.dropWhile_cons_of_neg ht, ← List.cons_append] at h
      cases eq_nil_of_append h

theorem steady_skipWhile (hq : Quits P test) : Steady P (skipWhile test) := by
  intro used left left' x h hf hP
  have hd : (used ++ left).dropWhile test = left := congrArg Prod.snd (Except.ok.inj h)
  exact congrArg (fun ts => Except.ok ((), ts)) (span_steady hq hd hf hP).2

end Reader

end TestHooks.Swift
