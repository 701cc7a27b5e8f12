import TestHooks.Proofs.AccessorBlocks
import TestHooks.Proofs.BlindHeaders
import TestHooks.Proofs.SteadyHeaders

/-!
# Reading past what is passed in calls

Two lists of tokens are twins if they agree in kinds, texts and line breaks, but for what is passed in calls of members
(`Twin`): gaps may differ, too. Whatever ends a phrase or a statement stands outside such calls or belongs to an opening
parenthesis that was read, so each way to split a list ends at the same place in both.
-/

namespace TestHooks.Swift

/-- The tokens agree in all that readers look at. -/
structure Token.Resembles (t u : Token) : Prop extends Token.Like t u where
  attached : t.isAttached = u.isAttached

theorem Token.Resembles.symm {t u : Token} (h : t.Resembles u) : u.Resembles t :=
  ⟨⟨h.kind.symm, h.text.symm, h.newline.symm⟩, h.attached.symm⟩

/-- What may be passed in a call: names with labels, and names with an ampersand. -/
def Token.isPassed (t : Token) : Bool :=
  (t.kind == .identifier || t.kind == .colon || t.kind == .comma || t.kind == .operator) && !t.newlineBefore

/-- Where in a call of a member two lists begin: outside, behind the dot, behind the name, or among what is passed. -/
inductive Stage
  | outside | dotted | named | passed
  deriving DecidableEq

/-- The lists agree token by token, but for what is passed in calls of members. -/
inductive Twin : Stage → List Token → List Token → Prop
  | nil : Twin .outside [] []
  | cons {t u : Token} {ts us : List Token} (h : t.Resembles u) (hs : Twin .outside ts us) :
    Twin .outside (t :: ts) (u :: us)
  | dot {t u : Token} {ts us : List Token} (h : t.Resembles u) (hk : t.kind = .dot) (hs : Twin .dotted ts us) :
    Twin .outside (t :: ts) (u :: us)
  | name {t u : Token} {ts us : List Token} (h : t.Resembles u) (hk : t.kind = .identifier)
    (hn : t.newlineBefore = false) (hs : Twin .named ts us) : Twin .dotted (t :: ts) (u :: us)
  | paren {t u : Token} {ts us : List Token} (h : t.Resembles u) (hk : t.kind = .leftParen)
    (hn : t.newlineBefore = false) (hs : Twin .passed ts us) : Twin .named (t :: ts) (u :: us)
  | left {t : Token} {ts us : List Token} (h : t.isPassed = true) (hs : Twin .passed ts us) :
    Twin .passed (t :: ts) us
  | right {u : Token} {ts us : List Token} (h : u.isPassed = true) (hs : Twin .passed ts us) :
    Twin .passed ts (u :: us)
  | close {t u : Token} {ts us : List Token} (h : t.Resembles u) (hk : t.kind = .rightParen)
    (hn : t.newlineBefore = false) (hs : Twin .outside ts us) : Twin .passed (t :: ts) (u :: us)

theorem Token.isPassed_iff {t : Token} : t.isPassed = true ↔
    (t.kind = .identifier ∨ t.kind = .colon ∨ t.kind = .comma ∨ t.kind = .operator) ∧ t.newlineBefore = false := by
  simp [Token.isPassed, or_assoc]

theorem Twin.symm {stage : Stage} {ts us : List Token} (h : Twin stage ts us) : Twin stage us ts := by
  induction h with
  | nil => exact .nil
  | cons h _ ih => exact .cons h.symm ih
  | dot h hk _ ih => exact .dot h.symm (h.kind ▸ hk) ih
  | name h hk hn _ ih => exact .name h.symm (h.kind ▸ hk) (h.newline ▸ hn) ih
  | paren h hk hn _ ih => exact .paren h.symm (h.kind ▸ hk) (h.newline ▸ hn) ih
  | left h _ ih => exact .right h ih
  | right h _ ih => exact .left h ih
  | close h hk hn _ ih => exact .close h.symm (h.kind ▸ hk) (h.newline ▸ hn) ih

/-- The first tokens of twins, and what follows them. -/
theorem Twin.cons_cases {t : Token} {ts us : List Token} (h : Twin .outside (t :: ts) us) :
    ∃ u vs, us = u :: vs ∧ t.Resembles u ∧ (Twin .outside ts vs ∨ t.kind = .dot ∧ Twin .dotted ts vs) := by
  cases h with
  | cons h hs => exact ⟨_, _, rfl, h, .inl hs⟩
  | dot h hk hs => exact ⟨_, _, rfl, h, .inr ⟨hk, hs⟩⟩

/-- Behind any token but a dot twins are twins. -/
theorem Twin.tail {t u : Token} {ts us : List Token} (h : Twin .outside (t :: ts) (u :: us)) (hk : t.kind ≠ .dot) :
    t.Resembles u ∧ Twin .outside ts us := by
  cases h with
  | cons h hs => exact ⟨h, hs⟩
  | dot _ hd _ => exact absurd hd hk

/-- The test looks at nothing that twins differ in. -/
def Sees (test : Token → Bool) : Prop := ∀ ⦃t u : Token⦄, t.Resembles u → test t = test u

theorem sees_of_blind {test : Token → Bool} (h : Reader.BlindTest test) : Sees test := fun _ _ ht => h ht.toLike

theorem sees_kind (kind : TokenKind) : Sees (·.kind == kind) := fun _ _ h => by simp only [h.kind]

theorem Twin.head {test : Token → Bool} (ht : Sees test) {ts us : List Token} (h : Twin .outside ts us) :
    ts.head?.any test = us.head?.any test := by
  cases h with
  | nil => rfl
  | cons h _ => exact ht h
  | dot h _ _ => exact ht h

/-! ### Runs -/

/-- A run that goes on in calls ends outside of them. -/
theorem Twin.dropWhile {test : Token → Bool} (ht : Sees test)
    (hp : ∀ t : Token, t.newlineBefore = false →
      t.kind ∈ [TokenKind.identifier, .leftParen, .rightParen, .colon, .comma, .operator] → test t = true)
    {stage : Stage} {ts us : List Token} (h : Twin stage ts us) :
    Twin .outside (ts.dropWhile test) (us.dropWhile test) := by
  have goesOn {t : Token} (h : t.isPassed = true) : test t = true := by
    obtain ⟨hk, hn⟩ := Token.isPassed_iff.1 h
    refine hp t hn ?_
    rcases hk with hk | hk | hk | hk <;> simp [hk]
  induction h with
  | nil => exact .nil
  | @cons t u ts us h hs ih =>
    rw [List.dropWhile_cons, List.dropWhile_cons, ht h]
    split
    · exact ih
    · exact .cons h hs
  | @dot t u ts us h hk hs ih =>
    rw [List.dropWhile_cons, List.dropWhile_cons, ht h]
    split
    · exact ih
    · exact .dot h hk hs
  | @name t u ts us h hk hn hs ih =>
    have hgo : test t = true := hp t hn (by simp [hk])
    rwa [List.dropWhile_cons_of_pos hgo, List.dropWhile_cons_of_pos (ht h ▸ hgo)]
  | @paren t u ts us h hk hn hs ih =>
    have hgo : test t = true := hp t hn (by simp [hk])
    rwa [List.dropWhile_cons_of_pos hgo, List.dropWhile_cons_of_pos (ht h ▸ hgo)]
  | left h hs ih => rwa [List.dropWhile_cons_of_pos (goesOn h)]
  | right h hs ih => rwa [List.dropWhile_cons_of_pos (goesOn h)]
  | @close t u ts us h hk hn hs ih =>
    have hgo : test t = true := hp t hn (by simp [hk])
    rwa [List.dropWhile_cons_of_pos hgo, List.dropWhile_cons_of_pos (ht h ▸ hgo)]

/-- A run that no dot is part of ends before the next call. -/
theorem Twin.dropWhile_before {test : Token → Bool} (ht : Sees test) (hd : ∀ t : Token, t.kind = .dot → test t = false)
    {ts us : List Token} (h : Twin .outside ts us) : Twin .outside (ts.dropWhile test) (us.dropWhile test) := by
  induction ts generalizing us with
  | nil =>
    cases h
    exact .nil
  | cons t ts ih =>
    obtain ⟨u, vs, rfl, htu, hs⟩ := h.cons_cases
    rw [List.dropWhile_cons, List.dropWhile_cons, ← ht htu]
    split
    · next hgo =>
      rcases hs with hs | ⟨hk, -⟩
      · exact ih hs
      · rw [hd t hk] at hgo
        cases hgo
    · exact h

/-! ### Groups -/

/-- The brackets that groups are read in. -/
def groupBrackets : List (TokenKind × TokenKind) :=
  [(.leftBrace, .rightBrace), (.leftParen, .rightParen), (.leftAngle, .rightAngle)]

section Groups

variable {opener closer : TokenKind}

/-- What is left behind a group are twins. -/
def LeavesTwins (p q : Option (List Token × List Token)) : Prop :=
  Option.Rel (fun p q => Twin .outside p.2 q.2) p q

/-! A token in front changes what was taken, not what is left. -/

theorem LeavesTwins.left {p q : Option (List Token × List Token)} (h : LeavesTwins p q) (t : Token) :
    LeavesTwins (p.map fun p => (t :: p.1, p.2)) q := by
  cases h with
  | none => exact .none
  | some h => exact .some h

theorem LeavesTwins.right {p q : Option (List Token × List Token)} (h : LeavesTwins p q) (u : Token) :
    LeavesTwins p (q.map fun q => (u :: q.1, q.2)) := by
  cases h with
  | none => exact .none
  | some h => exact .some h

theorem LeavesTwins.both {p q : Option (List Token × List Token)} (h : LeavesTwins p q) (t u : Token) :
    LeavesTwins (p.map fun p => (t :: p.1, p.2)) (q.map fun q => (u :: q.1, q.2)) :=
  (h.left t).right u

theorem splitGroup_plain (hb : (opener, closer) ∈ groupBrackets) {t : Token}
    (hk : t.kind ∈ [TokenKind.identifier, .colon, .comma, .operator, .dot]) (depth : Nat) (ts : List Token) :
    splitGroup opener closer depth (t :: ts) = (splitGroup opener closer depth ts).map fun p => (t :: p.1, p.2) := by
  have hplain : ∀ b ∈ groupBrackets, ∀ kind ∈ [TokenKind.identifier, .colon, .comma, .operator, .dot],
      kind ≠ b.1 ∧ kind ≠ b.2 := by
    decide
  obtain ⟨ho, hc⟩ := hplain _ hb _ hk
  exact splitGroup_other depth ts ho hc

theorem splitGroup_passed (hb : (opener, closer) ∈ groupBrackets) {t : Token} (h : t.isPassed = true) (depth : Nat)
    (ts : List Token) : splitGroup opener closer depth (t :: ts) =
      (splitGroup opener closer depth ts).map fun p => (t :: p.1, p.2) := by
  refine splitGroup_plain hb ?_ depth ts
  rcases (Token.isPassed_iff.1 h).1 with hk | hk | hk | hk <;> simp [hk]

/-- A group ends at the same place in twins. Among what is passed in a call its parenthesis is open. -/
theorem Twin.splitGroup (hb : (opener, closer) ∈ groupBrackets) {stage : Stage} {ts us : List Token}
    (h : Twin stage ts us) (depth : Nat) (hd : stage = .passed → closer = .rightParen → 0 < depth) :
    LeavesTwins (Swift.splitGroup opener closer depth ts) (Swift.splitGroup opener closer depth us) := by
  have hdistinct : ∀ b ∈ groupBrackets, b.1 ≠ b.2 := by decide
  have hparen : ∀ b ∈ groupBrackets, TokenKind.leftParen ≠ b.2 ∧ TokenKind.rightParen ≠ b.1 ∧
      (b.1 = .leftParen ↔ b.2 = .rightParen) := by
    decide
  obtain ⟨hopen, hclose, hsame⟩ := hparen _ hb
  have hne : opener ≠ closer := hdistinct _ hb
  induction h generalizing depth with
  | nil => exact .none
  | @cons t u ts us h hs ih =>
    by_cases ho : t.kind = opener
    · rw [splitGroup_opener _ _ ho, splitGroup_opener _ _ (h.kind ▸ ho)]
      exact (ih _ (by simp)).both t u
    · by_cases hc : t.kind = closer
      · cases depth with
        | zero =>
          rw [splitGroup_closed _ hne hc, splitGroup_closed _ hne (h.kind ▸ hc)]
          exact .some hs
        | succ depth =>
          rw [splitGroup_closer _ _ hne hc, splitGroup_closer _ _ hne (h.kind ▸ hc)]
          exact (ih depth (by simp)).both t u
      · rw [splitGroup_other _ _ ho hc, splitGroup_other _ _ (h.kind ▸ ho) (h.kind ▸ hc)]
        exact (ih depth (by simp)).both t u
  | @dot t u ts us h hk hs ih =>
    have hplain : t.kind ∈ [TokenKind.identifier, .colon, .comma, .operator, .dot] := by simp [hk]
    rw [splitGroup_plain hb hplain, splitGroup_plain hb (h.kind ▸ hplain)]
    exact (ih depth (by simp)).both t u
  | @name t u ts us h hk hn hs ih =>
    have hplain : t.kind ∈ [TokenKind.identifier, .colon, .comma, .operator, .dot] := by simp [hk]
    rw [splitGroup_plain hb hplain, splitGroup_plain hb (h.kind ▸ hplain)]
    exact (ih depth (by simp)).both t u
  | @paren t u ts us h hk hn hs ih =>
    by_cases ho : t.kind = opener
    · rw [splitGroup_opener _ _ ho, splitGroup_opener _ _ (h.kind ▸ ho)]
      exact (ih _ fun _ _ => Nat.succ_pos _).both t u
    · rw [splitGroup_other _ _ ho (hk ▸ hopen), splitGroup_other _ _ (h.kind ▸ ho) (h.kind ▸ hk ▸ hopen)]
      exact (ih depth fun _ hc => absurd (hk.trans (hsame.2 hc).symm) ho).both t u
  | @left t ts us h hs ih =>
    rw [splitGroup_passed hb h]
    exact (ih depth hd).left t
  | @right u ts us h hs ih =>
    rw [splitGroup_passed hb h]
    exact (ih depth hd).right u
  | @close t u ts us h hk hn hs ih =>
    by_cases hc : t.kind = closer
    · obtain ⟨d, rfl⟩ := Nat.exists_eq_succ_of_ne_zero (Nat.ne_of_gt (hd rfl (hc.symm.trans hk)))
      rw [Nat.succ_eq_add_one, splitGroup_closer _ _ hne hc, splitGroup_closer _ _ hne (h.kind ▸ hc)]
      exact (ih d (by simp)).both t u
    · rw [splitGroup_other _ _ (hk ▸ hclose) hc, splitGroup_other _ _ (h.kind ▸ hk ▸ hclose) (h.kind ▸ hc)]
      exact (ih depth (by simp)).both t u

end Groups

/-! ### Types -/

/-- What is left of twins where reading may stop before the name of a member: twins, or the rest of a call from a name
on that satisfies `halts`. -/
def Halted (halts : Token → Bool) (ts us : List Token) : Prop :=
  Twin .outside ts us ∨ Twin .dotted ts us ∧ ts.head?.any halts = true

section Types

variable {stops : List String}

theorem splitType_step {depth : Nat} {t : Token} {previous : Option Token}
    (h : (depth = 0 && (t.endsType || t.isOneOf stops || t.breaksType previous)) = false) (ts : List Token) :
    (splitType stops depth previous (t :: ts)).2 = (splitType stops (typeDepth depth t) (some t) ts).2 := by
  rw [splitType, h]
  rfl

theorem isOneOf_of_ne {t : Token} (h : t.kind ≠ .identifier) (words : List String) : t.isOneOf words = false := by
  rw [Token.isOneOf, beq_eq_false_iff_ne.2 h, Bool.false_and]

theorem breaksType_of_line {t : Token} (h : t.newlineBefore = false) (previous : Option Token) :
    t.breaksType previous = false := by
  cases previous <;> simp [Token.breaksType, h]

theorem splitType_passed {t : Token} (h : t.isPassed = true) {depth : Nat} (hd : 0 < depth) (previous : Option Token)
    (ts : List Token) :
    (splitType stops depth previous (t :: ts)).2 = (splitType stops depth (some t) ts).2 := by
  have hdepth : typeDepth depth t = depth := by
    rcases (Token.isPassed_iff.1 h).1 with hk | hk | hk | hk <;> simp [typeDepth, hk]
  rw [splitType_step (by simp [Nat.ne_of_gt hd]), hdepth]

theorem splitType_dot {t : Token} (hk : t.kind = .dot) (depth : Nat) (previous : Option Token) (ts : List Token) :
    (splitType stops depth previous (t :: ts)).2 = (splitType stops (typeDepth depth t) (some t) ts).2 := by
  have hcontinues : t.continuesType = true := by simp [Token.continuesType, hk]
  have hends : t.endsType = false := by simp [Token.endsType, hk]
  have hbreaks : t.breaksType previous = false := by cases previous <;> simp [Token.breaksType, hcontinues]
  refine splitType_step ?_ ts
  rw [hends, isOneOf_of_ne (by simp [hk]), hbreaks, Bool.or_false, Bool.or_false, Bool.and_false]

theorem splitType_paren {t : Token} (hk : t.kind = .leftParen) (hn : t.newlineBefore = false) (depth : Nat)
    (previous : Option Token) (ts : List Token) :
    (splitType stops depth previous (t :: ts)).2 = (splitType stops (typeDepth depth t) (some t) ts).2 := by
  have hends : t.endsType = false := by simp [Token.endsType, hk]
  refine splitType_step ?_ ts
  rw [hends, isOneOf_of_ne (by simp [hk]), breaksType_of_line hn, Bool.or_false, Bool.or_false, Bool.and_false]

/-- A type ends at the same place in twins, or at the name of a member in both. -/
theorem Twin.splitType {stage : Stage} {ts us : List Token} (h : Twin stage ts us) (depth : Nat) {p q : Option Token}
    (hp : stage ≠ .passed → Option.Rel Token.Like p q) (hd : stage = .passed → 0 < depth) :
    Halted (·.isOneOf stops) (Swift.splitType stops depth p ts).2 (Swift.splitType stops depth q us).2 := by
  induction h generalizing depth p q with
  | nil => exact .inl .nil
  | @cons t u ts us h hs ih =>
    have hends : (t.endsType || t.isOneOf stops || t.breaksType p) =
        (u.endsType || u.isOneOf stops || u.breaksType q) := by
      rw [h.endsType, h.isOneOf, breaksType_like (hp (by simp)) h.toLike]
    cases hb : depth = 0 && (t.endsType || t.isOneOf stops || t.breaksType p) with
    | true =>
      simp only [Bool.and_eq_true, decide_eq_true_eq] at hb
      obtain ⟨rfl, hb⟩ := hb
      rw [splitType_stop.2 ⟨rfl, hb⟩, splitType_stop.2 ⟨rfl, hends ▸ hb⟩]
      exact .inl (.cons h hs)
    | false =>
      rw [splitType_step hb, splitType_step (hends ▸ hb), typeDepth_like h.toLike]
      exact ih _ (fun _ => .some h.toLike) (by simp)
  | @dot t u ts us h hk hs ih =>
    rw [splitType_dot hk, splitType_dot (h.kind ▸ hk), typeDepth_like h.toLike]
    exact ih _ (fun _ => .some h.toLike) (by simp)
  | @name t u ts us h hk hn hs ih =>
    have hends : t.endsType = false := by simp [Token.endsType, hk]
    have hends' : u.endsType = false := h.endsType ▸ hends
    have hbreaks := breaksType_of_line hn p
    have hbreaks' : u.breaksType q = false := breaksType_of_line (h.newline ▸ hn) q
    cases hb : depth = 0 && t.isOneOf stops with
    | true =>
      simp only [Bool.and_eq_true, decide_eq_true_eq] at hb
      obtain ⟨rfl, hb⟩ := hb
      have hb' : u.isOneOf stops = true := h.isOneOf stops ▸ hb
      rw [splitType_stop.2 ⟨rfl, by rw [hends, hb, hbreaks]; rfl⟩,
        splitType_stop.2 ⟨rfl, by rw [hends', hb', hbreaks']; rfl⟩]
      exact .inr ⟨.name h hk hn hs, hb⟩
    | false =>
      have hb' : (decide (depth = 0) && u.isOneOf stops) = false := h.isOneOf stops ▸ hb
      rw [splitType_step (by rw [hends, hbreaks, Bool.false_or, Bool.or_false, hb]),
        splitType_step (by rw [hends', hbreaks', Bool.false_or, Bool.or_false, hb']), typeDepth_like h.toLike]
      exact ih _ (fun _ => .some h.toLike) (by simp)
  | @paren t u ts us h hk hn hs ih =>
    rw [splitType_paren hk hn, splitType_paren (h.kind ▸ hk) (h.newline ▸ hn), typeDepth_like h.toLike]
    exact ih _ (fun _ => .some h.toLike) fun _ => by simp [typeDepth, h.kind ▸ hk]
  | left h hs ih =>
    rw [splitType_passed h (hd rfl)]
    exact ih depth (absurd rfl) hd
  | right h hs ih =>
    rw [splitType_passed h (hd rfl)]
    exact ih depth (absurd rfl) hd
  | @close t u ts us h hk hn hs ih =>
    have hpos := Nat.ne_of_gt (hd rfl)
    rw [splitType_step (by simp [hpos]), splitType_step (by simp [hpos]), typeDepth_like h.toLike]
    exact ih _ (fun _ => .some h.toLike) (by simp)

/-- A type is there in both of two twins, or in neither. -/
theorem Twin.splitType_nil {ts us : List Token} (h : Twin .outside ts us) :
    (Swift.splitType stops 0 none ts).1 = [] ↔ (Swift.splitType stops 0 none us).1 = [] := by
  cases ts with
  | nil =>
    cases h
    rfl
  | cons t ts =>
    obtain ⟨u, vs, rfl, h, -⟩ := h.cons_cases
    rw [Swift.splitType, Swift.splitType, h.endsType, h.isOneOf, breaksType_like .none h.toLike]
    split <;> simp

end Types

/-! ### Expressions and statements -/

theorem splitExpression_step {depth : Nat} {isFirst : Bool} {t : Token} {ts : List Token}
    (h : (depth = 0 && t.endsExpression isFirst ts) = false) :
    (splitExpression depth isFirst (t :: ts)).2 = (splitExpression (expressionDepth depth t) false ts).2 := by
  rw [splitExpression, h]
  rfl

theorem splitExpression_passed {t : Token} (h : t.isPassed = true) {depth : Nat} (hd : 0 < depth) (isFirst : Bool)
    (ts : List Token) :
    (splitExpression depth isFirst (t :: ts)).2 = (splitExpression depth false ts).2 := by
  have hdepth : expressionDepth depth t = depth := by
    rcases (Token.isPassed_iff.1 h).1 with hk | hk | hk | hk <;>
      simp [expressionDepth, Token.opensBracket, Token.closesBracket, hk]
  rw [splitExpression_step (by simp [Nat.ne_of_gt hd]), hdepth]

/-- No token of a call ends an expression, as it neither closes a bracket nor stands on a new line. -/
theorem splitExpression_goesOn {t : Token}
    (hk : t.kind = .dot ∨ (t.kind = .identifier ∨ t.kind = .leftParen) ∧ t.newlineBefore = false) (depth : Nat)
    (isFirst : Bool) (ts : List Token) :
    (splitExpression depth isFirst (t :: ts)).2 = (splitExpression (expressionDepth depth t) false ts).2 := by
  have hgoesOn : t.endsExpression isFirst ts = false := by
    rcases hk with hk | ⟨hk | hk, hn⟩
    · simp [Token.endsExpression, Token.closesBracket, Token.startsDeclaration, isOneOf_of_ne, hk]
    · simp [Token.endsExpression, Token.closesBracket, hk, hn]
    · simp [Token.endsExpression, Token.closesBracket, hk, hn]
  exact splitExpression_step (by rw [hgoesOn, Bool.and_false])

/-- An expression ends at the same place in twins. -/
theorem Twin.splitExpression {stage : Stage} {ts us : List Token} (h : Twin stage ts us) (depth : Nat) {f g : Bool}
    (hf : stage ≠ .passed → f = g) (hd : stage = .passed → 0 < depth) :
    Twin .outside (Swift.splitExpression depth f ts).2 (Swift.splitExpression depth g us).2 := by
  induction h generalizing depth f g with
  | nil => exact .nil
  | @cons t u ts us h hs ih =>
    obtain rfl := hf (by simp)
    have hends : t.endsExpression f ts = u.endsExpression f us := by
      rw [Token.endsExpression, Token.endsExpression, h.kind, h.closesBracket, h.newline, h.startsDeclaration,
        hs.head fun _ _ h => h.isOneOf _]
    cases hb : depth = 0 && t.endsExpression f ts with
    | true =>
      have hb' : (decide (depth = 0) && u.endsExpression f us) = true := hends ▸ hb
      rw [Swift.splitExpression, Swift.splitExpression, hb, hb']
      exact .cons h hs
    | false =>
      rw [splitExpression_step hb, splitExpression_step (hends ▸ hb), expressionDepth_like h.toLike]
      exact ih _ (fun _ => rfl) (by simp)
  | @dot t u ts us h hk hs ih =>
    rw [splitExpression_goesOn (.inl hk), splitExpression_goesOn (.inl (h.kind ▸ hk)), expressionDepth_like h.toLike]
    exact ih _ (fun _ => rfl) (by simp)
  | @name t u ts us h hk hn hs ih =>
    rw [splitExpression_goesOn (.inr ⟨.inl hk, hn⟩),
      splitExpression_goesOn (.inr ⟨.inl (h.kind ▸ hk), h.newline ▸ hn⟩), expressionDepth_like h.toLike]
    exact ih _ (fun _ => rfl) (by simp)
  | @paren t u ts us h hk hn hs ih =>
    rw [splitExpression_goesOn (.inr ⟨.inr hk, hn⟩),
      splitExpression_goesOn (.inr ⟨.inr (h.kind ▸ hk), h.newline ▸ hn⟩), expressionDepth_like h.toLike]
    exact ih _ (fun _ => rfl) fun _ => by simp [expressionDepth, Token.opensBracket, h.kind ▸ hk]
  | left h hs ih =>
    rw [splitExpression_passed h (hd rfl)]
    exact ih depth (absurd rfl) hd
  | right h hs ih =>
    rw [splitExpression_passed h (hd rfl)]
    exact ih depth (absurd rfl) hd
  | @close t u ts us h hk hn hs ih =>
    have hpos := Nat.ne_of_gt (hd rfl)
    rw [splitExpression_step (by simp [hpos]), splitExpression_step (by simp [hpos]), expressionDepth_like h.toLike]
    exact ih _ (fun _ => rfl) (by simp)

/-- An expression is there in both of two twins, or in neither. -/
theorem Twin.splitExpression_nil {ts us : List Token} (h : Twin .outside ts us) :
    (Swift.splitExpression 0 true ts).1 = [] ↔ (Swift.splitExpression 0 true us).1 = [] := by
  cases ts with
  | nil =>
    cases h
    rfl
  | cons t ts =>
    obtain ⟨u, vs, rfl, h, hs⟩ := h.cons_cases
    have hends : t.endsExpression true ts = u.endsExpression true vs := by
      rw [Token.endsExpression, Token.endsExpression, h.kind, h.closesBracket]
      rcases hs with hs | ⟨hk, -⟩
      · rw [hs.head fun _ _ h => h.isOneOf _]
        rfl
      · rw [← h.kind, hk]
        rfl
    rw [Swift.splitExpression, Swift.splitExpression, hends]
    split <;> simp

theorem afterStatement_passed {t : Token} (h : t.isPassed = true) (depth : Int) (isFirst : Bool) (ts : List Token) :
    afterStatement depth isFirst (t :: ts) = afterStatement depth false ts := by
  obtain ⟨hk, hn⟩ := Token.isPassed_iff.1 h
  have hkind : t.kind ≠ .rightBrace ∧ t.kind ≠ .semicolon ∧ statementDepth depth t = depth := by
    rcases hk with hk | hk | hk | hk <;> simp [statementDepth, Token.opensBracket, Token.closesBracket, hk]
  rw [afterStatement_step hkind.1 hkind.2.1 (.inr (.inl hn)), hkind.2.2]

/-- No token of a call ends a statement. -/
theorem afterStatement_goesOn {t : Token}
    (hk : t.kind = .dot ∨ t.kind ∈ [TokenKind.identifier, .leftParen, .rightParen] ∧ t.newlineBefore = false)
    (depth : Int) (isFirst : Bool) (ts : List Token) :
    afterStatement depth isFirst (t :: ts) = afterStatement (statementDepth depth t) false ts := by
  rcases hk with hk | ⟨hk, hn⟩
  · have hdeclares : t.startsDeclaration = false := by simp [Token.startsDeclaration, isOneOf_of_ne, hk]
    exact afterStatement_step (by simp [hk]) (by simp [hk]) (.inr (.inr hdeclares)) depth ts
  · have hkind : t.kind ≠ .rightBrace ∧ t.kind ≠ .semicolon := by
      constructor <;> rintro hend <;> simp [hend] at hk
    exact afterStatement_step hkind.1 hkind.2 (.inr (.inl hn)) depth ts

/-- A statement ends at the same place in twins. -/
theorem Twin.afterStatement {stage : Stage} {ts us : List Token} (h : Twin stage ts us) (depth : Int) {f g : Bool}
    (hf : stage ≠ .passed → f = g) :
    Twin .outside (Swift.afterStatement depth f ts) (Swift.afterStatement depth g us) := by
  induction h generalizing depth f g with
  | nil => exact .nil
  | @cons t u ts us h hs ih =>
    obtain rfl := hf (by simp)
    rw [Swift.afterStatement, Swift.afterStatement, h.kind, h.newline, h.startsDeclaration]
    split
    · exact .cons h hs
    · split
      · exact hs
      · split
        · exact .cons h hs
        · rw [statementDepth_like h.toLike]
          exact ih _ fun _ => rfl
  | @dot t u ts us h hk hs ih =>
    rw [afterStatement_goesOn (.inl hk), afterStatement_goesOn (.inl (h.kind ▸ hk)), statementDepth_like h.toLike]
    exact ih _ fun _ => rfl
  | @name t u ts us h hk hn hs ih =>
    have hcalled : t.kind ∈ [TokenKind.identifier, .leftParen, .rightParen] := by simp [hk]
    rw [afterStatement_goesOn (.inr ⟨hcalled, hn⟩), afterStatement_goesOn (.inr ⟨h.kind ▸ hcalled, h.newline ▸ hn⟩),
      statementDepth_like h.toLike]
    exact ih _ fun _ => rfl
  | @paren t u ts us h hk hn hs ih =>
    have hcalled : t.kind ∈ [TokenKind.identifier, .leftParen, .rightParen] := by simp [hk]
    rw [afterStatement_goesOn (.inr ⟨hcalled, hn⟩), afterStatement_goesOn (.inr ⟨h.kind ▸ hcalled, h.newline ▸ hn⟩),
      statementDepth_like h.toLike]
    exact ih _ fun _ => rfl
  | left h hs ih =>
    rw [afterStatement_passed h]
    exact ih depth (absurd rfl)
  | right h hs ih =>
    rw [afterStatement_passed h]
    exact ih depth (absurd rfl)
  | @close t u ts us h hk hn hs ih =>
    have hcalled : t.kind ∈ [TokenKind.identifier, .leftParen, .rightParen] := by simp [hk]
    rw [afterStatement_goesOn (.inr ⟨hcalled, hn⟩), afterStatement_goesOn (.inr ⟨h.kind ▸ hcalled, h.newline ▸ hn⟩),
      statementDepth_like h.toLike]
    exact ih _ fun _ => rfl

end TestHooks.Swift
