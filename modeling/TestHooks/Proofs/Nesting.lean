import TestHooks.Proofs.Composing

/-!
# Brackets

What goes over brackets: a type that is open swallows everything in which no bracket is closed too often, a group in
braces takes what holds no braces, and a type that nests its brackets is taken as a whole wherever it stands.
-/

namespace TestHooks.Swift

open TestHooks.Swift.Reader TestHooks.Text

/-! ### Depth -/

def Token.closesType (t : Token) : Bool :=
  t.kind == .rightParen || t.kind == .rightBracket || t.kind == .rightAngle

/-- The depth of brackets after the tokens, unless one is closed that is not open. -/
def rise : Nat → List Token → Option Nat
  | depth, [] => some depth
  | depth, t :: ts => if depth = 0 && t.closesType then none else rise (typeDepth depth t) ts

theorem rise_append (depth : Nat) (ts us : List Token) : rise depth (ts ++ us) = (rise depth ts).bind (rise · us) := by
  induction ts generalizing depth with
  | nil => rfl
  | cons t ts ih =>
    rw [List.cons_append, rise, rise]
    split
    · rfl
    · exact ih _

theorem typeDepth_add {depth : Nat} {t : Token} (h : ¬(depth = 0 && t.closesType) = true) (more : Nat) :
    typeDepth (depth + more) t = typeDepth depth t + more := by
  simp only [Token.closesType, Bool.and_eq_true, decide_eq_true_eq, not_and, Bool.not_eq_true] at h
  unfold typeDepth
  split
  · omega
  · split
    · next hc =>
      have : depth ≠ 0 := by
        intro hz
        rw [h hz] at hc
        cases hc
      omega
    · rfl

theorem rise_add {depth d : Nat} {ts : List Token} (h : rise depth ts = some d) (more : Nat) :
    rise (depth + more) ts = some (d + more) := by
  induction ts generalizing depth with
  | nil =>
    cases h
    rfl
  | cons t ts ih =>
    rw [rise] at h ⊢
    split at h
    · cases h
    · next hc =>
      rw [if_neg, typeDepth_add hc]
      · exact ih h
      · simp only [Bool.and_eq_true, decide_eq_true_eq] at hc ⊢
        rintro ⟨hz, ht⟩
        exact hc ⟨by omega, ht⟩

/-- Everything that closes no bracket too often. -/
def Rises (ts : List Token) : Prop := ∃ d, rise 0 ts = some d

theorem Rises.append {ts us : List Token} (ht : Rises ts) (hu : Rises us) : Rises (ts ++ us) := by
  obtain ⟨d, hd⟩ := ht
  obtain ⟨e, he⟩ := hu
  have := rise_add he d
  rw [Nat.zero_add] at this
  exact ⟨e + d, by rw [rise_append, hd, Option.bind_some, this]⟩

theorem rise_bare (depth : Nat) (ts : List Token) : rise depth (ts.map Token.bare) = rise depth ts := by
  induction ts generalizing depth with
  | nil => rfl
  | cons t ts ih => exact congrArg (ite _ _) (ih (typeDepth depth t))

theorem rise_of_walk {stops : List String} {depth d : Nat} {ts : List Token} (h : walk stops depth ts = some d) :
    rise depth ts = some d := by
  induction ts generalizing depth with
  | nil => exact h
  | cons t ts ih =>
    rw [walk] at h
    split at h
    · cases h
    · next hc =>
      rw [rise, if_neg]
      · exact ih h
      · intro hx
        apply hc
        simp only [Token.closesType, Token.endsType, Bool.and_eq_true, Bool.or_eq_true] at hx ⊢
        refine ⟨hx.1, .inl ?_⟩
        rcases hx.2 with (h | h) | h <;> simp [h]

/-- A type that is open swallows what closes no bracket too often. -/
theorem split_of_rise {stops : List String} {depth d : Nat} {ts : List Token} (h : rise depth ts = some d) (more : Nat)
    (previous : Option Token) : splitType stops (depth + more + 1) previous ts = (ts, []) := by
  induction ts generalizing depth previous with
  | nil => rfl
  | cons t ts ih =>
    rw [rise] at h
    split at h
    · cases h
    · next hc =>
      have hd : typeDepth (depth + more + 1) t = typeDepth depth t + more + 1 := by
        rw [Nat.add_assoc, typeDepth_add hc, Nat.add_assoc]
      rw [splitType, if_neg (by simp), hd, ih h]

/-- A line break ends a type outside brackets, unless a dot or an arrow bridges it. -/
theorem split_broken {stops : List String} {last t : Token} (hn : t.newlineBefore = true)
    (hl : last.continuesType = false) (ht : t.continuesType = false) (rest : List Token) :
    splitType stops 0 (some last) (t :: rest) = ([], t :: rest) := by
  rw [splitType, if_pos]
  simp [Token.breaksType, hn, hl, ht]

/-! ### Braces -/

def NoBraces (ts : List Token) : Prop := ∀ t ∈ ts, t.kind ≠ .leftBrace ∧ t.kind ≠ .rightBrace

theorem noBraces_nil : NoBraces [] := nofun

theorem noBraces_cons {t : Token} {ts : List Token} :
    NoBraces (t :: ts) ↔ (t.kind ≠ .leftBrace ∧ t.kind ≠ .rightBrace) ∧ NoBraces ts :=
  List.forall_mem_cons

theorem NoBraces.append {ts us : List Token} (ht : NoBraces ts) (hu : NoBraces us) : NoBraces (ts ++ us) := by
  intro t hm
  rcases List.mem_append.1 hm with hm | hm
  · exact ht t hm
  · exact hu t hm

theorem noBraces_bare {ts : List Token} (h : NoBraces (ts.map Token.bare)) : NoBraces ts :=
  fun t ht => h t.bare (List.mem_map_of_mem ht)

theorem split_of_noBraces {ts : List Token} (h : NoBraces ts) {closer : Token} (hc : closer.kind = .rightBrace)
    (rest : List Token) :
    splitGroup .leftBrace .rightBrace 0 (ts ++ closer :: rest) = some (ts ++ [closer], rest) := by
  induction ts with
  | nil => simp [splitGroup, hc]
  | cons t ts ih =>
    obtain ⟨hl, hr⟩ := h t List.mem_cons_self
    rw [List.cons_append, splitGroup, if_neg hl, if_neg hr, ih fun u hu => h u (List.mem_cons_of_mem _ hu)]
    rfl

/-! ### Types that nest their brackets -/

/-- True if the tokens close the brackets of `unclosed`, which lists their closing marks from the inside out, and all
that they open themselves, if they have no braces, and if nothing outside brackets ends a type. -/
def nests : List TokenKind → List Token → Bool
  | unclosed, [] => unclosed.isEmpty
  | unclosed, t :: ts =>
    match t.kind with
    | .leftParen => nests (.rightParen :: unclosed) ts
    | .leftBracket => nests (.rightBracket :: unclosed) ts
    | .leftAngle => nests (.rightAngle :: unclosed) ts
    | .rightParen | .rightBracket | .rightAngle => unclosed.head? == some t.kind && nests unclosed.tail ts
    | .leftBrace | .rightBrace => false
    | _ => (!unclosed.isEmpty || !t.endsType) && nests unclosed ts

/-- The steps of nesting: a bracket opens, the innermost bracket is closed, or something else stands there. -/
theorem nests_cases {unclosed : List TokenKind} {t : Token} {ts : List Token} (h : nests unclosed (t :: ts) = true) :
    (∃ closer, nests (closer :: unclosed) ts = true ∧
        ((t.kind = .leftParen ∧ closer = .rightParen) ∨ (t.kind = .leftBracket ∧ closer = .rightBracket) ∨
          (t.kind = .leftAngle ∧ closer = .rightAngle))) ∨
      (∃ outer, unclosed = t.kind :: outer ∧ nests outer ts = true ∧
        (t.kind = .rightParen ∨ t.kind = .rightBracket ∨ t.kind = .rightAngle)) ∨
      (nests unclosed ts = true ∧ (unclosed = [] → t.endsType = false) ∧ t.opensBracket = false ∧
        t.closesBracket = false ∧ t.kind ≠ .leftAngle ∧ t.kind ≠ .rightAngle) := by
  rw [nests] at h
  cases hk : t.kind <;> rw [hk] at h <;> dsimp only at h
  case leftParen => exact .inl ⟨_, h, .inl ⟨rfl, rfl⟩⟩
  case leftBracket => exact .inl ⟨_, h, .inr (.inl ⟨rfl, rfl⟩)⟩
  case leftAngle => exact .inl ⟨_, h, .inr (.inr ⟨rfl, rfl⟩)⟩
  case leftBrace => cases h
  case rightBrace => cases h
  case rightParen | rightBracket | rightAngle =>
    rw [Bool.and_eq_true, beq_iff_eq] at h
    obtain ⟨hh, h⟩ := h
    obtain ⟨outer, rfl⟩ := List.head?_eq_some_iff.1 hh
    exact .inr (.inl ⟨outer, rfl, h, by simp⟩)
  all_goals
    rw [Bool.and_eq_true] at h
    obtain ⟨he, h⟩ := h
    refine .inr (.inr ⟨h, ?_, by simp [Token.opensBracket, hk], by simp [Token.closesBracket, hk], by simp, by simp⟩)
    rintro rfl
    simpa using he

theorem nests_bare (unclosed : List TokenKind) (ts : List Token) :
    nests unclosed (ts.map Token.bare) = nests unclosed ts := by
  induction ts generalizing unclosed with
  | nil => rfl
  | cons t ts ih =>
    rw [List.map_cons, nests, nests, ih, ih, ih, ih, ih]
    rfl

theorem nests_append {unclosed : List TokenKind} {ts us : List Token} (ht : nests unclosed ts = true)
    (hu : nests [] us = true) : nests unclosed (ts ++ us) = true := by
  induction ts generalizing unclosed with
  | nil =>
    rw [nests, List.isEmpty_iff] at ht
    rwa [ht]
  | cons t ts ih =>
    rw [List.cons_append]
    rw [nests] at ht ⊢
    cases hk : t.kind <;> rw [hk] at ht <;> dsimp only at ht ⊢
    case leftParen | leftBracket | leftAngle => exact ih ht
    case leftBrace | rightBrace => exact ht
    all_goals
      rw [Bool.and_eq_true] at ht ⊢
      exact ⟨ht.1, ih ht.2⟩

theorem nests_noBraces {unclosed : List TokenKind} {ts : List Token} (h : nests unclosed ts = true) : NoBraces ts := by
  induction ts generalizing unclosed with
  | nil => nofun
  | cons t ts ih =>
    intro u hu
    rcases List.mem_cons.1 hu with rfl | hu
    · rcases nests_cases h with ⟨closer, -, hk⟩ | ⟨outer, -, -, hk⟩ | ⟨-, -, ho, hc, -⟩
      · rcases hk with ⟨hk, -⟩ | ⟨hk, -⟩ | ⟨hk, -⟩ <;> simp [hk]
      · rcases hk with hk | hk | hk <;> simp [hk]
      · simp only [Token.opensBracket, Token.closesBracket, Bool.or_eq_false_iff, beq_eq_false_iff_ne] at ho hc
        exact ⟨ho.1.1, hc.1.1⟩
    · rcases nests_cases h with ⟨closer, h, -⟩ | ⟨outer, -, h, -⟩ | ⟨h, -⟩
      · exact ih h u hu
      · exact ih h u hu
      · exact ih h u hu

theorem nests_rise {unclosed : List TokenKind} {ts : List Token} (h : nests unclosed ts = true) :
    rise unclosed.length ts = some 0 := by
  induction ts generalizing unclosed with
  | nil =>
    rw [nests, List.isEmpty_iff] at h
    rw [h]
    rfl
  | cons t ts ih =>
    rw [rise]
    rcases nests_cases h with ⟨closer, h, hk⟩ | ⟨outer, rfl, h, hk⟩ | ⟨h, -, ho, hc, hl, hr⟩
    · have hd : typeDepth unclosed.length t = (closer :: unclosed).length := by
        rcases hk with ⟨hk, -⟩ | ⟨hk, -⟩ | ⟨hk, -⟩ <;> simp [typeDepth, hk]
      rw [if_neg, hd, ih h]
      rcases hk with ⟨hk, -⟩ | ⟨hk, -⟩ | ⟨hk, -⟩ <;> simp [Token.closesType, hk]
    · have hd : typeDepth (t.kind :: outer).length t = outer.length := by
        rcases hk with hk | hk | hk <;> simp [typeDepth, hk]
      rw [if_neg (by simp), hd, ih h]
    · simp only [Token.opensBracket, Token.closesBracket, Bool.or_eq_false_iff, beq_eq_false_iff_ne] at ho hc
      have hd : typeDepth unclosed.length t = unclosed.length := by simp [typeDepth, ho, hc, hl, hr]
      rw [if_neg, hd, ih h]
      simp [Token.closesType, hc, hr]

/-- A type that nests its brackets is taken as a whole, up to a word at which types stop. -/
theorem nests_split {stops : List String} {unclosed : List TokenKind} {ts : List Token} (h : nests unclosed ts = true)
    (hn : ∀ t ∈ ts, t.newlineBefore = false) (previous : Option Token) (rest : List Token) :
    (splitType stops unclosed.length previous (ts ++ rest) =
        (ts ++ (splitType stops 0 (ts.getLast?.or previous) rest).1,
          (splitType stops 0 (ts.getLast?.or previous) rest).2)) ∨
      ∃ front t back, ts = front ++ t :: back ∧ t.isOneOf stops = true ∧
        splitType stops unclosed.length previous (ts ++ rest) = (front, t :: back ++ rest) := by
  induction ts generalizing unclosed previous with
  | nil =>
    rw [nests, List.isEmpty_iff] at h
    rw [h]
    exact .inl rfl
  | cons t ts ih =>
    have hr := hn t List.mem_cons_self
    have hb : t.breaksType previous = false := by
      cases previous <;> simp [Token.breaksType, hr]
    have hl : (t :: ts).getLast?.or previous = ts.getLast?.or (some t) := by
      rw [List.getLast?_cons]
      cases ts.getLast? <;> rfl
    have hstep : ∃ inner, nests inner ts = true ∧ typeDepth unclosed.length t = inner.length ∧
        (unclosed = [] → t.endsType = false) := by
      rcases nests_cases h with ⟨closer, h, hk⟩ | ⟨outer, rfl, h, hk⟩ | ⟨h, he, ho, hc, hl, hr⟩
      · refine ⟨_, h, ?_, ?_⟩
        · rcases hk with ⟨hk, -⟩ | ⟨hk, -⟩ | ⟨hk, -⟩ <;> simp [typeDepth, hk]
        · rcases hk with ⟨hk, -⟩ | ⟨hk, -⟩ | ⟨hk, -⟩ <;> simp [Token.endsType, hk]
      · refine ⟨outer, h, ?_, fun hx => absurd hx (List.cons_ne_nil _ _)⟩
        rcases hk with hk | hk | hk <;> simp [typeDepth, hk]
      · simp only [Token.opensBracket, Token.closesBracket, Bool.or_eq_false_iff, beq_eq_false_iff_ne] at ho hc
        exact ⟨unclosed, h, by simp [typeDepth, ho, hc, hl, hr], he⟩
    obtain ⟨inner, h', hd, he⟩ := hstep
    rw [List.cons_append, splitType]
    by_cases hs : unclosed = [] ∧ t.isOneOf stops = true
    · right
      refine ⟨[], t, ts, rfl, hs.2, ?_⟩
      rw [if_pos (by simp [hs])]
      rfl
    · rw [if_neg, hd, hl]
      · rcases ih h' (fun u hu => hn u (List.mem_cons_of_mem _ hu)) (some t) with hi | ⟨front, u, back, rfl, hu, hi⟩
        · left
          rw [hi]
          rfl
        · right
          refine ⟨t :: front, u, back, rfl, hu, ?_⟩
          rw [hi]
      · rw [hb, Bool.or_false, Bool.and_eq_true, decide_eq_true_eq, List.length_eq_zero_iff, Bool.or_eq_true]
        rintro ⟨hz, hx | hx⟩
        · rw [he hz] at hx
          cases hx
        · exact hs ⟨hz, hx⟩

/-- Inside brackets a statement goes on over a type that nests its brackets. -/
theorem nests_statement {unclosed : List TokenKind} {ts : List Token} (h : nests unclosed ts = true) {depth : Int}
    (hd : 0 < depth) (rest : List Token) :
    afterStatement (depth + (unclosed.countP (· != .rightAngle) : Nat)) false (ts ++ rest) =
      afterStatement depth false rest := by
  induction ts generalizing unclosed with
  | nil =>
    rw [nests, List.isEmpty_iff] at h
    rw [h, List.countP_nil, Int.natCast_zero, Int.add_zero, List.nil_append]
  | cons t ts ih =>
    have hz : ¬depth + (unclosed.countP (· != .rightAngle) : Nat) = 0 := by omega
    rw [List.cons_append, afterStatement_inside hz]
    rcases nests_cases h with ⟨closer, h, hk⟩ | ⟨outer, rfl, h, hk⟩ | ⟨h, -, ho, hc, -, -⟩
    · rw [← ih h]
      rcases hk with ⟨hk, rfl⟩ | ⟨hk, rfl⟩ | ⟨hk, rfl⟩ <;>
        simp [statementDepth, Token.opensBracket, Token.closesBracket, hk, Int.add_assoc]
    · rw [← ih h]
      rcases hk with hk | hk | hk <;>
        simp [statementDepth, Token.opensBracket, Token.closesBracket, hk]
      · congr 1
        omega
      · congr 1
        omega
    · rw [statementDepth, ho, hc]
      exact ih h

/-! ### Types taken apart -/

theorem TypeSpelling.begins {stops : List String} {text : String} {es : List Element} {tail : List Char}
    (h : TypeSpelling stops text es tail) : text.toList.head?.any (!isBlank ·) = true := by
  obtain ⟨kind, cs, more, rfl⟩ := h.starts
  obtain ⟨c, ds, ht, hb⟩ := head_of_fits (h.fits [] rfl).1
  obtain rfl : cs = c :: ds := ht
  have hc : isBlank c = false := Bool.eq_false_iff.2 fun hx => nomatch hb.2 hx
  rw [← h.flatten, List.flatMap_cons, List.cons_append, List.cons_append, List.head?_cons, Option.any_some, hc]
  rfl

theorem TypeSpelling.rises {stops : List String} {text : String} {es : List Element} {tail : List Char}
    (h : TypeSpelling stops text es tail) : Rises (bareTokens es) := by
  obtain ⟨d, hw, -⟩ := h.depth
  exact ⟨d, rise_of_walk hw⟩

/-- A type without comments is read as it is spelled, at the end or before anything that ends a type. -/
theorem reads_type {stops : List String} {text : String} {es fs : List Element} {ts : List Token}
    (h : TypeSpelling stops text es []) (hr : Reads false (es ++ fs) ts) :
    ∃ vs, Reads false fs vs ∧
      (vs.head?.all (fun v => v.endsType || v.isOneOf stops) = true → (typeText stops).run ts = .ok (text, vs)) := by
  have hn : es ≠ [] := by
    obtain ⟨kind, cs, more, rfl⟩ := h.starts
    exact List.cons_ne_nil _ _
  have hend := endsInLexeme_of_last hn (h.ends rfl)
  obtain ⟨us, vs, rfl, hu, hv⟩ := reads_append hr hend
  refine ⟨vs, hv, fun hx => ?_⟩
  have hflat := h.flatten
  rw [List.append_nil] at hflat
  obtain ⟨d, hw, hd⟩ := h.depth
  rw [hd rfl, ← reads_bare hu, walk_bare] at hw
  have hs := split_of_walk hw (reads_unbroken hu (hflat ▸ h.line)) none vs
  have hz : splitType stops 0 (us.getLast?.or none) vs = ([], vs) := by
    cases vs with
    | nil => rfl
    | cons v vs =>
      rw [List.head?_cons, Option.all_some, Bool.or_eq_true] at hx
      rw [splitType, if_pos]
      rcases hx with hx | hx <;> simp [hx]
  rw [hz, List.append_nil] at hs
  have hp := reads_phrase hu h.starts hend
  rw [hflat, h.isCollapsed, String.ofList_toList] at hp
  obtain ⟨kind, cs, more, rfl⟩ := h.starts
  obtain ⟨u, us', rfl, -⟩ := reads_lexeme hu
  rw [typeText, phraseBy_eq_ok]
  exact ⟨u, us', hs, hp.symm⟩

/-- A comment in a type ends the line. The type goes on with what follows the line if brackets are open, or if an arrow
or a dot bridges the line break. -/
theorem reads_commented_type {stops : List String} {text : String} {es fs : List Element} {tail line margin : List Char}
    {ts : List Token} (h : TypeSpelling stops text es tail)
    (hr : Reads false (es ++ (commented line ++ .lineBreak margin :: fs)) ts) (hf : Rises (bareTokens fs)) :
    ∃ us vs, ts = us ++ vs ∧ us ≠ [] ∧ Reads true fs vs ∧
      (splitType stops 0 none (us ++ vs) = (us ++ vs, []) ∨
        ∃ last, splitType stops 0 none (us ++ vs) =
          (us ++ (splitType stops 0 (some last) vs).1, (splitType stops 0 (some last) vs).2)) := by
  obtain ⟨us, vs, before, rfl, hu, hv⟩ := reads_split hr
  have hus : us ≠ [] := by
    obtain ⟨kind, cs, more, rfl⟩ := h.starts
    obtain ⟨u, us', rfl, -⟩ := reads_lexeme hu
    exact List.cons_ne_nil _ _
  refine ⟨us, vs, rfl, hus, reads_break hv, ?_⟩
  obtain ⟨d, hw, -⟩ := h.depth
  rw [← reads_bare hu, walk_bare] at hw
  have hl : '\n' ∉ es.flatMap Element.text := fun hx => h.line (h.flatten ▸ List.mem_append_left _ hx)
  have hs := split_of_walk hw (reads_unbroken hu hl) none vs
  cases d with
  | zero =>
    obtain ⟨last, hlast⟩ : ∃ last, us.getLast? = some last := ⟨_, List.getLast?_eq_some_getLast hus⟩
    rw [hlast, Option.some_or] at hs
    exact .inr ⟨last, hs⟩
  | succ d =>
    obtain ⟨e, he⟩ := hf
    rw [← reads_bare (reads_break hv), rise_bare] at he
    have hx : splitType stops (0 + d + 1) (us.getLast?.or none) vs = (vs, []) := split_of_rise he d (us.getLast?.or none)
    rw [Nat.zero_add] at hx
    rw [hx] at hs
    exact .inl hs

end TestHooks.Swift
