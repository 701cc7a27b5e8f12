import TestHooks.Proofs.SingleMember

/-!
# Types that are called

In a type angle brackets are counted, in an expression they are not. So the call of a type is read as one value if and
only if no token outside the other brackets ends an expression (`called_type`). Of the types of the grammar these are
the ones with a single argument in each list of generic arguments outside brackets (`undivided_type`).
-/

namespace TestHooks.Swift

open TestHooks.Reader TestHooks.Text Reader

/-! ### Where an expression ends -/

/-- No token outside parentheses, square brackets and braces ends an expression, and all of these are closed. -/
structure Undivided (ts : List Token) : Prop where
  goesOn : ∀ before t after, ts = before ++ t :: after → before.foldl expressionDepth 0 = 0 →
    t.endsExpression before.isEmpty after = false
  closed : ts.foldl expressionDepth 0 = 0

theorem forall_split_cons {α : Type} {x : α} {xs : List α} {p : List α → α → List α → Prop} :
    (∀ before y after, x :: xs = before ++ y :: after → p before y after) ↔
      p [] x xs ∧ ∀ before y after, xs = before ++ y :: after → p (x :: before) y after := by
  constructor
  · intro h
    exact ⟨h [] x xs rfl, fun before y after he => h (x :: before) y after (by rw [he]; rfl)⟩
  · rintro ⟨hfirst, hothers⟩ before y after he
    cases before with
    | nil =>
      obtain ⟨rfl, rfl⟩ := List.cons.inj he
      exact hfirst
    | cons z before =>
      obtain ⟨rfl, rfl⟩ := List.cons.inj he
      exact hothers before y after rfl

/-- The tokens go on as an expression, before `rest` and inside `depth` brackets. -/
def GoesOver (depth : Nat) (isFirst : Bool) (ts rest : List Token) : Prop :=
  ∀ before t after, ts = before ++ t :: after → before.foldl expressionDepth depth = 0 →
    t.endsExpression (isFirst && before.isEmpty) (after ++ rest) = false

theorem goesOver_cons {depth : Nat} {isFirst : Bool} {t : Token} {ts rest : List Token} :
    GoesOver depth isFirst (t :: ts) rest ↔ (depth = 0 → t.endsExpression isFirst (ts ++ rest) = false) ∧
      GoesOver (expressionDepth depth t) false ts rest := by
  unfold GoesOver
  rw [forall_split_cons]
  simp

section

variable {depth : Nat} {isFirst : Bool} {ts rest : List Token}

/-- An expression is read over tokens just if they go on as one. -/
theorem splitExpression_over :
    ts <+: (splitExpression depth isFirst (ts ++ rest)).1 ↔ GoesOver depth isFirst ts rest := by
  induction ts generalizing depth isFirst with
  | nil => simp [GoesOver]
  | cons t ts ih =>
    rw [goesOver_cons, ← ih, List.cons_append, splitExpression]
    split
    · next h =>
      rw [Bool.and_eq_true, decide_eq_true_eq] at h
      simp [h.1, h.2]
    · next h =>
      rw [Bool.and_eq_true, decide_eq_true_eq, not_and, Bool.not_eq_true] at h
      simp only [List.cons_prefix_cons, true_and]
      exact ⟨fun hp => ⟨h, hp⟩, And.right⟩

theorem splitExpression_through (h : GoesOver depth isFirst ts rest) : splitExpression depth isFirst (ts ++ rest) =
    (ts ++ (splitExpression (ts.foldl expressionDepth depth) (isFirst && ts.isEmpty) rest).1,
      (splitExpression (ts.foldl expressionDepth depth) (isFirst && ts.isEmpty) rest).2) := by
  induction ts generalizing depth isFirst with
  | nil => simp
  | cons t ts ih =>
    obtain ⟨hfirst, hothers⟩ := goesOver_cons.1 h
    have hstay : ¬(decide (depth = 0) && t.endsExpression isFirst (ts ++ rest)) = true := by
      rw [Bool.and_eq_true, decide_eq_true_eq, not_and, Bool.not_eq_true]
      exact hfirst
    rw [List.cons_append, splitExpression, if_neg hstay, ih hothers]
    simp

end

/-- Only a word behind a brace is looked at. -/
theorem endsExpression_before {isFirst : Bool} {t u : Token} (hu : u.kind ≠ .identifier) (after rest : List Token) :
    t.endsExpression isFirst (after ++ u :: rest) = t.endsExpression isFirst after := by
  have hhead : (after ++ u :: rest).head?.any (·.isOneOf ["willSet", "didSet"]) =
      after.head?.any (·.isOneOf ["willSet", "didSet"]) := by
    cases after with
    | nil => simp [Token.isOneOf, hu]
    | cons v after => rfl
  rw [Token.endsExpression, Token.endsExpression, hhead]

section Calls

variable {o c : Token} (ho : o.kind = .leftParen) (hc : c.kind = .rightParen) {rest : List Token}
  (hr : ∃ v vs, rest = v :: vs ∧ v.endsExpression false vs = true)

include ho hc hr

/-- Two parentheses end an expression in which nothing is left open. -/
theorem splitExpression_call (depth : Nat) (isFirst : Bool) :
    splitExpression depth isFirst (o :: c :: rest) = ([o, c], rest) ↔ depth = 0 := by
  obtain ⟨v, vs, rfl, hv⟩ := hr
  have hopen : o.endsExpression isFirst (c :: v :: vs) = false := by
    simp [Token.endsExpression, Token.closesBracket, Token.startsDeclaration, Token.isOneOf, ho]
  have hdepth : expressionDepth depth o = depth + 1 ∧ expressionDepth (depth + 1) c = depth := by
    simp [expressionDepth, Token.opensBracket, Token.closesBracket, ho, hc]
  rw [splitExpression, if_neg (by simp [hopen]), hdepth.1, splitExpression, if_neg (by simp), hdepth.2]
  constructor
  · intro h
    have hlast : (splitExpression depth false (v :: vs)).1 = [] := by simpa using congrArg Prod.fst h
    rw [splitExpression] at hlast
    split at hlast
    · next hx => exact of_decide_eq_true (Bool.and_eq_true_iff.1 hx).1
    · cases hlast
  · rintro rfl
    rw [splitExpression, if_pos (by simp [hv])]

/-- The call of a type is one expression if and only if the type is undivided. -/
theorem splitExpression_called (ts : List Token) :
    splitExpression 0 true (ts ++ o :: c :: rest) = (ts ++ [o, c], rest) ↔ Undivided ts := by
  have hover : GoesOver 0 true ts (o :: c :: rest) ↔ ∀ before t after, ts = before ++ t :: after →
      before.foldl expressionDepth 0 = 0 → t.endsExpression before.isEmpty after = false := by
    unfold GoesOver
    simp only [endsExpression_before (show o.kind ≠ .identifier by simp [ho]), Bool.true_and]
  have hend (depth : Nat) (isFirst : Bool) := splitExpression_call ho hc hr depth isFirst
  constructor
  · intro h
    have hgoes := splitExpression_over.1 (show ts <+: (splitExpression 0 true (ts ++ o :: c :: rest)).1 by
      rw [h]; exact List.prefix_append _ _)
    rw [splitExpression_through hgoes, Prod.mk.injEq, List.append_cancel_left_eq] at h
    exact ⟨hover.1 hgoes, (hend _ _).1 (Prod.ext h.1 h.2)⟩
  · intro h
    rw [splitExpression_through (hover.2 h.goesOn), h.closed, (hend _ _).2 rfl]

end Calls

/-! ### Phrases of a prefix -/

theorem collapse_visible (inRun : Bool) (cs : List Char) :
    (collapseFrom inRun cs).filter (!isBlank ·) = cs.filter (!isBlank ·) := by
  induction cs generalizing inRun with
  | nil => rfl
  | cons c cs ih =>
    have hspace : isBlank ' ' = true := by decide
    rw [collapseFrom]
    split
    · next hc => split <;> simp [hc, hspace, ih]
    · next hc => simp [hc, ih]

theorem phrase_visible (t : Token) (ts : List Token) : (phrase (t :: ts)).toList.filter (!isBlank ·) =
    (t.text.toList ++ Token.written ts).filter (!isBlank ·) := by
  rw [phrase, String.toList_ofList]
  exact collapse_visible _ _

/-- Each token makes a phrase longer. -/
theorem eq_of_phrase_eq {ts us : List Token} (hp : ts <+: us) (hl : ∀ t ∈ us, t.Lexed) (h : phrase ts = phrase us) :
    ts = us := by
  obtain ⟨more, rfl⟩ := hp
  cases more with
  | nil => rw [List.append_nil]
  | cons u more =>
    have hu := hl u (by simp)
    cases ts with
    | nil => exact absurd h.symm (phrase_ne_empty hu.text_ne_empty)
    | cons t ts =>
      obtain ⟨c, cs, hc, hb⟩ := hu.text_eq_cons
      have hv : (phrase (t :: ts)).toList.filter (!isBlank ·) =
          (phrase (t :: (ts ++ u :: more))).toList.filter (!isBlank ·) := by rw [h]; rfl
      rw [phrase_visible, phrase_visible, Token.written, Token.written, List.flatMap_append, ← List.append_assoc,
        List.filter_append (_ ++ _), List.self_eq_append_right, List.flatMap_cons, hc] at hv
      simp [hb] at hv

/-- A phrase is a prefix that is known by its text. -/
theorem split_of_phrase {split : List Token → List Token × List Token} {h : ∀ ts, (split ts).1 ++ (split ts).2 = ts}
    {missing : Cause} {taken rest left : List Token} (hl : ∀ t ∈ taken ++ rest, t.Lexed)
    (hrun : (phraseBy split h missing).run (taken ++ rest) = .ok (phrase taken, left)) :
    split (taken ++ rest) = (taken, rest) := by
  obtain ⟨t, more, hs, hp⟩ := phraseBy_eq_ok.1 hrun
  have hwhole : (t :: more) ++ left = taken ++ rest := by
    have := h (taken ++ rest)
    rwa [hs] at this
  have hlexed {us : List Token} (hu : us <+: taken ++ rest) : ∀ t ∈ us, t.Lexed := fun t ht => hl t (hu.subset ht)
  have hfirst : t :: more <+: taken ++ rest := ⟨left, hwhole⟩
  have hsecond : taken <+: taken ++ rest := List.prefix_append _ _
  have htaken : t :: more = taken := by
    rcases List.prefix_or_prefix_of_prefix hfirst hsecond with hx | hx
    · exact eq_of_phrase_eq hx (hlexed hsecond) hp.symm
    · exact (eq_of_phrase_eq hx (hlexed hfirst) hp).symm
  rw [htaken, List.append_cancel_left_eq] at hwhole
  rw [hs, htaken, hwhole]

/-! ### Types in the places of values -/

namespace Excerpt

variable (x : Excerpt)

def text : String := String.ofList (x.elements.flatMap Element.text)

def tokens : List Token := Token.ofElements .origin [] x.elements

end Excerpt

def callElements : List Element := [.mark .leftParen '(', .mark .rightParen ')']

/-- The call of a type as a phrase keeps it. -/
def Excerpt.called (x : Excerpt) : String := spanText (x.elements ++ callElements)

theorem excerpt_stands (x : Excerpt) : Stands x.elements := fun _ ha => x.fits ha

theorem called_stands (x : Excerpt) : Stands (x.elements ++ callElements) :=
  (excerpt_stands x).append ((stands_nil.mark rfl (by decide)).mark rfl (by decide)) (apart_cons _ (by decide))

/-- The tokens of a type that is called. -/
structure Called (x : Excerpt) (us : List Token) (o c : Token) : Prop where
  reads : Reads false x.elements us
  opens : o.kind = .leftParen
  closes : c.kind = .rightParen
  phrased : phrase (us ++ [o, c]) = x.called

theorem reads_called {x : Excerpt} {fs : List Element} {ts : List Token}
    (h : Reads false (x.elements ++ callElements ++ fs) ts) :
    ∃ us o c vs, ts = us ++ [o, c] ++ vs ∧ Called x us o c ∧ Reads false fs vs := by
  have hends : EndsInLexeme (x.elements ++ callElements) :=
    ⟨x.elements ++ [.mark .leftParen '('], .rightParen, [')'], by simp [callElements, Element.mark]⟩
  obtain ⟨ts, vs, rfl, hcall, hv⟩ := reads_append h hends
  have hstarts : ∃ kind cs more, x.elements ++ callElements = ⟨.lexeme kind, cs⟩ :: more := by
    obtain ⟨kind, cs, more, he⟩ := x.starts
    exact ⟨kind, cs, more ++ callElements, by rw [he]; rfl⟩
  have hphrase := reads_phrase hcall hstarts hends
  obtain ⟨us, ts, rfl, hu, h⟩ := reads_append hcall x.ends
  obtain ⟨o, ts, rfl, ho, h⟩ := reads_mark h
  obtain ⟨c, ts, rfl, hc, h⟩ := reads_mark h
  obtain rfl := reads_nil.1 h
  exact ⟨us, o, c, vs, rfl, ⟨hu, ho, hc, hphrase⟩, hv⟩

theorem undivided_of_like {ts us : List Token} (h : List.Forall₂ Token.Like ts us) (hts : Undivided ts) :
    Undivided us := by
  -- Put before a call and a closing mark, both are split where they have the same length.
  let o : Token := ⟨.leftParen, "(", "", .origin⟩
  let c : Token := ⟨.rightParen, ")", "", .origin⟩
  have hr : ∃ v vs, [c] = v :: vs ∧ v.endsExpression false vs = true := ⟨c, [], rfl, rfl⟩
  rw [← splitExpression_called (o := o) (c := c) rfl rfl hr] at hts ⊢
  have hlike : List.Forall₂ Token.Like (ts ++ o :: c :: [c]) (us ++ o :: c :: [c]) :=
    List.rel_append h (List.forall₂_same.2 fun _ _ => ⟨rfl, rfl, rfl⟩)
  have hlength := splitExpression_like hlike 0 true
  have hwhole := splitExpression_append 0 true (us ++ o :: c :: [c])
  rw [hts, List.length_append, h.length_eq, ← List.length_append] at hlength
  rw [show us ++ o :: c :: [c] = us ++ [o, c] ++ [c] by simp] at hwhole hlength ⊢
  obtain ⟨hfirst, hsecond⟩ := List.append_inj hwhole hlength.symm
  exact Prod.ext hfirst hsecond

theorem undivided_tokens {x : Excerpt} {us : List Token} (h : Reads false x.elements us) :
    Undivided us ↔ Undivided x.tokens :=
  ⟨undivided_of_like (reads_like h (reads_origin x.elements)), undivided_of_like (reads_like (reads_origin x.elements) h)⟩

section

variable {x : Excerpt} {us : List Token} {o c v : Token} {vs : List Token} (h : Called x us o c)
  (hv : v.endsExpression false vs = true)

include h hv

/-- The call of an undivided type is read as a value. -/
theorem expression_called (hu : Undivided x.tokens) :
    expressionText.run (us ++ [o, c] ++ v :: vs) = .ok (x.called, v :: vs) := by
  have hsplit := (splitExpression_called h.opens h.closes ⟨v, vs, rfl, hv⟩ us).2 ((undivided_tokens h.reads).2 hu)
  obtain ⟨t, more, ht⟩ := List.exists_cons_of_ne_nil (show us ++ [o, c] ≠ [] by simp)
  rw [← h.phrased, expressionText, phraseBy_eq_ok]
  exact ⟨t, more, by rw [← ht, ← hsplit, List.append_assoc]; rfl, by rw [ht]⟩

/-- Only the call of an undivided type is. -/
theorem undivided_of_expression (hl : ∀ t ∈ us ++ [o, c] ++ v :: vs, t.Lexed) {left : List Token}
    (hrun : expressionText.run (us ++ [o, c] ++ v :: vs) = .ok (x.called, left)) : Undivided x.tokens := by
  rw [← h.phrased] at hrun
  have hsplit := split_of_phrase hl hrun
  rw [List.append_assoc] at hsplit
  exact (undivided_tokens h.reads).1 ((splitExpression_called h.opens h.closes ⟨v, vs, rfl, hv⟩ us).1 hsplit)

end

/-! ### Variables -/

theorem brace_ends {k : Token} (hk : k.kind = .rightBrace) (isFirst : Bool) (ts : List Token) :
    k.endsExpression isFirst ts = true := by
  simp [Token.endsExpression, Token.closesBracket, hk]

def equalsElement : Element := ⟨.lexeme .operator, ['=']⟩

theorem assignment_equals {t : Token} {broken : Bool} (h : t.Is .operator ['='] broken) : isAssignment t = true := by
  rw [isAssignment, h.kind, h.text]
  rfl

/-- A private variable is initialized with the call of a type if and only if the type is undivided. -/
theorem variable_called (x : Excerpt) : ReadsMember ("private var x = " ++ x.text ++ "()")
    (privateVariable ⟨"x", none, some x.called, none, false⟩) ↔ Undivided x.tokens := by
  have hstands := equals_stands (called_stands x) (x.begins.append _)
  obtain ⟨name, ts, hname, htext, h, hmember⟩ := reads_privateVariable hstands (apart_cons _ (by decide))
  have hspelled : "private var x" ++ String.ofList ((.space :: equalsElement :: .space ::
      (x.elements ++ callElements)).flatMap Element.text) = "private var x = " ++ x.text ++ "()" :=
    String.toList_inj.1 (by simp [Element.space, equalsElement, callElements, Element.mark, Excerpt.text])
  rw [← hspelled]
  obtain ⟨eq, ts, rfl, heq, hrest⟩ := reads_spaced h
  have hassign := assignment_equals heq
  have hlexed := reads_lexed (reads_space hrest) ((called_stands x).close [] rfl)
  obtain ⟨us, o, c, vs, rfl, hcall, hv⟩ := reads_called (reads_space hrest)
  obtain ⟨k, rfl, hk, -⟩ := reads_close hv
  constructor
  · intro hread
    obtain ⟨left, hrun⟩ := (hmember _).1 hread
    obtain ⟨text, after, block, hexpression, -, hb⟩ := (binding_initialized hname hassign).1 hrun
    obtain ⟨-, -, hcalled, -⟩ := Binding.mk.inj hb
    rw [← Option.some.inj hcalled] at hexpression
    exact undivided_of_expression hcall (brace_ends hk false []) hlexed hexpression
  · intro hu
    have hexpression := expression_called hcall (brace_ends hk false []) hu
    have hnone : (optionally (·.kind == .leftBrace) accessorBlock).run [k] = .ok (none, [k]) :=
      optionally_skip (by simp [hk])
    exact (hmember _).2 k hk
      ((binding_initialized hname hassign).2 ⟨_, _, none, hexpression, hnone, by rw [htext]⟩)

/-! ### Default values -/

theorem splitType_before {stops : List String} {depth : Nat} {previous : Option Token} {ts : List Token} {v w : Token}
    {vs ws : List Token} (h : splitType stops depth previous (ts ++ v :: vs) = (ts, v :: vs)) (hw : w.endsType = true) :
    splitType stops depth previous (ts ++ w :: ws) = (ts, w :: ws) := by
  induction ts generalizing depth previous with
  | nil =>
    rw [List.nil_append, splitType] at h ⊢
    split at h
    · next hx =>
      rw [Bool.and_eq_true] at hx
      rw [if_pos (by rw [hx.1, hw]; rfl)]
    · cases congrArg Prod.fst h
  | cons t ts ih =>
    rw [List.cons_append, splitType] at h ⊢
    split at h
    · cases congrArg Prod.fst h
    · next hx =>
      simp only [Prod.mk.injEq, List.cons.injEq, true_and] at h
      rw [if_neg hx, ih (Prod.ext h.1 h.2)]

theorem excerpt_phrase {x : Excerpt} {us : List Token} (h : Reads false x.elements us) :
    phrase us = spanText x.elements :=
  reads_phrase h x.starts x.ends

/-- A type that is read where a variable is annotated is read before a default value. -/
theorem type_before_value {x : Excerpt} (h : ReadsMember ("private var x: " ++ x.text)
    (privateVariable ⟨"x", some (spanText x.elements), none, none, false⟩)) {us rest : List Token} {eq : Token}
    (hu : Reads false x.elements us) (he : eq.endsType = true) :
    (typeText []).run (us ++ eq :: rest) = .ok (spanText x.elements, eq :: rest) := by
  have hstands := ((excerpt_stands x).space x.begins).mark (show TokenKind.mark? .colon = some ':' from rfl) (by decide)
  obtain ⟨name, ts, hname, -, hread, hmember⟩ := reads_privateVariable hstands (apart_cons _ (by decide))
  have hspelled : "private var x" ++ String.ofList ((.mark .colon ':' :: .space :: x.elements).flatMap Element.text) =
      "private var x: " ++ x.text :=
    String.toList_inj.1 (by simp [Element.space, Element.mark, Excerpt.text])
  obtain ⟨left, hrun⟩ := (hmember _).1 (hspelled ▸ h)
  obtain ⟨colon, ts, rfl, hcolon, hread⟩ := reads_mark hread
  obtain ⟨type, after, htype, hb⟩ := binding_annotated hname hcolon hrun
  obtain rfl := Option.some.inj hb
  have hlexed := reads_lexed (reads_space hread) ((excerpt_stands x).close [] rfl)
  obtain ⟨ws, vs, rfl, hw, hv⟩ := reads_append (reads_space hread) x.ends
  obtain ⟨k, rfl, hk, -⟩ := reads_close hv
  rw [← excerpt_phrase hw] at htype
  have hsplit : splitType [] 0 none (ws ++ [k]) = (ws, [k]) := split_of_phrase hlexed htype
  have hlike : List.Forall₂ Token.Like (ws ++ [k]) (us ++ [k]) :=
    List.rel_append (reads_like hw hu) (List.forall₂_same.2 fun _ _ => ⟨rfl, rfl, rfl⟩)
  -- What is known of the type before the closing brace is carried to these tokens, then to the mark behind them.
  have hlength := @splitType_like [] _ _ hlike 0 none none .none
  have hwhole := splitType_append [] 0 none (us ++ [k])
  rw [hsplit, (reads_like hw hu).length_eq] at hlength
  obtain ⟨hfirst, hsecond⟩ := List.append_inj hwhole hlength.symm
  have hbefore : splitType [] 0 none (us ++ eq :: rest) = (us, eq :: rest) :=
    splitType_before (Prod.ext hfirst hsecond) he
  obtain ⟨kind, cs, more, hx⟩ := x.starts
  rw [← excerpt_phrase hu]
  rw [hx] at hu
  obtain ⟨t, ts, rfl, -⟩ := reads_lexeme hu
  exact phraseBy_eq_ok.2 ⟨t, ts, hbefore, rfl⟩

/-! ### Functions -/

/-- The parameter `a` of a type, with the call of the type as its default value. -/
def Excerpt.defaulted (x : Excerpt) : Parameter := ⟨"a", none, spanText x.elements, some x.called⟩

/-- What stands behind the default value of a function's first parameter. -/
def Routine.afterFirst (f : Routine) : List Element := slotsAfter f.slots ++ .mark .rightParen ')' :: f.tail

/-- A function with a further parameter before the others. -/
def defaultedElements (x : Excerpt) (f : Routine) : List Element :=
  f.name.element :: .mark .leftParen '(' :: .word "a".toList :: .mark .colon ':' :: .space :: (x.elements ++
    .space :: equalsElement :: .space :: (x.elements ++ callElements ++ f.afterFirst))

def defaultedText (x : Excerpt) (f : Routine) : String :=
  "func " ++ f.name.text ++ "(a: " ++ x.text ++ " = " ++ x.text ++ "()" ++
    String.ofList (f.afterFirst.flatMap Element.text)

def defaultedSignature (x : Excerpt) (f : Routine) : Signature :=
  { f.signature with parameters := x.defaulted :: f.slots.map Slot.parameter }

def defaultedFunction (x : Excerpt) (f : Routine) (q : Position) : Decl :=
  .function ⟨[], [], q⟩ (defaultedSignature x f)

theorem defaulted_stands (x : Excerpt) (f : Routine) : Stands (defaultedElements x f) := by
  have hslots : Stands (slotsAfter f.slots) :=
    stands_flatMap (fun s => ((slot_stands s).space (slot_starts s)).mark rfl (by decide))
      (fun _ => apart_cons _ (by decide)) _
  have hclose : Apart (.mark .rightParen ')' :: f.tail) := apart_cons _ (by decide)
  have hafter : Stands f.afterFirst := hslots.append ((tail_stands f).mark rfl (by decide)) hclose
  have hvalue := (called_stands x).append hafter ((slots_apart f.slots).append hclose)
  have htype := (excerpt_stands x).append (equals_stands hvalue ((x.begins.append _).append _)) (apart_cons _ (by decide))
  have hcolon := (htype.space (x.begins.append _)).mark (show TokenKind.mark? .colon = some ':' from rfl) (by decide)
  have hlabel := hcolon.word (name_of_plain (by decide : isPlainWord "a".toList = true)) (apart_cons _ (by decide))
  exact (hlabel.mark (show TokenKind.mark? .leftParen = some '(' from rfl) (by decide)).word f.name.isName
    (apart_cons _ (by decide))

theorem followsSlot_ends {ts : List Token} (h : FollowsSlot ts) :
    ∃ v vs, ts = v :: vs ∧ v.endsExpression false vs = true := by
  cases ts with
  | nil => cases h
  | cons v vs =>
    simp only [FollowsSlot, List.head?_cons, Option.any_some, Bool.or_eq_true, beq_iff_eq] at h
    refine ⟨v, vs, rfl, ?_⟩
    rcases h with hk | hk <;> simp [Token.endsExpression, Token.closesBracket, hk]

/-- The first parameter of a function is set to the call of its type if and only if the type is undivided. -/
theorem reads_defaulted {x : Excerpt} (hx : ReadsMember ("private var x: " ++ x.text)
    (privateVariable ⟨"x", some (spanText x.elements), none, none, false⟩)) (f : Routine) {broken : Bool}
    {fs : List Element} {ts : List Token} (h : Reads broken (defaultedElements x f ++ fs) ts) (hl : ∀ t ∈ ts, t.Lexed) :
    ∃ vs, Reads false fs vs ∧
      (∀ s left, function.run ts = .ok (s, left) → s.parameters.head? = some x.defaulted → Undivided x.tokens) ∧
        (Undivided x.tokens → Ended vs → function.run ts = .ok (defaultedSignature x f, vs)) := by
  simp only [defaultedElements, Routine.afterFirst, List.cons_append, List.append_assoc] at h
  obtain ⟨n, ts, rfl, hn, h⟩ := reads_lexeme h
  obtain ⟨o, ts, rfl, ho, h⟩ := reads_mark h
  obtain ⟨a, ts, rfl, ha, h⟩ := reads_lexeme h
  obtain ⟨colon, ts, rfl, hc, h⟩ := reads_mark h
  obtain ⟨ws, ts, rfl, hw, h⟩ := reads_append (reads_space h) x.ends
  obtain ⟨eq, ts, rfl, heq, h⟩ := reads_spaced h
  obtain ⟨us, p, c, after, rfl, hcall, h⟩ := reads_called (by simpa only [List.append_assoc] using reads_space h)
  obtain ⟨k, rest, hk, h, hfollows, hothers⟩ := reads_otherSlots f.slots h
  obtain ⟨vs, hv, hrun⟩ := reads_tail f h
  obtain ⟨v, more, rfl, hends⟩ := followsSlot_ends hfollows
  have hassign := assignment_equals heq
  have hends' : eq.endsType = true := by
    simp only [isAssignment, Bool.and_eq_true, beq_iff_eq] at hassign
    simp [Token.endsType, hassign]
  have htype := @type_before_value x hx ws (us ++ [p, c] ++ v :: more) eq hw hends'
  have htext : a.text = "a" := by rw [ha.text]; rfl
  have hfirst := @parameter_defaulted a colon eq _ _ (v :: more) _ (some x.defaulted) ha.kind hc hassign htype
  refine ⟨vs, hv, fun s left hread hhead => ?_, fun hu he => ?_⟩
  · obtain ⟨first, left, others, hclause, hs⟩ := function_clause hn.kind ho hread
    obtain ⟨value, hvalue, rfl⟩ := (parameter_defaulted ha.kind hc hassign htype).1 hclause
    rw [hs] at hhead
    obtain ⟨-, rfl⟩ : a.text = "a" ∧ value = x.called := by simpa [Excerpt.defaulted] using hhead
    have hsuffix : us ++ [p, c] ++ v :: more <:+ n :: o :: a :: colon :: (ws ++ eq :: (us ++ [p, c] ++ v :: more)) :=
      ⟨n :: o :: a :: colon :: (ws ++ [eq]), by simp⟩
    exact undivided_of_expression hcall hends (fun t ht => hl t (hsuffix.subset ht)) hvalue
  · have hclause := parameterClause_step ho hk
      (hfirst.2 ⟨_, expression_called hcall hends hu, by rw [htext]; rfl⟩) hothers
    rw [hrun he hn.kind ho hclause, hn.text, String.ofList_toList]
    simp [defaultedSignature, Routine.signature, List.filterMap_map]

/-- A function is declared with a type and its call as the first parameter if and only if the type is undivided. -/
theorem function_called {x : Excerpt} (hx : ReadsMember ("private var x: " ++ x.text)
    (privateVariable ⟨"x", some (spanText x.elements), none, none, false⟩)) (f : Routine) :
    ReadsMember (defaultedText x f) (defaultedFunction x f) ↔ Undivided x.tokens := by
  have hfunc : Name "func".toList := name_of_plain (by decide)
  have hspelled : (.word "func".toList :: .space :: defaultedElements x f).flatMap Element.text =
      (defaultedText x f).toList := by
    simp [defaultedElements, defaultedText, Identifier.element, Element.word, Element.space, Element.mark, equalsElement,
      callElements, Excerpt.text]
  have hstands := spaced_stands hfunc (defaulted_stands x f) (starts_word f.name.isName _)
  obtain ⟨ts, h, hmember⟩ := reads_member hspelled hstands (starts_word hfunc _)
  have hlexed := reads_lexed h (hstands.close [] rfl)
  obtain ⟨k, ts, rfl, hk, h⟩ := reads_lexeme h
  obtain ⟨vs, hv, hdivided, hread⟩ := reads_defaulted hx f (reads_space h) fun t ht => hlexed t (List.mem_cons_of_mem _ ht)
  obtain ⟨brace, rfl, hbrace, hended⟩ := reads_close hv
  have htext : k.text = "func" := by rw [hk.text]; rfl
  have hhead := headFrom_word hk.kind (by rw [htext]; decide) ts
  have hi := introducer_function hk.kind htext
  constructor
  · intro hfunction
    obtain ⟨q, left, hms⟩ := (hmember _).1 hfunction
    obtain ⟨first, after, others, hd, -, hfound⟩ := members_word hk.kind hms
    obtain ⟨s, hs, rfl⟩ := function_cases hk.kind hhead hk.kind htext hd
    obtain ⟨hdeclared, -⟩ := List.cons.inj hfound
    obtain ⟨-, rfl⟩ := Decl.function.inj hdeclared
    exact hdivided _ _ hs rfl
  · intro hu
    have hdeclared : declarationRun true k ts = .ok (some (defaultedFunction x f k.position), [brace]) := by
      refine declarationRun_flat (by simp [hk.kind]) hhead (by simp [hi]) ?_
      rw [hi, flatDeclaration, run_bind_eq_ok]
      exact ⟨_, _, hread hu hended, rfl⟩
    exact (hmember _).2 k.position
      (membersRun_member (by simp [hk.kind]) (by simp [hk.kind]) hdeclared (membersRun_close hbrace))

/-! ### Types of the grammar -/

mutual

/-- Each list of generic arguments outside parentheses and square brackets has a single argument. -/
def TypeTerm.isUnary : TypeTerm → Bool
  | .named _ _ arguments _ => isUnaryList arguments
  | .array _ _ | .dictionary _ _ _ | .tuple _ _ => true
  | .function _ _ result => result.isUnary

def isUnaryList : List TypeTerm → Bool
  | [] => true
  | t :: ts => ts.isEmpty && t.isUnary

end

/-- Undivided inside `depth` brackets, all of which are closed. -/
def Spans (depth : Nat) (isFirst : Bool) (ts : List Token) : Prop :=
  GoesOver depth isFirst ts [] ∧ ts.foldl expressionDepth depth = 0

theorem undivided_iff_spans (ts : List Token) : Undivided ts ↔ Spans 0 true ts := by
  simp only [Spans, GoesOver, Bool.true_and, List.append_nil]
  exact ⟨fun h => ⟨h.goesOn, h.closed⟩, fun h => ⟨h.1, h.2⟩⟩

section Spans

variable {depth : Nat} {isFirst : Bool} {kind : TokenKind} {text : String} {ts : List Token}

theorem spans_cons {t : Token} : Spans depth isFirst (t :: ts) ↔
    (depth = 0 → t.endsExpression isFirst ts = false) ∧ Spans (expressionDepth depth t) false ts := by
  rw [Spans, Spans, goesOver_cons, List.append_nil, List.foldl_cons, and_assoc]

theorem ends_bare : (⟨kind, text, "", .origin⟩ : Token).endsExpression isFirst ts =
    (kind == .comma || kind == .semicolon || (kind == .rightBrace || kind == .rightParen || kind == .rightBracket) ||
      (kind == .leftBrace && ts.head?.any (·.isOneOf ["willSet", "didSet"]))) := by
  have hline : (⟨kind, text, "", .origin⟩ : Token).newlineBefore = false := rfl
  rw [Token.endsExpression, hline, Bool.and_false, Bool.false_and, Bool.or_false]
  rfl

/-- Words, points, colons, operators, arrows and angle brackets are part of every expression. -/
theorem spans_through (hk : kind ∈ [TokenKind.identifier, .dot, .colon, .operator, .arrow, .leftAngle, .rightAngle]) :
    Spans depth isFirst (⟨kind, text, "", .origin⟩ :: ts) ↔ Spans depth false ts := by
  rw [spans_cons, ends_bare]
  simp only [List.mem_cons, List.not_mem_nil, or_false] at hk
  rcases hk with rfl | rfl | rfl | rfl | rfl | rfl | rfl <;>
    simp [expressionDepth, Token.opensBracket, Token.closesBracket]

theorem spans_opening (hk : kind = .leftParen ∨ kind = .leftBracket) :
    Spans depth isFirst (⟨kind, text, "", .origin⟩ :: ts) ↔ Spans (depth + 1) false ts := by
  rw [spans_cons, ends_bare]
  rcases hk with rfl | rfl <;> simp [expressionDepth, Token.opensBracket]

theorem spans_closing (hk : kind = .rightParen ∨ kind = .rightBracket) :
    Spans (depth + 1) isFirst (⟨kind, text, "", .origin⟩ :: ts) ↔ Spans depth false ts := by
  rw [spans_cons]
  rcases hk with rfl | rfl <;> simp [expressionDepth, Token.opensBracket, Token.closesBracket]

theorem spans_comma : Spans depth isFirst (⟨.comma, text, "", .origin⟩ :: ts) ↔ depth ≠ 0 ∧ Spans depth false ts := by
  rw [spans_cons, ends_bare]
  simp [expressionDepth, Token.opensBracket, Token.closesBracket]

theorem spans_marks (n : Nat) : Spans depth false (bareTokens (optionalMarks n) ++ ts) ↔ Spans depth false ts := by
  cases n with
  | zero => rfl
  | succ n => exact spans_through (by simp)

theorem spans_path (others : List Identifier) :
    Spans depth false (bareTokens (others.flatMap fun i => [.mark .dot '.', i.element]) ++ ts) ↔ Spans depth false ts := by
  induction others with
  | nil => rfl
  | cons i others ih =>
    rw [List.flatMap_cons, bareTokens_append, List.append_assoc]
    exact (spans_through (by simp)).trans ((spans_through (by simp)).trans ih)

theorem spans_effects (effects : List Effect) :
    Spans depth false (bareTokens (effectElements effects) ++ ts) ↔ Spans depth false ts := by
  induction effects with
  | nil => rfl
  | cons e effects ih => exact (spans_through (by simp)).trans ih

end Spans

mutual

/-- Inside brackets a type is part of the expression. Outside of them it has to be unary. -/
theorem type_spans (t : TypeTerm) (depth : Nat) (isFirst : Bool) (us : List Token) :
    Spans depth isFirst (bareTokens t.elements ++ us) ↔ (depth = 0 → t.isUnary = true) ∧ Spans depth false us := by
  cases t with
  | named first others arguments marks =>
    have harguments (us : List Token) : Spans depth false (bareTokens (if arguments.isEmpty then [] else
        .mark .leftAngle '<' :: (typeList arguments ++ [.mark .rightAngle '>'])) ++ us) ↔
          (depth = 0 → isUnaryList arguments = true) ∧ Spans depth false us := by
      cases arguments with
      | nil => simp [isUnaryList]
      | cons t ts =>
        rw [List.isEmpty_cons, if_neg Bool.false_ne_true, bareTokens_mark, bareTokens_append, List.cons_append,
          List.append_assoc, spans_through (by simp), typeList_spans (t :: ts)]
        exact and_congr_right' (spans_through (by simp))
    rw [TypeTerm.elements, Identifier.element, bareTokens_word, bareTokens_append, bareTokens_append, List.cons_append,
      List.append_assoc, List.append_assoc, spans_through (by simp), spans_path, harguments, spans_marks,
      TypeTerm.isUnary]
  | array element marks =>
    rw [TypeTerm.elements, bareTokens_mark, bareTokens_append, bareTokens_mark, List.cons_append, List.append_assoc,
      List.cons_append, spans_opening (.inr rfl), type_spans element, spans_closing (.inr rfl), spans_marks]
    simp [TypeTerm.isUnary]
  | dictionary key value marks =>
    rw [TypeTerm.elements, bareTokens_mark, bareTokens_append, bareTokens_mark, bareTokens_space, bareTokens_append,
      bareTokens_mark, List.cons_append, List.append_assoc, List.cons_append, List.append_assoc, List.cons_append,
      spans_opening (.inr rfl), type_spans key, spans_through (by simp), type_spans value, spans_closing (.inr rfl),
      spans_marks]
    simp [TypeTerm.isUnary]
  | tuple elements marks =>
    rw [TypeTerm.elements, bareTokens_mark, bareTokens_append, bareTokens_mark, List.cons_append, List.append_assoc,
      List.cons_append, spans_opening (.inl rfl), typeList_spans elements, spans_closing (.inl rfl), spans_marks]
    simp [TypeTerm.isUnary]
  | function parameters effects result =>
    rw [TypeTerm.elements, bareTokens_mark, bareTokens_append, bareTokens_mark, bareTokens_append, bareTokens_space,
      List.cons_append, List.append_assoc, List.cons_append, List.append_assoc, spans_opening (.inl rfl),
      typeList_spans parameters, spans_closing (.inl rfl), spans_effects, arrowElement, bareTokens_lexeme, bareTokens_space,
      List.cons_append, spans_through (by simp), type_spans result]
    simp [TypeTerm.isUnary]

theorem typeList_spans (ts : List TypeTerm) (depth : Nat) (us : List Token) :
    Spans depth false (bareTokens (typeList ts) ++ us) ↔ (depth = 0 → isUnaryList ts = true) ∧ Spans depth false us := by
  cases ts with
  | nil => simp [typeList, isUnaryList]
  | cons t ts =>
    rw [typeList, bareTokens_append, List.append_assoc, type_spans t, typesAfter_spans ts, isUnaryList, Bool.and_eq_true,
      List.isEmpty_iff]
    tauto

theorem typesAfter_spans (ts : List TypeTerm) (depth : Nat) (us : List Token) :
    Spans depth false (bareTokens (typesAfter ts) ++ us) ↔ (depth = 0 → ts = []) ∧ Spans depth false us := by
  cases ts with
  | nil => simp [typesAfter]
  | cons t ts =>
    rw [typesAfter, bareTokens_mark, bareTokens_space, bareTokens_append, List.cons_append, List.append_assoc, spans_comma,
      type_spans t, typesAfter_spans ts]
    simp only [reduceCtorEq, imp_false]
    tauto

end

/-- A type of the grammar is undivided if and only if it is unary. -/
theorem undivided_type {x : Excerpt} {t : TypeTerm} (h : x.elements = t.elements) :
    Undivided x.tokens ↔ t.isUnary = true := by
  have hread : Reads false t.elements x.tokens := h ▸ reads_origin x.elements
  have hlike : List.Forall₂ Token.Like x.tokens (bareTokens t.elements) := by
    rw [← reads_bare hread, List.forall₂_map_right_iff, List.forall₂_same]
    exact fun u hu => ⟨rfl, rfl, reads_unbroken hread (type_line t) u hu⟩
  have hbare : Undivided x.tokens ↔ Undivided (bareTokens t.elements) :=
    ⟨undivided_of_like hlike,
      undivided_of_like (hlike.flip.imp fun _ _ hx => ⟨hx.kind.symm, hx.text.symm, hx.newline.symm⟩)⟩
  have hspans := type_spans t 0 true []
  rw [List.append_nil] at hspans
  rw [hbare, undivided_iff_spans, hspans]
  simp [Spans, GoesOver]

theorem type_starts (t : TypeTerm) : ∃ kind cs more, t.elements = ⟨.lexeme kind, cs⟩ :: more := by
  obtain ⟨kind, c, cs, more, he, -⟩ := starts_type t
  exact ⟨kind, c :: cs, more, he⟩

/-- Types of the grammar are cut as they were written. -/
def TypeTerm.excerpt (t : TypeTerm) : Excerpt where
  elements := t.elements
  cut := by simpa using cut_flatten (type_stands t [] rfl)
  starts := type_starts t
  ends :=
    have ⟨front, kind, cs, he, _⟩ := type_ends t
    ⟨front, kind, cs, he⟩

/-- Types of the grammar are read where a variable is annotated. -/
theorem type_annotated (t : TypeTerm) : ReadsMember ("private var x: " ++ t.excerpt.text)
    (privateVariable ⟨"x", some t.text, none, none, false⟩) := by
  have hstands := ((type_stands t).space (starts_type t)).mark (show TokenKind.mark? .colon = some ':' from rfl) (by decide)
  obtain ⟨name, ts, hname, htext, h, hmember⟩ := reads_privateVariable hstands (apart_cons _ (by decide))
  have hspelled : "private var x" ++ String.ofList ((.mark .colon ':' :: .space :: t.elements).flatMap Element.text) =
      "private var x: " ++ t.excerpt.text :=
    String.toList_inj.1 (by simp [Element.space, Element.mark, Excerpt.text, TypeTerm.excerpt])
  rw [← hspelled]
  obtain ⟨colon, ts, rfl, hcolon, h⟩ := reads_mark h
  obtain ⟨vs, hv, hrun⟩ := reads_typeTerm (.inl rfl) t (reads_space h)
  obtain ⟨k, rfl, hk, hended⟩ := reads_close hv
  have htype := hrun (ended_follows hended)
  refine (hmember _).2 k hk ?_
  unfold binding
  exact run_bind_eq_ok.2 ⟨_, _, bindingName_word hname _, run_bind_eq_ok.2 ⟨_, _,
    optionally_take (by simp [hcolon]) htype, run_bind_eq_ok.2 ⟨none, _,
      optionally_skip (by simp [isAssignment, hk]), run_bind_eq_ok.2 ⟨none, _, optionally_skip (by simp [hk]), by
        rw [htext]; rfl⟩⟩⟩⟩

/-- A type that is read where a variable is annotated is read with its call, as the value of a variable and as the
default value of a parameter before others, if and only if it is undivided. A type of the grammar is if it is unary. -/
theorem called_type {x : Excerpt} (hx : ReadsMember ("private var x: " ++ x.text)
    (privateVariable ⟨"x", some (spanText x.elements), none, none, false⟩)) (f : Routine) :
    (ReadsMember ("private var x = " ++ x.text ++ "()") (privateVariable ⟨"x", none, some x.called, none, false⟩) ↔
        Undivided x.tokens) ∧
      (ReadsMember (defaultedText x f) (defaultedFunction x f) ↔ Undivided x.tokens) ∧
        ∀ t : TypeTerm, x.elements = t.elements → (Undivided x.tokens ↔ t.isUnary = true) :=
  ⟨variable_called x, function_called hx f, fun _ ht => undivided_type ht⟩

def plainName (text : String) (hw : isPlainWord text.toList = true) (hf : text ∉ reservedWords) : Identifier :=
  ⟨text, name_of_plain hw, hf⟩

def plainType (text : String) (hw : isPlainWord text.toList = true) (hf : text ∉ reservedWords)
    (arguments : List TypeTerm) : TypeTerm := .named (plainName text hw hf) [] arguments 0

def integerTerm : TypeTerm := plainType "Int" (by decide) (by decide) []

def stringTerm : TypeTerm := plainType "String" (by decide) (by decide) []

/-- The type `Set<[String: (Int, Int)]>`. -/
def nestedTerm : TypeTerm :=
  plainType "Set" (by decide) (by decide) [.dictionary stringTerm (.tuple [integerTerm, integerTerm] 0) 0]

/-- A function with the parameter `b`. -/
def plainRoutine : Routine where
  name := plainName "f" (by decide) (by decide)
  slots := [⟨plainName "b" (by decide) (by decide), none, integerTerm⟩]
  effects := []
  result := none
  body := some ⟨[], by decide +kernel, nofun, rfl⟩

/-- Commas inside brackets are no harm. -/
theorem nested_called :
    ReadsMember "private var x = Set<[String: (Int, Int)]>()"
        (privateVariable ⟨"x", none, some "Set<[String: (Int, Int)]>()", none, false⟩) ∧
      ReadsMember "func f(a: Set<[String: (Int, Int)]> = Set<[String: (Int, Int)]>(), b: Int) \x7b\x7d"
        fun q => .function ⟨[], [], q⟩ ⟨"f", false, none,
          [⟨"a", none, "Set<[String: (Int, Int)]>", some "Set<[String: (Int, Int)]>()"⟩, ⟨"b", none, "Int", none⟩], [],
            none, true⟩ := by
  have htext : nestedTerm.excerpt.text = "Set<[String: (Int, Int)]>" := by decide +kernel
  have hcalled : nestedTerm.excerpt.called = "Set<[String: (Int, Int)]>()" := by decide +kernel
  have hdeclared : defaultedText nestedTerm.excerpt plainRoutine =
      "func f(a: Set<[String: (Int, Int)]> = Set<[String: (Int, Int)]>(), b: Int) \x7b\x7d" := by decide +kernel
  have hsignature : defaultedSignature nestedTerm.excerpt plainRoutine = ⟨"f", false, none,
      [⟨"a", none, "Set<[String: (Int, Int)]>", some "Set<[String: (Int, Int)]>()"⟩, ⟨"b", none, "Int", none⟩], [],
        none, true⟩ := by decide +kernel
  obtain ⟨hvariable, hfunction, hgrammar⟩ := called_type (type_annotated nestedTerm) plainRoutine
  have hu := (hgrammar nestedTerm rfl).2 (by decide)
  have hx := hvariable.2 hu
  have hf : ReadsMember _ fun q => .function ⟨[], [], q⟩ _ := hfunction.2 hu
  rw [htext, hcalled] at hx
  rw [hdeclared, hsignature] at hf
  exact ⟨hx, hf⟩

/-- The type `Dictionary<String, Int>`. -/
def pairTerm : TypeTerm := plainType "Dictionary" (by decide) (by decide) [stringTerm, integerTerm]

/-- The message of the error if a text is not read. -/
def complaintOf (text : String) : Option String :=
  match parse text with
  | .ok _ => none
  | .error e => some e.message

/-- Between two arguments the call is divided: what follows the comma is taken for another variable. -/
theorem arguments_divide_call :
    ReadsMember "private var x: Dictionary<String, Int>"
        (privateVariable ⟨"x", some "Dictionary<String, Int>", none, none, false⟩) ∧
      complaintOf (memberText "private var x = Dictionary<String, Int>()") =
        some "Expected declaration, got '>' at line 2, col 39" := by
  have htext : pairTerm.excerpt.text = "Dictionary<String, Int>" := by decide +kernel
  have htype : pairTerm.text = "Dictionary<String, Int>" := by decide +kernel
  have hx := type_annotated pairTerm
  rw [htext, htype] at hx
  exact ⟨hx, by decide +kernel⟩

end TestHooks.Swift
