import TestHooks.Proofs.Directives

/-!
# Headers on a line of their own

A header is read up to its brace, whatever stands behind that (`typeHeader_extends`). So the first line of an extension
can be read by itself to see whether its brace opens the members.
-/

namespace TestHooks.Reader

variable {τ ε α β : Type}

/-- A reader that leaves something reads the same when more stands behind. -/
def Confined (p : Reader τ ε α) : Prop :=
  ∀ ⦃ts rest : List τ⦄ ⦃x : α⦄, p.run ts = .ok (x, rest) → rest ≠ [] →
    ∀ more, p.run (ts ++ more) = .ok (x, rest ++ more)

theorem confined_pure (x : α) : Confined (pure x : Reader τ ε α) := by
  intro ts rest y h _ more
  obtain ⟨rfl, rfl⟩ := run_pure_eq_ok.1 h
  rfl

theorem Confined.bind {p : Reader τ ε α} {f : α → Reader τ ε β} (hp : Confined p) (hf : ∀ x, Confined (f x)) :
    Confined (p >>= f) := by
  intro ts rest y h hn more
  obtain ⟨x, middle, hx, hy⟩ := run_bind_eq_ok.1 h
  have hm : middle ≠ [] := by
    rintro rfl
    exact hn (List.suffix_nil.1 ((f x).suffix hy))
  exact run_bind_eq_ok.2 ⟨x, middle ++ more, hp hx hm more, hf x hy hn more⟩

theorem Confined.optionally {test : τ → Bool} {p : τ → Reader τ ε α} (hp : ∀ t, Confined (p t)) :
    Confined (optionally test p) := by
  intro ts rest x h hn more
  rcases optionally_cases h with ⟨hskip, rfl, rfl⟩ | ⟨t, inside, y, rfl, ht, hy, rfl⟩
  · obtain ⟨t, rest, rfl⟩ := List.exists_cons_of_ne_nil hn
    exact optionally_skip hskip
  · exact optionally_take ht (hp t hy hn more)

theorem confined_skipWhile (test : τ → Bool) : Confined (skipWhile test : Reader τ ε Unit) := by
  intro ts rest x h hn more
  obtain rfl : ts.dropWhile test = rest := congrArg Prod.snd (Except.ok.inj h)
  have hdrop : (ts ++ more).dropWhile test = ts.dropWhile test ++ more := by
    rw [List.dropWhile_append, if_neg (by rwa [List.isEmpty_iff])]
  simp only [skipWhile, hdrop]

theorem Confined.whileNext {test : τ → Bool} {p : τ → Reader τ ε α} (hp : ∀ t, Confined (p t)) :
    Confined (whileNext test p) := by
  intro ts rest xs h hn more
  change whileNextRun test p ts = .ok (xs, rest) at h
  change whileNextRun test p (ts ++ more) = .ok (xs, rest ++ more)
  fun_induction whileNextRun test p ts generalizing xs rest with
  | case1 =>
    cases h
    exact absurd rfl hn
  | case2 t ts ht x after hx ys left hw ih =>
    cases h
    have hafter : after ≠ [] := by
      rintro rfl
      exact hn (List.suffix_nil.1 (suffix_whileNextRun hw))
    have hstep := hp t hx hafter more
    rw [List.cons_append, whileNextRun, if_pos ht]
    split
    · next hy =>
      rw [hstep] at hy
      cases hy
      rw [ih hn hw]
    · next hy =>
      rw [hstep] at hy
      cases hy
  | case3 => cases h
  | case4 => cases h
  | case5 t ts ht =>
    cases h
    rw [List.cons_append, whileNextRun, if_neg ht]

end TestHooks.Reader

namespace TestHooks.Swift

open TestHooks.Text TestHooks.Reader Reader

theorem confined_byCommas {α : Type} {p : Reader α} (hp : Confined p) : Confined (byCommas p) := by
  unfold Reader.byCommas
  exact hp.bind fun first => (Confined.whileNext fun _ => hp).bind fun others => confined_pure _

theorem splitType_extends {stops : List String} {depth : Nat} {previous : Option Token} {ts taken left : List Token}
    (h : splitType stops depth previous ts = (taken, left)) (hn : left ≠ []) (more : List Token) :
    splitType stops depth previous (ts ++ more) = (taken, left ++ more) := by
  induction ts generalizing depth previous taken with
  | nil =>
    rw [splitType] at h
    cases h
    exact absurd rfl hn
  | cons t ts ih =>
    rw [splitType] at h
    rw [List.cons_append, splitType]
    split at h
    · next ht =>
      cases h
      rw [if_pos ht]
      rfl
    · next ht =>
      cases h
      rw [if_neg ht, ih rfl]

theorem confined_typeText (stops : List String) : Confined (typeText stops) := by
  intro ts rest text h hn more
  obtain ⟨t, taken, hs, rfl⟩ := phraseBy_eq_ok.1 h
  exact phraseBy_eq_ok.2 ⟨t, taken, splitType_extends hs hn more, rfl⟩

theorem confined_typeName : Confined (typeName .extensionType) := by
  rw [typeName, if_pos rfl]
  exact (confined_typeText _).bind fun name => confined_pure _

theorem confined_inheritance : Confined inheritance :=
  (Confined.optionally fun _ => confined_byCommas (confined_typeText _)).bind fun _ => confined_pure _

/-- The header of an extension ends with its brace. -/
theorem typeHeader_extends {ts left : List Token} {header : TypeHeader}
    (h : (typeHeader .extensionType).run ts = .ok (header, left)) (more : List Token) :
    (typeHeader .extensionType).run (ts ++ more) = .ok (header, left ++ more) := by
  unfold typeHeader at h ⊢
  obtain ⟨named, afterName, hname, h⟩ := run_bind_eq_ok.1 h
  obtain ⟨inherited, afterBases, hbases, h⟩ := run_bind_eq_ok.1 h
  obtain ⟨required, afterWhere, hwhere, h⟩ := run_bind_eq_ok.1 h
  obtain ⟨brace, rest, hbrace, h⟩ := run_bind_eq_ok.1 h
  obtain ⟨rfl, rfl⟩ := run_pure_eq_ok.1 h
  obtain ⟨rfl, hk⟩ := token_eq_ok.1 hbrace
  have hleft {middle : List Token} (hs : brace :: rest <:+ middle) : middle ≠ [] := by
    rintro rfl
    cases List.suffix_nil.1 hs
  have hwheres := Reader.suffix _ hwhere
  have hinherits := hwheres.trans (Reader.suffix _ hbases)
  have hrequired := Confined.optionally (fun _ => confined_skipWhile _) hwhere (List.cons_ne_nil _ _) more
  refine run_bind_eq_ok.2 ⟨named, afterName ++ more, confined_typeName hname (hleft hinherits) more, ?_⟩
  refine run_bind_eq_ok.2 ⟨inherited, afterBases ++ more, confined_inheritance hbases (hleft hwheres) more, ?_⟩
  refine run_bind_eq_ok.2 ⟨required, brace :: rest ++ more, hrequired, ?_⟩
  exact run_bind_eq_ok.2 ⟨brace, rest ++ more, token_eq_ok.2 ⟨rfl, hk⟩, rfl⟩

/-! ### The first line -/

theorem fits_before_break {e : Element} {rest after : List Char} (h : e.Fits rest)
    (hb : rest = [] → e.shape ≠ .blank) : e.Fits (rest ++ '\n' :: after) := by
  by_cases hs : e.shape = .lineComment
  · refine h.lineComment_before hs fun ha => ?_
    cases rest with
    | nil => rfl
    | cons d ds => exact ha
  · have hbreak : Separated ('\n' :: after) := separated_of_break rfl
    have hagrees : Agrees isInside (rest ++ '\n' :: after) (rest ++ []) :=
      (agrees_of_separated hbreak []).respaced (fun c hc => inside_not_blank hc) (respaced_refl false _)
    rw [List.append_nil] at hagrees
    refine h.respaced hs (respaced_refl false _) hagrees.quieter (hagrees.mono fun c hc => quoting_inside hc) ?_
    intro hblank hhead
    cases rest with
    | nil => exact absurd hblank (hb rfl)
    | cons d ds => exact hhead

/-- A line that ends in no blank is cut in the same way when other lines follow it. -/
theorem fitting_before_break {es : List Element} (h : Fitting es [])
    (hb : ∀ e, es.getLast? = some e → e.shape ≠ .blank) (after : List Char) : Fitting es ('\n' :: after) := by
  induction es with
  | nil => trivial
  | cons e es ih =>
    have hfirst := h.1
    rw [List.append_nil] at hfirst
    refine ⟨fits_before_break hfirst fun hn => hb e ?_, ih h.2 fun f hf => hb f (getLast_cons hf)⟩
    cases es with
    | nil => rfl
    | cons f fs =>
      obtain ⟨c, cs, ht, -⟩ := head_of_fits h.2.1
      rw [List.flatMap_cons, ht] at hn
      cases hn

/-- The first line of an extension of a type. -/
def extensionLine (name : String) : String := "extension " ++ name ++ " \x7b"

/-- True if the first line of an extension, read by itself, is a header up to its brace. -/
def opensExtension (name : String) : Bool :=
  let read := Tokens.ofText (extensionLine name)
  read.failure.isNone &&
    match (typeHeader .extensionType).run (read.tokens.drop 1) with
    | .ok (_, []) => true
    | _ => false

/-- The first word of the line stands by itself. -/
theorem extension_first {es : List Element} {name : String} (h : Fitting es [])
    (ht : es.flatMap Element.text = (extensionLine name).toList) : ∃ more, es = .word "extension".toList :: more := by
  have hword : (Element.word "extension".toList).Fits (' ' :: (name.toList ++ " \x7b".toList)) :=
    word_fits (.plain (by decide) (by decide)) rfl
  have hline : (extensionLine name).toList = 'e' :: ("xtension".toList ++ ' ' :: (name.toList ++ " \x7b".toList)) := by
    simp [extensionLine, String.toList_append]
  rw [hline] at ht
  cases es with
  | nil => cases ht
  | cons e more =>
    obtain ⟨c, cs, hc, hm⟩ := h.1
    obtain ⟨c', cs', hc', hm'⟩ := hword
    obtain ⟨rfl, rfl⟩ := List.cons.inj hc'
    rw [List.flatMap_cons, hc, List.cons_append] at ht
    obtain ⟨rfl, htail⟩ := List.cons.inj ht
    rw [List.append_nil, htail] at hm
    obtain ⟨hshape, hlength⟩ := Prod.mk.inj (Except.ok.inj (hm.symm.trans hm'))
    obtain ⟨rfl, -⟩ := List.append_inj htail hlength
    refine ⟨more, ?_⟩
    rw [← show (⟨e.shape, e.text⟩ : Element) = e from rfl, hc, hshape]
    rfl

theorem opensExtension_cases {name : String} (h : opensExtension name = true) :
    ∃ es header t ts, es.flatMap Element.text = (extensionLine name).toList ∧ (∀ after, Fitting es ('\n' :: after)) ∧
      Token.ofElements .origin [] es = t :: ts ∧ t.Is .identifier "extension".toList false ∧
      (typeHeader .extensionType).run ts = .ok (header, []) := by
  simp only [opensExtension, Bool.and_eq_true, Option.isNone_iff_eq_none] at h
  obtain ⟨hfail, hread⟩ := h
  obtain ⟨hfit, hflat⟩ := elements_of_no_fault (no_failure_iff.1 hfail)
  obtain ⟨header, hheader⟩ : ∃ header, (typeHeader .extensionType).run
      ((Tokens.ofText (extensionLine name)).tokens.drop 1) = .ok (header, []) := by
    split at hread
    · next header hx => exact ⟨header, hx⟩
    · cases hread
  obtain ⟨more, hfirst⟩ := extension_first hfit hflat
  have hreads : Reads false (Cut.ofText (extensionLine name).toList).elements (Tokens.ofText (extensionLine name)).tokens :=
    ⟨_, [], rfl, rfl⟩
  rw [hfirst] at hreads
  obtain ⟨t, ts, htokens, ht, -⟩ := reads_lexeme hreads
  rw [htokens, List.drop_one, List.tail_cons] at hheader
  refine ⟨_, header, t, ts, hflat, fitting_before_break hfit ?_, htokens, ht, hheader⟩
  intro e he hblank
  have hlast : (extensionLine name).toList.getLast? = some '\x7b' := by
    have hbrace : " \x7b".toList.getLast? = some '\x7b' := rfl
    rw [extensionLine, String.toList_append, List.getLast?_append, hbrace, Option.some_or]
  obtain ⟨front, hfront⟩ := List.getLast?_eq_some_iff.1 he
  rw [hfront] at hfit hflat
  have hlastElement := (fitting_append.1 hfit).2.1
  obtain ⟨c, cs, ht, -⟩ := head_of_fits hlastElement
  have htext : e.text.getLast? = some '\x7b' := by
    rw [← hflat, List.flatMap_append, List.flatMap_cons, List.flatMap_nil, List.append_nil, List.getLast?_append, ht,
      List.getLast?_cons, Option.some_or] at hlast
    rw [ht, List.getLast?_cons]
    exact hlast
  have hbrace := blank_chars hlastElement hblank '\x7b' (List.mem_of_getLast? htext)
  exact absurd hbrace (by decide)

/-- Reading an extension is reading its header and its members. -/
theorem extension_cases {strict : Bool} {t : Token} {ts left : List Token} {found : Option Decl}
    (hk : t.kind = .identifier) (ht : t.text = "extension") (h : declarationRun strict t ts = .ok (found, left)) :
    ∃ head header inside members, (typeHeader .extensionType).run ts = .ok (header, inside) ∧
      membersRun inside = .ok (members, left) ∧ found = some (.group head header members) := by
  have hintroducer : Introducer.ofToken? t = some (.type .extensionType) := introducer_type hk ht
  have hmodifier : modifierWords.contains t.text = false := by
    rw [ht]
    decide
  exact ⟨_, group_cases (by simp [hk]) (headFrom_word hk hmodifier ts) hintroducer h⟩

/-- The first declaration of a text that begins with an extension. -/
theorem top_extension {t : Token} {ts : List Token} {found : List Decl} (hk : t.kind = .identifier) (ht : t.text = "extension")
    (h : topLevel (t :: ts) = .ok found) :
    ∃ head header inside members left others, (typeHeader .extensionType).run ts = .ok (header, inside) ∧
      membersRun inside = .ok (members, left) ∧ topLevel left = .ok others ∧
        found = .group head header members :: others := by
  rcases topLevel_cases h with ⟨he, -⟩ | ⟨t', rest, he, hcases⟩
  · cases he
  obtain ⟨rfl, rfl⟩ := List.cons.inj he
  rcases hcases with ⟨hx, -⟩ | ⟨-, -, first, after, others, hdecl, hothers, rfl⟩
  · rw [hk] at hx
    cases hx
  obtain ⟨head, header, inside, members, hh, hm, rfl⟩ := extension_cases hk ht hdecl
  exact ⟨head, header, inside, members, after, others, hh, hm, hothers, rfl⟩

end TestHooks.Swift
