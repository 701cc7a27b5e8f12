import TestHooks.Proofs.Headers
import TestHooks.Proofs.Lexing
import TestHooks.Proofs.Respacing

/-!
# Phrases read again

A phrase keeps the tokens of the text that it is taken from, up to the blanks inside them, unless a comment on a line
swallows what follows it (`Spelling`). The text of a type is read as a type wherever it is put (`TypeText`).
-/

namespace TestHooks.Swift

open TestHooks.Text

/-! ### Collapsed elements -/

def Element.collapsed (e : Element) : Element := ⟨e.shape, collapse e.text⟩

/-- True for all elements but comments on a line. -/
def Element.staysOnLine (e : Element) : Bool := e.shape != .lineComment

theorem collapse_split (inRun : Bool) (cs ds : List Char) :
    ∃ after, collapseFrom inRun (cs ++ ds) = collapseFrom inRun cs ++ collapseFrom after ds ∧
      ∀ c, cs.getLast? = some c → after = isBlank c := by
  induction cs generalizing inRun with
  | nil => exact ⟨inRun, rfl, nofun⟩
  | cons c cs ih =>
    obtain ⟨after, he, hl⟩ := ih (isBlank c)
    have hs : ∃ front, collapseFrom inRun (c :: cs) = front ++ collapseFrom (isBlank c) cs ∧
        collapseFrom inRun (c :: (cs ++ ds)) = front ++ collapseFrom (isBlank c) (cs ++ ds) := by
      simp only [collapseFrom]
      by_cases hc : isBlank c = true
      · simp only [hc, if_true]
        cases inRun
        · exact ⟨[' '], rfl, rfl⟩
        · exact ⟨[], rfl, rfl⟩
      · rw [Bool.not_eq_true] at hc
        simp only [hc, Bool.false_eq_true, if_false]
        exact ⟨[c], rfl, rfl⟩
    obtain ⟨front, h₁, h₂⟩ := hs
    by_cases hn : cs = []
    · subst hn
      refine ⟨isBlank c, ?_, ?_⟩
      · rw [List.cons_append, h₁, h₂, List.append_assoc]
        rfl
      · intro d hd
        cases hd
        rfl
    · refine ⟨after, ?_, ?_⟩
      · rw [List.cons_append, h₁, h₂, he, List.append_assoc]
      · intro d hd
        obtain ⟨e, es, rfl⟩ := List.exists_cons_of_ne_nil hn
        rw [List.getLast?_cons_cons] at hd
        exact hl d hd

theorem collapse_head {cs : List Char} (h : cs.head?.any isBlank = false) (inRun : Bool) :
    collapseFrom inRun cs = collapse cs := by
  cases cs with
  | nil => rfl
  | cons c cs =>
    rw [List.head?_cons, Option.any_some] at h
    simp only [collapse, collapseFrom, h, Bool.false_eq_true, if_false]

/-- Texts between which no run of blanks goes on are collapsed apart. -/
theorem collapse_append {cs ds : List Char}
    (h : (∃ c, cs.getLast? = some c ∧ isBlank c = false) ∨ ds.head?.any isBlank = false) :
    collapse (cs ++ ds) = collapse cs ++ collapse ds := by
  obtain ⟨after, he, hl⟩ := collapse_split false cs ds
  rw [collapse, he]
  rcases h with ⟨c, hc, hb⟩ | h
  · rw [hl c hc, hb]
    rfl
  · rw [collapse_head h]
    rfl

/-- Of the blanks only spaces are left. -/
theorem blank_of_collapse (inRun : Bool) (cs : List Char) : ∀ c ∈ collapseFrom inRun cs, isBlank c = true → c = ' ' := by
  induction cs generalizing inRun with
  | nil => exact List.forall_mem_nil _
  | cons d cs ih =>
    rw [collapseFrom]
    split
    · split
      · exact ih true
      · exact List.forall_mem_cons.2 ⟨fun _ => rfl, ih true⟩
    · next hd => exact List.forall_mem_cons.2 ⟨fun hb => absurd hb hd, ih false⟩

theorem newline_not_mem_collapse (inRun : Bool) (cs : List Char) : '\n' ∉ collapseFrom inRun cs := fun hm =>
  absurd (blank_of_collapse inRun cs _ hm isBlank_newline) (by decide)

theorem collapse_collapse (inRun : Bool) (cs : List Char) :
    collapseFrom inRun (collapseFrom inRun cs) = collapseFrom inRun cs := by
  induction cs generalizing inRun with
  | nil => rfl
  | cons c cs ih =>
    by_cases hc : isBlank c = true
    · simp only [collapseFrom, hc, if_true]
      cases inRun with
      | false => simp only [Bool.false_eq_true, if_false, collapseFrom, isBlank_space, if_true, ih]
      | true => exact ih true
    · simp only [collapseFrom, hc, Bool.false_eq_true, if_false, ih]

/-- The elements before the first comment on a line, with their blanks collapsed. -/
def settled (es : List Element) : List Element :=
  (es.takeWhile Element.staysOnLine).map Element.collapsed

/-- The text from the first comment on a line on, with its blanks collapsed. -/
def swallowed (es : List Element) : List Char :=
  collapse ((es.dropWhile Element.staysOnLine).flatMap Element.text)

theorem collapse_flatten {es : List Element} {after : List Char} (h : Fitting es after) :
    collapse (es.flatMap Element.text) = (settled es).flatMap Element.text ++ swallowed es := by
  induction es with
  | nil => rfl
  | cons e es ih =>
    by_cases hs : e.staysOnLine = true
    · have hse : settled (e :: es) = e.collapsed :: settled es := by simp [settled, hs]
      have hsw : swallowed (e :: es) = swallowed es := by simp [swallowed, hs]
      rw [hse, hsw, List.flatMap_cons, List.flatMap_cons, List.append_assoc, ← ih h.2]
      apply collapse_append
      by_cases hb : e.shape = .blank
      · right
        have := blank_fits h.1 hb
        cases hx : es.flatMap Element.text with
        | nil => rfl
        | cons c cs =>
          rw [hx, List.cons_append, List.head?_cons] at this
          exact this
      · left
        obtain ⟨c, cs, ht, -⟩ := head_of_fits h.1
        obtain ⟨d, hd⟩ : ∃ d, e.text.getLast? = some d := by
          rw [ht]
          exact ⟨_, List.getLast?_eq_some_getLast (List.cons_ne_nil _ _)⟩
        exact ⟨d, hd, h.1.last hb (by simpa [Element.staysOnLine] using hs) hd⟩
    · have hse : settled (e :: es) = [] := by simp [settled, hs]
      have hsw : swallowed (e :: es) = collapse ((e :: es).flatMap Element.text) := by simp [swallowed, hs]
      rw [hse, hsw]
      rfl

/-- Collapsed elements fit before everything that begins with a separator. -/
theorem settled_fits {es : List Element} {after : List Char} (h : Fitting es after)
    (hl : ∀ e, es.getLast? = some e → e.shape ≠ .blank) {rest : List Char} (hr : Separated rest) :
    Fitting (settled es) (swallowed es ++ rest) := by
  induction es with
  | nil => trivial
  | cons e es ih =>
    by_cases hs : e.staysOnLine = true
    · have hse : settled (e :: es) = e.collapsed :: settled es := by simp [settled, hs]
      have hsw : swallowed (e :: es) = swallowed es := by simp [swallowed, hs]
      have hl' : ∀ f, es.getLast? = some f → f.shape ≠ .blank := fun f hf => hl f (getLast_cons hf)
      rw [hse, hsw]
      refine ⟨?_, ih h.2 hl'⟩
      rw [← List.append_assoc, ← collapse_flatten h.2]
      have ha : Agrees isInside (collapse (es.flatMap Element.text) ++ rest) (es.flatMap Element.text ++ after) :=
        (agrees_of_separated hr after).respaced (fun c hc => inside_not_blank hc) (respaced_collapse false _)
      apply h.1.respaced (by simpa [Element.staysOnLine] using hs) (respaced_collapse false _) ha.quieter
        (ha.mono fun c hc => quoting_inside hc)
      intro hb hx
      cases es with
      | nil => exact absurd hb (hl e rfl)
      | cons f es =>
        obtain ⟨c, cs, ht, -⟩ := head_of_fits h.2.1
        simp only [List.flatMap_cons, ht, List.cons_append, List.head?_cons, Option.any_some] at hx ⊢
        simp [collapse, collapseFrom, hx]
    · have hse : settled (e :: es) = [] := by simp [settled, hs]
      rw [hse]
      trivial

theorem swallowed_cases {es : List Element} {after : List Char} (h : Fitting es after) :
    (swallowed es = [] ∧ settled es = es.map Element.collapsed) ∨ ∃ cs, swallowed es = '/' :: '/' :: cs := by
  induction es with
  | nil => exact .inl ⟨rfl, rfl⟩
  | cons e es ih =>
    by_cases hs : e.staysOnLine = true
    · have hse : settled (e :: es) = e.collapsed :: settled es := by simp [settled, hs]
      have hsw : swallowed (e :: es) = swallowed es := by simp [swallowed, hs]
      rw [hse, hsw, List.map_cons]
      rcases ih h.2 with ⟨hn, he⟩ | hc
      · exact .inl ⟨hn, by rw [he]⟩
      · exact .inr hc
    · right
      have hsw : swallowed (e :: es) = collapse ((e :: es).flatMap Element.text) := by simp [swallowed, hs]
      have hsh : e.shape = .lineComment := by simpa [Element.staysOnLine] using hs
      obtain ⟨body, rfl, -, -⟩ := comment_of_fits h.1 hsh
      have hb : isBlank '/' = false := by decide
      refine ⟨collapseFrom false (body ++ es.flatMap Element.text), ?_⟩
      simp only [hsw, List.flatMap_cons, collapse, List.cons_append, collapseFrom, hb, Bool.false_eq_true, if_false]

/-! ### Spellings -/

/-- A text on one line is spelled by elements, and from a comment on by nothing. It may stand before separators. -/
structure Spelling (text : List Char) (es : List Element) (tail : List Char) : Prop where
  flatten : es.flatMap Element.text ++ tail = text
  fits : ∀ after, Separated after → Fitting es (tail ++ after)
  line : '\n' ∉ text
  comment : tail = [] ∨ ∃ cs, tail = '/' :: '/' :: cs

theorem spelling_of_fitting {es : List Element} {after : List Char} (h : Fitting es after)
    (hl : ∀ e, es.getLast? = some e → e.shape ≠ .blank) :
    Spelling (collapse (es.flatMap Element.text)) (settled es) (swallowed es) where
  flatten := (collapse_flatten h).symm
  fits _ hr := settled_fits h hl hr
  line := newline_not_mem_collapse false _
  comment := (swallowed_cases h).imp And.left id

/-! ### Tokens without their places -/

/-- The token without what stands before it and where it stands. -/
def Token.bare (t : Token) : Token := ⟨t.kind, t.text, "", .origin⟩

def Element.token? (e : Element) : Option Token :=
  match e.shape with
  | .lexeme kind => some ⟨kind, String.ofList e.text, "", .origin⟩
  | _ => none

/-- The tokens of elements, without their places. -/
def bareTokens (es : List Element) : List Token := es.filterMap Element.token?

theorem bareTokens_append (es fs : List Element) : bareTokens (es ++ fs) = bareTokens es ++ bareTokens fs :=
  List.filterMap_append

theorem map_bare_ofElements (place : Place) (gap : List Char) (es : List Element) :
    (Token.ofElements place gap es).map Token.bare = bareTokens es := by
  induction es generalizing place gap with
  | nil => rfl
  | cons e es ih =>
    rw [Token.ofElements, bareTokens, List.filterMap_cons]
    cases hs : e.shape with
    | lexeme kind =>
      simp only [Element.token?, hs, List.map_cons]
      rw [ih]
      rfl
    | blank =>
      simp only [Element.token?, hs]
      exact ih _ _
    | lineComment =>
      simp only [Element.token?, hs]
      exact ih _ _
    | blockComment =>
      simp only [Element.token?, hs]
      exact ih _ _

theorem ofElements_append (place : Place) (gap : List Char) (es fs : List Element) :
    Token.ofElements place gap (es ++ fs) =
      Token.ofElements place gap es ++
        Token.ofElements (place.advance (es.flatMap Element.text)) (Token.finalGap gap es) fs := by
  induction es generalizing place gap with
  | nil => rfl
  | cons e es ih =>
    rw [List.cons_append, Token.ofElements, Token.ofElements, Token.finalGap, List.flatMap_cons, Place.advance_append]
    cases e.shape <;> simp only [ih, List.cons_append]

/-- The first token of elements, and what is before and behind it. -/
theorem ofElements_cons {place : Place} {gap : List Char} {es : List Element} {t : Token} {ts : List Token}
    (h : Token.ofElements place gap es = t :: ts) :
    ∃ lead e es' after, es = lead ++ e :: es' ∧ bareTokens lead = [] ∧ e.shape = .lexeme t.kind ∧
      e.text = t.text.toList ∧ t.gap.toList = gap ++ lead.flatMap Element.text ∧
      ts = Token.ofElements after [] es' := by
  induction es generalizing place gap with
  | nil => cases h
  | cons e es ih =>
    rw [Token.ofElements] at h
    cases hs : e.shape with
    | lexeme kind =>
      rw [hs] at h
      cases h
      exact ⟨[], e, es, _, rfl, rfl, hs, by rw [String.toList_ofList], by simp, rfl⟩
    | blank | lineComment | blockComment =>
      rw [hs] at h
      obtain ⟨lead, f, es', after, rfl, hb, hf, ht, hg, hts⟩ := ih h
      refine ⟨e :: lead, f, es', after, rfl, ?_, hf, ht, ?_, hts⟩
      · simp only [bareTokens, List.filterMap_cons, Element.token?, hs] at hb ⊢
        exact hb
      · rw [hg, List.flatMap_cons, List.append_assoc]

/-- The elements of the first tokens, when the first of all is a lexeme. -/
theorem ofElements_split {place : Place} {es : List Element} {more left : List Token}
    (h : Token.ofElements place [] es = more ++ left) :
    ∃ es₁ es₂ after, es = es₁ ++ es₂ ∧ bareTokens es₁ = more.map Token.bare ∧
      es₁.flatMap Element.text = Token.written more ∧
      (∀ e, es₁.getLast? = some e → ∃ kind, e.shape = .lexeme kind) ∧ left = Token.ofElements after [] es₂ := by
  induction more generalizing place es with
  | nil => exact ⟨[], es, place, rfl, rfl, rfl, nofun, h.symm⟩
  | cons m more ih =>
    obtain ⟨lead, e, es', after, rfl, hb, hk, ht, hg, hts⟩ := ofElements_cons h
    obtain ⟨es₁, es₂, after', rfl, hbare, hflat, hlast, hleft⟩ := ih hts.symm
    refine ⟨lead ++ e :: es₁, es₂, after', by simp, ?_, ?_, ?_, hleft⟩
    · rw [bareTokens_append, hb, List.nil_append, bareTokens, List.filterMap_cons]
      simp only [Element.token?, hk, ht, String.ofList_toList, List.map_cons]
      rw [← hbare]
      rfl
    · rw [List.flatMap_append, List.flatMap_cons, Token.written_cons, hflat, hg, ht, List.nil_append,
        List.append_assoc]
    · intro f hf
      rw [List.getLast?_append, List.getLast?_cons, Option.some_or, Option.some.injEq] at hf
      cases hx : es₁.getLast? with
      | none =>
        rw [hx] at hf
        obtain rfl : e = f := hf
        exact ⟨_, hk⟩
      | some g =>
        rw [hx] at hf
        obtain rfl : g = f := hf
        exact hlast g hx

/-! ### Texts of types -/

/-- The depth of brackets after tokens that a type may go on with, when `depth` are open before them. -/
def walk (stops : List String) : Nat → List Token → Option Nat
  | depth, [] => some depth
  | depth, t :: ts =>
    if depth = 0 && (t.endsType || t.isOneOf stops) then none else walk stops (typeDepth depth t) ts

theorem walk_map {f : Token → Token} {stops : List String} (hd : ∀ depth t, typeDepth depth (f t) = typeDepth depth t)
    {ts : List Token} (he : ∀ t ∈ ts, (f t).endsType = t.endsType ∧ (f t).isOneOf stops = t.isOneOf stops)
    (depth : Nat) : walk stops depth (ts.map f) = walk stops depth ts := by
  induction ts generalizing depth with
  | nil => rfl
  | cons t ts ih =>
    have ht := he t List.mem_cons_self
    rw [List.map_cons, walk, walk, ht.1, ht.2, hd, ih fun u hu => he u (List.mem_cons_of_mem _ hu)]

theorem walk_bare (stops : List String) (depth : Nat) (ts : List Token) :
    walk stops depth (ts.map Token.bare) = walk stops depth ts :=
  walk_map (f := Token.bare) (fun _ _ => rfl) (fun _ _ => ⟨rfl, rfl⟩) depth

theorem walk_append (stops : List String) (depth : Nat) (ts us : List Token) :
    walk stops depth (ts ++ us) = (walk stops depth ts).bind fun d => walk stops d us := by
  induction ts generalizing depth with
  | nil => rfl
  | cons t ts ih =>
    rw [List.cons_append, walk, walk]
    split
    · rfl
    · exact ih _

/-- A type goes on over the tokens that are taken, and ends outside brackets if something is left. -/
theorem walk_of_split {stops : List String} {depth : Nat} {previous : Option Token} {ts taken left : List Token}
    (h : splitType stops depth previous ts = (taken, left)) :
    ∃ d, walk stops depth taken = some d ∧ (left ≠ [] → d = 0) := by
  induction ts generalizing depth previous taken with
  | nil =>
    cases h
    exact ⟨depth, rfl, fun h => absurd rfl h⟩
  | cons t ts ih =>
    rw [splitType] at h
    split at h
    · next hz =>
      cases h
      simp only [Bool.and_eq_true, decide_eq_true_eq] at hz
      exact ⟨depth, rfl, fun _ => hz.1⟩
    · next hz =>
      cases h
      obtain ⟨d, hw, hd⟩ := ih rfl
      refine ⟨d, ?_, hd⟩
      rw [walk, if_neg]
      · exact hw
      · intro hx
        apply hz
        simp only [Bool.and_eq_true, Bool.or_eq_true] at hx ⊢
        exact ⟨hx.1, .inl hx.2⟩

/-- Tokens on one line that a type goes on over are part of the type. -/
theorem split_of_walk {stops : List String} {depth d : Nat} {ts : List Token} (h : walk stops depth ts = some d)
    (hn : ∀ t ∈ ts, t.newlineBefore = false) (previous : Option Token) (rest : List Token) :
    splitType stops depth previous (ts ++ rest) =
      (ts ++ (splitType stops d (ts.getLast?.or previous) rest).1,
        (splitType stops d (ts.getLast?.or previous) rest).2) := by
  induction ts generalizing depth previous with
  | nil =>
    cases h
    rfl
  | cons t ts ih =>
    rw [walk] at h
    split at h
    · cases h
    · next hz =>
      have ht : t.breaksType previous = false := by
        have := hn t List.mem_cons_self
        cases previous <;> simp [Token.breaksType, this]
      have hl : (t :: ts).getLast?.or previous = ts.getLast?.or (some t) := by
        rw [List.getLast?_cons]
        cases ts.getLast? <;> rfl
      rw [List.cons_append, splitType, if_neg, ih h (fun u hu => hn u (List.mem_cons_of_mem _ hu)), hl,
        List.cons_append]
      rw [ht, Bool.or_false]
      exact hz

theorem collapse_eq_iff {cs ds : List Char} (hd : ∀ c ∈ ds, isBlank c = false) : collapse cs = ds ↔ cs = ds := by
  constructor
  · rintro rfl
    have hr := respaced_collapse false cs
    obtain ⟨q, hq, hn⟩ := @Respaced.of_append' (collapse cs) [] _ (by rwa [List.append_nil]) hd
    cases hn
    rwa [List.append_nil] at hq
  · rintro rfl
    exact (respaced_collapse false cs).eq_of_not_blank hd

/-- The token with the blanks of its text collapsed. -/
def Token.squeezed (t : Token) : Token := { t with text := String.ofList (collapse t.text.toList) }

theorem bareTokens_collapsed (es : List Element) :
    bareTokens (es.map Element.collapsed) = (bareTokens es).map Token.squeezed := by
  induction es with
  | nil => rfl
  | cons e es ih =>
    simp only [bareTokens, List.map_cons, List.filterMap_cons] at ih ⊢
    cases hs : e.shape <;>
      simp only [Element.token?, Element.collapsed, hs, ih, List.map_cons, Token.squeezed, String.toList_ofList]

theorem walk_squeezed {stops : List String} (hb : ∀ w ∈ stops, ∀ c ∈ w.toList, isBlank c = false) {ts : List Token}
    (ht : ∀ t ∈ ts, t.text.toList.head?.any isBlank = false) (depth : Nat) :
    walk stops depth (ts.map Token.squeezed) = walk stops depth ts := by
  apply walk_map (f := Token.squeezed) fun _ _ => rfl
  intro t hm
  constructor
  · have hh : (collapse t.text.toList).head? = t.text.toList.head? := by
      have := ht t hm
      cases hx : t.text.toList with
      | nil => rfl
      | cons c cs =>
        rw [hx, List.head?_cons, Option.any_some] at this
        simp [collapse, collapseFrom, this]
    simp only [Token.endsType, Token.squeezed, String.toList_ofList, hh]
  · have hc : stops.contains t.squeezed.text = stops.contains t.text := by
      apply Bool.eq_iff_iff.2
      rw [List.contains_iff_mem, List.contains_iff_mem]
      have hw : ∀ w ∈ stops, t.squeezed.text = w ↔ t.text = w := by
        intro w hw
        rw [← String.toList_inj, ← String.toList_inj, Token.squeezed, String.toList_ofList]
        exact collapse_eq_iff (hb w hw)
      constructor
      · intro hx
        rwa [(hw _ hx).1 rfl]
      · intro hx
        rwa [(hw _ hx).2 rfl]
    simp only [Token.isOneOf, hc]
    rfl

/-- The elements of the text of a type: a type goes on over all of their tokens, and may end behind them. -/
structure TypeSpelling (stops : List String) (text : String) (es : List Element) (tail : List Char) : Prop
    extends Spelling text.toList es tail where
  starts : ∃ kind cs more, es = ⟨.lexeme kind, cs⟩ :: more
  ends : tail = [] → ∀ e, es.getLast? = some e → ∃ kind, e.shape = .lexeme kind
  depth : ∃ d, walk stops 0 (bareTokens es) = some d ∧ (tail = [] → d = 0)
  isCollapsed : collapse text.toList = text.toList

/-- Texts that a type was read as. -/
def TypeText (stops : List String) (text : String) : Prop :=
  ∃ es tail, TypeSpelling stops text es tail

/-- Tokens of a text, or of its end. -/
def Scanned (ts : List Token) : Prop :=
  ∃ place gap es after, ts = Token.ofElements place gap es ∧ Fitting es after

theorem token_head {es : List Element} {after : List Char} (h : Fitting es after) {t : Token}
    (ht : t ∈ bareTokens es) : t.text.toList.head?.any isBlank = false := by
  obtain ⟨e, he, hte⟩ := List.mem_filterMap.1 ht
  obtain ⟨before, behind, rfl⟩ := List.append_of_mem he
  obtain ⟨c, cs, hc, hb⟩ := head_of_fits (fitting_append.1 h).2.1
  unfold Element.token? at hte
  split at hte
  · next kind hk =>
    cases hte
    rw [hk] at hb
    rw [String.toList_ofList, hc, List.head?_cons, Option.any_some, Bool.eq_false_iff]
    exact fun hx => nomatch hb.2 hx
  · cases hte

/-- The elements of tokens at the front. The first and the last are lexemes. -/
theorem phrase_elements {ts taken left : List Token} {t : Token} (hs : Scanned ts) (h : t :: taken ++ left = ts) :
    ∃ e es after, Fitting (e :: es) after ∧ e.shape = .lexeme t.kind ∧ e.text = t.text.toList ∧
      bareTokens (e :: es) = (t :: taken).map Token.bare ∧
      phrase (t :: taken) = String.ofList (collapse ((e :: es).flatMap Element.text)) ∧
      (∀ f, (e :: es).getLast? = some f → ∃ kind, f.shape = .lexeme kind) ∧
      ∃ place, taken = Token.ofElements place [] es := by
  obtain ⟨place, gap, es, after, rfl, hf⟩ := hs
  obtain ⟨lead, e, es', place', rfl, -, hk, ht, -, hts⟩ := ofElements_cons h.symm
  obtain ⟨es₁, es₂, -, rfl, hbare, hflat, hlast, -⟩ := ofElements_split hts.symm
  refine ⟨e, es₁, es₂.flatMap Element.text ++ after, ?_, hk, ht, ?_, ?_, ?_, place', ?_⟩
  · have := (fitting_append.1 hf).2
    rw [← List.cons_append] at this
    exact (fitting_append.1 this).1
  · rw [bareTokens, List.filterMap_cons]
    simp only [Element.token?, hk, ht, String.ofList_toList, List.map_cons, ← hbare]
    rfl
  · rw [phrase, List.flatMap_cons, hflat, ht]
  · intro f hf
    rw [List.getLast?_cons, Option.some.injEq] at hf
    cases hx : es₁.getLast? with
    | none =>
      rw [hx] at hf
      obtain rfl : e = f := hf
      exact ⟨_, hk⟩
    | some g =>
      rw [hx] at hf
      obtain rfl : g = f := hf
      exact hlast g hx
  · have hlength := congrArg List.length (map_bare_ofElements place' [] es₁)
    rw [hbare, List.length_map, List.length_map] at hlength
    rw [ofElements_append] at hts
    exact (List.append_inj hts hlength.symm).1

/-- A type that is read, with something left, has the text of a type. -/
theorem typeText_of_split {stops : List String} (hb : ∀ w ∈ stops, ∀ c ∈ w.toList, isBlank c = false)
    {ts taken left : List Token} {t : Token} (hs : Scanned ts) (h : splitType stops 0 none ts = (t :: taken, left))
    (hl : left ≠ []) : TypeText stops (phrase (t :: taken)) := by
  have ha := splitType_append stops 0 none ts
  rw [h] at ha
  obtain ⟨e, es₁, after, hseg, hk, ht, hbare', htext, hlast', -⟩ := phrase_elements hs ha
  have hblank : ∀ f, (e :: es₁).getLast? = some f → f.shape ≠ .blank := by
    intro f hf hx
    obtain ⟨kind, hk⟩ := hlast' f hf
    rw [hk] at hx
    cases hx
  have hst : e.staysOnLine = true := by simp [Element.staysOnLine, hk]
  have hspell := spelling_of_fitting hseg hblank
  obtain ⟨d, hw, hd⟩ := walk_of_split h
  rw [← walk_bare, ← hbare'] at hw
  refine ⟨settled (e :: es₁), swallowed (e :: es₁), ⟨?_, ?_, ?_, ?_, ?_⟩⟩
  · rw [htext, String.toList_ofList]
    exact hspell
  · refine ⟨t.kind, collapse e.text, settled es₁, ?_⟩
    simp [settled, hst, Element.collapsed, hk]
  · intro hn f hf
    rcases swallowed_cases hseg with ⟨-, hm⟩ | ⟨cs, hc⟩
    · rw [hm, List.getLast?_map] at hf
      obtain ⟨g, hg, rfl⟩ := Option.map_eq_some_iff.1 hf
      exact hlast' g hg
    · rw [hn] at hc
      cases hc
  · have hh : ∀ u ∈ bareTokens (e :: es₁), u.text.toList.head?.any isBlank = false := fun u => token_head hseg
    have hsplit : bareTokens (e :: es₁) =
        bareTokens ((e :: es₁).takeWhile Element.staysOnLine) ++ bareTokens ((e :: es₁).dropWhile Element.staysOnLine) := by
      rw [← bareTokens_append, List.takeWhile_append_dropWhile]
    have hw' := hw
    rw [hsplit, walk_append] at hw'
    obtain ⟨d₁, hw₁, -⟩ := Option.bind_eq_some_iff.1 hw'
    refine ⟨d₁, ?_, fun hn => ?_⟩
    · rw [settled, bareTokens_collapsed, walk_squeezed hb, hw₁]
      intro u hu
      exact hh u (hsplit ▸ List.mem_append_left _ hu)
    · rcases swallowed_cases hseg with ⟨-, hm⟩ | ⟨cs, hc⟩
      · have hw₂ := walk_squeezed hb hh 0
        rw [← bareTokens_collapsed, ← hm, settled, bareTokens_collapsed, walk_squeezed hb, hw₁, hw] at hw₂
        · cases hw₂
          exact hd hl
        · intro u hu
          exact hh u (hsplit ▸ List.mem_append_left _ hu)
      · rw [hn] at hc
        cases hc
  · rw [htext, String.toList_ofList]
    exact collapse_collapse false _

end TestHooks.Swift
