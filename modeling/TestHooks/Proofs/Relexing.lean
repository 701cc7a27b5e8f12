import TestHooks.Proofs.Composing
import TestHooks.Proofs.Reformatting

/-!
# Tokens read again

What a token is depends on its own characters alone, once a blank follows it. So tokens that are written one behind
another, each behind one blank, are cut into the same tokens again (`respelled_tokens`).
-/

namespace TestHooks.Swift

open TestHooks.Text

/-! ### Elements before separators -/

/-- The element that a token was read from. -/
def Token.element (t : Token) : Element := ⟨.lexeme t.kind, t.text.toList⟩

theorem fits_of_mem {es : List Element} {rest : List Char} (hf : Fitting es rest) {place : Place} {gap : List Char}
    {t : Token} (ht : t ∈ Token.ofElements place gap es) : ∃ after, t.element.Fits after := by
  induction es generalizing place gap with
  | nil => cases ht
  | cons e es ih =>
    rw [Token.ofElements] at ht
    split at ht
    · next kind hk =>
      rcases List.mem_cons.1 ht with rfl | ht
      · refine ⟨es.flatMap Element.text ++ rest, ?_⟩
        rw [Token.element, String.toList_ofList, ← hk]
        exact hf.1
      · exact ih hf.2 ht
    · exact ih hf.2 ht

/-- No quotation mark or number sign is a separator. -/
theorem quoting_inside_separated {after' : List Char} (h : Separated after') (after : List Char) :
    Agrees isQuoting after' after :=
  (agrees_of_separated h after).mono fun _ => quoting_inside

/-- A lexeme is the same before every separator. -/
theorem Token.fits_separated {t : Token} {after after' : List Char} (h : t.element.Fits after) (ha : Separated after') :
    t.element.Fits after' :=
  h.respaced nofun (respaced_refl false _) (agrees_of_separated ha after).quieter (quoting_inside_separated ha after)
    nofun

theorem Token.element_not_blank {t : Token} {after : List Char} (h : t.element.Fits after) (more : List Char) :
    (t.text.toList ++ more).head?.any isBlank = false := by
  obtain ⟨c, cs, hc, hb⟩ := head_of_fits h
  rw [show t.text.toList = c :: cs from hc, List.cons_append, List.head?_cons, Option.any_some, Bool.eq_false_iff]
  exact fun hx => nomatch hb.2 hx

/-! ### Tokens behind single blanks -/

/-- The blank that a token is written behind. -/
def Token.lead (t : Token) : Element := if t.newlineBefore then .lineBreak [] else .space

/-- The elements of tokens that are written behind single blanks. -/
def respelledElements (ts : List Token) : List Element :=
  ts.flatMap fun t => [t.lead, t.element]

/-- Tokens one behind another, each behind a line break if one stood before it, and behind a space otherwise. -/
def respelled (ts : List Token) : String :=
  String.ofList (ts.flatMap fun t => (if t.newlineBefore then '\n' else ' ') :: t.text.toList)

theorem Token.lead_text (t : Token) : t.lead.text = [if t.newlineBefore then '\n' else ' '] := by
  rw [lead]
  split <;> rfl

theorem Token.lead_fits (t : Token) {after : List Char} (h : after.head?.any isBlank = false) : t.lead.Fits after := by
  rw [lead]
  split
  · exact lineBreak_fits (List.forall_mem_nil _) h
  · exact space_fits h

theorem flatten_respelledElements (ts : List Token) :
    (respelledElements ts).flatMap Element.text = (respelled ts).toList := by
  rw [respelled, String.toList_ofList, respelledElements, List.flatMap_assoc]
  congr 1
  funext t
  rw [List.flatMap_cons, List.flatMap_singleton, Token.lead_text]
  rfl

theorem respelled_separated (ts : List Token) : Separated ((respelledElements ts).flatMap Element.text) := by
  cases ts with
  | nil => rfl
  | cons t ts =>
    rw [flatten_respelledElements, respelled, String.toList_ofList, List.flatMap_cons, Separated, List.cons_append,
      List.head?_cons, Option.all_some]
    cases t.newlineBefore <;> decide

theorem respelled_fits {ts : List Token} (h : ∀ t ∈ ts, ∃ after, t.element.Fits after) :
    Fitting (respelledElements ts) [] := by
  induction ts with
  | nil => trivial
  | cons t ts ih =>
    obtain ⟨⟨after, ht⟩, hts⟩ := List.forall_mem_cons.1 h
    have hmore : Separated ((respelledElements ts).flatMap Element.text ++ []) := by
      rw [List.append_nil]
      exact respelled_separated ts
    have hhead := Token.element_not_blank ht ((respelledElements ts).flatMap Element.text ++ [])
    rw [← List.append_assoc] at hhead
    exact ⟨t.lead_fits hhead, Token.fits_separated ht hmore, ih hts⟩

/-- The elements stand for the tokens they were made of. -/
theorem looks_respelledElements (place : Place) (ts : List Token) :
    (Token.ofElements place [] (respelledElements ts)).map Token.look = ts.map Token.look := by
  induction ts generalizing place with
  | nil => rfl
  | cons t ts ih =>
    have hlead : ∀ es, Token.ofElements place [] (t.lead :: es) =
        Token.ofElements (place.advance t.lead.text) t.lead.text es := by
      intro es
      rw [Token.lead]
      split <;> rfl
    have hbreak : t.lead.text.contains '\n' = t.newlineBefore := by
      rw [Token.lead_text]
      cases t.newlineBefore <;> decide
    rw [respelledElements, List.flatMap_cons, List.cons_append, hlead, List.cons_append, List.nil_append,
      ← respelledElements, Token.ofElements]
    simp only [Token.element, List.map_cons, ih]
    rw [Token.look, Token.look, Token.newlineBefore, String.toList_ofList, hbreak, String.ofList_toList]

/-- Tokens that are written one behind another, each behind a line break if one stood before it and behind a space
otherwise, are read without a failure, as tokens of the same kinds and texts, with the line breaks before the same ones.
The text they are taken from need not be read to its end. -/
theorem respelled_tokens (text : String) :
    (Tokens.ofText (respelled (Tokens.ofText text).tokens)).failure = none ∧
      (Tokens.ofText (respelled (Tokens.ofText text).tokens)).tokens.map Token.look =
        (Tokens.ofText text).tokens.map Token.look := by
  have hfits : Fitting (respelledElements (Tokens.ofText text).tokens) [] :=
    respelled_fits fun t ht => fits_of_mem (fitting_ofText text.toList) ht
  rw [ofText_of_fitting hfits (flatten_respelledElements _)]
  exact ⟨rfl, looks_respelledElements _ _⟩

end TestHooks.Swift
