import TestHooks.Proofs.Agreement

/-!
# Parameters that are passed in and out

A forwarding call passes a parameter on with an ampersand if a blank or nothing is behind the word `inout` at the beginning
of its type (`ampersand_iff`). So the ampersand is missing where a bracket or a comment touches the word.
-/

namespace TestHooks.Proxy

open TestHooks.Swift TestHooks.Text

/-- Tokens that a phrase is taken from are in front of what is written behind them. -/
theorem fits_written {ts taken left : List Token} {t : Token} (hs : Scanned ts) (h : t :: taken ++ left = ts) :
    t.element.Fits (Token.written taken) := by
  obtain ⟨e, es, after, hf, hk, ht, -, -, hlast, place, rfl⟩ := phrase_elements hs h
  have hwritten : Token.written (Token.ofElements place [] es) = es.flatMap Element.text := by
    have hx := Token.written_ofElements place [] es
    by_cases hn : es = []
    · rw [hn]
      rfl
    · rwa [finalGap_of_lexeme (endsInLexeme_of_last hn fun f hf => hlast f (getLast_cons hf)), List.append_nil,
        List.nil_append] at hx
  have he : t.element = e := by rw [Token.element, ← hk, ← ht]
  rw [hwritten, he]
  exact hf.1.shorten

theorem isInout_taken {text : String} {role : TypeRole} {p : Parameter} {t : Token} {rest : List Token}
    (h : TakenFrom (Tokens.ofText text).tokens role (t :: rest)) (hp : p.type = phrase (t :: rest)) :
    p.isInout = true ↔
      t.isIdentifier "inout" = true ∧ ∀ u, rest.head? = some u → u.gap.toList.head?.any isBlank = true := by
  obtain ⟨mark, left, hs, -⟩ := h.stands
  have hsuffix : t :: rest ++ left <:+ (Tokens.ofText text).tokens := (List.suffix_cons _ _).trans hs
  have hlexed : ∀ u ∈ rest, u.Lexed := fun u hu =>
    (Token.standing_ofText text).lexed u (hsuffix.subset (List.mem_append_left _ (List.mem_cons_of_mem _ hu)))
  exact isInout_phrase hp (fits_written (scanned_suffix (scanned_ofText text) hsuffix) rfl) hlexed

/-- An argument is read apart from the call. -/
theorem argument_lexemes {q : Parameter × String} (hq : SpelledParameter q) (wildcardLabels : Bool) :
    lexemes (argument wildcardLabels q.1 q.2) = passedOn wildcardLabels (renamed q) := by
  have hspelling := argument_spelling wildcardLabels hq spelling_nil rfl
  rw [List.append_nil, List.append_nil] at hspelling
  rw [← lexemesOf_argument]
  exact hspelling.reads.2.2

theorem ampersand_mem_iff (wildcardLabels : Bool) (p : Parameter) :
    (.operator, "&") ∈ passedOn wildcardLabels p ↔ p.isInout = true := by
  unfold passedOn
  cases p.isInout <;> split <;> simp

/-- The argument for a parameter is written under its local name, and with an ampersand if and only if the first of the
tokens that its type is taken from is the word `inout`, and the one behind it, if any, stands behind a blank. -/
theorem ampersand_iff {text : String} {ds : List Decl} (h : parse text = .ok ds) {f : Function}
    (hf : f ∈ functionsAmong ds) (wildcardLabels : Bool) :
    ∀ (i : Nat) p, f.parameters[i]? = some p → ∃ name t rest, (localNames f)[i]? = some name ∧
      TakenFrom (Tokens.ofText text).tokens .parameter (t :: rest) ∧ p.type = phrase (t :: rest) ∧
      lexemes (argument wildcardLabels p name) = passedOn wildcardLabels { p with name := name } ∧
      ((.operator, "&") ∈ lexemes (argument wildcardLabels p name) ↔
        t.isIdentifier "inout" = true ∧ ∀ u, rest.head? = some u → u.gap.toList.head?.any isBlank = true) := by
  intro i p hp
  obtain ⟨name, hname⟩ : ∃ name, (localNames f)[i]? = some name := by
    have hi := (List.getElem?_eq_some_iff.1 hp).1
    rw [← length_localNames f] at hi
    exact ⟨_, List.getElem?_eq_getElem hi⟩
  have hq : (p, name) ∈ f.parameters.zip (localNames f) :=
    List.mem_of_getElem? (List.getElem?_zip_eq_some.2 ⟨hp, hname⟩)
  obtain ⟨d, hd, htype⟩ := List.mem_flatMap.1 ((lowered_types hf).1 p (List.mem_of_getElem? hp)).1
  obtain ⟨taken, htaken, hphrase⟩ := types_taken (nodes_parse h d hd) _ htype
  obtain ⟨t, rest, rfl⟩ := List.exists_cons_of_ne_nil htaken.ne_nil
  have hargument := argument_lexemes ((lowered_spelled h hf).declared _ hq) wildcardLabels
  refine ⟨name, t, rest, hname, htaken, hphrase, hargument, ?_⟩
  rw [hargument, ampersand_mem_iff]
  exact isInout_taken htaken hphrase

/-- A function with parameters whose types begin with `inout`, before a comment behind a space and before a tuple behind a
tab. -/
def spacedText : String :=
  "@Testable\nclass A \x7b private func f(_ _: inout /* c */ Int, y: inout\t(Int, Int)) \x7b\x7d \x7d"

theorem spacedText_ampersands :
    ∃ ds f, parse spacedText = .ok ds ∧ f ∈ functionsAmong ds ∧ localNames f = ["arg0", "y"] ∧
      ∀ i < 2, ∃ p name t rest, f.parameters[i]? = some p ∧ (localNames f)[i]? = some name ∧
        TakenFrom (Tokens.ofText spacedText).tokens .parameter (t :: rest) ∧ t.isIdentifier "inout" = true ∧
        (.operator, "&") ∈ lexemes (argument false p name) := by
  have hread : (parse spacedText).toOption.any (fun ds => (functionsAmong ds).any fun f =>
      localNames f == ["arg0", "y"] && f.parameters.length == 2 && f.parameters.all Parameter.isInout) = true := by
    decide +kernel
  obtain ⟨ds, hds, hread⟩ := exists_ok hread
  obtain ⟨f, hf, hread⟩ := List.any_eq_true.1 hread
  rw [Bool.and_eq_true, Bool.and_eq_true, beq_iff_eq, beq_iff_eq, List.all_eq_true] at hread
  obtain ⟨⟨hnames, hlength⟩, hin⟩ := hread
  refine ⟨ds, f, hds, hf, hnames, fun i hi => ?_⟩
  obtain ⟨p, hp⟩ : ∃ p, f.parameters[i]? = some p := ⟨_, List.getElem?_eq_getElem (hlength ▸ hi)⟩
  obtain ⟨name, t, rest, hname, htaken, -, hargument, hiff⟩ := ampersand_iff hds hf false i p hp
  have hmem : (.operator, "&") ∈ lexemes (argument false p name) := by
    rw [hargument, ampersand_mem_iff]
    exact hin p (List.mem_of_getElem? hp)
  exact ⟨p, name, t, rest, hp, hname, htaken, (hiff.1 hmem).1, hmem⟩

/-- A function with a parameter whose type has a tuple right behind `inout`. -/
def tupleText : String :=
  "@Testable\nclass A \x7b private func f(_ x: inout(Int, Int)) \x7b\x7d \x7d"

/-- The word is a token of its own, but the argument has no ampersand. -/
theorem tuple_hides_inout :
    ∃ ds f p, parse tupleText = .ok ds ∧ f ∈ functionsAmong ds ∧ f.parameters = [p] ∧ localNames f = ["x"] ∧
      (Tokens.ofText p.type).tokens.head?.any (·.isIdentifier "inout") = true ∧
      lexemes (argument false p "x") = [(.identifier, "x")] := by
  have hread : (parse tupleText).toOption.any (fun ds => (functionsAmong ds).any fun f => f.parameters.any fun p =>
      f.parameters == [p] && localNames f == ["x"] && (Tokens.ofText p.type).tokens.head?.any (·.isIdentifier "inout") &&
        lexemes (argument false p "x") == [(.identifier, "x")]) = true := by
    decide +kernel
  obtain ⟨ds, hds, hread⟩ := exists_ok hread
  obtain ⟨f, hf, hread⟩ := List.any_eq_true.1 hread
  obtain ⟨p, -, hread⟩ := List.any_eq_true.1 hread
  simp only [Bool.and_eq_true, beq_iff_eq] at hread
  obtain ⟨⟨⟨hp, hnames⟩, hin⟩, hargument⟩ := hread
  exact ⟨ds, f, p, hds, hf, hp, hnames, hin, hargument⟩

end TestHooks.Proxy
