import TestHooks.Proofs.Respacing

/-!
# Tokens tile the text

Between the tokens of a text stand blanks and comments and nothing else, whether the text is read to its end or not
(`tokens_tile`). Comments are described by their nesting, and not by the depth that is counted when one is read.
-/

namespace TestHooks.Swift

open TestHooks.Text

/-! ### Gaps -/

/-- Blanks and comments, one behind another, before the text `after`. A comment on a line reaches up to a line break or
the end of the text. -/
inductive Gap (after : List Char) : List Char → Prop
  | nil : Gap after []
  | blank {c : Char} {cs : List Char} (hc : isBlank c = true) (h : Gap after cs) : Gap after (c :: cs)
  | lineComment {body cs : List Char} (hb : '\n' ∉ body) (he : (cs ++ after).head?.all (· == '\n') = true)
    (h : Gap after cs) : Gap after ('/' :: '/' :: (body ++ cs))
  | blockComment {tail cs : List Char} (ht : CommentTail tail) (h : Gap after cs) :
    Gap after ('/' :: '*' :: (tail ++ cs))

theorem Gap.append {after cs ds : List Char} (h : Gap (ds ++ after) cs) (h' : Gap after ds) :
    Gap after (cs ++ ds) := by
  induction h with
  | nil => exact h'
  | blank hc _ ih => exact .blank hc ih
  | @lineComment body cs hb he _ ih =>
    rw [List.cons_append, List.cons_append, List.append_assoc]
    exact .lineComment hb (by rwa [List.append_assoc]) ih
  | @blockComment tail cs ht _ ih =>
    rw [List.cons_append, List.cons_append, List.append_assoc]
    exact .blockComment ht ih

theorem gap_of_blanks {after cs : List Char} (h : ∀ c ∈ cs, isBlank c = true) : Gap after cs := by
  induction cs with
  | nil => exact .nil
  | cons c cs ih => exact .blank (h c List.mem_cons_self) (ih fun d hd => h d (List.mem_cons_of_mem _ hd))

/-- An element that is no lexeme is a gap. -/
theorem gap_of_fits {e : Element} {after : List Char} (h : e.Fits after) (hs : ∀ kind, e.shape ≠ .lexeme kind) :
    Gap after e.text := by
  cases fits_iff.1 h with
  | blank hc hcs _ => exact .blank hc (gap_of_blanks hcs)
  | @lineComment body hb ha =>
    have hline : Gap after ('/' :: '/' :: (body ++ [])) := .lineComment hb ha .nil
    rwa [List.append_nil] at hline
  | @blockComment tail ht =>
    have hblock : Gap after ('/' :: '*' :: (tail ++ [])) := .blockComment ht .nil
    rwa [List.append_nil] at hblock
  | lexeme => exact absurd rfl (hs _)

/-! ### Tiles -/

/-- The characters from the one at `i` on and before the one at `j`. -/
def charsBetween (cs : List Char) (i j : Nat) : List Char :=
  (cs.take j).drop i

/-- The tokens stand one behind another in the text from the character at `i` on, each with its own characters, and up
to the character at `reach` only gaps stand before, between and behind them. -/
inductive Tiled (cs : List Char) (reach : Nat) : Nat → List Token → Prop
  | gap {i : Nat} (hi : i ≤ reach) (hg : Gap (cs.drop reach) (charsBetween cs i reach)) : Tiled cs reach i []
  | token {i : Nat} {t : Token} {ts : List Token} (hi : i ≤ t.start.offset)
    (hg : Gap (cs.drop t.start.offset) (charsBetween cs i t.start.offset)) (hl : t.start.offset < t.stop)
    (ht : charsBetween cs t.start.offset t.stop = t.text.toList) (h : Tiled cs reach t.stop ts) : Tiled cs reach i (t :: ts)

theorem Tiled.le_reach {cs : List Char} {reach i : Nat} {ts : List Token} (h : Tiled cs reach i ts) :
    i ≤ reach ∧ ∀ t ∈ ts, t.stop ≤ reach := by
  induction h with
  | gap hi _ => exact ⟨hi, List.forall_mem_nil _⟩
  | token hi _ hl _ _ ih => exact ⟨by omega, List.forall_mem_cons.2 ih⟩

theorem charsBetween_append (before middle after : List Char) :
    charsBetween (before ++ (middle ++ after)) before.length (before.length + middle.length) = middle := by
  rw [charsBetween, ← List.append_assoc, ← List.length_append, List.take_left, List.drop_left]

/-- Elements that fit are tokens and the gaps around them. -/
theorem tiled_ofElements {es : List Element} {rest read gap : List Char} {place : Place} (hf : Fitting es rest)
    (hg : Gap (es.flatMap Element.text ++ rest) gap) (hp : place.offset = read.length + gap.length) :
    Tiled (read ++ (gap ++ (es.flatMap Element.text ++ rest)))
      (read.length + (gap.length + (es.flatMap Element.text).length)) read.length (Token.ofElements place gap es) := by
  induction es generalizing read gap place with
  | nil =>
    refine .gap (by omega) ?_
    simp only [List.flatMap_nil, List.nil_append, List.length_nil, Nat.add_zero] at hg ⊢
    rwa [charsBetween_append, ← List.append_assoc, ← List.length_append, List.drop_left]
  | cons e es ih =>
    obtain ⟨hfe, hfes⟩ := hf
    rw [List.flatMap_cons, List.append_assoc] at hg ⊢
    rw [Token.ofElements]
    by_cases hs : ∃ kind, e.shape = .lexeme kind
    · obtain ⟨kind, hk⟩ := hs
      simp only [hk]
      obtain ⟨c, cs, ht, -⟩ := hfe
      have hpos : 0 < e.text.length := by rw [ht]; exact Nat.zero_lt_succ _
      have hstop : (⟨kind, String.ofList e.text, String.ofList gap, place⟩ : Token).stop =
          (read ++ gap ++ e.text).length := by
        simp only [Token.stop, String.length_ofList, hp, List.length_append]
      have hbefore : read.length ≤ place.offset := by omega
      refine .token hbefore ?_ (by rw [Token.stop, String.length_ofList]; exact Nat.lt_add_of_pos_right hpos) ?_ ?_
      · rwa [hp, charsBetween_append, ← List.append_assoc, ← List.length_append, List.drop_left]
      · have hlength : (read ++ gap ++ e.text).length = (read ++ gap).length + e.text.length := List.length_append
        rw [hstop, hp, ← List.append_assoc, ← List.length_append, hlength, charsBetween_append, String.toList_ofList]
      · have hrest := @ih (read ++ gap ++ e.text) [] (place.advance e.text) hfes .nil (by
          rw [Place.offset_advance, hp]
          simp only [List.length_append, List.length_nil, Nat.add_zero])
        rw [hstop]
        simp only [List.nil_append, List.length_nil, Nat.zero_add, List.append_assoc, List.length_append,
          Nat.add_assoc] at hrest ⊢
        exact hrest
    · rw [not_exists] at hs
      have hrest := @ih read (gap ++ e.text) (place.advance e.text) hfes
        (hg.append (gap_of_fits hfe hs)) (by rw [Place.offset_advance, hp, List.length_append]; omega)
      simp only [List.append_assoc, List.length_append, Nat.add_assoc] at hrest ⊢
      exact hrest

/-! ### Texts -/

/-- The position of the character that has `n` others before it. -/
def positionAt (text : String) (n : Nat) : Position :=
  (Place.origin.advance (text.toList.take n)).toPosition

/-- The number of characters up to the end of the text or the place where no element can be read. -/
def reachOf (text : String) : Nat :=
  ((Cut.ofText text.toList).elements.flatMap Element.text).length

theorem flatten_append_unread (text : String) :
    (Cut.ofText text.toList).elements.flatMap Element.text ++ (Cut.ofText text.toList).unread = text.toList :=
  Cut.flatten_ofText text.toList

/-- Where a cut stops short, no element stands. -/
theorem unread_of_fault {cs : List Char} {fault : LexicalFault} (h : (Cut.ofText cs).fault = some fault) :
    ∃ c more, (Cut.ofText cs).unread = c :: more ∧ Element.measure c more = .error fault := by
  fun_induction Cut.ofText cs with
  | case1 => cases h
  | case2 c cs fault' hm =>
    cases h
    exact ⟨c, cs, rfl, hm⟩
  | case3 c cs shape length hm after ih => exact ih h

/-- A text is read to its end, or up to a character at which no element stands; the failure is reported there. -/
theorem failure_cases (text : String) :
    ((Tokens.ofText text).failure = none ∧ reachOf text = text.length) ∨
      ∃ c more fault, text.toList.drop (reachOf text) = c :: more ∧ Element.measure c more = .error fault ∧
        (Tokens.ofText text).failure = some ⟨.lexical fault, some (positionAt text (reachOf text))⟩ := by
  have hf := flatten_append_unread text
  cases hfault : (Cut.ofText text.toList).fault with
  | none =>
    left
    refine ⟨no_failure_iff.2 hfault, ?_⟩
    rw [reachOf, (elements_of_no_fault hfault).2, String.length_toList]
  | some fault =>
    right
    obtain ⟨c, more, hu, hm⟩ := unread_of_fault hfault
    refine ⟨c, more, fault, ?_, hm, ?_⟩
    · have hdrop := congrArg (List.drop (reachOf text)) hf
      rwa [reachOf, List.drop_left, hu, eq_comm] at hdrop
    · have htake := congrArg (List.take (reachOf text)) hf
      rw [reachOf, List.take_left, eq_comm, ← reachOf] at htake
      rw [Tokens.ofText, hfault, positionAt, htake]
      rfl

/-- The tokens of a text are nonempty pieces of it, none reaches into the next or beyond the end, and blanks and comments
alone stand before, between and behind them: up to the end of the text, or up to the character at which no element
stands. -/
theorem tokens_tile (text : String) :
    Tiled text.toList (reachOf text) 0 (Tokens.ofText text).tokens ∧ reachOf text ≤ text.length ∧
      (∀ t ∈ (Tokens.ofText text).tokens, t.stop ≤ reachOf text) ∧
      (((Tokens.ofText text).failure = none ∧ reachOf text = text.length) ∨
        ∃ c more fault, text.toList.drop (reachOf text) = c :: more ∧ Element.measure c more = .error fault ∧
          (Tokens.ofText text).failure = some ⟨.lexical fault, some (positionAt text (reachOf text))⟩) := by
  have htiled : Tiled text.toList (reachOf text) 0 (Tokens.ofText text).tokens := by
    have h := @tiled_ofElements _ _ [] [] .origin (fitting_ofText text.toList) .nil rfl
    simp only [List.nil_append, List.length_nil, Nat.zero_add, flatten_append_unread] at h
    exact h
  refine ⟨htiled, ?_, htiled.le_reach.2, failure_cases text⟩
  rw [← String.length_toList, ← flatten_append_unread text, List.length_append, reachOf]
  omega

end TestHooks.Swift
