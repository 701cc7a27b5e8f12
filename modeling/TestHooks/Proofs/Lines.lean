import TestHooks.Proofs.Appending
import TestHooks.Proofs.Comments
import TestHooks.Proofs.Positions

/-!
# Lexing line by line

A line break ends whatever stands before it, so a text is cut behind it as if nothing stood before: the tokens of two texts
with a line break between them are the tokens of the first and those of the second, moved down by the lines of the first
(`tokens_behind_break`).
-/

namespace TestHooks

/-! ### Moved places -/

/-- The place so many lines further down and so many characters further on. -/
def Place.moved (lines characters : Nat) (p : Place) : Place :=
  ⟨⟨p.line + lines, p.column⟩, p.offset + characters⟩

theorem Place.advance_moved (lines characters : Nat) (p : Place) (cs : List Char) :
    (p.moved lines characters).advance cs = (p.advance cs).moved lines characters := by
  induction cs generalizing p with
  | nil => rfl
  | cons c cs ih =>
    have hnext : (p.moved lines characters).next c = (p.next c).moved lines characters := by
      unfold next
      split <;> simp [moved, Nat.add_right_comm]
    rw [advance_cons, advance_cons, hnext, ih]

/-- Behind a text and a line break stands the origin, moved. -/
theorem Place.origin_behind (cs : List Char) :
    Place.origin.advance (cs ++ ['\n']) = Place.origin.moved (1 + cs.count '\n') (cs.length + 1) := by
  have hline := congrArg Position.line (Swift.position_of_text cs)
  have hoffset := Place.offset_advance .origin cs
  rw [advance_append, advance_cons, advance_nil, next, if_pos rfl, hoffset]
  simp only at hline
  rw [hline]
  simp [moved, origin, Nat.add_comm]

namespace Swift

open TestHooks.Text

/-- The error so many lines further down. -/
def SyntaxError.moved (lines : Nat) (e : SyntaxError) : SyntaxError :=
  { e with position := e.position.map fun p => ⟨p.line + lines, p.column⟩ }

/-- The second token is the first one so many lines further down and so many characters further on. A line break stands
before it if one stands before the first, and where `broken` is given. -/
structure Token.Moved (lines characters : Nat) (broken : Bool) (t u : Token) : Prop where
  kind : u.kind = t.kind
  text : u.text = t.text
  start : u.start.offset = t.start.offset + characters
  stop : u.stop = t.stop + characters
  line : u.start.line = t.start.line + lines
  column : u.start.column = t.start.column
  newlineBefore : u.newlineBefore = (broken || t.newlineBefore)

theorem Token.moved_ofElements (lines characters : Nat) {broken : Bool} {gap gap' : List Char}
    (hgap : gap'.contains '\n' = (broken || gap.contains '\n')) (es : List Element) (place : Place) :
    (ofElements (place.moved lines characters) gap' es).length = (ofElements place gap es).length ∧
      ∀ i t u, (ofElements place gap es)[i]? = some t → (ofElements (place.moved lines characters) gap' es)[i]? = some u →
        Moved lines characters (i == 0 && broken) t u := by
  induction es generalizing place gap gap' broken with
  | nil => exact ⟨rfl, fun i t u ht => by simp [ofElements] at ht⟩
  | cons e es ih =>
    rw [ofElements, ofElements, Place.advance_moved]
    split
    · obtain ⟨hlength, hall⟩ := @ih false [] [] rfl (place.advance e.text)
      refine ⟨by rw [List.length_cons, List.length_cons, hlength], fun i t u ht hu => ?_⟩
      cases i with
      | zero =>
        cases ht
        cases hu
        refine ⟨rfl, rfl, rfl, Nat.add_right_comm _ _ _, rfl, rfl, ?_⟩
        simpa [newlineBefore] using hgap
      | succ i => simpa using hall i t u ht hu
    · refine @ih broken _ _ ?_ _
      simp only [List.contains_append, hgap, Bool.or_assoc]

/-! ### Texts -/

theorem head_behind_blanks (cs : List Char) : (cs.dropWhile isBlank).head?.any isBlank = false := by
  have := List.head?_dropWhile_not isBlank cs
  cases h : (cs.dropWhile isBlank).head? with
  | none => rfl
  | some c => simpa [h] using this

/-- A text is cut into the blanks at its beginning and the elements behind them. -/
theorem cut_blanks (cs : List Char) : ∃ gs : List Element, (∀ e ∈ gs, e.IsTrivia) ∧
    gs.flatMap Element.text = cs.takeWhile isBlank ∧
    Cut.ofText cs = { Cut.ofText (cs.dropWhile isBlank) with
      elements := gs ++ (Cut.ofText (cs.dropWhile isBlank)).elements } := by
  have hgap : Gap (cs.dropWhile isBlank) (cs.takeWhile isBlank) :=
    gap_of_blanks fun c hc => List.mem_takeWhile_imp hc
  obtain ⟨gs, hf, htrivia, hflat⟩ := elements_of_gap hgap (head_behind_blanks cs)
  refine ⟨gs, htrivia, hflat, ?_⟩
  rw [← ofText_flatten hf, hflat, List.takeWhile_append_dropWhile]

/-- The text of complete tokens, with a line break and blanks behind it, is cut into elements of these tokens. -/
theorem LegibleText.broken {cs bs after : List Char} {ts : List Token} (h : LegibleText cs ts)
    (hb : ∀ c ∈ bs, isBlank c = true) (ha : after.head?.any isBlank = false) :
    ∃ es final, Fitting es after ∧ es.flatMap Element.text = cs ++ '\n' :: bs ∧ '\n' ∈ final ∧
      Token.finalGap [] es = final ∧
      (Token.ofElements .origin [] es).map Token.face = ts.map Token.face := by
  obtain ⟨final, rfl, hl, hg⟩ := h
  have hbreak : Legible (final ++ '\n' :: bs ++ after) ts := by
    rw [List.append_assoc]
    refine hl.replace ?_
    have := ((separated_break (bs ++ after)).replaces []).append final
    rwa [List.append_nil] at this
  have hgap : Gap after (final ++ '\n' :: bs) :=
    (hg.before fun _ => rfl).append (.blank isBlank_newline (gap_of_blanks hb))
  obtain ⟨es, hf, hflat, hfaces⟩ := hbreak.elements hgap ha
  refine ⟨es, final ++ '\n' :: bs, hf, by rw [hflat, List.append_assoc], by simp, ?_, hfaces .origin⟩
  have hwritten := Token.written_ofElements .origin [] es
  rw [List.nil_append, hflat, written_of_faces (hfaces .origin)] at hwritten
  exact List.append_cancel_left hwritten

/-- Behind a text that is read to its end and a line break, another text is read as if it stood alone: its tokens and its
failure are the same, moved. -/
theorem tokens_behind_break (a b : String) (ha : (Tokens.ofText a).failure = none) :
    ∃ us, (Tokens.ofText (a ++ "\n" ++ b)).tokens = (Tokens.ofText a).tokens ++ us ∧
      us.length = (Tokens.ofText b).tokens.length ∧
      (∀ i t u, (Tokens.ofText b).tokens[i]? = some t → us[i]? = some u →
        Token.Moved (1 + a.toList.count '\n') (a.length + 1) (i == 0) t u) ∧
      (Tokens.ofText (a ++ "\n" ++ b)).failure =
        (Tokens.ofText b).failure.map (SyntaxError.moved (1 + a.toList.count '\n')) := by
  obtain ⟨gs, htrivia, hblanks, hcut⟩ := cut_blanks b.toList
  obtain ⟨es, final, hf, hflat, hbroken, hfinal, hfaces⟩ :=
    (legibleText_ofText ha).broken (fun c hc => List.mem_takeWhile_imp hc) (head_behind_blanks b.toList)
  have hwhole : (a ++ "\n" ++ b).toList = es.flatMap Element.text ++ b.toList.dropWhile isBlank := by
    rw [hflat, String.toList_append, String.toList_append, List.append_assoc, List.append_assoc, List.cons_append,
      List.takeWhile_append_dropWhile]
    rfl
  have hplace : Place.origin.advance (es.flatMap Element.text) =
      (Place.origin.advance (b.toList.takeWhile isBlank)).moved (1 + a.toList.count '\n') (a.length + 1) := by
    rw [hflat, List.append_cons, Place.advance_append, Place.origin_behind, Place.advance_moved, String.length_toList]
  have htokens : Token.ofElements .origin [] es = (Tokens.ofText a).tokens := by
    rw [placed_ofText a, ← hfaces]
    exact placed_ofElements .origin [] es
  have hmoved := @Token.moved_ofElements (1 + a.toList.count '\n') (a.length + 1) true (b.toList.takeWhile isBlank) final
    (by simpa using hbroken) (Cut.ofText (b.toList.dropWhile isBlank)).elements
    (Place.origin.advance (b.toList.takeWhile isBlank))
  have hsecond : (Tokens.ofText b).tokens = Token.ofElements (Place.origin.advance (b.toList.takeWhile isBlank))
      (b.toList.takeWhile isBlank) (Cut.ofText (b.toList.dropWhile isBlank)).elements := by
    rw [Tokens.ofText, hcut]
    simp only
    rw [ofElements_trivia htrivia, hblanks, List.nil_append]
  refine ⟨Token.ofElements ((Place.origin.advance (b.toList.takeWhile isBlank)).moved (1 + a.toList.count '\n')
    (a.length + 1)) final (Cut.ofText (b.toList.dropWhile isBlank)).elements, ?_, ?_, ?_, ?_⟩
  · rw [Tokens.ofText, hwhole, ofText_flatten hf]
    simp only
    rw [ofElements_append, htokens, hplace, hfinal]
  · rw [hsecond, hmoved.1]
  · intro i t u ht hu
    rw [hsecond] at ht
    simpa using hmoved.2 i t u ht hu
  · rw [Tokens.ofText, hwhole, ofText_flatten hf, Tokens.ofText, hcut]
    simp only [List.flatMap_append, Place.advance_append, hplace, hblanks, Place.advance_moved]
    cases (Cut.ofText (b.toList.dropWhile isBlank)).fault with
    | none => rfl
    | some fault => rfl

/-- A text of two lines that ends in a comment, with a text behind it that breaks off in a literal. -/
theorem commentedText_behind : (Tokens.ofText "x /* y\n*/ // z").failure = none ∧
    ∃ us, (Tokens.ofText ("x /* y\n*/ // z" ++ "\n" ++ "u\n \"v")).tokens =
        (Tokens.ofText "x /* y\n*/ // z").tokens ++ us ∧
      us.length = 1 ∧
      (∀ u, us[0]? = some u → Token.Moved 2 15 true ⟨.identifier, "u", "", .origin⟩ u) ∧
      (Tokens.ofText ("x /* y\n*/ // z" ++ "\n" ++ "u\n \"v")).failure =
        some ⟨.lexical .unterminatedString, some ⟨4, 2⟩⟩ := by
  have ha : (Tokens.ofText "x /* y\n*/ // z").failure = none := by decide +kernel
  have hb : Tokens.ofText "u\n \"v" =
      ⟨[⟨.identifier, "u", "", .origin⟩], some ⟨.lexical .unterminatedString, some ⟨2, 2⟩⟩⟩ := by
    decide +kernel
  have hbehind := tokens_behind_break "x /* y\n*/ // z" "u\n \"v" ha
  rw [hb] at hbehind
  obtain ⟨us, htokens, hlength, hmoved, hfailure⟩ := hbehind
  exact ⟨ha, us, htokens, hlength, fun u hu => hmoved 0 _ u rfl hu, hfailure⟩

end Swift

end TestHooks
