import TestHooks.Proofs.Respacing

/-!
# String literals on one line

What may stand between the quotes of a literal is told by its number of hashes: plain characters, escapes, and
interpolations with literals of their own inside (`Quoted`, `Interpolated`). The scan of a literal passes over all of it
and ends behind the closing hashes, so the literal is one token (`literal_is_one_token`). A literal whose opening quote has
two more behind it is taken for one of several lines, and is not read (`quoted_quote`).
-/

namespace TestHooks.Swift

open TestHooks.Text

/-! ### Contents -/

mutual

/-- What stands between the quotes of a literal with so many hashes: plain characters, none of them a quote or a backslash
before as many hashes, escapes, and interpolations. Behind the opening quotes of the literals inside stands what `opens`
allows. -/
inductive Quoted (opens : List Char → Prop) : Nat → List Char → Prop
  | nil {hashes : Nat} : Quoted opens hashes []
  | plain {hashes : Nat} {c : Char} {cs : List Char} (hn : c ≠ '\n')
    (hq : c = '"' ∨ c = '\\' → ¬List.replicate hashes '#' <+: cs) (h : Quoted opens hashes cs) :
    Quoted opens hashes (c :: cs)
  | escape {hashes : Nat} {c : Char} {cs : List Char} (hn : c ≠ '\n') (hp : c ≠ '(') (h : Quoted opens hashes cs) :
    Quoted opens hashes (literalEscape hashes ++ c :: cs)
  | interpolation {hashes : Nat} {ds cs : List Char} (hd : Interpolated opens ds) (h : Quoted opens hashes cs) :
    Quoted opens hashes (literalEscape hashes ++ '(' :: (ds ++ ')' :: cs))

/-- What stands in the parentheses of an interpolation: groups in parentheses of their own, literals, and characters that
are neither parentheses nor the beginning of a literal. -/
inductive Interpolated (opens : List Char → Prop) : List Char → Prop
  | nil : Interpolated opens []
  | char {c : Char} {cs : List Char} (hn : c ≠ '\n') (hp : c ≠ '(' ∧ c ≠ ')')
    (hq : ((c :: cs).dropWhile (· == '#')).head? ≠ some '"') (h : Interpolated opens cs) : Interpolated opens (c :: cs)
  | group {ds cs : List Char} (hd : Interpolated opens ds) (h : Interpolated opens cs) :
    Interpolated opens ('(' :: (ds ++ ')' :: cs))
  | literal {hashes : Nat} {content cs : List Char} (hc : Quoted opens hashes content)
    (ho : opens (content ++ literalCloser hashes false ++ cs)) (h : Interpolated opens cs) :
    Interpolated opens (literalOpener hashes false ++ (content ++ literalCloser hashes false ++ cs))

end

/-- The opening quote is not the first of three. -/
def Single (cs : List Char) : Prop :=
  ¬['"', '"'] <+: cs
  deriving Decidable

/-! ### Marks in a text -/

/-- A mark without the character `c` does not reach over one. -/
theorem prefix_before {p cs after : List Char} {c : Char} (hc : c ∉ p) : p <+: cs ++ c :: after ↔ p <+: cs := by
  constructor
  · intro h
    induction cs generalizing p with
    | nil =>
      cases p with
      | nil => exact List.nil_prefix
      | cons d p => exact absurd (List.cons_prefix_cons.1 h).1 fun hd => hc (hd ▸ List.mem_cons_self)
    | cons d cs ih =>
      cases p with
      | nil => exact List.nil_prefix
      | cons e p =>
        obtain ⟨rfl, hp⟩ := List.cons_prefix_cons.1 h
        exact List.cons_prefix_cons.2 ⟨rfl, ih (fun hm => hc (List.mem_cons_of_mem _ hm)) hp⟩
  · intro h
    exact h.trans (List.prefix_append _ _)

theorem hashes_before_quote {hashes n : Nat} {cs after : List Char} :
    List.replicate hashes '#' <+: cs ++ literalCloser n false ++ after ↔ List.replicate hashes '#' <+: cs := by
  rw [List.append_assoc]
  exact prefix_before fun h => nomatch (List.mem_replicate.1 h).2

theorem literal_opening_none {cs : List Char} (h : (cs.dropWhile (· == '#')).head? ≠ some '"') :
    literalOpening? cs = none := by
  obtain ⟨hashes, body, rfl, hb⟩ := hashes_split cs
  have hdrop : (List.replicate hashes '#' ++ body).dropWhile (· == '#') = body := by
    rw [List.dropWhile_append_of_pos (by simp)]
    cases body with
    | nil => rfl
    | cons c body => exact List.dropWhile_cons_of_neg (by simpa using hb)
  rw [literal_opening_split hb, if_neg (hdrop ▸ h)]

theorem literal_opening_single (hashes : Nat) {cs : List Char} (h : Single cs) :
    literalOpening? (literalOpener hashes false ++ cs) =
      some (.literal hashes false, (literalOpener hashes false).length) := by
  refine literal_opening_iff.2 ⟨hashes, false, rfl, rfl, List.prefix_append _ _, fun _ hp => h ?_⟩
  rw [literalOpener, literalOpener, List.append_assoc, List.prefix_append_right_inj] at hp
  exact (List.cons_prefix_cons.1 hp).2

/-! ### Scanning -/

/-- What belongs to a step is passed over. -/
theorem framesEnd_skip (read : Nat) (frames : List Frame) (cs after : List Char) :
    framesEnd read frames cs.length (cs ++ after) = framesEnd (read + cs.length) frames 0 after := by
  induction cs generalizing read with
  | nil => rfl
  | cons c cs ih =>
    rw [List.length_cons, List.cons_append, framesEnd, ih, Nat.add_right_comm, Nat.add_assoc]

theorem framesEnd_step {frame : Frame} {c : Char} {after : List Char} (cs : List Char) (inner : List Frame) (read : Nat)
    (frames : List Frame) (h : frame.step c (cs ++ after) = .ok (inner, cs.length)) :
    framesEnd read (frame :: frames) 0 (c :: (cs ++ after)) =
      framesEnd (read + (cs.length + 1)) (inner ++ frames) 0 after := by
  rw [framesEnd, h]
  simp only
  rw [framesEnd_skip, Nat.add_right_comm, Nat.add_assoc]

section

variable (read : Nat) (frames : List Frame) (after : List Char)

theorem framesEnd_closer (hashes : Nat) :
    framesEnd read (.literal hashes false :: frames) 0 (literalCloser hashes false ++ after) =
      framesEnd (read + (literalCloser hashes false).length) frames 0 after := by
  have hclose : literalCloser hashes false <+: '"' :: (List.replicate hashes '#' ++ after) := List.prefix_append _ _
  refine framesEnd_step (List.replicate hashes '#') [] read frames ?_
  simp only [Frame.step, List.isPrefixOf_iff_prefix, if_pos hclose]
  rfl

theorem framesEnd_plain {hashes : Nat} {c : Char} (hn : c ≠ '\n')
    (hq : c = '"' ∨ c = '\\' → ¬List.replicate hashes '#' <+: after) :
    framesEnd read (.literal hashes false :: frames) 0 (c :: after) =
      framesEnd (read + 1) (.literal hashes false :: frames) 0 after := by
  have hclose : ¬literalCloser hashes false <+: c :: after := fun h =>
    hq (.inl (List.cons_prefix_cons.1 h).1.symm) (List.cons_prefix_cons.1 h).2
  have hescape : ¬literalEscape hashes <+: c :: after := fun h =>
    hq (.inr (List.cons_prefix_cons.1 h).1.symm) (List.cons_prefix_cons.1 h).2
  refine framesEnd_step [] [.literal hashes false] read frames ?_
  simp [Frame.step, List.isPrefixOf_iff_prefix, hclose, hescape, hn]

/-- An escape takes the character behind it, or opens an interpolation there. -/
theorem framesEnd_escape (hashes : Nat) (c : Char) :
    framesEnd read (.literal hashes false :: frames) 0 (literalEscape hashes ++ c :: after) =
      framesEnd (read + ((literalEscape hashes).length + 1))
        ((if c = '(' then [.interpolation 0, .literal hashes false] else [.literal hashes false]) ++ frames) 0 after := by
  have hclose : ¬literalCloser hashes false <+: literalEscape hashes ++ c :: after := fun h =>
    nomatch (List.cons_prefix_cons.1 h).1
  have hlength : (List.replicate hashes '#' ++ [c]).length = (literalEscape hashes).length := by simp [literalEscape]
  have hsplit : literalEscape hashes ++ c :: after = '\\' :: (List.replicate hashes '#' ++ [c] ++ after) := by
    simp [literalEscape]
  rw [hsplit, ← hlength]
  refine framesEnd_step _ _ read frames ?_
  rw [hlength]
  simp only [Frame.step, ← hsplit, List.isPrefixOf_iff_prefix, hclose, if_false, List.prefix_append, if_true,
    List.drop_left, List.head?_cons, Option.some.injEq]
  split <;> rfl

theorem framesEnd_char {depth : Nat} {c : Char} (hp : c ≠ '(' ∧ c ≠ ')') (ho : literalOpening? (c :: after) = none) :
    framesEnd read (.interpolation depth :: frames) 0 (c :: after) =
      framesEnd (read + 1) (.interpolation depth :: frames) 0 after := by
  refine framesEnd_step [] [.interpolation depth] read frames ?_
  simp only [Frame.step, List.nil_append, ho, hp, if_false, List.length_nil]

theorem framesEnd_open (depth : Nat) :
    framesEnd read (.interpolation depth :: frames) 0 ('(' :: after) =
      framesEnd (read + 1) (.interpolation (depth + 1) :: frames) 0 after := by
  refine framesEnd_step [] [.interpolation (depth + 1)] read frames ?_
  simp only [Frame.step, List.nil_append, literal_none_of_ne (show '(' ≠ '"' by decide) (by decide), if_true,
    List.length_nil]

theorem framesEnd_close (depth : Nat) :
    framesEnd read (.interpolation depth :: frames) 0 (')' :: after) =
      framesEnd (read + 1) ((if depth = 0 then [] else [.interpolation (depth - 1)]) ++ frames) 0 after := by
  refine framesEnd_step [] _ read frames ?_
  simp [Frame.step, literal_none_of_ne (show ')' ≠ '"' by decide) (by decide)]

theorem framesEnd_opener {depth hashes : Nat} (h : Single after) :
    framesEnd read (.interpolation depth :: frames) 0 (literalOpener hashes false ++ after) =
      framesEnd (read + (literalOpener hashes false).length) (.literal hashes false :: .interpolation depth :: frames) 0
        after := by
  have hopening := literal_opening_single hashes h
  obtain ⟨c, cs, hc⟩ : ∃ c cs, literalOpener hashes false = c :: cs := by cases hashes <;> exact ⟨_, _, rfl⟩
  rw [hc] at hopening ⊢
  refine framesEnd_step cs [.literal hashes false, .interpolation depth] read frames ?_
  rw [List.cons_append] at hopening
  simp only [Frame.step, hopening, List.length_cons, Nat.add_sub_cancel]

end

mutual

/-- The scan of a literal passes over its content and its closing quote and hashes. -/
theorem Quoted.framesEnd {hashes : Nat} {cs : List Char} (h : Quoted Single hashes cs) (read : Nat)
    (frames : List Frame) (after : List Char) :
    framesEnd read (.literal hashes false :: frames) 0 (cs ++ literalCloser hashes false ++ after) =
      framesEnd (read + (cs ++ literalCloser hashes false).length) frames 0 after := by
  match h with
  | .nil => exact framesEnd_closer read frames after hashes
  | .plain hn hq h =>
    rw [List.cons_append, List.cons_append, framesEnd_plain read frames _ hn fun hc hp => hq hc (hashes_before_quote.1 hp),
      h.framesEnd, List.length_cons, Nat.add_assoc, Nat.add_comm 1]
  | @Quoted.escape _ _ c cs hn hp h =>
    have hstep := framesEnd_escape read frames (cs ++ literalCloser hashes false ++ after) hashes c
    rw [if_neg hp] at hstep
    simp only [List.append_assoc, List.cons_append, List.nil_append] at hstep ⊢
    rw [hstep, ← List.append_assoc, h.framesEnd]
    simp only [List.length_append, List.length_cons]
    congr 1
    omega
  | @Quoted.interpolation _ _ ds cs hd h =>
    have hstep := framesEnd_escape read frames (ds ++ ')' :: (cs ++ literalCloser hashes false ++ after)) hashes '('
    rw [if_pos rfl] at hstep
    simp only [List.append_assoc, List.cons_append, List.nil_append] at hstep ⊢
    rw [hstep, hd.framesEnd, framesEnd_close, if_pos rfl, List.nil_append, ← List.append_assoc, h.framesEnd]
    simp only [List.length_append, List.length_cons]
    congr 1
    omega

/-- The scan of an interpolation passes over what stands in its parentheses. -/
theorem Interpolated.framesEnd {ds : List Char} (h : Interpolated Single ds) (read depth : Nat)
    (frames : List Frame) (after : List Char) :
    framesEnd read (.interpolation depth :: frames) 0 (ds ++ ')' :: after) =
      framesEnd (read + ds.length) (.interpolation depth :: frames) 0 (')' :: after) := by
  match h with
  | .nil => rfl
  | @Interpolated.char _ c cs hn hp hq h =>
    have ho : literalOpening? (c :: (cs ++ ')' :: after)) = none := by
      apply literal_opening_none
      rw [← List.cons_append, List.dropWhile_append]
      split
      · simp
      · next hne =>
        obtain ⟨d, rest, hd⟩ := List.exists_cons_of_ne_nil fun hx => hne (List.isEmpty_iff.2 hx)
        rw [hd] at hq ⊢
        exact hq
    rw [List.cons_append, framesEnd_char read frames _ hp ho, h.framesEnd, List.length_cons, Nat.add_assoc, Nat.add_comm 1]
  | .group hd h =>
    rw [List.cons_append, List.append_assoc, List.cons_append, framesEnd_open, hd.framesEnd, framesEnd_close,
      if_neg (Nat.succ_ne_zero depth), Nat.add_sub_cancel, List.singleton_append, h.framesEnd]
    simp only [List.length_append, List.length_cons]
    congr 1
    omega
  | @Interpolated.literal _ hashes content cs hc ho h =>
    have hsingle : Single (content ++ literalCloser hashes false ++ (cs ++ ')' :: after)) := by
      rw [← List.append_assoc]
      exact fun hp => ho ((prefix_before (by decide)).1 hp)
    rw [List.append_assoc, List.append_assoc, framesEnd_opener read frames _ hsingle, hc.framesEnd, h.framesEnd]
    simp only [List.length_append]
    congr 1
    omega

end

/-! ### Texts -/

/-- The literal with so many hashes around its quotes. -/
def singleLine (hashes : Nat) (content : List Char) : List Char :=
  literalOpener hashes false ++ (content ++ literalCloser hashes false)

/-- Without hashes, no other quote stands behind the opening one, the closing one aside. -/
theorem Quoted.single {opens : List Char → Prop} {cs : List Char} (h : Quoted opens 0 cs) :
    Single (cs ++ literalCloser 0 false) := by
  intro hp
  cases h with
  | nil => exact absurd hp (by decide)
  | plain hn hq h =>
    obtain ⟨rfl, -⟩ := List.cons_prefix_cons.1 hp
    exact hq (.inl rfl) List.nil_prefix
  | escape => exact nomatch (List.cons_prefix_cons.1 hp).1
  | interpolation => exact nomatch (List.cons_prefix_cons.1 hp).1

theorem lexeme_of_singleLine {hashes : Nat} {content : List Char} (hc : Quoted Single hashes content)
    (ho : Single (content ++ literalCloser hashes false)) : ∃ c cs, singleLine hashes content = c :: cs ∧
      (c = '"' ∨ c = '#') ∧ lexemeAt c cs = .ok (.string, cs.length) := by
  have hopening := literal_opening_single hashes ho
  obtain ⟨c, cs, hsplit, hmark⟩ : ∃ c cs, literalOpener hashes false = c :: cs ∧ (c = '"' ∨ c = '#') := by
    cases hashes with
    | zero => exact ⟨_, _, rfl, .inl rfl⟩
    | succ n => exact ⟨_, _, rfl, .inr rfl⟩
  have hscan := hc.framesEnd cs.length [] []
  rw [hsplit, List.cons_append] at hopening
  refine ⟨c, cs ++ (content ++ literalCloser hashes false), by rw [singleLine, hsplit]; rfl, hmark, ?_⟩
  have hword : (if startsEllipsis c (cs ++ (content ++ literalCloser hashes false)) then none
      else TokenKind.ofPunctuation? c) = none := by
    rcases hmark with rfl | rfl <;> exact ite_self _
  rw [List.append_nil] at hscan
  simp only [lexemeAt, hword, hopening, List.length_cons, Nat.add_sub_cancel, framesEnd_skip, Nat.zero_add, hscan,
    TestHooks.Swift.framesEnd, List.length_append]
  rfl

/-- A literal on one line is one token, if neither its opening quote nor that of a literal inside has two more behind it. -/
theorem literal_is_one_token {text : String} {hashes : Nat} {content : List Char} (hc : Quoted Single hashes content)
    (ho : 0 < hashes → Single (content ++ literalCloser hashes false)) (ht : text.toList = singleLine hashes content) :
    Tokens.ofText text = ⟨[⟨.string, text, "", .origin⟩], none⟩ := by
  have hsingle : Single (content ++ literalCloser hashes false) := by
    cases hashes with
    | zero => exact hc.single
    | succ n => exact ho (Nat.succ_pos n)
  obtain ⟨c, cs, hsplit, hmark, hlexeme⟩ := lexeme_of_singleLine hc hsingle
  rw [hsplit] at ht
  have hmeasure : Element.measure c cs = .ok (.lexeme .string, cs.length) := by
    apply measure_of_lexeme ?_ ?_ hlexeme
    · rcases hmark with rfl | rfl <;> decide
    · rcases hmark with rfl | rfl <;> nofun
  have hf : Fitting [⟨.lexeme .string, text.toList⟩] [] :=
    ⟨⟨c, cs, ht, by rwa [List.flatMap_nil, List.append_nil, List.append_nil]⟩, trivial⟩
  rw [ofText_of_fitting hf (List.append_nil _)]
  simp [Token.ofElements]

/-- A literal with a quote before and behind an interpolation, and in that a call with two literals as its arguments: one
with an interpolation of its own, the other with a quote and a parenthesis. -/
def nestedLiteral : String := "#\"\"\\#(f(\"\\(x)\",#\"\")\"#))\"\"#"

theorem nestedLiteral_is_one_token : Tokens.ofText nestedLiteral = ⟨[⟨.string, nestedLiteral, "", .origin⟩], none⟩ := by
  have first : Quoted Single 0 ['\\', '(', 'x', ')'] :=
    .interpolation (.char (by decide) (by decide) (by decide) .nil) .nil
  have second : Quoted Single 1 ['"', ')'] := .plain (by decide) (by decide) (.plain (by decide) (by decide) .nil)
  have arguments : Interpolated Single ("\"\\(x)\",#\"\")\"#".toList) :=
    .literal first (by decide) (.char (by decide) (by decide) (by decide) (.literal second (by decide) .nil))
  have call : Interpolated Single ("f(\"\\(x)\",#\"\")\"#)".toList) :=
    .char (by decide) (by decide) (by decide) (.group arguments .nil)
  have content : Quoted Single 1 ("\"\\#(f(\"\\(x)\",#\"\")\"#))\"".toList) :=
    .plain (by decide) (by decide) (.interpolation call (.plain (by decide) (by decide) .nil))
  exact literal_is_one_token content (fun _ => by decide) (by decide)

/-- The literal of a quote alone, between hashes, is taken for the beginning of a literal of several lines. -/
theorem quoted_quote : Quoted (fun _ => True) 1 ['"'] ∧ "#\"\"\"#".toList = singleLine 1 ['"'] ∧
    Tokens.ofText "#\"\"\"#" = ⟨[], some ⟨.lexical .unterminatedString, some ⟨1, 1⟩⟩⟩ :=
  ⟨.plain (by decide) (by decide) .nil, by decide, by decide +kernel⟩

end TestHooks.Swift
