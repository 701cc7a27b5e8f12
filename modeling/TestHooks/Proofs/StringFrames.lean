import TestHooks.Proofs.Lookahead

/-!
# Frames of string literals

A string literal is read with a stack of frames: the literals and the parentheses of interpolations that are open. The
characters of a literal are those that close its frames (`Closes`), and the last step closes the literal itself
(`Closes.last_step`).
-/

namespace TestHooks.Swift

open TestHooks.Text

/-! ### Marks of literals -/

/-- The characters that open, close and escape. -/
def isQuoting (c : Char) : Bool := c == '"' || c == '#' || c == '\\'

theorem quoting_cases {c : Char} (h : isQuoting c = true) : c = '"' ∨ c = '#' ∨ c = '\\' := by
  simpa [isQuoting, or_assoc] using h

theorem quoting_inside {c : Char} (h : isQuoting c = true) : isInside c = true := by
  rcases quoting_cases h with rfl | rfl | rfl <;> decide

theorem inside_not_blank {c : Char} (h : isInside c = true) : isBlank c = false := by
  simp only [isInside, isSeparator, Bool.not_eq_true', Bool.or_eq_false_iff] at h
  exact h.1

theorem quoting_not_blank {c : Char} (h : isQuoting c = true) : isBlank c = false :=
  inside_not_blank (quoting_inside h)

theorem quoting_closer (hashes : Nat) (multiline : Bool) :
    ∀ c ∈ literalCloser hashes multiline, isQuoting c = true := by
  intro c hc
  simp only [literalCloser, quoteMark, List.mem_append, List.mem_replicate] at hc
  rcases hc with hc | ⟨-, rfl⟩
  · split at hc <;> simp_all [isQuoting]
  · decide

theorem quoting_escape (hashes : Nat) : ∀ c ∈ literalEscape hashes, isQuoting c = true := by
  intro c hc
  simp only [literalEscape, List.mem_cons, List.mem_replicate] at hc
  rcases hc with rfl | ⟨-, rfl⟩ <;> decide

def literalOpener (hashes : Nat) (multiline : Bool) : List Char :=
  List.replicate hashes '#' ++ quoteMark multiline

theorem quoting_opener (hashes : Nat) (multiline : Bool) :
    ∀ c ∈ literalOpener hashes multiline, isQuoting c = true := by
  intro c hc
  simp only [literalOpener, quoteMark, List.mem_append, List.mem_replicate] at hc
  rcases hc with ⟨-, rfl⟩ | hc
  · decide
  · split at hc <;> simp_all [isQuoting]

theorem hashes_split (cs : List Char) :
    ∃ hashes body, cs = List.replicate hashes '#' ++ body ∧ body.head? ≠ some '#' := by
  induction cs with
  | nil => exact ⟨0, [], rfl, nofun⟩
  | cons c cs ih =>
    by_cases hc : c = '#'
    · obtain ⟨hashes, body, rfl, hb⟩ := ih
      exact ⟨hashes + 1, body, by rw [hc]; rfl, hb⟩
    · exact ⟨0, c :: cs, rfl, by simpa using hc⟩

theorem literal_opening_split {hashes : Nat} {body : List Char} (hb : body.head? ≠ some '#') :
    literalOpening? (List.replicate hashes '#' ++ body) =
      if body.head? = some '"' then
        some (.literal hashes ((quoteMark true).isPrefixOf body),
          hashes + (quoteMark ((quoteMark true).isPrefixOf body)).length)
      else none := by
  have hl : ((List.replicate hashes '#' ++ body).takeWhile (· == '#')).length = hashes := by
    have := (@length_takeWhile_append (· == '#') (List.replicate hashes '#') body).2
      ⟨by simp, by cases body <;> simp_all⟩
    rw [this, List.length_replicate]
  have hd : (List.replicate hashes '#' ++ body).drop hashes = body := by
    rw [List.drop_left' (List.length_replicate ..)]
  simp only [literalOpening?, hl, hd]

theorem opener_prefix_iff {hashes hashes' : Nat} {multiline : Bool} {body : List Char} (hb : body.head? ≠ some '#') :
    literalOpener hashes' multiline <+: List.replicate hashes '#' ++ body ↔
      hashes' = hashes ∧ quoteMark multiline <+: body := by
  have hq : ∃ rest, quoteMark multiline = '"' :: rest := by
    cases multiline
    · exact ⟨_, rfl⟩
    · exact ⟨_, rfl⟩
  induction hashes generalizing hashes' with
  | zero =>
    cases hashes' with
    | zero => simp [literalOpener]
    | succ n =>
      simp only [literalOpener, List.replicate_succ, List.cons_append, List.replicate_zero, List.nil_append]
      constructor
      · rintro ⟨rest, rfl⟩
        exact absurd rfl hb
      · rintro ⟨h, -⟩
        cases h
  | succ m ih =>
    cases hashes' with
    | zero =>
      obtain ⟨rest, hr⟩ := hq
      simp [literalOpener, hr, List.replicate_succ]
    | succ n =>
      have := @ih n
      simp only [literalOpener] at this
      simp only [literalOpener, List.replicate_succ, List.cons_append, List.cons_prefix_cons, this, true_and,
        Nat.succ.injEq]

/-- A literal opens with hashes and the longest mark of quotes. -/
theorem literal_opening_iff {cs : List Char} {frame : Frame} {n : Nat} :
    literalOpening? cs = some (frame, n) ↔
      ∃ hashes multiline, frame = .literal hashes multiline ∧ n = (literalOpener hashes multiline).length ∧
        literalOpener hashes multiline <+: cs ∧ (multiline = false → ¬literalOpener hashes true <+: cs) := by
  obtain ⟨hashes, body, rfl, hb⟩ := hashes_split cs
  rw [literal_opening_split hb]
  simp only [opener_prefix_iff hb]
  have hhead : quoteMark false <+: body ↔ body.head? = some '"' := by
    cases body with
    | nil => simp [quoteMark]
    | cons c body => simp [quoteMark, List.cons_prefix_cons, eq_comm]
  constructor
  · intro h
    split at h
    · next hq =>
      cases h
      refine ⟨hashes, _, rfl, ?_, ⟨rfl, ?_⟩, ?_⟩
      · rw [literalOpener, List.length_append, List.length_replicate]
      · cases hm : (quoteMark true).isPrefixOf body with
        | true => exact List.isPrefixOf_iff_prefix.1 hm
        | false => exact hhead.2 hq
      · rintro hm ⟨-, hp⟩
        rw [List.isPrefixOf_iff_prefix.2 hp] at hm
        cases hm
    · cases h
  · rintro ⟨_, multiline, rfl, rfl, ⟨rfl, hp⟩, hm⟩
    have hq : body.head? = some '"' := by
      cases multiline with
      | false => exact hhead.1 hp
      | true =>
        obtain ⟨rest, rfl⟩ := hp
        rfl
    have hb : (quoteMark true).isPrefixOf body = multiline := by
      cases multiline with
      | false =>
        rw [Bool.eq_false_iff]
        intro ht
        exact hm rfl ⟨rfl, List.isPrefixOf_iff_prefix.1 ht⟩
      | true => exact List.isPrefixOf_iff_prefix.2 hp
    rw [if_pos hq, hb, literalOpener, List.length_append, List.length_replicate]

theorem opening_is_no_mark {c : Char} {cs : List Char} {found : Frame × Nat} (h : literalOpening? (c :: cs) = some found) :
    TokenKind.ofPunctuation? c = none := by
  by_cases hq : c = '"'
  · rw [hq]
    decide
  by_cases hh : c = '#'
  · rw [hh]
    decide
  rw [literal_none_of_ne hq hh] at h
  cases h

theorem step_literal_cases {hashes : Nat} {multiline : Bool} {c : Char} {cs : List Char} {inner : List Frame} {k : Nat}
    (h : (Frame.literal hashes multiline).step c cs = .ok (inner, k)) :
    (literalCloser hashes multiline <+: c :: cs ∧ inner = [] ∧ k = (literalCloser hashes multiline).length - 1) ∨
      (¬literalCloser hashes multiline <+: c :: cs ∧ literalEscape hashes <+: c :: cs ∧
        k = (literalEscape hashes).length ∧
        inner = if ((c :: cs).drop (literalEscape hashes).length).head? = some '(' then
          [.interpolation 0, .literal hashes multiline] else [.literal hashes multiline]) ∨
      (¬literalCloser hashes multiline <+: c :: cs ∧ ¬literalEscape hashes <+: c :: cs ∧
        (c = '\n' → multiline = true) ∧ inner = [.literal hashes multiline] ∧ k = 0) := by
  simp only [Frame.step, List.isPrefixOf_iff_prefix] at h
  split at h
  · next hc =>
    cases h
    exact .inl ⟨hc, rfl, rfl⟩
  next hc =>
  split at h
  · next he =>
    split at h
    · next hp =>
      cases h
      exact .inr (.inl ⟨hc, he, rfl, by rw [if_pos hp]⟩)
    · next hp =>
      cases h
      exact .inr (.inl ⟨hc, he, rfl, by rw [if_neg hp]⟩)
  · next he =>
    split at h
    · cases h
    · next hn =>
      cases h
      refine .inr (.inr ⟨hc, he, ?_, rfl, rfl⟩)
      simpa using hn

/-! ### Steps -/

/-- What closes a frame stands in the text. -/
theorem step_close_le {frame : Frame} {c : Char} {cs : List Char} {k : Nat} (h : frame.step c cs = .ok ([], k)) :
    k ≤ cs.length ∧ ∀ d ∈ cs.take k, isBlank d = false := by
  cases frame with
  | literal hashes multiline =>
    rcases step_literal_cases h with ⟨hp, -, rfl⟩ | ⟨-, -, -, hi⟩ | ⟨-, -, -, hi, -⟩
    · have hl := hp.length_le
      rw [List.length_cons] at hl
      refine ⟨by omega, ?_⟩
      intro d hd
      apply quoting_not_blank (quoting_closer hashes multiline d _)
      obtain ⟨q, hq⟩ := hp
      have hm : d ∈ (c :: cs).take (literalCloser hashes multiline).length := by
        have hpos : (literalCloser hashes multiline).length = (literalCloser hashes multiline).length - 1 + 1 := by
          have : (literalCloser hashes multiline).length ≠ 0 := by
            cases multiline <;> simp [literalCloser, quoteMark]
          omega
        rw [hpos, List.take_succ_cons]
        exact List.mem_cons_of_mem _ hd
      rwa [← hq, List.take_left] at hm
    · split at hi <;> cases hi
    · cases hi
  | interpolation depth =>
    have hz : k = 0 := by
      simp only [Frame.step] at h
      split at h
      · cases h
      · split at h
        · cases h
        · split at h
          · simp only [Except.ok.injEq, Prod.mk.injEq] at h
            exact h.2.symm
          · cases h
    simp [hz]

/-- A blank changes nothing in a literal. -/
theorem step_blank {frame : Frame} {c : Char} (hc : isBlank c = true) {cs : List Char} {inner : List Frame} {k : Nat}
    (h : frame.step c cs = .ok (inner, k)) :
    inner = [frame] ∧ k = 0 ∧ ∀ d ds, isBlank d = true → (d = '\n' → c = '\n') → frame.step d ds = .ok ([frame], 0) := by
  have hno {p : List Char} (hp : ∀ d ∈ p, isQuoting d = true) (hn : p ≠ []) {d : Char} (hd : isBlank d = true)
      (ds : List Char) : ¬p <+: d :: ds := by
    rintro ⟨q, hq⟩
    obtain ⟨e, p, rfl⟩ := List.exists_cons_of_ne_nil hn
    obtain ⟨rfl, -⟩ := List.cons.inj hq
    rw [quoting_not_blank (hp _ List.mem_cons_self)] at hd
    cases hd
  cases frame with
  | literal hashes multiline =>
    have h₁ : literalCloser hashes multiline ≠ [] := by cases multiline <;> simp [literalCloser, quoteMark]
    have h₂ : literalEscape hashes ≠ [] := List.cons_ne_nil _ _
    rcases step_literal_cases h with ⟨hp, -, -⟩ | ⟨-, hp, -⟩ | ⟨-, -, hn, rfl, rfl⟩
    · exact absurd hp (hno (quoting_closer _ _) h₁ hc cs)
    · exact absurd hp (hno (quoting_escape _) h₂ hc cs)
    · refine ⟨rfl, rfl, fun d ds hd hdn => ?_⟩
      have h₃ := hno (quoting_closer hashes multiline) h₁ hd ds
      have h₄ := hno (quoting_escape hashes) h₂ hd ds
      simp [Frame.step, List.isPrefixOf_iff_prefix, h₃, h₄]
      exact fun he => hn (hdn he)
  | interpolation depth =>
    have hopen {d : Char} (hd : isBlank d = true) (ds : List Char) : literalOpening? (d :: ds) = none := by
      apply literal_none_of_ne <;> rintro rfl <;> revert hd <;> decide
    have hparen {d : Char} (hd : isBlank d = true) : d ≠ '(' ∧ d ≠ ')' := by
      constructor <;> rintro rfl <;> revert hd <;> decide
    have hstep {d : Char} (hd : isBlank d = true) (ds : List Char) :
        (Frame.interpolation depth).step d ds = .ok ([.interpolation depth], 0) := by
      simp only [Frame.step, hopen hd, hparen hd, if_false]
    rw [hstep hc] at h
    cases h
    exact ⟨rfl, rfl, fun d ds hd _ => hstep hd ds⟩

/-! ### Closing the frames -/

/-- The characters close the frames, the last of them the outermost one, when the first `skip` characters belong to the
step before them. -/
inductive Closes (after : List Char) : List Frame → Nat → List Char → Prop
  | closed : Closes after [] 0 []
  | skip {frames : List Frame} {k : Nat} {c : Char} {cs : List Char} (h : Closes after frames k cs) :
    Closes after frames (k + 1) (c :: cs)
  | step {frame : Frame} {frames inner : List Frame} {k : Nat} {c : Char} {cs : List Char}
    (hs : frame.step c (cs ++ after) = .ok (inner, k)) (h : Closes after (inner ++ frames) k cs) :
    Closes after (frame :: frames) 0 (c :: cs)

theorem Closes.skip_le {after cs : List Char} {frames : List Frame} {skip : Nat} (h : Closes after frames skip cs) :
    skip ≤ cs.length := by
  induction h with
  | closed => exact Nat.le_refl 0
  | skip _ ih => exact Nat.succ_le_succ ih
  | step => exact Nat.zero_le _

theorem Closes.skip_eq {after cs : List Char} {skip : Nat} (h : Closes after [] skip cs) : skip = cs.length := by
  induction cs generalizing skip with
  | nil =>
    cases h
    rfl
  | cons c cs ih =>
    cases h with
    | skip h => rw [ih h, List.length_cons]

theorem frames_end_ge {read skip n : Nat} {frames : List Frame} {cs : List Char}
    (h : framesEnd read frames skip cs = .ok n) (hs : frames = [] → skip ≤ cs.length) : read + skip ≤ n := by
  fun_induction framesEnd read frames skip cs with
  | case1 =>
    cases h
    omega
  | case2 read frames skip c cs ih =>
    have := ih h fun hf => by simpa using hs hf
    omega
  | case3 => cases h
  | case4 read frame frames c cs inner skip hstep ih =>
    have := ih h fun hf => by
      obtain ⟨rfl, -⟩ := List.append_eq_nil_iff.1 hf
      exact (step_close_le hstep).1
    omega
  | case5 => exact absurd (hs rfl) (by simp)
  | case6 => cases h

theorem frames_end_self {read : Nat} {frames : List Frame} {cs : List Char}
    (h : framesEnd read frames 0 cs = .ok read) : frames = [] := by
  cases frames with
  | nil => rfl
  | cons frame frames =>
    exfalso
    cases cs with
    | nil => cases h
    | cons c cs =>
      rw [framesEnd] at h
      split at h
      · cases h
      · next inner k hstep =>
        have := frames_end_ge h fun hf => by
          obtain ⟨rfl, -⟩ := List.append_eq_nil_iff.1 hf
          exact (step_close_le hstep).1
        omega

theorem closes_of_end {after cs : List Char} {frames : List Frame} {skip read : Nat}
    (h : framesEnd read frames skip (cs ++ after) = .ok (read + cs.length))
    (hs : frames = [] → skip ≤ (cs ++ after).length) : Closes after frames skip cs := by
  induction cs generalizing frames skip read with
  | nil =>
    have hge := frames_end_ge h hs
    rw [List.length_nil] at hge
    obtain rfl : skip = 0 := by omega
    obtain rfl := frames_end_self h
    exact .closed
  | cons c cs ih =>
    rw [List.cons_append, List.length_cons, ← Nat.add_assoc, Nat.add_right_comm] at h
    cases skip with
    | succ k =>
      rw [framesEnd] at h
      exact .skip (ih h fun hf => Nat.le_of_succ_le_succ (hs hf))
    | zero =>
      cases frames with
      | nil =>
        rw [framesEnd, Except.ok.injEq] at h
        omega
      | cons frame frames =>
        rw [framesEnd] at h
        split at h
        · cases h
        · next inner k hstep =>
          refine .step hstep (ih h fun hf => ?_)
          obtain ⟨rfl, -⟩ := List.append_eq_nil_iff.1 hf
          exact (step_close_le hstep).1

theorem Closes.framesEnd {after cs : List Char} {frames : List Frame} {skip : Nat} (h : Closes after frames skip cs)
    (read : Nat) : framesEnd read frames skip (cs ++ after) = .ok (read + cs.length) := by
  induction h generalizing read with
  | closed =>
    rw [Swift.framesEnd]
    rfl
  | skip _ ih => rw [List.cons_append, Swift.framesEnd, ih, List.length_cons, Nat.add_right_comm, Nat.add_assoc]
  | step hs _ ih =>
    rw [List.cons_append, Swift.framesEnd, hs]
    simp only [ih, List.length_cons, Nat.add_right_comm, Nat.add_assoc]

/-- The last step closes the outermost frame, and this is the literal that was outermost before. -/
theorem Closes.last_step {after cs : List Char} {frames : List Frame} {skip : Nat} (h : Closes after frames skip cs)
    (hf : frames ≠ []) : ∃ (front closer : List Char) (c : Char) (frame : Frame), cs = front ++ c :: closer ∧
      frame.step c (closer ++ after) = .ok ([], closer.length) ∧
      ∀ hashes multiline, frames.getLast? = some (.literal hashes multiline) → frame = .literal hashes multiline := by
  induction h with
  | closed => exact absurd rfl hf
  | @skip _ _ c _ _ ih =>
    obtain ⟨front, closer, d, frame, rfl, hs, hl⟩ := ih hf
    exact ⟨c :: front, closer, d, frame, rfl, hs, hl⟩
  | @step frame frames inner k c cs hs h ih =>
    by_cases hn : inner ++ frames = []
    · obtain ⟨rfl, rfl⟩ := List.append_eq_nil_iff.1 hn
      obtain rfl := h.skip_eq
      exact ⟨[], cs, c, frame, rfl, hs, fun _ _ hl => by simpa using hl⟩
    · obtain ⟨front, closer, d, last, rfl, hd, hl⟩ := ih hn
      refine ⟨c :: front, closer, d, last, rfl, hd, fun hashes multiline hx => hl hashes multiline ?_⟩
      cases frames with
      | cons f fs =>
        rw [List.getLast?_cons_cons] at hx
        rw [List.getLast?_append, hx, Option.some_or]
      | nil =>
        rw [List.getLast?_singleton, Option.some.injEq] at hx
        subst hx
        rw [List.append_nil] at hn ⊢
        rcases step_literal_cases hs with ⟨-, rfl, -⟩ | ⟨-, -, -, rfl⟩ | ⟨-, -, -, rfl, -⟩
        · exact absurd rfl hn
        · split <;> rfl
        · rfl

/-- Frames are closed by a quote, a hash or a parenthesis. -/
theorem Closes.last_not_blank {after cs : List Char} {frames : List Frame} {skip : Nat}
    (h : Closes after frames skip cs) (hf : frames ≠ []) {d : Char} (hd : cs.getLast? = some d) : isBlank d = false := by
  obtain ⟨front, closer, c, frame, rfl, hs, -⟩ := h.last_step hf
  rw [List.getLast?_append_of_ne_nil _ (List.cons_ne_nil c closer)] at hd
  rcases List.mem_cons.1 (List.mem_of_getLast? hd) with rfl | hm
  · rw [← Bool.not_eq_true]
    intro hb
    obtain ⟨hi, -⟩ := step_blank hb hs
    cases hi
  · exact (step_close_le hs).2 d (by rwa [List.take_left])

/-- A string is opened by its first marks and closes what they open. -/
theorem string_closes {c : Char} {cs after : List Char} (h : lexemeAt c (cs ++ after) = .ok (.string, cs.length)) :
    ∃ hashes multiline, literalOpening? (c :: (cs ++ after)) =
        some (.literal hashes multiline, (literalOpener hashes multiline).length) ∧
      Closes after [.literal hashes multiline] ((literalOpener hashes multiline).length - 1) cs := by
  cases lexeme_at_cases h with
  | mark _ hp _ => cases mark_of_punctuation hp
  | string _ ho hf =>
    obtain ⟨hashes, multiline, rfl, rfl, -, -⟩ := literal_opening_iff.1 ho
    rw [← Nat.zero_add cs.length] at hf
    exact ⟨hashes, multiline, ho, closes_of_end hf nofun⟩
  | word _ _ hw => cases word_lexeme_cases hw

end TestHooks.Swift
