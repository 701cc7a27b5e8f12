import TestHooks.Proofs.Lexing

/-!
# The forms of elements

An element that fits is a run of blanks, a comment on a line, a block comment or a lexeme, and its shape says how it is
spelled (`fits_iff`). A block comment is read by counting the comments that are open. What is read that way is described
by the nesting of the comments instead (`CommentTail`).
-/

namespace TestHooks.Swift

open TestHooks.Text

/-! ### Block comments -/

/-- What stands in a block comment behind the mark that opens it, through the mark that closes it: characters at which
neither mark stands, and whole comments. -/
inductive CommentTail : List Char → Prop
  | close : CommentTail ['*', '/']
  | char {c : Char} {cs : List Char} (ho : ¬['/', '*'] <+: c :: cs) (hc : ¬['*', '/'] <+: c :: cs)
    (h : CommentTail cs) : CommentTail (c :: cs)
  | nested {cs ds : List Char} (hc : CommentTail cs) (hd : CommentTail ds) : CommentTail ('/' :: '*' :: (cs ++ ds))

theorem getLast_cons {α : Type} {a b : α} {cs : List α} (h : cs.getLast? = some b) : (a :: cs).getLast? = some b := by
  cases cs with
  | nil => cases h
  | cons c cs => rwa [List.getLast?_cons_cons]

theorem commentTail_last {tail : List Char} (h : CommentTail tail) : tail.getLast? = some '/' := by
  induction h with
  | close => rfl
  | char _ _ _ ih => exact getLast_cons ih
  | nested _ _ _ ihd =>
    rw [← List.cons_append, ← List.cons_append, List.getLast?_append, ihd]
    rfl

theorem comment_end_cons (read depth : Nat) (c : Char) (cs : List Char) :
    commentEnd read depth (c :: cs) =
      if c = '/' ∧ cs.head? = some '*' then commentEnd (read + 2) (depth + 1) cs.tail
      else if c = '*' ∧ cs.head? = some '/' then
        if depth = 0 then some (read + 2) else commentEnd (read + 2) (depth - 1) cs.tail
      else commentEnd (read + 1) depth cs := by
  rw [commentEnd.eq_def]
  split
  · next h =>
    obtain ⟨rfl, rfl⟩ := List.cons.inj h
    rfl
  · next h =>
    obtain ⟨rfl, rfl⟩ := List.cons.inj h
    rfl
  · next h =>
    obtain ⟨rfl, rfl⟩ := List.cons.inj h
    rfl
  · next h₁ h₂ h₃ h =>
    obtain ⟨rfl, rfl⟩ := List.cons.inj h
    have ha : ¬(c = '/' ∧ cs.head? = some '*') := by
      rintro ⟨rfl, hs⟩
      cases cs with
      | nil => cases hs
      | cons d cs =>
        cases hs
        exact h₁ cs rfl rfl
    have hb : ¬(c = '*' ∧ cs.head? = some '/') := by
      rintro ⟨rfl, hs⟩
      cases cs with
      | nil => cases hs
      | cons d cs =>
        cases hs
        obtain ⟨n, hn⟩ := Nat.exists_eq_succ_of_ne_zero fun hz => h₂ cs hz rfl rfl
        exact h₃ n cs hn rfl rfl
    rw [if_neg ha, if_neg hb]
  · next h => cases h

theorem comment_end_ge {read depth n : Nat} {cs : List Char} (h : commentEnd read depth cs = some n) :
    read + 2 ≤ n := by
  fun_induction commentEnd read depth cs with
  | case1 read depth cs ih =>
    have := ih h
    omega
  | case2 =>
    cases h
    omega
  | case3 read depth cs ih =>
    have := ih h
    omega
  | case4 read depth c cs _ _ _ ih =>
    have := ih h
    omega
  | case5 => cases h

/-- A comment that is found closed has one tail for each comment that was open. -/
theorem comment_tails {read depth n : Nat} {text : List Char} (h : commentEnd read depth text = some n) :
    ∃ (tails : List (List Char)) (after : List Char), tails.length = depth + 1 ∧ (∀ tail ∈ tails, CommentTail tail) ∧
      text = tails.flatten ++ after ∧ n = read + tails.flatten.length := by
  fun_induction commentEnd read depth text with
  | case1 read depth text ih =>
    obtain ⟨tails, after, hl, ht, rfl, hn⟩ := ih h
    obtain ⟨inner, tails, rfl⟩ := List.exists_cons_of_ne_nil (List.ne_nil_of_length_eq_add_one hl)
    obtain ⟨outer, tails, rfl⟩ := List.exists_cons_of_ne_nil (List.ne_nil_of_length_eq_add_one (Nat.succ.inj hl))
    rw [List.forall_mem_cons, List.forall_mem_cons] at ht
    refine ⟨('/' :: '*' :: (inner ++ outer)) :: tails, after, Nat.succ.inj hl, ?_, by simp, ?_⟩
    · exact List.forall_mem_cons.2 ⟨.nested ht.1 ht.2.1, ht.2.2⟩
    · simp only [List.flatten_cons, List.length_append, List.length_cons] at hn ⊢
      omega
  | case2 read text =>
    cases h
    exact ⟨[['*', '/']], text, rfl, by simpa using .close, rfl, rfl⟩
  | case3 read depth text ih =>
    obtain ⟨tails, after, hl, ht, rfl, hn⟩ := ih h
    refine ⟨['*', '/'] :: tails, after, by rw [List.length_cons, hl], ?_, rfl, ?_⟩
    · exact List.forall_mem_cons.2 ⟨.close, ht⟩
    · rw [List.flatten_cons, List.length_append, hn]
      simp only [List.length_cons, List.length_nil]
      omega
  | case4 read depth c text hopen hclose hcloses ih =>
    obtain ⟨tails, after, hl, ht, rfl, hn⟩ := ih h
    obtain ⟨tail, tails, rfl⟩ := List.exists_cons_of_ne_nil (List.ne_nil_of_length_eq_add_one hl)
    rw [List.forall_mem_cons] at ht
    refine ⟨(c :: tail) :: tails, after, hl, List.forall_mem_cons.2 ⟨.char ?_ ?_ ht.1, ht.2⟩, by simp, ?_⟩
    · rintro ⟨more, hm⟩
      obtain ⟨rfl, rfl⟩ := List.cons.inj hm
      exact hopen _ rfl rfl
    · rintro ⟨more, hm⟩
      obtain ⟨rfl, rfl⟩ := List.cons.inj hm
      cases depth with
      | zero => exact hclose _ rfl rfl rfl
      | succ depth => exact hcloses _ _ rfl rfl rfl
    · simp only [List.flatten_cons, List.length_append, List.length_cons] at hn ⊢
      omega
  | case5 => cases h

theorem commentTail_of_end {read : Nat} {cs after : List Char}
    (h : commentEnd read 0 (cs ++ after) = some (read + cs.length)) : CommentTail cs := by
  obtain ⟨tails, rest, hl, ht, htext, hn⟩ := comment_tails h
  obtain ⟨tail, rfl⟩ := List.length_eq_one_iff.1 hl
  rw [List.flatten_singleton] at htext hn
  obtain ⟨rfl, -⟩ := List.append_inj htext (by omega)
  exact ht cs List.mem_cons_self

/-- A block comment is read through its end. -/
theorem comment_tail_read {tail : List Char} (h : CommentTail tail) (read : Nat) (after : List Char) :
    commentEnd read 0 (tail ++ after) = some (read + tail.length) ∧
      ∀ depth, commentEnd read (depth + 1) (tail ++ after) = commentEnd (read + tail.length) depth after := by
  induction h generalizing read after with
  | close => exact ⟨rfl, fun _ => rfl⟩
  | @char c cs ho hc h ih =>
    obtain ⟨d, ds, rfl⟩ : ∃ d ds, cs = d :: ds := List.exists_cons_of_ne_nil (by rintro rfl; cases h)
    have hopen : ¬(c = '/' ∧ (d :: ds ++ after).head? = some '*') := by
      rintro ⟨rfl, hd⟩
      cases hd
      exact ho ⟨ds, rfl⟩
    have hclose : ¬(c = '*' ∧ (d :: ds ++ after).head? = some '/') := by
      rintro ⟨rfl, hd⟩
      cases hd
      exact hc ⟨ds, rfl⟩
    have hstep (depth : Nat) : commentEnd read depth (c :: (d :: ds) ++ after) =
        commentEnd (read + 1) depth (d :: ds ++ after) := by
      rw [List.cons_append, comment_end_cons, if_neg hopen, if_neg hclose]
    have hl : read + 1 + (d :: ds).length = read + (c :: d :: ds).length := by
      simp only [List.length_cons]
      omega
    obtain ⟨h₀, h₁⟩ := ih (read + 1) after
    rw [hstep, h₀, hl]
    exact ⟨rfl, fun depth => by rw [hstep, h₁, hl]⟩
  | @nested cs ds _ _ ihc ihd =>
    have hstep (depth : Nat) : commentEnd read depth ('/' :: '*' :: (cs ++ ds) ++ after) =
        commentEnd (read + 2 + cs.length) depth (ds ++ after) := by
      rw [← (ihc (read + 2) (ds ++ after)).2 depth, ← List.append_assoc]
      rfl
    have hl : read + 2 + cs.length + ds.length = read + ('/' :: '*' :: (cs ++ ds)).length := by
      simp only [List.length_cons, List.length_append]
      omega
    obtain ⟨h₀, h₁⟩ := ihd (read + 2 + cs.length) after
    rw [hstep, h₀, hl]
    exact ⟨rfl, fun depth => by rw [hstep, h₁, hl]⟩

/-- A comment ends with its mark. -/
theorem comment_last {tail : List Char} (h : CommentTail tail) : ('/' :: '*' :: tail).getLast? = some '/' :=
  getLast_cons (getLast_cons (commentTail_last h))

theorem commentTail_iff {cs after : List Char} (read : Nat) :
    commentEnd read 0 (cs ++ after) = some (read + cs.length) ↔ CommentTail cs :=
  ⟨commentTail_of_end, fun h => (comment_tail_read h read after).1⟩

/-! ### Elements by their shapes -/

/-- The spellings of the elements that fit before the text `after`. -/
inductive Element.Formed (after : List Char) : Element → Prop
  | blank {c : Char} {cs : List Char} (hc : isBlank c = true) (hcs : ∀ d ∈ cs, isBlank d = true)
    (ha : after.head?.any isBlank = false) : Formed after ⟨.blank, c :: cs⟩
  | lineComment {body : List Char} (hb : '\n' ∉ body) (ha : after.head?.all (· == '\n') = true) :
    Formed after ⟨.lineComment, '/' :: '/' :: body⟩
  | blockComment {tail : List Char} (ht : CommentTail tail) : Formed after ⟨.blockComment, '/' :: '*' :: tail⟩
  | lexeme {kind : TokenKind} {c : Char} {cs : List Char} (hb : isBlank c = false)
    (hs : c = '/' → (cs ++ after).head? ≠ some '/' ∧ (cs ++ after).head? ≠ some '*')
    (hl : lexemeAt c (cs ++ after) = .ok (kind, cs.length)) : Formed after ⟨.lexeme kind, c :: cs⟩

/-- A line is left at its break or at the end of the text. -/
theorem line_ends_iff {body after : List Char} : ((body ++ after).takeWhile (· != '\n')).length = body.length ↔
    '\n' ∉ body ∧ after.head?.all (· == '\n') = true := by
  rw [length_takeWhile_append]
  refine and_congr ?_ ?_
  · simp only [bne_iff_ne]
    exact ⟨fun h hx => h _ hx rfl, fun h c hc hx => h (hx ▸ hc)⟩
  · cases after <;> simp

theorem Element.Fits.formed {e : Element} {after : List Char} (h : e.Fits after) : e.Formed after := by
  obtain ⟨shape, text⟩ := e
  obtain ⟨c, cs, rfl, hm⟩ := h
  cases measure_iff.1 hm with
  | blank hb hn =>
    obtain ⟨hcs, ha⟩ := length_takeWhile_append.1 hn.symm
    exact .blank hb hcs ha
  | lineComment hc hh hn =>
    obtain ⟨hb, ha⟩ := line_ends_iff.1 hn.symm
    subst hc
    cases cs with
    | nil =>
      rw [List.nil_append] at hh
      rw [hh] at ha
      cases ha
    | cons d body =>
      cases hh
      exact .lineComment (fun hx => hb (List.mem_cons_of_mem _ hx)) ha
  | blockComment hc hh hn =>
    have hge := comment_end_ge hn
    subst hc
    cases cs with
    | nil =>
      rw [List.length_nil] at hge
      omega
    | cons d tail =>
      cases hh
      rw [List.cons_append, List.drop_one, List.tail_cons, List.length_cons, Nat.add_comm] at hn
      exact .blockComment ((commentTail_iff 1).1 hn)
  | lexeme hb hc hl => exact .lexeme hb hc hl

theorem Element.Formed.fits {e : Element} {after : List Char} (h : e.Formed after) : e.Fits after := by
  cases h with
  | blank hc hcs ha => exact ⟨_, _, rfl, measure_iff.2 (.blank hc (length_takeWhile_append.2 ⟨hcs, ha⟩).symm)⟩
  | @lineComment body hb ha =>
    refine ⟨'/', '/' :: body, rfl, measure_iff.2 (.lineComment rfl rfl (line_ends_iff.2 ⟨?_, ha⟩).symm)⟩
    exact List.not_mem_cons_of_ne_of_not_mem (by decide) hb
  | @blockComment tail ht =>
    refine ⟨'/', '*' :: tail, rfl, measure_iff.2 (.blockComment rfl rfl ?_)⟩
    rw [List.cons_append, List.drop_one, List.tail_cons, List.length_cons, Nat.add_comm]
    exact (commentTail_iff 1).2 ht
  | lexeme hb hs hl => exact ⟨_, _, rfl, measure_iff.2 (.lexeme hb hs hl)⟩

theorem fits_iff {e : Element} {after : List Char} : e.Fits after ↔ e.Formed after :=
  ⟨Element.Fits.formed, Element.Formed.fits⟩

theorem head_of_fits {e : Element} {after : List Char} (h : e.Fits after) :
    ∃ c cs, e.text = c :: cs ∧ (e.shape = .blank ↔ isBlank c = true) := by
  have hslash : isBlank '/' = false := by decide
  cases fits_iff.1 h with
  | blank hc _ _ => exact ⟨_, _, rfl, by simp [hc]⟩
  | lineComment | blockComment => exact ⟨_, _, rfl, by simp [hslash]⟩
  | lexeme hb _ _ => exact ⟨_, _, rfl, by simp [hb]⟩

theorem blank_chars {e : Element} {after : List Char} (h : e.Fits after) (hs : e.shape = .blank) :
    ∀ c ∈ e.text, isBlank c = true := by
  cases fits_iff.1 h with
  | blank hc hcs _ => exact List.forall_mem_cons.2 ⟨hc, hcs⟩
  | lineComment | blockComment | lexeme => cases hs

/-- Behind a run of blanks stands no blank. -/
theorem blank_fits {e : Element} {after : List Char} (h : e.Fits after) (hs : e.shape = .blank) :
    after.head?.any isBlank = false := by
  cases fits_iff.1 h with
  | blank _ _ ha => exact ha
  | lineComment | blockComment | lexeme => cases hs

theorem comment_of_fits {e : Element} {after : List Char} (h : e.Fits after) (hs : e.shape = .lineComment) :
    ∃ body, e = ⟨.lineComment, '/' :: '/' :: body⟩ ∧ '\n' ∉ body ∧ after.head?.all (· == '\n') = true := by
  cases fits_iff.1 h with
  | lineComment hb ha => exact ⟨_, rfl, hb, ha⟩
  | blank | blockComment | lexeme => cases hs

theorem lexeme_of_fits {e : Element} {kind : TokenKind} {after : List Char} (h : e.Fits after)
    (hk : e.shape = .lexeme kind) : ∃ c cs, e.text = c :: cs ∧ isBlank c = false ∧
      (c = '/' → (cs ++ after).head? ≠ some '/' ∧ (cs ++ after).head? ≠ some '*') ∧
      lexemeAt c (cs ++ after) = .ok (kind, cs.length) := by
  cases fits_iff.1 h with
  | lexeme hb hs hl =>
    cases hk
    exact ⟨_, _, rfl, hb, hs, hl⟩
  | blank | lineComment | blockComment => cases hk

/-- A comment on a line asks only for the end of the line. -/
theorem Element.Fits.lineComment_before {e : Element} {after after' : List Char} (h : e.Fits after)
    (hs : e.shape = .lineComment) (hn : after.head?.all (· == '\n') = true → after'.head?.all (· == '\n') = true) :
    e.Fits after' := by
  obtain ⟨body, rfl, hb, ha⟩ := comment_of_fits h hs
  exact fits_iff.2 (.lineComment hb (hn ha))

end TestHooks.Swift
