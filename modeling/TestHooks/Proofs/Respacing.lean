import TestHooks.Proofs.ElementForms
import TestHooks.Proofs.StringFrames

/-!
# Other blanks

Texts that differ only in their runs of blanks are cut into the same elements, if no run is lost and no line break is
gained. A text and its collapsed form are such texts.
-/

namespace TestHooks.Swift

open TestHooks.Text

/-- The second text is the first with other blanks in place of each run of them; `inRun` says that a blank stands
before both. -/
inductive Respaced : Bool → List Char → List Char → Prop
  | nil {inRun : Bool} : Respaced inRun [] []
  | keep {inRun : Bool} {c : Char} {cs cs' : List Char} (hc : isBlank c = false) (h : Respaced false cs cs') :
    Respaced inRun (c :: cs) (c :: cs')
  | blank {inRun : Bool} {c d : Char} {cs cs' : List Char} (hc : isBlank c = true) (hd : isBlank d = true)
    (hn : d = '\n' → c = '\n') (h : Respaced true cs cs') : Respaced inRun (c :: cs) (d :: cs')
  | drop {c : Char} {cs cs' : List Char} (hc : isBlank c = true) (h : Respaced true cs cs') :
    Respaced true (c :: cs) cs'

theorem respaced_refl (inRun : Bool) (cs : List Char) : Respaced inRun cs cs := by
  induction cs generalizing inRun with
  | nil => exact .nil
  | cons c cs ih =>
    by_cases hc : isBlank c = true
    · exact .blank hc hc id (ih true)
    · exact .keep (Bool.eq_false_iff.2 hc) (ih false)

theorem respaced_collapse (inRun : Bool) (cs : List Char) : Respaced inRun cs (collapseFrom inRun cs) := by
  induction cs generalizing inRun with
  | nil => exact .nil
  | cons c cs ih =>
    rw [collapseFrom]
    by_cases hc : isBlank c = true
    · rw [if_pos hc]
      cases inRun with
      | false => exact .blank hc isBlank_space (fun h => nomatch h) (ih true)
      | true => exact .drop hc (ih true)
    · rw [if_neg hc]
      exact .keep (Bool.eq_false_iff.2 hc) (ih false)

/-- Characters that are not blank stay where they are. -/
theorem Respaced.of_append {p q cs' : List Char} (h : Respaced false (p ++ q) cs')
    (hp : ∀ c ∈ p, isBlank c = false) : ∃ q', cs' = p ++ q' ∧ Respaced false q q' := by
  induction p generalizing cs' with
  | nil => exact ⟨cs', rfl, h⟩
  | cons c p ih =>
    have hc := hp c List.mem_cons_self
    cases h with
    | keep _ h =>
      obtain ⟨q', rfl, hq⟩ := ih h fun d hd => hp d (List.mem_cons_of_mem _ hd)
      exact ⟨q', rfl, hq⟩
    | blank hb _ _ _ =>
      rw [hb] at hc
      cases hc

theorem Respaced.of_append' {p q' cs : List Char} (h : Respaced false cs (p ++ q'))
    (hp : ∀ c ∈ p, isBlank c = false) : ∃ q, cs = p ++ q ∧ Respaced false q q' := by
  induction p generalizing cs with
  | nil => exact ⟨cs, rfl, h⟩
  | cons c p ih =>
    have hc := hp c List.mem_cons_self
    cases h with
    | keep _ h =>
      obtain ⟨q, rfl, hq⟩ := ih h fun d hd => hp d (List.mem_cons_of_mem _ hd)
      exact ⟨q, rfl, hq⟩
    | blank _ hb _ _ =>
      rw [hb] at hc
      cases hc

/-- A run of blanks ends at the first character that is none. -/
theorem Respaced.run_ends {inRun : Bool} {c : Char} {cs cs' : List Char} (h : Respaced inRun (c :: cs) cs')
    (hc : isBlank c = false) : Respaced false (c :: cs) cs' := by
  cases h with
  | keep hc h => exact .keep hc h
  | blank hb _ _ _ | drop hb _ =>
    rw [hb] at hc
    cases hc

/-- No mark without blanks comes up over other blanks. -/
theorem Respaced.prefix_of {p cs cs' : List Char} (h : Respaced false cs cs') (hp : ∀ c ∈ p, isBlank c = false)
    (hpre : p <+: cs') : p <+: cs := by
  obtain ⟨q', rfl⟩ := hpre
  obtain ⟨q, rfl, -⟩ := h.of_append' hp
  exact List.prefix_append p q

theorem Respaced.head_iff {c : Char} {cs cs' : List Char} (h : Respaced false cs cs') (hc : isBlank c = false) :
    cs'.head? = some c ↔ cs.head? = some c := by
  cases h with
  | nil => rfl
  | keep _ _ => rfl
  | @blank _ d e _ _ hd he _ _ =>
    have hn {b : Char} (hb : isBlank b = true) : some b ≠ some c := by
      rintro h
      cases h
      rw [hb] at hc
      cases hc
    simp only [List.head?_cons, hn hd, hn he]

theorem Respaced.eq_nil_iff {cs cs' : List Char} (h : Respaced false cs cs') : cs' = [] ↔ cs = [] := by
  cases h <;> simp

theorem Respaced.split {inRun : Bool} {cs ds es : List Char} (h : Respaced inRun (cs ++ ds) es) :
    ∃ cs' ds' after, es = cs' ++ ds' ∧ Respaced inRun cs cs' ∧ Respaced after ds ds' := by
  induction cs generalizing inRun es with
  | nil => exact ⟨[], es, inRun, rfl, .nil, h⟩
  | cons c cs ih =>
    cases h with
    | keep hc h =>
      obtain ⟨cs', ds', after, rfl, hr, hd⟩ := ih h
      exact ⟨c :: cs', ds', after, rfl, .keep hc hr, hd⟩
    | blank hc hd hn h =>
      obtain ⟨cs', ds', after, rfl, hr, hd'⟩ := ih h
      exact ⟨_ :: cs', ds', after, rfl, .blank hc hd hn hr, hd'⟩
    | drop hc h =>
      obtain ⟨cs', ds', after, rfl, hr, hd⟩ := ih h
      exact ⟨cs', ds', after, rfl, .drop hc hr, hd⟩

theorem Respaced.mem {inRun : Bool} {cs cs' : List Char} (h : Respaced inRun cs cs') {d : Char} (hd : d ∈ cs') :
    (isBlank d = false → d ∈ cs) ∧ (d = '\n' → '\n' ∈ cs) := by
  induction h with
  | nil => cases hd
  | keep hc h ih =>
    rcases List.mem_cons.1 hd with rfl | hd
    · exact ⟨fun _ => List.mem_cons_self, by rintro rfl; exact List.mem_cons_self⟩
    · exact ⟨fun hb => List.mem_cons_of_mem _ ((ih hd).1 hb), fun hn => List.mem_cons_of_mem _ ((ih hd).2 hn)⟩
  | blank hc hb hn h ih =>
    rcases List.mem_cons.1 hd with rfl | hd
    · refine ⟨fun hx => ?_, fun hx => ?_⟩
      · rw [hb] at hx
        cases hx
      · rw [hn hx]
        exact List.mem_cons_self
    · exact ⟨fun hb => List.mem_cons_of_mem _ ((ih hd).1 hb), fun hn => List.mem_cons_of_mem _ ((ih hd).2 hn)⟩
  | drop hc h ih =>
    exact ⟨fun hb => List.mem_cons_of_mem _ ((ih hd).1 hb), fun hn => List.mem_cons_of_mem _ ((ih hd).2 hn)⟩

theorem Respaced.eq_of_not_blank {inRun : Bool} {cs cs' : List Char} (h : Respaced inRun cs cs')
    (hb : ∀ c ∈ cs, isBlank c = false) : cs' = cs := by
  induction h with
  | nil => rfl
  | keep _ _ ih => rw [ih fun c hc => hb c (List.mem_cons_of_mem _ hc)]
  | blank hc _ _ _ _ =>
    rw [hb _ List.mem_cons_self] at hc
    cases hc
  | drop hc _ _ =>
    rw [hb _ List.mem_cons_self] at hc
    cases hc

theorem Respaced.all_blank {inRun : Bool} {cs cs' : List Char} (h : Respaced inRun cs cs')
    (hb : ∀ c ∈ cs, isBlank c = true) : ∀ c ∈ cs', isBlank c = true := by
  induction h with
  | nil => exact fun c hc => nomatch hc
  | keep hc _ _ =>
    rw [hb _ List.mem_cons_self] at hc
    cases hc
  | blank _ hd _ _ ih => exact List.forall_mem_cons.2 ⟨hd, ih fun c hc => hb c (List.mem_cons_of_mem _ hc)⟩
  | drop _ _ ih => exact ih fun c hc => hb c (List.mem_cons_of_mem _ hc)

/-- Nothing but separators stands between texts that agree. -/
theorem Agrees.respaced {p : Char → Bool} (hp : ∀ c, p c = true → isBlank c = false) {after' after cs cs' : List Char}
    (ha : Agrees p after' after) (h : Respaced false cs cs') : Agrees p (cs' ++ after') (cs ++ after) := by
  intro ds hd hpre
  obtain ⟨rest, hr⟩ := hpre
  have hb : ∀ c ∈ ds, isBlank c = false := fun c hc => hp c (hd c hc)
  rcases List.append_eq_append_iff.1 hr with ⟨q, rfl, -⟩ | ⟨q, rfl, hq⟩
  · obtain ⟨q', rfl, -⟩ := h.of_append' hb
    rw [List.append_assoc]
    exact List.prefix_append _ _
  · obtain ⟨cs₂, rfl, h'⟩ := @Respaced.of_append' cs' [] _ (by rwa [List.append_nil])
      fun c hc => hb c (List.mem_append_left _ hc)
    cases h'
    rw [List.append_nil]
    have := ha q (fun c hc => hd c (List.mem_append_right _ hc)) ⟨rest, hq.symm⟩
    exact (List.prefix_append_right_inj _).2 this

/-! ### String literals -/

section

variable {after' after : List Char} (ha : Agrees isQuoting after' after) {c : Char} {cs cs' : List Char}
  (hc : isBlank c = false) (hr : Respaced false cs cs')

include hc hr

/-- Quotes, hashes and backslashes that belong to the literal stay, and the rest of it is respaced. -/
theorem prefix_split_respaced {p : List Char} (hp : ∀ d ∈ p, isQuoting d = true) (hl : p.length ≤ cs.length + 1)
    (h : p <+: c :: (cs ++ after)) : ∃ q q', c :: cs = p ++ q ∧ c :: cs' = p ++ q' ∧ Respaced false q q' := by
  have hpc : p <+: c :: cs :=
    List.prefix_of_prefix_length_le h (by rw [← List.cons_append]; exact List.prefix_append _ _) hl
  obtain ⟨q, hq⟩ := hpc
  have hk : Respaced false (p ++ q) (c :: cs') := hq ▸ .keep hc hr
  obtain ⟨q', hq', hrest⟩ := hk.of_append fun d hd => quoting_not_blank (hp d hd)
  exact ⟨q, q', hq.symm, hq', hrest⟩

theorem prefix_respaced {p : List Char} (hp : ∀ d ∈ p, isQuoting d = true) (hl : p.length ≤ cs.length + 1)
    (h : p <+: c :: (cs ++ after)) : p <+: c :: (cs' ++ after') := by
  obtain ⟨q, q', -, hq', -⟩ := prefix_split_respaced hc hr hp hl h
  rw [← List.cons_append, hq', List.append_assoc]
  exact List.prefix_append _ _

/-- The character behind such marks is the same if it is no blank and belongs to the literal. -/
theorem behind_prefix_respaced {p : List Char} (hp : ∀ d ∈ p, isQuoting d = true) (hl : p.length ≤ cs.length)
    (h : p <+: c :: (cs ++ after)) {d : Char} (hd : isBlank d = false) :
    ((c :: (cs' ++ after')).drop p.length).head? = some d ↔ ((c :: (cs ++ after)).drop p.length).head? = some d := by
  obtain ⟨q, q', hq, hq', hrest⟩ := prefix_split_respaced hc hr hp (Nat.le_succ_of_le hl) h
  have hne : q ≠ [] := by
    rintro rfl
    have := congrArg List.length hq
    simp only [List.append_nil, List.length_cons] at this
    omega
  have hne' : q' ≠ [] := fun h => hne (hrest.eq_nil_iff.1 h)
  obtain ⟨b, q, rfl⟩ := List.exists_cons_of_ne_nil hne
  obtain ⟨b', q', rfl⟩ := List.exists_cons_of_ne_nil hne'
  rw [← List.cons_append, ← List.cons_append, hq', hq, List.append_assoc, List.append_assoc, List.drop_left,
    List.drop_left]
  exact hrest.head_iff hd

include ha

/-- No quotes, hashes and backslashes come up. -/
theorem prefix_of_respaced {p : List Char} (hp : ∀ d ∈ p, isQuoting d = true) (h : p <+: c :: (cs' ++ after')) :
    p <+: c :: (cs ++ after) :=
  ha.respaced (fun _ hd => quoting_not_blank hd) (.keep hc hr) p hp h

theorem literal_opening_respaced {frame : Frame} {n : Nat} (hl : n ≤ cs.length + 1)
    (h : literalOpening? (c :: (cs ++ after)) = some (frame, n)) :
    literalOpening? (c :: (cs' ++ after')) = some (frame, n) := by
  obtain ⟨hashes, multiline, rfl, rfl, hp, hm⟩ := literal_opening_iff.1 h
  apply literal_opening_iff.2
  refine ⟨hashes, multiline, rfl, rfl, ?_, fun hf hx => hm hf ?_⟩
  · exact prefix_respaced hc hr (quoting_opener hashes multiline) hl hp
  · exact prefix_of_respaced ha hc hr (quoting_opener hashes true) hx

theorem literal_opening_none_respaced (h : literalOpening? (c :: (cs ++ after)) = none) :
    literalOpening? (c :: (cs' ++ after')) = none := by
  cases ho : literalOpening? (c :: (cs' ++ after')) with
  | none => rfl
  | some found =>
    exfalso
    obtain ⟨hashes, multiline, -, -, hp, -⟩ := literal_opening_iff.1 ho
    have hq := prefix_of_respaced ha hc hr (quoting_opener hashes multiline) hp
    by_cases ht : literalOpener hashes true <+: c :: (cs ++ after)
    · rw [literal_opening_iff.2 ⟨hashes, true, rfl, rfl, ht, nofun⟩] at h
      cases h
    · cases multiline with
      | true => exact ht hq
      | false =>
        rw [literal_opening_iff.2 ⟨hashes, false, rfl, rfl, hq, fun _ => ht⟩] at h
        cases h

end

/-- What a step skips begins with characters that are not blank, the last aside. -/
theorem skipped_not_blank {p cs after : List Char} {c : Char} {k : Nat} (hp : ∀ d ∈ p, isQuoting d = true)
    (h : p <+: c :: (cs ++ after)) (hk : k ≤ p.length) (hl : p.length ≤ cs.length + 1) :
    ∀ d ∈ cs.take (k - 1), isBlank d = false := by
  intro d hd
  have hpc : p <+: c :: cs :=
    List.prefix_of_prefix_length_le h (by rw [← List.cons_append]; exact List.prefix_append _ _) hl
  apply quoting_not_blank (hp d _)
  cases k with
  | zero => simp at hd
  | succ k =>
    have hm : d ∈ (c :: cs).take (k + 1) := by
      rw [List.take_succ_cons]
      exact List.mem_cons_of_mem _ hd
    obtain ⟨q, hq⟩ := hpc
    rw [← hq, List.take_append_of_le_length hk] at hm
    exact List.mem_of_mem_take hm

/-- A step goes the same way over other blanks. -/
theorem step_respaced {after' after : List Char} (ha : Agrees isQuoting after' after) {frame : Frame} {c : Char}
    {cs cs' : List Char} (hc : isBlank c = false) (hr : Respaced false cs cs') {inner : List Frame} {k : Nat}
    (h : frame.step c (cs ++ after) = .ok (inner, k)) (hk : k ≤ cs.length) :
    frame.step c (cs' ++ after') = .ok (inner, k) ∧ ∀ d ∈ cs.take (k - 1), isBlank d = false := by
  cases frame with
  | literal hashes multiline =>
    have hclose := @prefix_of_respaced _ _ ha _ _ _ hc hr _ (quoting_closer hashes multiline)
    have hescape := @prefix_of_respaced _ _ ha _ _ _ hc hr _ (quoting_escape hashes)
    rcases step_literal_cases h with ⟨hp, rfl, rfl⟩ | ⟨hn, he, rfl, hi⟩ | ⟨hn, he, hm, rfl, rfl⟩
    · have hp' : literalCloser hashes multiline <+: c :: (cs' ++ after') :=
        prefix_respaced hc hr (quoting_closer hashes multiline) (by omega) hp
      refine ⟨?_, skipped_not_blank (quoting_closer hashes multiline) hp (by omega) (by omega)⟩
      simp only [Frame.step, List.isPrefixOf_iff_prefix, hp', if_true]
    · have he' : literalEscape hashes <+: c :: (cs' ++ after') :=
        prefix_respaced hc hr (quoting_escape hashes) (by omega) he
      -- The character behind the escape is still part of the literal.
      have hhead := @behind_prefix_respaced after' after _ _ _ hc hr _ (quoting_escape hashes) hk he '(' (by decide)
      refine ⟨?_, skipped_not_blank (quoting_escape hashes) he (Nat.le_refl _) (by omega)⟩
      simp only [Frame.step, List.isPrefixOf_iff_prefix, he', mt hclose hn, if_true, if_false, hhead]
      rw [hi]
      split <;> rfl
    · have hnl : c ≠ '\n' := by
        rintro rfl
        rw [isBlank_newline] at hc
        cases hc
      refine ⟨?_, by simp⟩
      simp [Frame.step, List.isPrefixOf_iff_prefix, mt hclose hn, mt hescape he, hnl]
  | interpolation depth =>
    cases ho : literalOpening? (c :: (cs ++ after)) with
    | none =>
      have ho' := literal_opening_none_respaced ha hc hr ho
      simp only [Frame.step, ho] at h
      have hz : k = 0 := by
        split at h
        · cases h
          rfl
        · split at h <;> cases h <;> rfl
      refine ⟨?_, by simp [hz]⟩
      simp only [Frame.step, ho']
      exact h
    | some found =>
      obtain ⟨opened, n⟩ := found
      simp only [Frame.step, ho, Except.ok.injEq, Prod.mk.injEq] at h
      obtain ⟨rfl, rfl⟩ := h
      have ho' := literal_opening_respaced ha hc hr (by omega) ho
      refine ⟨by simp only [Frame.step, ho'], ?_⟩
      obtain ⟨hashes, multiline, -, rfl, hp, -⟩ := literal_opening_iff.1 ho
      exact skipped_not_blank (quoting_opener hashes multiline) hp (by omega) (by omega)

/-- A literal reaches just as far over other blanks. -/
theorem Closes.respaced {after' after : List Char} (ha : Agrees isQuoting after' after) {cs cs' : List Char}
    {inRun : Bool} (hr : Respaced inRun cs cs') {frames : List Frame} {skip : Nat} (h : Closes after frames skip cs)
    (hn : ∀ d ∈ cs.take (skip - 1), isBlank d = false) (hi : inRun = true → skip = 0) : Closes after' frames skip cs' := by
  induction hr generalizing frames skip with
  | nil =>
    cases h
    exact .closed
  | @keep _ c cs cs' hc hr ih =>
    cases h with
    | @skip _ k _ _ h =>
      refine .skip (ih h (fun d hd => hn d ?_) nofun)
      cases k with
      | zero => cases hd
      | succ k => exact List.mem_cons_of_mem _ hd
    | step hs h =>
      obtain ⟨hs', hb⟩ := step_respaced ha hc hr hs h.skip_le
      exact .step hs' (ih h hb nofun)
  | @blank _ c d cs cs' hc hd hnl hr ih =>
    cases h with
    | @skip _ k _ _ h =>
      cases k with
      | zero => exact .skip (ih h nofun fun _ => rfl)
      | succ k =>
        rw [hn c List.mem_cons_self] at hc
        cases hc
    | step hs h =>
      obtain ⟨rfl, rfl, hb⟩ := step_blank hc hs
      exact .step (hb d _ hd hnl) (ih h nofun fun _ => rfl)
  | @drop c cs cs' hc hr ih =>
    obtain rfl := hi rfl
    cases h with
    | step hs h =>
      obtain ⟨rfl, rfl, -⟩ := step_blank hc hs
      exact ih h nofun fun _ => rfl

/-! ### Block comments -/

/-- The tail of a comment is one over other blanks too. -/
theorem CommentTail.respaced {inRun : Bool} {cs cs' : List Char} (h : CommentTail cs) (hr : Respaced inRun cs cs') :
    CommentTail cs' := by
  have hopener : ∀ c ∈ ['/', '*'], isBlank c = false := by decide
  have hcloser : ∀ c ∈ ['*', '/'], isBlank c = false := by decide
  induction h generalizing inRun cs' with
  | close =>
    obtain ⟨rest, rfl, hrest⟩ := (hr.run_ends (by decide)).of_append (q := []) hcloser
    cases hrest
    exact .close
  | @char c cs ho hc _ ih =>
    cases hr with
    | keep hk hr =>
      have hsame : Respaced false (c :: cs) (c :: _) := .keep hk hr
      exact .char (fun hp => ho (hsame.prefix_of hopener hp)) (fun hp => hc (hsame.prefix_of hcloser hp)) (ih hr)
    | @blank _ _ d _ _ _ hd _ hr =>
      refine .char ?_ ?_ (ih hr)
      · rintro ⟨rest, hx⟩
        rw [← (List.cons.inj hx).1] at hd
        exact absurd hd (by decide)
      · rintro ⟨rest, hx⟩
        rw [← (List.cons.inj hx).1] at hd
        exact absurd hd (by decide)
    | drop _ hr => exact ih hr
  | @nested cs ds _ _ ihc ihd =>
    obtain ⟨both, rfl, hboth⟩ := (hr.run_ends (by decide)).of_append (p := ['/', '*']) hopener
    obtain ⟨cs', ds', between, rfl, hcs, hds⟩ := hboth.split
    have htail : CommentTail ('/' :: '*' :: (cs' ++ ds')) := .nested (ihc hcs) (ihd hds)
    exact htail

/-! ### Lexemes -/

theorem not_blank_of_goes_on {c : Char} (h : goesOn c = true) : isBlank c = false := by
  have hs := goes_on_not_separator h
  simp only [isSeparator, Bool.or_eq_false_iff] at hs
  exact hs.1

theorem run_chars {p : Char → Bool} (hp : ∀ c, p c = true → goesOn c = true) (cs : List Char) :
    ∀ c ∈ cs.take (cs.takeWhile p).length, isBlank c = false := by
  intro c hc
  have ht : cs.take (cs.takeWhile p).length = cs.takeWhile p :=
    List.prefix_iff_eq_take.1 (List.takeWhile_prefix p) |>.symm
  rw [ht] at hc
  exact not_blank_of_goes_on (hp c (List.all_eq_true.1 List.all_takeWhile c hc))

theorem fraction_chars (cs : List Char) : ∀ c ∈ cs.take (fractionLength cs), isBlank c = false := by
  intro c hc
  by_cases hz : fractionLength cs = 0
  · rw [hz] at hc
    cases hc
  · obtain ⟨d, hd, rest, rfl⟩ := fraction_ne_zero hz
    simp only [List.cons_append, List.nil_append, fractionLength, hd, if_true, Nat.add_comm 2,
      List.take_succ_cons, List.mem_cons] at hc
    rcases hc with rfl | rfl | hc
    · decide
    · exact not_blank_of_goes_on (digit_goes_on _ hd)
    · exact run_chars digit_or_underscore_goes_on rest c hc

theorem exponent_chars (cs : List Char) : ∀ c ∈ cs.take (exponentLength cs), isBlank c = false := by
  intro c hc
  cases cs with
  | nil => cases hc
  | cons e cs =>
    by_cases he : e = 'e' ∨ e = 'E'
    · have heb : isBlank e = false := by rcases he with rfl | rfl <;> decide
      by_cases hs : cs.head? = some '-' ∨ cs.head? = some '+'
      · cases cs with
        | nil => simp at hs
        | cons s cs =>
          simp only [List.head?_cons, Option.some.injEq] at hs
          have hsb : isBlank s = false := by rcases hs with rfl | rfl <;> decide
          rw [exponent_signed he hs] at hc
          split at hc
          · cases hc
          · simp only [Nat.add_comm 2, List.take_succ_cons, List.mem_cons] at hc
            rcases hc with rfl | rfl | hc
            · exact heb
            · exact hsb
            · exact run_chars digit_goes_on cs c hc
      · rw [exponent_unsigned he hs] at hc
        split at hc
        · cases hc
        · simp only [Nat.add_comm 1, List.take_succ_cons, List.mem_cons] at hc
          rcases hc with rfl | hc
          · exact heb
          · exact run_chars digit_goes_on cs c hc
    · rw [exponent_other he] at hc
      cases hc

theorem decimal_chars (cs : List Char) : ∀ c ∈ cs.take (decimalTail cs), isBlank c = false := by
  intro c hc
  simp only [decimalTail, List.take_add, List.mem_append] at hc
  rcases hc with (hc | hc) | hc
  · exact run_chars digit_or_underscore_goes_on cs c hc
  · exact fraction_chars _ c hc
  · exact exponent_chars _ c hc

theorem number_chars (c : Char) (cs : List Char) : ∀ d ∈ cs.take (numberTail c cs), isBlank d = false := by
  intro d hd
  by_cases hc : c = '0'
  · rcases radix_or_not cs with ⟨r, more, hr, rfl⟩ | hr
    · subst hc
      rw [number_radix hr] at hd
      have hrb : isBlank r = false := by rcases hr with rfl | rfl | rfl <;> decide
      split at hd
      · cases hd
      · simp only [Nat.add_comm 1, List.take_succ_cons, List.mem_cons] at hd
        rcases hd with rfl | hd
        · exact hrb
        · exact run_chars (fun c hc => radix_goes_on hc) more d hd
    · rw [number_decimal (.inr hr)] at hd
      exact decimal_chars cs d hd
  · rw [number_decimal (.inl hc)] at hd
    exact decimal_chars cs d hd

/-- Only strings and escaped identifiers hold blanks. -/
theorem lexeme_chars {c : Char} {cs after : List Char} {kind : TokenKind}
    (h : lexemeAt c (cs ++ after) = .ok (kind, cs.length)) (hs : kind ≠ .string) (hb : c ≠ backtick) :
    ∀ d ∈ cs, isBlank d = false := by
  intro d hd
  have hword {e : Char} (he : isWordChar e = true) : isBlank e = false := word_not_blank he
  cases lexeme_at_cases h with
  | mark _ _ hn =>
    obtain rfl := List.eq_nil_of_length_eq_zero hn
    cases hd
  | string => exact absurd rfl hs
  | word _ _ hw =>
    cases word_lexeme_cases hw with
    | atWord _ hl | hashWord _ hl => exact hword ((word_length_append hl).2.2.1 d hd)
    | escaped hc => exact absurd hc hb
    | dollar _ hl | word _ hl => exact hword ((length_takeWhile_append.1 hl.symm).1 d hd)
    | number _ _ hl =>
      apply number_chars c (cs ++ after)
      rw [← hl, List.take_left]
      exact hd
    | arrow _ hh hl =>
      obtain ⟨e, rfl⟩ := List.length_eq_one_iff.1 hl
      cases hh
      obtain rfl := List.mem_singleton.1 hd
      decide
    | ellipsis _ hh he hl =>
      obtain ⟨e, f, rfl⟩ := List.length_eq_two.1 hl
      cases hh
      have he' : f = '.' ∨ f = '<' := by simpa using he
      simp only [List.mem_cons, List.not_mem_nil, or_false] at hd
      rcases hd with rfl | rfl
      · decide
      · rcases he' with rfl | rfl <;> decide
    | operator _ _ hl => exact not_blank_of_goes_on (operator_goes_on ((length_takeWhile_append.1 hl.symm).1 d hd))

theorem escaped_is_identifier {cs : List Char} {kind : TokenKind} {n : Nat}
    (h : lexemeAt backtick cs = .ok (kind, n)) : kind = .identifier := by
  cases lexeme_at_cases h with
  | mark _ hp _ => exact absurd hp (by simp [show TokenKind.ofPunctuation? backtick = none by decide])
  | string _ ho _ =>
    rw [literal_none_of_ne (by decide) (by decide)] at ho
    cases ho
  | word _ _ hw =>
    cases word_lexeme_cases hw with
    | escaped | dollar | word => rfl
    | atWord hc _ | hashWord hc _ | number _ hc _ | arrow hc _ _ | ellipsis hc _ _ _ | operator hc _ _ =>
      exact absurd hc (by decide)

/-- A string stays one over other blanks, when nothing new that follows it opens or closes a literal. -/
theorem string_respaced {after' after : List Char} (ha : Agrees isQuoting after' after) {c : Char} {cs cs' : List Char}
    (hr : Respaced false cs cs') (hc : isBlank c = false) (h : lexemeAt c (cs ++ after) = .ok (.string, cs.length)) :
    lexemeAt c (cs' ++ after') = .ok (.string, cs'.length) := by
  obtain ⟨hashes, multiline, ho, hcloses⟩ := string_closes h
  have hl := hcloses.skip_le
  have ho' := literal_opening_respaced ha hc hr (by omega) ho
  obtain ⟨_, _, ⟨⟩, -, hp, -⟩ := literal_opening_iff.1 ho
  have hb := skipped_not_blank (k := (literalOpener hashes multiline).length - 1)
    (quoting_opener hashes multiline) hp (by omega) (by omega)
  have hf' := (hcloses.respaced ha hr hb nofun).framesEnd 0
  simp only [lexemeAt, opening_is_no_mark ho, ite_self, ho', hf', Nat.zero_add]
  rfl

/-- A lexeme stays one over other blanks, when something quieter follows it. -/
theorem lexeme_respaced {after' after : List Char} (hq : Quieter after' after) (ha : Agrees isQuoting after' after)
    {c : Char} {cs cs' : List Char} {kind : TokenKind} (hr : Respaced false cs cs') (hc : isBlank c = false)
    (h : lexemeAt c (cs ++ after) = .ok (kind, cs.length)) :
    lexemeAt c (cs' ++ after') = .ok (kind, cs'.length) := by
  by_cases hs : kind = .string
  · subst hs
    exact string_respaced ha hr hc h
  · by_cases hb : c = backtick
    · subst hb
      obtain rfl := escaped_is_identifier h
      obtain ⟨body, hn, hbody, rfl⟩ := (name_of_lexeme h).of_backtick
      obtain ⟨body', last, inRun, rfl, hr', hl⟩ := hr.split
      have hlast : last = [backtick] := hl.eq_of_not_blank (by decide)
      subst hlast
      have hn' : body' ≠ [] := fun hx => hn (hr'.eq_nil_iff.1 hx)
      apply lexeme_of_escaped hn'
      intro d hd
      refine ⟨?_, fun hx => ?_⟩
      · rintro rfl
        exact (hbody _ ((hr'.mem hd).1 (by decide))).1 rfl
      · exact (hbody _ ((hr'.mem hd).2 hx)).2 rfl
    · rw [hr.eq_of_not_blank (lexeme_chars h hs hb)]
      exact hq.lexeme h hs

/-- A lexeme does not end with a blank. -/
theorem lexeme_last {c d : Char} {cs after : List Char} {kind : TokenKind} (hc : isBlank c = false)
    (h : lexemeAt c (cs ++ after) = .ok (kind, cs.length)) (hd : (c :: cs).getLast? = some d) : isBlank d = false := by
  rcases List.mem_cons.1 (List.mem_of_getLast? hd) with rfl | hm
  · exact hc
  by_cases hs : kind = .string
  · subst hs
    obtain ⟨_, _, -, hcloses⟩ := string_closes h
    obtain ⟨e, cs, rfl⟩ := List.exists_cons_of_ne_nil (List.ne_nil_of_mem hm)
    rw [List.getLast?_cons_cons] at hd
    exact hcloses.last_not_blank (List.cons_ne_nil _ _) hd
  · by_cases hb : c = backtick
    · subst hb
      obtain rfl := escaped_is_identifier h
      obtain ⟨body, -, -, rfl⟩ := (name_of_lexeme h).of_backtick
      rw [← List.cons_append, List.getLast?_concat, Option.some.injEq] at hd
      rw [← hd]
      decide
    · exact lexeme_chars h hs hb d hm

theorem measure_of_lexeme {c : Char} {cs : List Char} {kind : TokenKind} {n : Nat} (hb : isBlank c = false)
    (hc : c = '/' → cs.head? ≠ some '/' ∧ cs.head? ≠ some '*') (h : lexemeAt c cs = .ok (kind, n)) :
    Element.measure c cs = .ok (.lexeme kind, n) :=
  measure_iff.2 (.lexeme hb hc h)

/-- A character that lexemes may go on with does not come up over other blanks. -/
theorem Respaced.no_mark {after' after cs cs' : List Char} (hr : Respaced false cs cs') (hq : Quieter after' after)
    {d : Char} (hd : goesOn d = true) (hn : (cs ++ after).head? ≠ some d) : (cs' ++ after').head? ≠ some d := by
  intro hx
  cases hr with
  | nil =>
    have hp : [d] <+: after' := by
      cases after' with
      | nil => cases hx
      | cons e more =>
        cases hx
        exact ⟨more, rfl⟩
    obtain ⟨more, rfl⟩ := hq [d] (.next hd) hp
    exact hn rfl
  | keep _ _ => exact hn hx
  | blank _ hb _ _ =>
    cases hx
    rw [not_blank_of_goes_on hd] at hb
    cases hb

/-- An element that is no comment on a line fits over other blanks, when something quieter follows it. -/
theorem Element.Fits.respaced {e : Element} {after' after cs' : List Char} (h : e.Fits after)
    (hs : e.shape ≠ .lineComment) (hr : Respaced false e.text cs') (hq : Quieter after' after)
    (ha : Agrees isQuoting after' after)
    (hb : e.shape = .blank → after.head?.any isBlank = false → after'.head?.any isBlank = false) :
    (⟨e.shape, cs'⟩ : Element).Fits after' := by
  cases fits_iff.1 h with
  | blank hc hcs hafter =>
    cases hr with
    | keep hk _ =>
      rw [hc] at hk
      cases hk
    | blank _ hd _ hr => exact fits_iff.2 (.blank hd (hr.all_blank hcs) (hb rfl hafter))
  | lineComment => exact absurd rfl hs
  | blockComment htail =>
    obtain ⟨tail', rfl, htail'⟩ := hr.of_append (p := ['/', '*']) (by decide)
    exact fits_iff.2 (.blockComment (htail.respaced htail'))
  | lexeme hc hd hl =>
    cases hr with
    | blank hb _ _ _ =>
      rw [hc] at hb
      cases hb
    | keep _ hr =>
      refine fits_iff.2 (.lexeme hc (fun hx => ?_) (lexeme_respaced hq ha hr hc hl))
      exact ⟨hr.no_mark hq (by decide) (hd hx).1, hr.no_mark hq (by decide) (hd hx).2⟩

/-- Lexemes and block comments do not end with a blank. -/
theorem Element.Fits.last {e : Element} {after : List Char} (h : e.Fits after) (hb : e.shape ≠ .blank)
    (hs : e.shape ≠ .lineComment) {d : Char} (hd : e.text.getLast? = some d) : isBlank d = false := by
  cases fits_iff.1 h with
  | blank => exact absurd rfl hb
  | lineComment => exact absurd rfl hs
  | blockComment htail =>
    rw [comment_last htail] at hd
    cases hd
    decide
  | lexeme hc _ hl => exact lexeme_last hc hl hd

end TestHooks.Swift
