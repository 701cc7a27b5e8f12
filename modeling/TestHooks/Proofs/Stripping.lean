import TestHooks.Proofs.Legible
import TestHooks.Proofs.Trimming

/-!
# Texts without registered attributes

Removing the spans of attributes from a text leaves what is written of the tokens without them (`Trimmed.stripped`), and
these tokens are read from it, if no attribute touches a token before it that is no mark (`Trimmed.legible`).
-/

namespace TestHooks.Swift

open TestHooks.Expansion TestHooks.Text

/-! ### Closing the gap around an attribute -/

theorem lastLine_of_mem {gap : List Char} (h : '\n' ∈ gap) (front : List Char) : lastLine (front ++ gap) = lastLine gap := by
  rw [lastLine, lastLine, List.reverse_append, List.takeWhile_append, if_neg]
  intro hl
  have hall := List.takeWhile_prefix (· != '\n') (l := gap.reverse) |>.eq_of_length hl
  have hm : '\n' ∈ gap.reverse.takeWhile (· != '\n') := by rwa [hall, List.mem_reverse]
  exact absurd (List.mem_takeWhile_imp hm) (by decide)

theorem lastLine_of_not_mem {gap : List Char} (h : '\n' ∉ gap) (front : List Char) :
    lastLine (front ++ gap) = lastLine front ++ gap := by
  have hall : ∀ c ∈ gap.reverse, (c != '\n') = true := by
    intro c hc
    rw [bne_iff_ne]
    rintro rfl
    exact h (List.mem_reverse.1 hc)
  rw [lastLine, lastLine, List.reverse_append, List.takeWhile_append_of_pos hall, List.reverse_append, List.reverse_reverse]

theorem firstLine_of_mem {behind : List Char} (h : '\n' ∈ behind) (more : List Char) :
    firstLine (behind ++ more) = firstLine behind := by
  rw [firstLine, firstLine, List.takeWhile_append, if_neg]
  intro hl
  have hall := List.takeWhile_prefix (· != '\n') (l := behind) |>.eq_of_length hl
  have hm : '\n' ∈ behind.takeWhile (· != '\n') := by rwa [hall]
  exact absurd (List.mem_takeWhile_imp hm) (by decide)

theorem firstLine_of_not_mem {behind : List Char} (h : '\n' ∉ behind) (more : List Char) :
    firstLine (behind ++ more) = behind ++ firstLine more := by
  refine List.takeWhile_append_of_pos fun c hc => ?_
  rw [bne_iff_ne]
  rintro rfl
  exact h hc

theorem newline_of_not_blank {c : Char} (h : isBlank c = false) : c ≠ '\n' := by
  rintro rfl
  exact absurd h (by decide)

theorem not_spaceOrTab_of_not_blank {c : Char} (h : isBlank c = false) : isSpaceOrTab c = false := by
  rw [Bool.eq_false_iff]
  intro hc
  simp only [isSpaceOrTab, Bool.or_eq_true, beq_iff_eq] at hc
  rcases hc with rfl | rfl <;> exact absurd h (by decide)

theorem blank_of_spaceOrTab (c : Char) (h : isSpaceOrTab c = true) : isBlank c = true := by
  by_contra hb
  rw [not_spaceOrTab_of_not_blank (Bool.eq_false_iff.2 hb)] at h
  cases h

theorem dropWhile_before {behind more : List Char} {c : Char} (hc : isBlank c = false) :
    (behind ++ c :: more).dropWhile isSpaceOrTab = behind.dropWhile isSpaceOrTab ++ c :: more := by
  rw [List.dropWhile_append, List.dropWhile_cons_of_neg (by rw [not_spaceOrTab_of_not_blank hc]; exact Bool.false_ne_true)]
  split
  · next h => rw [List.isEmpty_iff.1 h, List.nil_append]
  · rfl

/-- The last line of a text with another character than a blank at its end is not blank. -/
theorem lastLine_not_blank {front : List Char} (hn : front ≠ []) (hf : ∀ d ∈ front.getLast?, isBlank d = false) :
    ∃ d ∈ lastLine front, isBlank d = false := by
  obtain ⟨init, d, rfl⟩ : ∃ init d, front = init ++ [d] := ⟨_, _, (List.dropLast_concat_getLast hn).symm⟩
  have hd := hf d (by rw [List.getLast?_concat]; rfl)
  refine ⟨d, ?_, hd⟩
  rw [lastLine_of_not_mem (by simpa using (newline_of_not_blank hd).symm)]
  exact List.mem_append_right _ List.mem_cons_self

/-- Between two tokens, closing a gap touches nothing but the gaps around the attribute. -/
theorem closeGap_tokens {front gap behind more : List Char} {c : Char} (hf : ∀ d ∈ front.getLast?, isBlank d = false)
    (hc : isBlank c = false) : closeGap (front ++ gap) (behind ++ c :: more) = front ++
      ((if (front = [] ∨ '\n' ∈ gap) ∧ '\n' ∈ behind then closeGap gap behind
        else gap ++ behind.dropWhile isSpaceOrTab) ++ c :: more) := by
  by_cases h : (front = [] ∨ '\n' ∈ gap) ∧ '\n' ∈ behind
  · rw [if_pos h]
    have hlead : lastLine (front ++ gap) = lastLine gap := by
      rcases h.1 with rfl | hm
      · rfl
      · exact lastLine_of_mem hm front
    obtain ⟨before, hsplit, -, -⟩ := lastLine_split gap
    have hl := congrArg List.length hsplit
    rw [List.length_append] at hl
    have htrail : (firstLine behind).length + 1 ≤ behind.length := by
      rcases (firstLine_split behind).2 with hx | ⟨after, hx⟩
      · exact absurd (hx ▸ h.2) (firstLine_split behind).1
      · have := congrArg List.length hx
        rw [List.length_append, List.length_cons] at this
        omega
    unfold closeGap
    dsimp only
    rw [hlead, firstLine_of_mem h.2]
    split
    · have hlength : (front ++ gap).length - (lastLine gap).length = front.length + (gap.length - (lastLine gap).length) := by
        rw [List.length_append]
        omega
      rw [hlength, List.take_length_add_append, List.drop_append_of_le_length htrail]
      simp only [List.append_assoc]
    · rw [dropWhile_before hc]
      simp only [List.append_assoc]
  · rw [if_neg h]
    have hstays : ¬((lastLine (front ++ gap)).all isBlank && (firstLine (behind ++ c :: more)).all isBlank) = true := by
      rw [Bool.and_eq_true, List.all_eq_true, List.all_eq_true]
      rintro ⟨hlead, htrail⟩
      by_cases hb : '\n' ∈ behind
      · have hx := not_or.1 fun hx => h ⟨hx, hb⟩
        obtain ⟨d, hd, hblank⟩ := lastLine_not_blank hx.1 hf
        rw [lastLine_of_not_mem hx.2] at hlead
        rw [hlead d (List.mem_append_left _ hd)] at hblank
        cases hblank
      · rw [firstLine_of_not_mem hb, firstLine, List.takeWhile_cons, if_pos (by simpa using newline_of_not_blank hc)] at htrail
        rw [htrail c (List.mem_append_right _ List.mem_cons_self)] at hc
        cases hc
    unfold closeGap
    dsimp only
    rw [if_neg hstays, dropWhile_before hc]
    simp only [List.append_assoc]

theorem closeGap_gap {gap behind : List Char} (hg : ∀ after, Gap after gap) (hb : ∀ after, Gap after behind)
    (after : List Char) : Gap after (closeGap gap behind) := by
  unfold closeGap
  dsimp only
  split
  · next hblank =>
    simp only [Bool.and_eq_true, List.all_eq_true] at hblank
    obtain ⟨front, hsplit, hfront, -⟩ := lastLine_split gap
    have htake : gap.take (gap.length - (lastLine gap).length) = front := by
      have hl := congrArg List.length hsplit
      rw [List.length_append] at hl
      conv => lhs; arg 2; rw [hsplit]
      exact List.take_left' (by omega)
    have hfrontGap (after : List Char) : Gap after front := by
      have hwhole := hg []
      rw [hsplit] at hwhole
      refine hwhole.without_blanks hblank.1 (.inr fun c hc => ?_)
      rcases hfront with rfl | hlast
      · cases hc
      · exact (Option.some.inj (hlast.symm.trans hc)).symm
    rw [htake]
    refine (hfrontGap _).append ?_
    rcases (firstLine_split behind).2 with hx | ⟨rest, hx⟩
    · rw [List.drop_eq_nil_of_le (by rw [← hx]; omega)]
      exact .nil
    · have hrest : behind.drop ((firstLine behind).length + 1) = rest := by
        conv => lhs; arg 2; rw [hx]
        rw [← List.drop_drop, List.drop_left]
        rfl
      rw [hrest]
      have hwhole := hb after
      rw [hx, List.append_cons] at hwhole
      refine hwhole.of_blanks_append fun c hc => ?_
      rcases List.mem_append.1 hc with hc | hc
      · exact hblank.2 c hc
      · rw [List.mem_singleton.1 hc]
        exact isBlank_newline
  · exact (hg _).append ((hb after).dropWhile blank_of_spaceOrTab)

/-- What comes to stand before a token is a gap. -/
theorem closedGap_gap {t : Token} {behind : List Char} (hg : ∀ after, Gap after t.gap.toList)
    (hb : ∀ after, Gap after behind) (after : List Char) : Gap after (closedGap t behind) := by
  unfold closedGap
  split
  · exact closeGap_gap hg hb after
  · exact (hg _).append ((hb after).dropWhile blank_of_spaceOrTab)

/-- What comes to stand before a token begins as the gap before the attribute, unless the attribute opens the text. -/
theorem closedGap_head {t : Token} {c : Char} {gap : List Char} (hg : t.gap.toList = c :: gap)
    (ho : t.start.offset ≠ t.gap.length) (behind : List Char) : ∃ more, closedGap t behind = c :: more := by
  unfold closedGap
  split
  · next h =>
    have hbreak := h.1.resolve_left ho
    unfold closeGap
    dsimp only
    split
    · obtain ⟨front, hsplit, -, hn⟩ := lastLine_split t.gap.toList
      obtain ⟨d, front, rfl⟩ : ∃ d more, front = d :: more := by
        refine List.exists_cons_of_ne_nil ?_
        rintro rfl
        rw [hsplit, List.nil_append] at hbreak
        exact hn hbreak
      have htake : t.gap.toList.take (t.gap.toList.length - (lastLine t.gap.toList).length) = d :: front := by
        have hl := congrArg List.length hsplit
        rw [List.length_append] at hl
        conv => lhs; arg 2; rw [hsplit]
        exact List.take_left' (by omega)
      rw [htake]
      rw [hg, List.cons_append, List.cons.injEq] at hsplit
      exact ⟨_, by rw [hsplit.1]; rfl⟩
    · rw [hg]
      exact ⟨_, rfl⟩
  · rw [hg]
    exact ⟨_, rfl⟩

/-! ### Removing the spans -/

/-- The first token stands behind `n` characters and its gap, every other one behind the one before. -/
def Placed : Nat → List Token → Prop
  | _, [] => True
  | n, t :: ts => t.start.offset = n + t.gap.length ∧ Placed t.stop ts

theorem placed_of_offsets {ts : List Token} {n : Nat} (h : ∀ {before t after}, ts = before ++ t :: after →
    t.start.offset = n + (Token.written before).length + t.gap.toList.length) : Placed n ts := by
  induction ts generalizing n with
  | nil => trivial
  | cons t ts ih =>
    have ht := @h [] t ts rfl
    rw [String.length_toList] at ht
    refine ⟨ht, ih fun {before u after} hu => ?_⟩
    have := @h (t :: before) u after (by rw [hu]; rfl)
    rw [this, Token.written_cons, Token.stop, ht]
    simp only [List.length_append, String.length_toList, Token.written, List.flatMap_nil, List.length_nil]
    omega

theorem placed_append {ts us : List Token} {n : Nat} :
    Placed n (ts ++ us) ↔ Placed n ts ∧ Placed (n + (Token.written ts).length) us := by
  induction ts generalizing n with
  | nil => simp [Placed, Token.written]
  | cons t ts ih =>
    rw [List.cons_append, Placed, Placed, ih, and_assoc]
    refine and_congr_right fun ht => and_congr_right fun _ => ?_
    rw [Token.written_cons, Token.stop, ht]
    simp only [List.length_append, String.length_toList]
    rw [show n + t.gap.length + t.text.length + (Token.written ts).length =
      n + (t.gap.length + t.text.length + (Token.written ts).length) by omega]

/-- The last token ends where the text of all tokens does. -/
theorem placed_stop {t : Token} {ts : List Token} {n : Nat} (h : Placed n (t :: ts)) :
    (ts.getLast?.getD t).stop = n + (Token.written (t :: ts)).length := by
  induction ts generalizing t n with
  | nil =>
    rw [List.getLast?_nil, Option.getD_none, Token.stop, h.1, Token.written_cons]
    simp only [List.length_append, String.length_toList, Token.written, List.flatMap_nil, List.length_nil]
    omega
  | cons u ts ih =>
    have hlast : (u :: ts).getLast?.getD t = ts.getLast?.getD u := by
      rw [List.getLast?_cons]
      rfl
    rw [hlast, ih h.2, Token.stop, h.1, Token.written_cons t]
    simp only [List.length_append, String.length_toList]
    omega

namespace Trimmed

/-- Every token that is left is one of the tokens behind another gap. -/
theorem mem {ts us : List Token} {as : List Attribute} (h : Trimmed ts as us) {u : Token} (hu : u ∈ us) :
    ∃ t ∈ ts, ∃ gap, u = t.behind gap := by
  induction h generalizing u with
  | nil => cases hu
  | @keep t ts us as _ ih =>
    rcases List.mem_cons.1 hu with rfl | hu
    · exact ⟨u, List.mem_cons_self, u.gap.toList, u.behind_self.symm⟩
    · obtain ⟨t, ht, hgap⟩ := ih hu
      exact ⟨t, List.mem_cons_of_mem _ ht, hgap⟩
  | @drop t v inside after us a as _ _ _ _ _ ih =>
    have hrest {w : Token} (hw : w ∈ v :: us) : ∃ x ∈ t :: (inside ++ after), ∃ gap, w = x.behind gap := by
      obtain ⟨x, hx, hgap⟩ := ih hw
      exact ⟨x, List.mem_cons_of_mem _ (List.mem_append_right _ hx), hgap⟩
    rcases List.mem_cons.1 hu with rfl | hu
    · obtain ⟨x, hx, gap, rfl⟩ := hrest List.mem_cons_self
      exact ⟨x, hx, _, Token.behind_behind x gap _⟩
    · exact hrest (List.mem_cons_of_mem _ hu)

/-- A token ends with a character that is no blank. -/
theorem last_of_fits {t : Token} {after : List Char} (h : t.element.Fits after) (front : List Char) :
    ∀ d ∈ (front ++ t.text.toList).getLast?, isBlank d = false := by
  obtain ⟨c, cs, hc, -⟩ := head_of_fits h
  have hne : t.text.toList ≠ [] := by
    rw [show t.text.toList = c :: cs from hc]
    exact List.cons_ne_nil _ _
  intro d hd
  rw [List.getLast?_append_of_ne_nil _ hne] at hd
  exact h.last nofun nofun hd

theorem last_of_written {ts : List Token} (hn : ts ≠ []) (hl : ∀ t ∈ ts, ∃ after, t.element.Fits after)
    (front : List Char) : ∀ d ∈ (front ++ Token.written ts).getLast?, isBlank d = false := by
  obtain ⟨init, t, rfl⟩ : ∃ init t, ts = init ++ [t] := ⟨_, _, (List.dropLast_concat_getLast hn).symm⟩
  obtain ⟨after, hfits⟩ := hl t (List.mem_append_right _ List.mem_cons_self)
  have hwritten : front ++ Token.written (init ++ [t]) = front ++ Token.written init ++ t.gap.toList ++ t.text.toList := by
    rw [Token.written_append, Token.written_cons]
    simp [Token.written]
  rw [hwritten]
  exact last_of_fits hfits _

/-- Removing the span of an attribute closes the gap before the token behind it. -/
theorem removeSpan_attribute {t u : Token} {inside us : List Token} {a : Attribute} {front : List Char}
    (hp : Placed front.length (t :: inside)) (hs : a.start = t.start) (he : a.stop = (inside.getLast?.getD t).stop)
    (hf : ∀ d ∈ front.getLast?, isBlank d = false) (hu : ∃ c cs, u.text.toList = c :: cs ∧ isBlank c = false)
    (rest : List Char) :
    removeSpan (front ++ Token.written (t :: inside) ++ (Token.written (u :: us) ++ rest)) a.span =
      front ++ (Token.written (u.behind (closedGap t u.gap.toList) :: us) ++ rest) := by
  obtain ⟨c, cs, hc, hblank⟩ := hu
  have hspan : a.span = ⟨front.length + t.gap.toList.length, (front ++ Token.written (t :: inside)).length⟩ := by
    rw [Attribute.span, hs, he, placed_stop hp, hp.1, List.length_append, String.length_toList]
  have hbefore : (front ++ Token.written (t :: inside) ++ (Token.written (u :: us) ++ rest)).take
      (front.length + t.gap.toList.length) = front ++ t.gap.toList := by
    rw [Token.written_cons t, ← List.length_append]
    simp only [List.append_assoc]
    rw [← List.append_assoc front, List.take_left]
  have hfront : front = [] ↔ t.start.offset = t.gap.length := by
    rw [hp.1, ← List.length_eq_zero_iff]
    omega
  rw [hspan, removeSpan, hbefore, List.drop_left, Token.written_cons u, hc]
  simp only [List.append_assoc, List.cons_append]
  rw [closeGap_tokens hf hblank, Token.written_cons, closedGap, Token.behind_text, hc]
  simp only [Token.behind, String.toList_ofList, hfront, List.append_assoc, List.cons_append]

/-- Removing the spans of the attributes, the last one first, leaves what is written of the other tokens. -/
theorem stripped {ts us : List Token} {as : List Attribute} (h : Trimmed ts as us) {front : List Char} (rest : List Char)
    (hp : Placed front.length ts) (hl : ∀ t ∈ ts, ∃ after, t.element.Fits after)
    (hf : ∀ d ∈ front.getLast?, isBlank d = false) :
    (as.map Attribute.span).foldr (fun s code => removeSpan code s) (front ++ (Token.written ts ++ rest)) =
      front ++ (Token.written us ++ rest) := by
  induction h generalizing front with
  | nil => rfl
  | @keep t ts us as _ ih =>
    obtain ⟨⟨after, ht⟩, hts⟩ := List.forall_mem_cons.1 hl
    have hplaced : Placed (front ++ (t.gap.toList ++ t.text.toList)).length ts := by
      have hstop : (front ++ (t.gap.toList ++ t.text.toList)).length = t.stop := by
        rw [Token.stop, hp.1]
        simp only [List.length_append, String.length_toList]
        omega
      rw [hstop]
      exact hp.2
    have hrest := ih hplaced hts (by rw [← List.append_assoc]; exact last_of_fits ht _)
    simp only [Token.written_cons, List.append_assoc] at hrest ⊢
    exact hrest
  | @drop t u inside after us a as _ hs he _ hrest ih =>
    rw [← List.cons_append] at hp hl
    obtain ⟨hinside, hafter⟩ := placed_append.1 hp
    have hcode := @ih (front ++ Token.written (t :: inside)) (by rwa [List.length_append])
      (fun t ht => hl t (List.mem_append_right _ ht))
      (last_of_written (List.cons_ne_nil _ _) (fun t ht => hl t (List.mem_append_left _ ht)) front)
    have hu : ∃ c cs, u.text.toList = c :: cs ∧ isBlank c = false := by
      obtain ⟨v, hv, gap, rfl⟩ := hrest.mem List.mem_cons_self
      obtain ⟨after, hfits⟩ := hl v (List.mem_append_right _ hv)
      obtain ⟨c, cs, hc, hb⟩ := head_of_fits hfits
      exact ⟨c, cs, hc, Bool.eq_false_iff.2 fun hx => by cases hb.2 hx⟩
    rw [List.map_cons, List.foldr_cons, ← List.cons_append, Token.written_append, List.append_assoc,
      ← List.append_assoc front, hcode]
    exact removeSpan_attribute hinside hs he hf hu rest

end Trimmed

/-! ### Reading what is left -/

/-- An attribute of the list that touches the token before it stands behind a mark. -/
def Unglued (as : List Attribute) : List Token → Prop
  | p :: t :: ts =>
    (t.isAttached = true → (∃ a ∈ as, a.start = t.start) → p.kind.mark?.isSome = true) ∧ Unglued as (t :: ts)
  | _ => True

instance decidableUnglued (as : List Attribute) : (ts : List Token) → Decidable (Unglued as ts)
  | [] => isTrue trivial
  | [_] => isTrue trivial
  | _ :: t :: ts => @instDecidableAnd _ _ inferInstance (decidableUnglued as (t :: ts))

theorem Unglued.tail {as : List Attribute} {t : Token} {ts : List Token} (h : Unglued as (t :: ts)) : Unglued as ts := by
  cases ts with
  | nil => trivial
  | cons u ts => exact h.2

theorem Unglued.of_append {as : List Attribute} {ts us : List Token} (h : Unglued as (ts ++ us)) : Unglued as us := by
  induction ts with
  | nil => exact h
  | cons t ts ih => exact ih h.tail

theorem Unglued.mono {as bs : List Attribute} {ts : List Token} (h : Unglued as ts) (hs : ∀ b ∈ bs, b ∈ as) :
    Unglued bs ts := by
  induction ts with
  | nil => trivial
  | cons p ts ih =>
    cases ts with
    | nil => trivial
    | cons t ts => exact ⟨fun ht ⟨b, hb, hst⟩ => h.1 ht ⟨b, hs b hb, hst⟩, ih h.2⟩

theorem calm_of_gap {cs more : List Char} {c : Char} (hg : Gap (c :: more) cs) (hc : isCalm c = true) : Calm (cs ++ c :: more) := by
  cases cs with
  | nil => simpa [Calm] using hc
  | cons d cs =>
    rw [Calm, List.cons_append, List.head?_cons, Option.all_some]
    rcases hg.head d rfl with hd | rfl
    · have hdot : d ≠ '.' ∧ d ≠ '<' := by constructor <;> rintro rfl <;> exact absurd hd (by decide)
      have hdigit : isDecimalDigit d = false := by
        rw [Bool.eq_false_iff]
        intro hx
        rw [word_not_blank (decimal_word hx)] at hd
        cases hd
      simp [isCalm, hdot, hdigit]
    · decide

/-- Attributes, modifiers and the keywords of types begin calmly. -/
theorem calm_of_leading {u : Token} (h : u.leadsType = true) {after : List Char} (hf : u.element.Fits after) :
    ∃ c cs, u.text.toList = c :: cs ∧ isCalm c = true ∧ c ≠ '\n' := by
  have hwords : ∀ w ∈ modifierWords ++ TypeKeyword.all.map TypeKeyword.text,
      w.toList.head?.any (fun c => isCalm c && c != '\n') = true := by decide +kernel
  rcases Token.leadsType_cases h with hk | ⟨-, hw⟩
  · obtain ⟨c, cs, hc, hm⟩ := hf
    have hlexed : (⟨u.kind, String.ofList u.element.text, u.gap, u.start⟩ : Token).Lexed :=
      Token.lexed_of_fits ⟨c, cs, hc, hm⟩ rfl
    obtain ⟨ds, hds, -, -⟩ := hlexed.of_atWord hk
    rw [String.toList_ofList] at hds
    exact ⟨'@', ds, hds, by decide, by decide⟩
  · have hany := hwords u.text (List.mem_append.2 hw)
    cases hc : u.text.toList with
    | nil =>
      rw [hc] at hany
      cases hany
    | cons c cs =>
      rw [hc, List.head?_cons, Option.any_some, Bool.and_eq_true, bne_iff_ne] at hany
      exact ⟨c, cs, rfl, hany⟩

theorem mark_text {t : Token} {after : List Char} (hf : t.element.Fits after) {c : Char} (hk : t.kind.mark? = some c) :
    t.text.toList = [c] := by
  have hlexed : (⟨t.kind, String.ofList t.element.text, t.gap, t.start⟩ : Token).Lexed := Token.lexed_of_fits hf rfl
  have := hlexed.of_mark hk
  rwa [String.toList_ofList] at this

/-- Behind a token the text without the attributes may stand in place of the text with them, or the token is a mark that
does not go on. -/
def Mild (rest : List Char) (ts us : List Token) (p : Token) : Prop :=
  (∃ c, p.kind.mark? = some c ∧ Calm (Token.written us ++ rest)) ∨
    Replaces (Token.written us ++ rest) (Token.written ts ++ rest)

theorem Mild.fits {rest : List Char} {ts us : List Token} {p : Token} (h : Mild rest ts us p)
    (hf : p.element.Fits (Token.written ts ++ rest)) : p.element.Fits (Token.written us ++ rest) := by
  rcases h with ⟨c, hk, hcalm⟩ | hr
  · rw [show p.element = .mark p.kind c by rw [Token.element, mark_text hf hk]; rfl]
    exact hcalm.mark_fits hk
  · exact hr.fits hf

theorem Mild.replaces {rest : List Char} {ts us : List Token} {p : Token} (h : Mild rest ts us p)
    (hf : p.element.Fits (Token.written ts ++ rest)) :
    Replaces (Token.written (p :: us) ++ rest) (Token.written (p :: ts) ++ rest) := by
  rw [Token.written_cons, Token.written_cons, List.append_assoc, List.append_assoc, List.append_assoc, List.append_assoc]
  refine Replaces.append ?_ _
  rcases h with ⟨c, hk, hcalm⟩ | hr
  · rw [mark_text hf hk]
    exact hcalm.replaces hk _
  · exact hr.append _

/-- A closed gap may stand in place of an attribute: behind a mark what follows it is calm, and elsewhere it begins as
the gap before the attribute did. -/
theorem mild_of_closed {rest after : List Char} {t u p : Token} {ts us : List Token} (hgap : Gap after t.gap.toList)
    (hclosed : Gap (u.text.toList ++ (Token.written us ++ rest)) (closedGap t u.gap.toList))
    (hcalm : ∃ c cs, u.text.toList = c :: cs ∧ isCalm c = true) (hoffset : t.start.offset ≠ t.gap.length)
    (hglue : t.isAttached = true → p.kind.mark?.isSome = true) :
    Mild rest (t :: ts) (u.behind (closedGap t u.gap.toList) :: us) p := by
  obtain ⟨c, cs, htext, hc⟩ := hcalm
  by_cases hattached : t.isAttached = true
  · obtain ⟨m, hm⟩ := Option.isSome_iff_exists.1 (hglue hattached)
    refine .inl ⟨m, hm, ?_⟩
    rw [htext] at hclosed
    rw [Token.written_cons, Token.behind_text, htext, Token.behind, String.toList_ofList]
    simp only [List.append_assoc, List.cons_append]
    exact calm_of_gap hclosed hc
  · obtain ⟨e, gap, he⟩ : ∃ e gap, t.gap.toList = e :: gap := by
      refine List.exists_cons_of_ne_nil fun hx => hattached ?_
      rw [Token.isAttached, String.isEmpty_iff, ← String.toList_eq_nil_iff]
      exact hx
    obtain ⟨more, hmore⟩ := closedGap_head he hoffset u.gap.toList
    refine .inr ?_
    rw [Token.written_cons, Token.written_cons, Token.behind, String.toList_ofList, hmore, he]
    simp only [List.append_assoc, List.cons_append]
    rw [he] at hgap
    exact replaces_of_head (hgap.head e rfl) _ _

/-- What is left is legible, and every token before it goes on as before. -/
theorem Trimmed.legible_mild {ts us : List Token} {as : List Attribute} (h : Trimmed ts as us) {rest : List Char} {n : Nat}
    (hu : Unglued as ts) (hp : Placed n ts) (hl : Legible rest ts) :
    Legible rest us ∧ ∀ p, Unglued as (p :: ts) → 0 < n → Mild rest ts us p := by
  induction h generalizing n with
  | nil => exact ⟨trivial, fun _ _ _ => .inr ⟨fun _ _ _ hp => hp, fun _ _ hp => hp⟩⟩
  | @keep t ts us as _ ih =>
    obtain ⟨hgap, hfits, hlegible⟩ := hl
    obtain ⟨c, cs, hc, -⟩ := head_of_fits hfits
    have htext : t.text.toList = c :: cs := hc
    have hstop : 0 < t.stop := by
      rw [Token.stop, ← String.length_toList, htext, List.length_cons]
      omega
    obtain ⟨hus, hmild⟩ := ih hu.tail hp.2 hlegible
    have ht := hmild t hu hstop
    refine ⟨⟨hgap.before fun hx => ?_, ht.fits hfits, hus⟩, fun _ _ _ => .inr (ht.replaces hfits)⟩
    rw [htext] at hx ⊢
    exact hx
  | @drop t u inside after us a as hk hs _ hleads _ ih =>
    rw [← List.cons_append] at hp hl hu
    obtain ⟨hinside, hafter⟩ := placed_append.1 hp
    obtain ⟨⟨htgap, htfits, -⟩, hlafter⟩ := legible_append.1 hl
    obtain ⟨⟨hugap, hufits, hus⟩, -⟩ := ih (hu.of_append.mono fun b hb => List.mem_cons_of_mem a hb) hafter hlafter
    obtain ⟨c, cs, htext, hcalm, hc⟩ := calm_of_leading hleads hufits
    obtain ⟨d, ds, htat, -, hd⟩ := calm_of_leading (u := t) (by rw [Token.leadsType, hk]; rfl) htfits
    rw [htext] at hugap
    rw [htat] at htgap
    have hclosed (more : List Char) : Gap more (closedGap t u.gap.toList) :=
      closedGap_gap (htgap.closed hd) (hugap.closed hc) more
    refine ⟨⟨?_, hufits, hus⟩, fun p hglue hn => ?_⟩
    · rw [Token.behind, String.toList_ofList]
      exact hclosed _
    · have hoffset : t.start.offset ≠ t.gap.length := by
        rw [hinside.1]
        omega
      exact mild_of_closed htgap (hclosed _) ⟨c, cs, htext, hcalm⟩ hoffset
        fun hattached => hglue.1 hattached ⟨a, List.mem_cons_self, hs⟩

/-- The tokens without the attributes are read from what is written of them. -/
theorem Trimmed.legible {ts us : List Token} {as : List Attribute} (h : Trimmed ts as us) {rest : List Char} {n : Nat}
    (hu : Unglued as ts) (hp : Placed n ts) (hl : Legible rest ts) : Legible rest us :=
  (h.legible_mild hu hp hl).1

end TestHooks.Swift
