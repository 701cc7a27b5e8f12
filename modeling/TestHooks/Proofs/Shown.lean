import Mathlib.Data.List.Infix
import Mathlib.Data.List.TakeWhile
import TestHooks.Console.Log

/-!
# Messages that can be shown

Markup can be shown unless one of its tags closes a style that is not open. Text that was escaped has no tags that
choose a style, so messages about diagnostics can always be shown (`shown_diagnostic`). Other messages hold the names of
files as they are, and can be shown if these have no closing tags (`Closes`).
-/

namespace TestHooks.Markup

open TestHooks.Text

/-! ### Tags at the head of a text -/

variable {c : Char} {cs body : List Char}

/-- What may stand between the brackets of a tag. -/
def IsBody (body : List Char) : Prop :=
  body.head?.any beginsTag = true ∧ '[' ∉ body ∧ ']' ∉ body

instance (body : List Char) : Decidable (IsBody body) := inferInstanceAs (Decidable (_ ∧ _))

theorem tagBody?_eq_some_iff : tagBody? cs = some body ↔ IsBody body ∧ ∃ rest, cs = body ++ ']' :: rest := by
  constructor
  · intro h
    cases cs with
    | nil => cases h
    | cons c cs =>
      obtain ⟨hcond, hbody⟩ := Option.ite_none_right_eq_some.1 h
      obtain rfl := Option.some.inj hbody
      obtain ⟨hbegins, hclosed⟩ := Bool.and_eq_true_iff.1 hcond
      obtain ⟨rest, hrest⟩ := List.head?_eq_some_iff.1 (beq_iff_eq.1 hclosed)
      have hinner {d : Char} (hd : (d != ']' && d != '[') = false) (hb : beginsTag d = false) :
          d ∉ c :: cs.takeWhile fun d => d != ']' && d != '[' := by
        intro hmem
        rcases List.mem_cons.1 hmem with rfl | hmem
        · rw [hbegins] at hb
          cases hb
        · rw [List.mem_takeWhile_imp hmem] at hd
          cases hd
      refine ⟨⟨hbegins, hinner (by decide) (by decide), hinner (by decide) (by decide)⟩, rest, ?_⟩
      rw [List.cons_append, ← hrest, ← List.prefix_append_drop (List.takeWhile_prefix _)]
  · rintro ⟨⟨hbegins, hopen, hclose⟩, rest, rfl⟩
    cases body with
    | nil => cases hbegins
    | cons c body =>
      have hinner : (body ++ ']' :: rest).takeWhile (fun d => d != ']' && d != '[') = body := by
        rw [List.takeWhile_append_of_pos, List.takeWhile_cons_of_neg (by decide), List.append_nil]
        intro d hd
        rw [Bool.and_eq_true, bne_iff_ne, bne_iff_ne]
        exact ⟨fun h => hclose (h ▸ List.mem_cons_of_mem c hd), fun h => hopen (h ▸ List.mem_cons_of_mem c hd)⟩
      rw [List.cons_append, tagBody?, hinner, List.drop_left]
      exact if_pos (Bool.and_eq_true_iff.2 ⟨hbegins, rfl⟩)

theorem tag?_slash (cs : List Char) : tag? ('\\' :: cs) = (tag? cs).map fun (slashes, body) => (slashes + 1, body) := by
  rw [tag?, tag?, List.takeWhile_cons_of_pos (by rfl), List.length_cons, List.drop_succ_cons]
  split
  · rw [Option.map_map]
    rfl
  · rfl

theorem tag?_open (cs : List Char) : tag? ('[' :: cs) = (tagBody? cs).map fun body => (0, body) := by
  rw [tag?, List.takeWhile_cons_of_neg (by decide)]
  rfl

theorem tag?_other (hslash : c ≠ '\\') (hopen : c ≠ '[') : tag? (c :: cs) = none := by
  rw [tag?, List.takeWhile_cons_of_neg (by rwa [beq_iff_eq])]
  dsimp only [List.length_nil, List.drop_zero]
  split
  · next heq => exact absurd (List.cons.inj heq).1 hopen
  · rfl

theorem tag?_eq_some_iff {slashes : Nat} :
    tag? cs = some (slashes, body) ↔
      IsBody body ∧ ∃ rest, cs = List.replicate slashes '\\' ++ '[' :: (body ++ ']' :: rest) := by
  induction cs generalizing slashes with
  | nil =>
    refine ⟨nofun, fun ⟨_, rest, h⟩ => ?_⟩
    exact absurd h.symm (List.append_ne_nil_of_right_ne_nil _ (List.cons_ne_nil _ _))
  | cons c cs ih =>
    by_cases hslash : c = '\\'
    · subst hslash
      cases slashes with
      | zero => simp [tag?_slash]
      | succ n => simp [tag?_slash, List.replicate_succ, ih]
    · by_cases hopen : c = '['
      · subst hopen
        cases slashes with
        | zero => simp [tag?_open, tagBody?_eq_some_iff]
        | succ n => simp [tag?_open, List.replicate_succ]
      · rw [tag?_other hslash hopen]
        cases slashes with
        | zero => simp [hopen]
        | succ n => simp [List.replicate_succ, hslash]

/-! ### Tags that choose a style -/

/-- The body of a tag that chooses a style. A tag after an odd number of backslashes does not. -/
def Fragment.style? : Fragment → Option (List Char)
  | plain _ => none
  | tag slashes body => if slashes % 2 = 1 then none else some body

/-- The tags of a text that choose a style. -/
def styleTags (cs : List Char) : List (List Char) :=
  (fragments cs).filterMap Fragment.style?

theorem style?_odd {slashes : Nat} (h : slashes % 2 = 1) (body : List Char) :
    (Fragment.tag slashes body).style? = none := if_pos h

theorem style?_even {slashes : Nat} (h : ¬ slashes % 2 = 1) (body : List Char) :
    (Fragment.tag slashes body).style? = some body := if_neg h

theorem isSome_showFrom? (styles : List (List Char)) (fs : List Fragment) :
    (showFrom? styles fs).isSome = ((fs.filterMap Fragment.style?).foldlM applyTag styles).isSome := by
  fun_induction showFrom? styles fs with
  | case1 => rfl
  | case2 styles rest ih =>
    rw [Option.isSome_map, ih]
    rfl
  | case3 styles c rest _ ih =>
    rw [Option.isSome_map, ih]
    rfl
  | case4 styles slashes body rest _ hodd ih =>
    rw [Option.isSome_map, ih, List.filterMap_cons_none (style?_odd hodd body)]
  | case5 styles slashes body rest _ heven styles' happly ih =>
    rw [Option.isSome_map, ih, List.filterMap_cons_some (style?_even heven body), List.foldlM_cons, happly]
    rfl
  | case6 styles slashes body rest heven happly =>
    rw [List.filterMap_cons_some (style?_even heven body), List.foldlM_cons, happly]
    rfl

/-- Only the tags that choose a style decide whether markup can be shown. -/
theorem isSome_render? (markup : String) :
    (render? markup).isSome = ((styleTags markup.toList).foldlM applyTag []).isSome := by
  rw [render?, Option.isSome_map, isSome_showFrom?, styleTags]

theorem fragments_of_none (h : tag? (c :: cs) = none) : fragments (c :: cs) = .plain c :: fragments cs := by
  rw [fragments, h]

theorem drop_tag (slashes : Nat) (body rest : List Char) :
    (List.replicate slashes '\\' ++ '[' :: (body ++ ']' :: rest)).drop (slashes + body.length + 2) = rest := by
  have hsource : List.replicate slashes '\\' ++ '[' :: (body ++ ']' :: rest) =
      (Fragment.tag slashes body).source ++ rest := by
    simp [Fragment.source]
  have hlength : (Fragment.tag slashes body).source.length = slashes + body.length + 2 := by
    simp [Fragment.source, Nat.add_assoc]
  rw [hsource, ← hlength, List.drop_left]

theorem fragments_tag {slashes : Nat} (hb : IsBody body) (rest : List Char) :
    fragments (List.replicate slashes '\\' ++ '[' :: (body ++ ']' :: rest)) =
      .tag slashes body :: fragments rest := by
  have htag := tag?_eq_some_iff.2 ⟨hb, rest, (rfl : List.replicate slashes '\\' ++ '[' :: (body ++ ']' :: rest) = _)⟩
  have hdrop := drop_tag slashes body rest
  revert htag hdrop
  cases List.replicate slashes '\\' ++ '[' :: (body ++ ']' :: rest) with
  | nil => nofun
  | cons c cs =>
    intro htag hdrop
    rw [fragments, htag]
    exact congrArg (Fragment.tag slashes body :: fragments ·) hdrop

/-- A text is empty, or begins with a tag, or with a character that no tag begins with. -/
theorem text_induction {motive : List Char → Prop} (nil : motive [])
    (tag : ∀ slashes body rest, IsBody body → motive rest →
      motive (List.replicate slashes '\\' ++ '[' :: (body ++ ']' :: rest)))
    (plain : ∀ c cs, tag? (c :: cs) = none → motive cs → motive (c :: cs)) (cs : List Char) : motive cs := by
  fun_induction fragments cs with
  | case1 => exact nil
  | case2 c cs slashes body htag ih =>
    obtain ⟨hb, rest, hcs⟩ := tag?_eq_some_iff.1 htag
    have hrest : cs.drop (slashes + body.length + 1) = rest := by
      rw [← drop_tag slashes body rest, ← hcs]
      rfl
    rw [hcs]
    exact tag slashes body rest hb (hrest ▸ ih)
  | case3 c cs htag ih => exact plain c cs htag ih

theorem styleTags_nil : styleTags [] = [] := by
  rw [styleTags, fragments]
  rfl

theorem styleTags_of_none (h : tag? (c :: cs) = none) : styleTags (c :: cs) = styleTags cs := by
  rw [styleTags, fragments_of_none h]
  rfl

theorem styleTags_tag {slashes : Nat} (hb : IsBody body) (rest : List Char) :
    styleTags (List.replicate slashes '\\' ++ '[' :: (body ++ ']' :: rest)) =
      (Fragment.tag slashes body).style?.toList ++ styleTags rest := by
  rw [styleTags, fragments_tag hb]
  cases h : (Fragment.tag slashes body).style? with
  | none => exact List.filterMap_cons_none h
  | some body => exact List.filterMap_cons_some h

theorem tag?_of_no_open (h : '[' ∉ cs) : tag? cs = none := by
  rw [Option.eq_none_iff_forall_ne_some]
  intro (slashes, body) htag
  obtain ⟨-, rest, rfl⟩ := tag?_eq_some_iff.1 htag
  exact h (List.mem_append_right _ List.mem_cons_self)

theorem styleTags_of_no_open (h : '[' ∉ cs) : styleTags cs = [] := by
  induction cs with
  | nil => exact styleTags_nil
  | cons c cs ih => rw [styleTags_of_none (tag?_of_no_open h), ih (List.not_mem_of_not_mem_cons h)]

/-! ### Texts in a row -/

/-- No bracket closes before one opens. -/
def Sealed (cs : List Char) : Prop := ∀ before after, cs = before ++ ']' :: after → '[' ∈ before

theorem sealed_of_no_close (h : ']' ∉ cs) : Sealed cs := fun _ _ heq =>
  absurd (heq ▸ List.mem_append_right _ List.mem_cons_self) h

theorem sealed_open (h : ']' ∉ cs) (more : List Char) : Sealed (cs ++ '[' :: more) := by
  intro before after heq
  rcases List.append_eq_append_iff.1 heq with ⟨middle, rfl, hmiddle⟩ | ⟨middle, rfl, hmiddle⟩
  · cases middle with
    | nil => cases hmiddle
    | cons d middle =>
      obtain rfl := (List.cons.inj hmiddle).1
      exact List.mem_append_right _ List.mem_cons_self
  · cases middle with
    | nil => cases hmiddle
    | cons d middle =>
      obtain rfl := (List.cons.inj hmiddle).1
      exact absurd (List.mem_append_right _ List.mem_cons_self) h

theorem tagBody?_append {xs ys : List Char} (hy : Sealed ys) : tagBody? (xs ++ ys) = tagBody? xs := by
  ext body
  rw [tagBody?_eq_some_iff, tagBody?_eq_some_iff]
  refine and_congr_right fun hb => ⟨fun ⟨rest, h⟩ => ?_, fun ⟨rest, h⟩ => ⟨rest ++ ys, by simp [h]⟩⟩
  rcases List.append_eq_append_iff.1 h with ⟨middle, rfl, hys⟩ | ⟨middle, rfl, hrest⟩
  · exact absurd (List.mem_append_right _ (hy middle rest hys)) hb.2.1
  · cases middle with
    | nil => exact absurd (hy [] rest hrest.symm) List.not_mem_nil
    | cons d middle =>
      obtain rfl := (List.cons.inj hrest).1
      exact ⟨middle, rfl⟩

/-- A text that is no tag does not become one by what follows, unless it is all backslashes. -/
theorem tag?_append {xs ys : List Char} (hy : Sealed ys) (h : tag? xs = none) :
    tag? (xs ++ ys) = none ∨ ∃ slashes, xs = List.replicate slashes '\\' := by
  induction xs with
  | nil => exact .inr ⟨0, rfl⟩
  | cons c xs ih =>
    rw [List.cons_append]
    by_cases hslash : c = '\\'
    · subst hslash
      rw [tag?_slash, Option.map_eq_none_iff] at h ⊢
      exact (ih h).imp_right fun ⟨slashes, hxs⟩ => ⟨slashes + 1, congrArg _ hxs⟩
    · by_cases hopen : c = '['
      · subst hopen
        rw [tag?_open, tagBody?_append hy, ← tag?_open]
        exact .inl h
      · exact .inl (tag?_other hslash hopen)

/-- No tag begins in one text and ends in the next, but the backslashes at the end of the one belong to a tag that the
other begins with. -/
theorem styleTags_append {xs ys : List Char} (hy : Sealed ys) :
    ∃ slashes, styleTags (xs ++ ys) = styleTags xs ++ styleTags (List.replicate slashes '\\' ++ ys) := by
  induction xs using text_induction with
  | nil => exact ⟨0, by rw [styleTags_nil]; rfl⟩
  | tag slashes body rest hb ih =>
    obtain ⟨tail, htail⟩ := ih
    have hwhole : List.replicate slashes '\\' ++ '[' :: (body ++ ']' :: rest) ++ ys =
        List.replicate slashes '\\' ++ '[' :: (body ++ ']' :: (rest ++ ys)) := by simp
    exact ⟨tail, by rw [hwhole, styleTags_tag hb, styleTags_tag hb, htail, List.append_assoc]⟩
  | plain c xs htag ih =>
    rcases tag?_append hy htag with (happend : tag? (c :: (xs ++ ys)) = none) | ⟨slashes, hxs⟩
    · obtain ⟨slashes, hslashes⟩ := ih
      exact ⟨slashes, by rw [List.cons_append, styleTags_of_none happend, hslashes, styleTags_of_none htag]⟩
    · have hno : '[' ∉ c :: xs := by simp [hxs]
      exact ⟨slashes, by rw [styleTags_of_no_open hno, hxs, List.nil_append]⟩

/-! ### Escaped texts -/

/-- The text with its tags to be shown. -/
def marked (cs : List Char) : List Char := (fragments cs).flatMap Fragment.escaped

theorem marked_nil : marked [] = [] := by
  rw [marked, fragments]
  rfl

theorem marked_of_none (h : tag? (c :: cs) = none) : marked (c :: cs) = c :: marked cs := by
  rw [marked, fragments_of_none h]
  rfl

theorem marked_tag {slashes : Nat} (hb : IsBody body) (rest : List Char) :
    marked (List.replicate slashes '\\' ++ '[' :: (body ++ ']' :: rest)) =
      List.replicate (2 * slashes + 1) '\\' ++ '[' :: (body ++ ']' :: marked rest) := by
  rw [marked, fragments_tag hb, List.flatMap_cons, ← marked]
  simp [Fragment.escaped, Fragment.source]

/-- Marking a text changes nothing before its first tag. -/
theorem marked_closed {before after : List Char} (h : marked cs = before ++ ']' :: after) (hopen : '[' ∉ before) :
    ∃ rest, cs = before ++ ']' :: rest := by
  induction cs using text_induction generalizing before with
  | nil =>
    rw [marked_nil] at h
    exact absurd h.symm (List.append_ne_nil_of_right_ne_nil _ (List.cons_ne_nil _ _))
  | tag slashes body rest hb _ =>
    rw [marked_tag hb] at h
    exact absurd (sealed_open (by simp) _ before after h) hopen
  | plain c cs htag ih =>
    rw [marked_of_none htag] at h
    cases before with
    | nil => exact ⟨cs, by rw [(List.cons.inj h).1]; rfl⟩
    | cons b before =>
      obtain ⟨rest, hrest⟩ := ih (List.cons.inj h).2 (List.not_mem_of_not_mem_cons hopen)
      exact ⟨rest, by rw [(List.cons.inj h).1, hrest]; rfl⟩

theorem tag?_marked (h : tag? cs = none) : tag? (marked cs) = none := by
  induction cs with
  | nil => exact (congrArg tag? marked_nil).trans h
  | cons c cs ih =>
    rw [marked_of_none h]
    by_cases hslash : c = '\\'
    · subst hslash
      rw [tag?_slash, Option.map_eq_none_iff] at h ⊢
      exact ih h
    · by_cases hopen : c = '['
      · subst hopen
        rw [tag?_open, Option.map_eq_none_iff, Option.eq_none_iff_forall_ne_some] at h ⊢
        intro body hbody
        obtain ⟨hb, after, hafter⟩ := tagBody?_eq_some_iff.1 hbody
        exact h body (tagBody?_eq_some_iff.2 ⟨hb, marked_closed hafter hb.2.1⟩)
      · exact tag?_other hslash hopen

theorem styleTags_marked (cs : List Char) : styleTags (marked cs) = [] := by
  induction cs using text_induction with
  | nil => rw [marked_nil, styleTags_nil]
  | tag slashes body rest hb ih =>
    rw [marked_tag hb, styleTags_tag hb, ih, style?_odd (by omega)]
    rfl
  | plain c cs htag ih =>
    have hmarked := tag?_marked htag
    rw [marked_of_none htag] at hmarked ⊢
    rw [styleTags_of_none hmarked, ih]

/-- Whatever is escaped chooses no style. -/
theorem styleTags_escape (s : String) : styleTags (escape s).toList = [] := by
  rw [escape, String.toList_ofList, ← marked]
  split
  · obtain ⟨slashes, h⟩ := @styleTags_append (marked s.toList) ['\\'] (sealed_of_no_close (by decide))
    rw [h, styleTags_marked, List.nil_append, styleTags_of_no_open (by simp)]
  · exact styleTags_marked s.toList

/-! ### Closing tags -/

/-- A tag of the text closes a style. -/
def Closes (cs : List Char) : Prop := ∃ body ∈ styleTags cs, body.head? = some '/'

instance (cs : List Char) : Decidable (Closes cs) := inferInstanceAs (Decidable (∃ body ∈ styleTags cs, _))

/-- The text can be shown, whatever styles are open before it. -/
def Shows (cs : List Char) : Prop := ∀ styles, ((styleTags cs).foldlM applyTag styles).isSome = true

theorem applyTag_opening (h : body.head? ≠ some '/') (styles : List (List Char)) :
    applyTag styles body = some (styleName body :: styles) := by
  unfold applyTag
  split
  · exact absurd rfl h
  · rfl

theorem applyTag_closing (opened styles : List (List Char)) (body : List Char) :
    (applyTag (opened ++ styleName body :: styles) ('/' :: body)).isSome = true := by
  rw [applyTag]
  split
  · cases opened <;> rfl
  · rw [if_pos (by simp)]
    rfl

/-- Tags that close nothing only open styles. -/
theorem foldlM_opening {bodies : List (List Char)} (h : ∀ body ∈ bodies, body.head? ≠ some '/')
    (styles : List (List Char)) : ∃ opened, bodies.foldlM applyTag styles = some (opened ++ styles) := by
  induction bodies generalizing styles with
  | nil => exact ⟨[], rfl⟩
  | cons body bodies ih =>
    rw [List.forall_mem_cons] at h
    obtain ⟨opened, hopened⟩ := ih h.2 (styleName body :: styles)
    refine ⟨opened ++ [styleName body], ?_⟩
    rw [List.foldlM_cons, applyTag_opening h.1, Option.bind_eq_bind, Option.bind_some, hopened, List.append_assoc]
    rfl

theorem opening_of_not_closes (h : ¬ Closes cs) : ∀ body ∈ styleTags cs, body.head? ≠ some '/' :=
  fun body hbody hslash => h ⟨body, hbody, hslash⟩

theorem shows_append_plain {xs ys : List Char} (hx : ¬ Closes xs) (hopen : '[' ∉ ys) (hclose : ']' ∉ ys) :
    Shows (xs ++ ys) := by
  intro styles
  obtain ⟨slashes, htags⟩ := @styleTags_append xs ys (sealed_of_no_close hclose)
  have htail : styleTags (List.replicate slashes '\\' ++ ys) = [] := styleTags_of_no_open (by simp [hopen])
  obtain ⟨opened, hopened⟩ := foldlM_opening (opening_of_not_closes hx) styles
  rw [htags, htail, List.append_nil, hopened]
  rfl

theorem shows_of_no_open (h : '[' ∉ cs) : Shows cs := by
  intro styles
  rw [styleTags_of_no_open h]
  rfl

theorem styleTags_plain_append {xs ys : List Char} (hslash : '\\' ∉ xs) (hopen : '[' ∉ xs) :
    styleTags (xs ++ ys) = styleTags ys := by
  induction xs with
  | nil => rfl
  | cons c xs ih =>
    rw [List.mem_cons, not_or] at hslash hopen
    rw [List.cons_append, styleTags_of_none (tag?_other (Ne.symm hslash.1) (Ne.symm hopen.1)), ih hslash.2 hopen.2]

theorem shows_plain_append {xs ys : List Char} (hslash : '\\' ∉ xs) (hopen : '[' ∉ xs) (hy : Shows ys) :
    Shows (xs ++ ys) := by
  intro styles
  rw [styleTags_plain_append hslash hopen]
  exact hy styles

/-- A text in a style is shown if it closes nothing itself, even if its last backslashes keep the style open. -/
theorem shows_styled {style text : String} {rest : List Char} (hb : IsBody style.toList)
    (hslash : style.toList.head? ≠ some '/') (ht : ¬ Closes text.toList) (hr : Shows rest) :
    Shows ((Log.Message.styled style text).toList ++ rest) := by
  intro styles
  have hclosing : IsBody ('/' :: style.toList) := ⟨rfl, by simp [hb.2.1], by simp [hb.2.2]⟩
  have hwhole : (Log.Message.styled style text).toList ++ rest = List.replicate 0 '\\' ++ '[' :: (style.toList ++ ']' ::
      (text.toList ++ ([] ++ '[' :: ('/' :: style.toList ++ ']' :: rest)))) := by
    simp [Log.Message.styled]
  obtain ⟨slashes, htags⟩ := @styleTags_append text.toList _ (sealed_open List.not_mem_nil
    ('/' :: style.toList ++ ']' :: rest))
  obtain ⟨opened, hopened⟩ := foldlM_opening (opening_of_not_closes ht) (styleName style.toList :: styles)
  rw [hwhole, styleTags_tag hb, style?_even (by decide), htags, List.nil_append, styleTags_tag hclosing,
    Option.toList_some, List.singleton_append, List.foldlM_cons, applyTag_opening hslash]
  change (List.foldlM applyTag (styleName style.toList :: styles) _).isSome = true
  rw [List.foldlM_append, hopened]
  change (List.foldlM applyTag (opened ++ styleName style.toList :: styles) _).isSome = true
  by_cases hodd : slashes % 2 = 1
  · rw [style?_odd hodd]
    exact hr _
  · obtain ⟨closed, hclosed⟩ := Option.isSome_iff_exists.1 (applyTag_closing opened styles style.toList)
    rw [style?_even hodd, Option.toList_some, List.singleton_append, List.foldlM_cons, hclosed]
    exact hr closed

theorem shows_styled_only {style text : String} (hb : IsBody style.toList) (hslash : style.toList.head? ≠ some '/')
    (ht : ¬ Closes text.toList) : Shows (Log.Message.styled style text).toList := by
  rw [← List.append_nil (Log.Message.styled style text).toList]
  exact shows_styled hb hslash ht (shows_of_no_open List.not_mem_nil)

end TestHooks.Markup

namespace TestHooks.Log.Message

open TestHooks.Markup

variable {m : Message}

theorem seen_of_shows (h : Shows m.markup.toList) : m.seen?.isSome = true := by
  rw [seen?, Option.isSome_map, isSome_render?]
  exact h []

/-- An error that names something can be shown if the name closes no style. -/
theorem seen_error {before name after : String} (hslash : '\\' ∉ before.toList) (hopen : '[' ∉ before.toList)
    (hn : ¬ Closes name.toList) (ha : '[' ∉ after.toList) (ha' : ']' ∉ after.toList) :
    (error (before ++ (name ++ after))).seen?.isSome = true := by
  apply seen_of_shows
  rw [error, String.toList_append, String.toList_append, String.toList_append]
  exact shows_plain_append (by decide) (by decide) (shows_plain_append hslash hopen (shows_append_plain hn ha ha'))

theorem seen_error_of_name {before name : String} (hslash : '\\' ∉ before.toList) (hopen : '[' ∉ before.toList)
    (hn : ¬ Closes name.toList) : (error (before ++ name)).seen?.isSome = true := by
  rw [← @String.append_empty name]
  exact seen_error hslash hopen hn (by decide) (by decide)

theorem shows_path {path : String} {rest : List Char} (hpath : ¬ Closes path.toList) (hr : Shows rest) :
    Shows ((styled "path" path).toList ++ rest) :=
  shows_styled (by decide) (by decide) hpath hr

/-- Diagnostics can be shown, whatever they say about whatever file. -/
theorem shown_diagnostic (path : Option String) (d : Diagnostic) : (diagnostic path d).seen?.isSome = true := by
  apply seen_of_shows
  have hescaped (s : String) : ¬ Closes (escape s).toList := by
    rintro ⟨body, hbody, -⟩
    rw [styleTags_escape] at hbody
    cases hbody
  have hbody : Shows (styled d.severity.text (escape d.text)).toList := by
    apply shows_styled_only _ _ (hescaped _)
    · cases d.severity <;> decide
    · cases d.severity <;> decide
  cases path with
  | none => exact hbody
  | some path =>
    rw [diagnostic]
    dsimp only
    rw [String.toList_append, String.toList_append, List.append_assoc]
    exact shows_path (hescaped path) (shows_plain_append (by decide) (by decide) hbody)

end TestHooks.Log.Message
