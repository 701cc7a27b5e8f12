import TestHooks.Proofs.Annotated
import TestHooks.Proofs.SteadyHeaders

/-!
# Reading without registered attributes

When the registered attributes of the types of a file are taken from its tokens, what is left is read as the same
declarations without these attributes (`trimming`). Before a type that begins with a registered attribute another token
comes first then, and what comes before the type must end there, too.
-/

namespace TestHooks.Swift

open TestHooks.Expansion TestHooks.Text

/-! ### Tokens behind other gaps -/

/-- The token with another gap before it. -/
def Token.behind (t : Token) (gap : List Char) : Token := { t with gap := String.ofList gap }

@[simp] theorem Token.behind_kind (t : Token) (gap : List Char) : (t.behind gap).kind = t.kind := rfl

@[simp] theorem Token.behind_text (t : Token) (gap : List Char) : (t.behind gap).text = t.text := rfl

@[simp] theorem Token.behind_behind (t : Token) (gap gap' : List Char) : (t.behind gap).behind gap' = t.behind gap' := rfl

@[simp] theorem Token.behind_self (t : Token) : t.behind t.gap.toList = t := by
  rw [behind, String.ofList_toList]

@[simp] theorem Token.behind_leadsType (t : Token) (gap : List Char) : (t.behind gap).leadsType = t.leadsType := rfl

/-- What stands before a token once the attribute that begins with `t` is gone, where `behind` stood before it. If the
attribute stands on lines of its own, these go with it. -/
def closedGap (t : Token) (behind : List Char) : List Char :=
  if (t.start.offset = t.gap.length ∨ '\n' ∈ t.gap.toList) ∧ '\n' ∈ behind then closeGap t.gap.toList behind
  else t.gap.toList ++ behind.dropWhile isSpaceOrTab

theorem newline_closeGap {before : List Char} (h : '\n' ∈ before) (after : List Char) : '\n' ∈ closeGap before after := by
  obtain ⟨front, hsplit, -, hn⟩ := lastLine_split before
  unfold closeGap
  dsimp only
  split
  · refine List.mem_append_left _ ?_
    have htake : before.take (before.length - (lastLine before).length) = front := by
      have hl := congrArg List.length hsplit
      rw [List.length_append] at hl
      conv => lhs; arg 2; rw [hsplit]
      exact List.take_left' (by omega)
    rw [htake]
    rw [hsplit] at h
    exact (List.mem_append.1 h).resolve_right hn
  · exact List.mem_append_left _ h

theorem newline_closedGap {t : Token} (h : t.newlineBefore = true) (behind : List Char) : '\n' ∈ closedGap t behind := by
  have hgap : '\n' ∈ t.gap.toList := List.contains_iff_mem.1 h
  unfold closedGap
  split
  · exact newline_closeGap hgap behind
  · exact List.mem_append_left _ hgap

/-! ### Tokens without attributes -/

/-- The first tokens without the attributes are the second. The token behind an attribute comes to stand where the
attribute stood. -/
inductive Trimmed : List Token → List Attribute → List Token → Prop
  | nil : Trimmed [] [] []
  | keep {t : Token} {ts us : List Token} {as : List Attribute} (h : Trimmed ts as us) : Trimmed (t :: ts) as (t :: us)
  | drop {t u : Token} {inside after us : List Token} {a : Attribute} {as : List Attribute} (hk : t.kind = .atWord)
    (hs : a.start = t.start) (he : a.stop = (inside.getLast?.getD t).stop) (hu : u.leadsType = true)
    (h : Trimmed after as (u :: us)) :
    Trimmed (t :: (inside ++ after)) (a :: as) (u.behind (closedGap t u.gap.toList) :: us)

namespace Trimmed

theorem refl (ts : List Token) : Trimmed ts [] ts := by
  induction ts with
  | nil => exact .nil
  | cons t ts ih => exact .keep ih

theorem eq {ts us : List Token} (h : Trimmed ts [] us) : us = ts := by
  generalize ha : ([] : List Attribute) = as at h
  induction h with
  | nil => rfl
  | keep _ ih => rw [ih ha]
  | drop => cases ha

theorem append {ts us ts' us' : List Token} {as as' : List Attribute} (h : Trimmed ts as us)
    (h' : Trimmed ts' as' us') : Trimmed (ts ++ ts') (as ++ as') (us ++ us') := by
  induction h with
  | nil => exact h'
  | keep _ ih => exact .keep ih
  | drop hk hs he hu _ ih =>
    rw [List.cons_append, List.append_assoc]
    exact .drop hk hs he hu ih

theorem ne_nil {ts us : List Token} {u : Token} {as : List Attribute} (h : Trimmed ts as (u :: us)) : ts ≠ [] := by
  rintro rfl
  cases h

/-- What follows begins alike, or an attribute gives way. -/
theorem follows {ts us : List Token} {as : List Attribute} (h : Trimmed ts as us) (hn : ts ≠ []) (more more' : List Token) :
    Follows (ts ++ more) (us ++ more') := by
  cases h with
  | nil => exact absurd rfl hn
  | keep => exact follows_cons _ _ _
  | drop hk _ _ hu _ =>
    refine .leading hk hu fun hn => ?_
    rw [Token.newlineBefore, Token.behind, String.toList_ofList, List.contains_iff_mem]
    exact newline_closedGap hn _

end Trimmed

theorem Follows.kind {t u : Token} {ts us : List Token} (h : Follows (t :: ts) (u :: us)) {kind : TokenKind}
    (hk : t.kind ≠ kind) (ha : kind ≠ .atWord) (hi : kind ≠ .identifier) : u.kind ≠ kind := by
  cases h with
  | same ht _ => exact ht.kind ▸ hk
  | leading _ hu _ =>
    rcases kind_of_leading hu with hu | hu <;> rw [hu]
    · exact ha.symm
    · exact hi.symm

/-! ### Attributes that are found -/

/-- The registered attributes of types outside conditional blocks. -/
def marksAmong (registered : String → Bool) (ds : List Decl) : List Attribute :=
  (annotatedAmong registered none ds).map AnnotatedType.mark

section Marks

variable (registered : String → Bool)

mutual

theorem marks_annotatedIn (outer outer' : Option String) (d : Decl) :
    (annotatedIn registered outer d).map AnnotatedType.mark = (annotatedIn registered outer' d).map AnnotatedType.mark := by
  cases d with
  | group head header members =>
    rw [annotatedIn, annotatedIn, List.map_append, List.map_append, annotationsOf, annotationsOf, List.map_map,
      List.map_map, marks_annotatedAmong _ (some (qualify outer' header.name)) members]
    rfl
  | variableList | function | conditional | other => simp [annotatedIn]

/-- The names around types do not matter for their attributes. -/
theorem marks_annotatedAmong (outer outer' : Option String) (ds : List Decl) :
    (annotatedAmong registered outer ds).map AnnotatedType.mark =
      (annotatedAmong registered outer' ds).map AnnotatedType.mark := by
  cases ds with
  | nil => rfl
  | cons d ds =>
    rw [annotatedAmong, annotatedAmong, List.map_append, List.map_append, marks_annotatedIn outer outer' d,
      marks_annotatedAmong outer outer' ds]

end

theorem marksAmong_append (ds es : List Decl) :
    marksAmong registered (ds ++ es) = marksAmong registered ds ++ marksAmong registered es := by
  rw [marksAmong, annotatedAmong_append, List.map_append]
  rfl

theorem marksAmong_group (head : Head) (header : TypeHeader) (ms : List Decl) :
    marksAmong registered [.group head header ms] =
      (head.attributes.filter fun a => registered a.name) ++ marksAmong registered ms := by
  rw [marksAmong, annotatedAmong, annotatedIn, annotatedAmong, List.append_nil, List.map_append, annotationsOf,
    List.map_map, marks_annotatedAmong registered _ none ms]
  congr 1
  exact List.map_id _

theorem marksAmong_flat {strict : Bool} {head : Head} {k : Token} {introducer : Option Introducer} {ts left : List Token}
    {found : Option Decl} (h : (flatDeclaration strict head k introducer).run ts = .ok (found, left)) :
    marksAmong registered found.toList = [] := by
  rcases flatDeclaration_cases h with ⟨_, _, -, -, rfl⟩ | ⟨_, -, -, rfl⟩ | ⟨_, _, -, -, rfl⟩ | ⟨-, -, -, -, rfl, -⟩ <;>
    simp [marksAmong, annotatedAmong, annotatedIn]

end Marks

mutual

theorem annotatedIn_none (outer : Option String) (d : Decl) : annotatedIn (fun _ => false) outer d = [] := by
  cases d with
  | group head header members =>
    rw [annotatedIn, annotationsOf, List.filter_eq_nil_iff.2 fun _ _ => Bool.false_ne_true, List.map_nil, List.nil_append,
      annotatedAmong_none _ members]
  | variableList | function | conditional | other => simp [annotatedIn]

/-- Nothing is found if nothing is registered. -/
theorem annotatedAmong_none (outer : Option String) (ds : List Decl) : annotatedAmong (fun _ => false) outer ds = [] := by
  cases ds with
  | nil => rfl
  | cons d ds => rw [annotatedAmong, annotatedIn_none outer d, annotatedAmong_none outer ds, List.append_nil]

end

/-- The second declarations have the registered attributes of their types no more, and the others as the first ones. -/
def Freed (registered : String → Bool) (ds ds' : List Decl) : Prop :=
  ∀ p : String → Bool, marksAmong p ds' = marksAmong (fun name => p name && !registered name) ds

section Freed

variable {registered : String → Bool} {ds ds' es es' : List Decl}

theorem Freed.append (h : Freed registered ds ds') (h' : Freed registered es es') :
    Freed registered (ds ++ es) (ds' ++ es') := fun p => by
  rw [marksAmong_append, marksAmong_append, h p, h' p]

theorem Freed.nil : Freed registered [] [] := fun _ => rfl

theorem freed_of_unmarked (h : ∀ p, marksAmong p ds = []) (h' : ∀ p, marksAmong p ds' = []) : Freed registered ds ds' :=
  fun p => by rw [h, h']

theorem freed_group {head head' : Head} {header header' : TypeHeader}
    (ha : head'.attributes = head.attributes.filter fun a => !registered a.name) (hm : Freed registered ds ds') :
    Freed registered [.group head header ds] [.group head' header' ds'] := fun p => by
  rw [marksAmong_group, marksAmong_group, ha, hm p, List.filter_filter]

/-- No registered attribute is left. -/
theorem Freed.unmarked (h : Freed registered ds ds') : marksAmong registered ds' = [] := by
  rw [h registered, marksAmong]
  simp only [Bool.and_not_self]
  rw [annotatedAmong_none]
  rfl

/-- If nothing is registered, every attribute is left. -/
theorem Freed.marks (h : Freed (fun _ => false) ds ds') (p : String → Bool) : marksAmong p ds' = marksAmong p ds := by
  simpa only [Bool.not_false, Bool.and_true] using h p

end Freed

/-! ### Heads -/

open TestHooks.Reader Reader

theorem attributeAfter_behind (t : Token) (gap : List Char) : attributeAfter (t.behind gap) = attributeAfter t := by
  refine congrArg (optionally (fun p : Token => p.kind == .leftParen && p.isAttached) (group .rightParen) >>= ·) ?_
  funext arguments
  cases arguments.bind List.getLast? <;> rfl

theorem attributes_behind {t : Token} (ht : t.kind = .atWord) (gap : List Char) (ts : List Token) :
    attributes.run (t.behind gap :: ts) = attributes.run (t :: ts) := by
  change whileNextRun _ _ _ = whileNextRun _ _ _
  rw [whileNextRun_cons, whileNextRun_cons, attributeAfter_behind, Token.behind_kind, if_pos (by rw [ht]; rfl),
    if_pos (by rw [ht]; rfl)]

theorem attributes_skip {t : Token} (ht : t.kind ≠ .atWord) (ts : List Token) :
    attributes.run (t :: ts) = .ok ([], t :: ts) :=
  whileNext_skip (by simpa using ht)

/-- An attribute ends with the last token that it takes. -/
theorem attributeAfter_stop {t : Token} {inside after : List Token} {a : Attribute}
    (h : (attributeAfter t).run (inside ++ after) = .ok (a, after)) :
    a.start = t.start ∧ a.stop = (inside.getLast?.getD t).stop := by
  obtain ⟨-, hstart, hstop⟩ := attributeAfter_cases h
  refine ⟨hstart, ?_⟩
  rcases hstop with ⟨hx, hstop⟩ | ⟨front, last, hx, -, hstop⟩
  · rw [List.append_left_eq_self.1 hx.symm, hstop]
    rfl
  · obtain rfl : inside = front ++ [last] := by
      refine List.append_cancel_right (?_ : inside ++ after = _)
      rw [hx, List.append_assoc]
      rfl
    rw [hstop, List.getLast?_concat]
    rfl

/-- What is left before a word of the attributes that stay. The word stands behind another gap if the last attribute
went. -/
structure AttributesLeft (p : Attribute → Bool) (taken : List Token) (v : Token) (as : List Attribute) (us : List Token)
    (gap : List Char) : Prop where
  trimmed : Trimmed (taken ++ [v]) (as.filter p) (us ++ [v.behind gap])
  begins : ∀ u ∈ us.head?, u.kind = .atWord
  reads : ∀ more, attributes.run (us ++ v.behind gap :: more) = .ok (as.filter (!p ·), v.behind gap :: more)

namespace AttributesLeft

variable {p : Attribute → Bool} {t v : Token} {inside second us : List Token} {a : Attribute} {as : List Attribute}
  {gap : List Char}

theorem none (hv : v.kind ≠ .atWord) : AttributesLeft p [] v [] [] v.gap.toList where
  trimmed := by
    rw [Token.behind_self]
    exact .refl _
  begins := nofun
  reads more := by
    rw [Token.behind_self]
    exact attributes_skip hv more

/-- An attribute goes, and what stands behind it closes up. -/
theorem drop (h : AttributesLeft p second v as us gap) (ht : t.kind = .atWord) (hp : p a = true)
    (hstart : a.start = t.start) (hstop : a.stop = (inside.getLast?.getD t).stop) (hk : v.kind ≠ .atWord)
    (hv : v.leadsType = true) : ∃ us' gap', AttributesLeft p (t :: (inside ++ second)) v (a :: as) us' gap' := by
  cases us with
  | nil =>
    have hnone := (attributes_skip (t := v.behind gap) hk []).symm.trans (h.reads [])
    rw [Except.ok.injEq, Prod.mk.injEq] at hnone
    refine ⟨[], closedGap t (v.behind gap).gap.toList, ?_, nofun, fun more => ?_⟩
    · simp only [List.filter_cons, hp, if_true, List.cons_append, List.append_assoc]
      exact Trimmed.drop (u := v.behind gap) ht hstart hstop hv h.trimmed
    · simp only [List.filter_cons, hp, Bool.not_true, Bool.false_eq_true, if_false, ← hnone.1]
      exact attributes_skip (t := v.behind _) hk more
  | cons w us =>
    have hw := h.begins w rfl
    refine ⟨w.behind (closedGap t w.gap.toList) :: us, gap, ?_, ?_, fun more => ?_⟩
    · simp only [List.filter_cons, hp, if_true, List.cons_append, List.append_assoc]
      exact .drop ht hstart hstop (by simp [Token.leadsType, hw]) h.trimmed
    · intro u hu
      cases hu
      exact hw
    · simp only [List.filter_cons, hp, Bool.not_true, Bool.false_eq_true, if_false]
      rw [List.cons_append, attributes_behind hw]
      exact h.reads more

/-- An attribute stays, and is read before what is left behind it. -/
theorem keep (h : AttributesLeft p second v as us gap) (ht : t.kind = .atWord) (hp : p a = false) {more : List Token}
    (hx : (attributeAfter t).run (inside ++ (second ++ v :: more)) = .ok (a, second ++ v :: more)) :
    AttributesLeft p (t :: (inside ++ second)) v (a :: as) (t :: (inside ++ us)) gap where
  trimmed := by
    simp only [List.filter_cons, hp, Bool.false_eq_true, if_false, List.cons_append, List.append_assoc]
    exact .keep ((Trimmed.refl inside).append h.trimmed)
  begins u hu := by
    cases hu
    exact ht
  reads more' := by
    have hf := h.trimmed.follows (by simp) more more'
    rw [List.append_assoc, List.append_assoc, List.singleton_append, List.singleton_append] at hf
    simp only [List.filter_cons, hp, Bool.not_false, if_true]
    rw [List.cons_append, List.append_assoc]
    exact whileNext_take (by rw [ht]; rfl) (steady_attributeAfter t (P := Anything) hx hf trivial) (h.reads more')

end AttributesLeft

/-- Attributes up to a word without the registered ones. -/
theorem attributes_trimmed (p : Attribute → Bool) {taken more : List Token} {v : Token} {as : List Attribute}
    (hk : v.kind = .identifier) (hv : v.leadsType = true)
    (h : attributes.run (taken ++ v :: more) = .ok (as, v :: more)) : ∃ us gap, AttributesLeft p taken v as us gap := by
  have hword : v.kind ≠ .atWord := by
    rw [hk]
    decide
  induction hn : taken.length using Nat.strongRecOn generalizing taken as with
  | ind n ih =>
    rcases whileNext_cases h with ⟨ht, rfl, hu⟩ | ⟨t, mid, a, after, bs, hu, ht, hx, hw, rfl⟩
    · obtain rfl := eq_nil_of_append hu.symm
      exact ⟨[], _, .none hword⟩
    · obtain ⟨inside, rfl⟩ := (attributeAfter t).suffix hx
      obtain ⟨second, rfl⟩ := (whileNext _ _).suffix hw
      obtain rfl : taken = t :: (inside ++ second) := by
        refine List.append_cancel_right (?_ : taken ++ v :: more = _)
        rw [hu, List.cons_append, List.append_assoc]
      obtain ⟨us, gap, hleft⟩ := ih second.length (by rw [← hn, List.length_cons, List.length_append]; omega) hw rfl
      rw [beq_iff_eq] at ht
      cases hp : p a with
      | true =>
        obtain ⟨hstart, hstop⟩ := attributeAfter_stop hx
        exact hleft.drop ht hp hstart hstop hword hv
      | false => exact ⟨_, gap, hleft.keep ht hp hx⟩

theorem modifierDetail?_of_ne {t : Token} (h : t.kind ≠ .leftParen) (ts : List Token) : modifierDetail? (t :: ts) = none := by
  unfold modifierDetail?
  split
  · next he =>
    cases he
    simp [h]
  · rfl

/-- What belongs to a modifier is told before the keyword `k`. -/
theorem modifierDetail?_steady {first rest : List Token} {k : Token} {ms : List Modifier} (hk : k.kind = .identifier)
    (h : splitModifiers ((first ++ k :: rest).drop (if (modifierDetail? (first ++ k :: rest)).isSome then 3 else 0)) =
      (ms, k :: rest)) :
    (∀ rest', modifierDetail? (first ++ k :: rest') = modifierDetail? (first ++ k :: rest)) ∧
      ((modifierDetail? (first ++ k :: rest)).isSome = true → 3 ≤ first.length) := by
  have hname : k.kind ≠ .leftParen := by
    rw [hk]
    decide
  cases first with
  | nil => simp [modifierDetail?_of_ne hname]
  | cons a first =>
    rw [List.cons_append] at h ⊢
    by_cases ha : a.kind = .leftParen
    · cases hd : modifierDetail? (a :: (first ++ k :: rest)) with
      | none =>
        have hstop : ¬(a.isOneOf modifierWords && (a.text != "class" || modifiesMember (first ++ k :: rest))) = true := by
          simp [Token.isOneOf, ha]
        rw [hd, Option.isSome_none, if_neg Bool.false_ne_true, List.drop_zero, splitModifiers, if_neg hstop] at h
        have hlength := congrArg (List.length ∘ Prod.snd) h
        simp only [Function.comp_apply, List.length_cons, List.length_append] at hlength
        omega
      | some detail =>
        rw [hd, Option.isSome_some, if_pos rfl] at h
        have hs := (splitModifiers_suffix (List.drop 3 (a :: (first ++ k :: rest)))).length_le
        rw [h] at hs
        simp only [List.length_drop, List.length_cons, List.length_append] at hs
        obtain ⟨b, first, rfl⟩ := List.exists_cons_of_length_pos (show 0 < first.length by omega)
        rw [List.length_cons] at hs
        obtain ⟨c, first, rfl⟩ := List.exists_cons_of_length_pos (show 0 < first.length by omega)
        rw [← hd]
        exact ⟨fun _ => rfl, fun _ => by simp⟩
    · simp [modifierDetail?_of_ne ha]

/-- Modifiers are read alike before other tokens, as long as what tells `class` as a modifier stays. -/
theorem splitModifiers_steady {first rest rest' : List Token} {k : Token} {ms : List Modifier}
    (h : splitModifiers (first ++ k :: rest) = (ms, k :: rest)) (hk : first ≠ [] → k.kind = .identifier)
    (hc : k.isOneOf modifierWords = true → k.text = "class" → modifiesMember rest = modifiesMember rest') :
    splitModifiers (first ++ k :: rest') = (ms, k :: rest') := by
  induction hn : first.length using Nat.strongRecOn generalizing first ms with
  | ind n ih =>
    cases first with
    | nil =>
      rw [List.nil_append, splitModifiers] at h ⊢
      split at h
      · exact absurd (congrArg Prod.snd h) (ne_of_suffix ((splitModifiers_suffix _).trans (List.drop_suffix _ _)))
      · next hx =>
        cases h
        have hstop : ¬(k.isOneOf modifierWords && (k.text != "class" || modifiesMember rest')) = true := by
          intro hy
          simp only [Bool.and_eq_true, Bool.or_eq_true, bne_iff_ne] at hx hy
          by_cases hclass : k.text = "class"
          · rw [hc hy.1 hclass] at hx
            exact hx hy
          · exact hx ⟨hy.1, .inl hclass⟩
        rw [if_neg hstop]
    | cons t first =>
      have hident := hk (List.cons_ne_nil _ _)
      have hmember : modifiesMember (first ++ k :: rest) = modifiesMember (first ++ k :: rest') := by
        cases first <;> rfl
      rw [List.cons_append, splitModifiers, hmember] at h
      rw [List.cons_append, splitModifiers]
      split at h
      · next hx =>
        rw [if_pos hx]
        obtain ⟨hms, hleft⟩ := Prod.mk.inj h
        obtain ⟨ns, hsplit⟩ : ∃ ns, splitModifiers ((first ++ k :: rest).drop
            (if (modifierDetail? (first ++ k :: rest)).isSome = true then 3 else 0)) = (ns, k :: rest) :=
          ⟨_, Prod.ext rfl hleft⟩
        obtain ⟨hdetail, hlong⟩ := modifierDetail?_steady hident hsplit
        have hdrop (more : List Token) : (first ++ k :: more).drop
            (if (modifierDetail? (first ++ k :: rest)).isSome = true then 3 else 0) =
              first.drop (if (modifierDetail? (first ++ k :: rest)).isSome = true then 3 else 0) ++ k :: more := by
          refine List.drop_append_of_le_length ?_
          split
          · next hs => exact hlong hs
          · exact Nat.zero_le _
        rw [hdrop] at hsplit
        have hrest := ih _ (by rw [← hn, List.length_drop, List.length_cons]; omega) hsplit (fun _ => hident) rfl
        rw [hdrop, hsplit] at hms
        dsimp only
        rw [hdetail, hdrop, hrest, ← hms]
      · have hlength := congrArg (List.length ∘ Prod.snd) h
        simp only [Function.comp_apply, List.length_cons, List.length_append] at hlength
        omega

/-- The gap before the first modifier or the keyword does not matter. -/
theorem splitModifiers_behind {v k : Token} {more rest : List Token} {ms : List Modifier} (gap : List Char)
    (h : splitModifiers (v :: more) = (ms, k :: rest)) :
    (ms = [] ∧ k = v ∧ rest = more ∧ splitModifiers (v.behind gap :: more) = ([], v.behind gap :: more)) ∨
      k :: rest <:+ more ∧ splitModifiers (v.behind gap :: more) = (ms, k :: rest) := by
  have hsame : (v.behind gap).isOneOf modifierWords = v.isOneOf modifierWords := rfl
  rw [splitModifiers] at h ⊢
  rw [hsame, Token.behind_text]
  split at h
  · next hx =>
    rw [if_pos hx]
    refine .inr ⟨?_, h⟩
    rw [← (Prod.mk.inj h).2]
    exact (splitModifiers_suffix _).trans (List.drop_suffix _ _)
  · next hx =>
    rw [if_neg hx]
    cases h
    exact .inl ⟨rfl, rfl, rfl, rfl⟩

/-- The head of a declaration that is no type is read alike before other tokens. -/
theorem headFrom_steady {strict : Bool} {t k : Token} {front rest left : List Token} {head : Head} {found : Option Decl}
    (hh : (headFrom t).run (front ++ k :: rest) = .ok (head, k :: rest))
    (hi : ∀ keyword, Introducer.ofToken? k ≠ some (.type keyword))
    (hf : (flatDeclaration strict head k (Introducer.ofToken? k)).run rest = .ok (found, left)) (rest' : List Token) :
    (headFrom t).run (front ++ k :: rest') = .ok (head, k :: rest') := by
  obtain ⟨after, ha, hm, hp⟩ := headFrom_cases hh
  have hs := splitModifiers_suffix after
  rw [hm] at hs
  obtain ⟨taken, first, rfl, rfl⟩ := split_of_suffix hs (attributes.suffix ha)
  have hclass : k.isOneOf modifierWords = true → k.text ≠ "class" := by
    intro hx ht
    rw [Token.isOneOf, Bool.and_eq_true, beq_iff_eq] at hx
    exact hi .classType (introducer_type hx.1 ht)
  have hword : first ≠ [] → k.kind = .identifier := by
    intro hn
    by_contra hk
    have hnone : Introducer.ofToken? k = none := by
      rw [Introducer.ofToken?, if_pos (by simpa using hk)]
    rw [hnone] at hf
    rcases flatDeclaration_cases hf with ⟨_, _, hx, -⟩ | ⟨_, hx, -⟩ | ⟨_, _, hx, -⟩ | ⟨-, -, -, hmods, -⟩
    · cases hx
    · cases hx
    · cases hx
    · rw [hmods] at hm
      cases first with
      | nil => exact hn rfl
      | cons v first =>
        rw [List.cons_append, splitModifiers] at hm
        split at hm
        · cases hm
        · have hlength := congrArg (List.length ∘ Prod.snd) hm
          simp only [Function.comp_apply, List.length_cons, List.length_append] at hlength
          omega
  have hmodifiers : splitModifiers (first ++ k :: rest') = (head.modifiers, k :: rest') :=
    splitModifiers_steady hm hword fun hx ht => absurd ht (hclass hx)
  rw [List.append_assoc] at ha ⊢
  have hf : Follows (first ++ k :: rest) (first ++ k :: rest') := (follows_cons k rest rest').append first
  refine run_bind_eq_ok.2 ⟨head.attributes, first ++ k :: rest', steady_attributes (P := Anything) ha hf trivial,
    run_bind_eq_ok.2 ⟨head.modifiers, k :: rest', ?_, ?_⟩⟩
  · exact congrArg Except.ok hmodifiers
  · rw [← hp]
    rfl

theorem word_of_type {k : Token} {keyword : TypeKeyword} (h : Introducer.ofToken? k = some (.type keyword)) :
    k.kind = .identifier ∧ k.leadsType = true := by
  rw [Introducer.ofToken?] at h
  split at h
  · cases h
  · next hk =>
    rw [bne_iff_ne, ne_eq, not_not] at hk
    refine ⟨hk, ?_⟩
    split at h
    · next hfound =>
      have hmem := List.mem_of_find?_eq_some hfound
      have htext := List.find?_some hfound
      rw [beq_iff_eq] at htext
      have hcontains : (TypeKeyword.all.map TypeKeyword.text).contains k.text = true :=
        List.contains_iff_mem.2 (htext ▸ List.mem_map_of_mem hmem)
      rw [Token.leadsType, Token.isOneOf, Token.isOneOf, hk, hcontains]
      simp
    · cases h
    · split at h
      · cases h
      · split at h <;> cases h

/-- The head of a type without its registered attributes, up to the keyword `k'`. -/
theorem headFrom_trimmed (registered : String → Bool) {t k : Token} {ts rest : List Token} {head : Head}
    {keyword : TypeKeyword} (hh : (headFrom t).run ts = .ok (head, k :: rest))
    (hi : Introducer.ofToken? k = some (.type keyword)) :
    ∃ front us k', ts = front ++ k :: rest ∧
      Trimmed (front ++ [k]) (head.attributes.filter fun a => registered a.name) (us ++ [k']) ∧
      Introducer.ofToken? k' = some (.type keyword) ∧ ∀ u rest', modifiesMember rest = modifiesMember rest' →
        ∃ head', (headFrom u).run (us ++ k' :: rest') = .ok (head', k' :: rest') ∧
          head'.attributes = head.attributes.filter fun a => !registered a.name := by
  obtain ⟨after, ha, hm, -⟩ := headFrom_cases hh
  obtain ⟨hk, hleads⟩ := word_of_type hi
  obtain ⟨first, rfl⟩ : k :: rest <:+ after := by
    have hs := splitModifiers_suffix after
    rwa [hm] at hs
  obtain ⟨taken, rfl⟩ := attributes.suffix ha
  have hmodifiers (rest' : List Token) (hr : modifiesMember rest = modifiesMember rest') :
      splitModifiers (first ++ k :: rest') = (head.modifiers, k :: rest') :=
    splitModifiers_steady hm (fun _ => hk) fun _ _ => hr
  cases first with
  | nil =>
    obtain ⟨us, gap, htrim, -, hrun⟩ := attributes_trimmed (fun a => registered a.name) hk hleads ha
    refine ⟨taken, us, k.behind gap, rfl, htrim, hi, fun u rest' hr => ?_⟩
    rcases splitModifiers_behind gap (hmodifiers rest' hr) with ⟨-, -, -, hb⟩ | ⟨hs, -⟩
    · exact ⟨⟨_, [], u.position⟩, run_bind_eq_ok.2 ⟨_, _, hrun rest', run_bind_eq_ok.2 ⟨_, _, congrArg Except.ok hb, rfl⟩⟩,
        rfl⟩
    · exact absurd rfl (ne_of_suffix hs)
  | cons v first =>
    have hv : v.isOneOf modifierWords = true := by
      rw [List.cons_append, splitModifiers] at hm
      split at hm
      · next hx =>
        rw [Bool.and_eq_true] at hx
        exact hx.1
      · have hlength := congrArg (List.length ∘ Prod.snd) hm
        simp only [Function.comp_apply, List.length_cons, List.length_append] at hlength
        omega
    have hword : v.kind = .identifier := by
      rw [Token.isOneOf, Bool.and_eq_true, beq_iff_eq] at hv
      exact hv.1
    obtain ⟨us, gap, htrim, -, hrun⟩ := attributes_trimmed (fun a => registered a.name) hword
      (by rw [Token.leadsType, hv, Bool.or_true, Bool.true_or]) ha
    refine ⟨taken ++ v :: first, us ++ v.behind gap :: first, k, by simp, ?_, hi, fun u rest' hr => ?_⟩
    · simpa using htrim.append (Trimmed.refl (first ++ [k]))
    · rcases splitModifiers_behind gap (hmodifiers rest' hr) with ⟨-, -, hx, -⟩ | ⟨-, hb⟩
      · have hlength : rest'.length = (first ++ k :: rest').length := congrArg List.length hx
        rw [List.length_append, List.length_cons] at hlength
        omega
      · have hattributes := hrun (first ++ k :: rest')
        rw [List.append_assoc, List.cons_append]
        exact ⟨⟨_, _, u.position⟩, run_bind_eq_ok.2 ⟨_, _, hattributes, run_bind_eq_ok.2 ⟨_, _, congrArg Except.ok hb, rfl⟩⟩,
          rfl⟩

/-! ### Whole declarations -/

/-- What may follow a declaration instead. Anything may follow a type, which ends with its brace. -/
def MayFollow (found : Option Decl) (left left' : List Token) : Prop :=
  Follows left left' ∨ ∃ head header ms, found = some (.group head header ms)

theorem marksAmong_conditional (registered : String → Bool) (position : Position) (cs : List Clause) :
    marksAmong registered [.conditional position cs] = [] := by
  simp [marksAmong, annotatedAmong, annotatedIn]

theorem marksAmong_other (registered : String → Bool) (head : Head) (keyword name : String) :
    marksAmong registered [.other head keyword name] = [] := by
  simp [marksAmong, annotatedAmong, annotatedIn]

theorem follows_of_flat {strict : Bool} {head : Head} {k : Token} {introducer : Option Introducer}
    {ts left left₁ left₂ : List Token} {found : Option Decl}
    (h : (flatDeclaration strict head k introducer).run ts = .ok (found, left)) (hf : MayFollow found left₁ left₂) :
    Follows left₁ left₂ := by
  refine hf.resolve_right ?_
  rintro ⟨head', header, ms, rfl⟩
  rcases flatDeclaration_cases h with ⟨_, _, -, -, hx⟩ | ⟨_, -, -, hx⟩ | ⟨_, _, -, -, hx⟩ | ⟨-, -, -, -, hx, -⟩ <;> cases hx

section Declarations

variable {strict : Bool} {t k : Token} {ts rest inside left : List Token} {head : Head}

theorem group_trimmed (registered : String → Bool) {keyword : TypeKeyword} {header : TypeHeader} {ms : List Decl}
    (hk : t.kind ≠ .hashWord) (hh : (headFrom t).run (t :: ts) = .ok (head, k :: rest))
    (hi : Introducer.ofToken? k = some (.type keyword)) (ht : (typeHeader keyword).run rest = .ok (header, inside))
    (hm : ∃ used u us, inside = used ++ left ∧ Trimmed used (marksAmong registered ms) (u :: us) ∧
      ∀ left', ∃ ms', membersRun (u :: us ++ left') = .ok (ms', left') ∧ Freed registered ms ms') :
    ∃ used u us, t :: ts = used ++ left ∧
      Trimmed used (marksAmong registered [.group head header ms]) (u :: us) ∧ ∀ left', ∃ head' ms',
        declarationRun strict u (us ++ left') = .ok (some (.group head' header ms'), left') ∧
          Freed registered [.group head header ms] [.group head' header ms'] := by
  obtain ⟨used, u, us, rfl, htrim, hmembers⟩ := hm
  obtain ⟨front, vs, k', hts, hfront, hi', hhead⟩ := headFrom_trimmed registered hh hi
  obtain ⟨named, rfl⟩ := (typeHeader keyword).suffix ht
  obtain ⟨n, named, rfl⟩ : ∃ n more, named = n :: more := by
    refine List.exists_cons_of_ne_nil ?_
    rintro rfl
    have := strict_typeHeader keyword ht
    rw [List.nil_append] at this
    exact Nat.lt_irrefl _ this
  obtain ⟨v, vs', hv⟩ := List.exists_cons_of_ne_nil (show vs ++ [k'] ≠ [] by simp)
  have hwhole := (hfront.append (Trimmed.refl (n :: named))).append htrim
  rw [hv, List.append_nil, ← marksAmong_group registered head header] at hwhole
  refine ⟨_, v, _, ?_, hwhole, fun left' => ?_⟩
  · rw [hts]
    simp
  · obtain ⟨ms', hms', hfreed⟩ := hmembers left'
    have hmember : modifiesMember (n :: named ++ (used ++ left)) = modifiesMember (n :: named ++ (u :: us ++ left')) := rfl
    obtain ⟨head', hrun, hmarks⟩ := hhead v _ hmember
    have hheader := steady_typeHeader keyword (P := Anything) ht (htrim.follows htrim.ne_nil left left') trivial
    have hkind : v.kind ≠ .hashWord := by
      have hf := hfront.follows (by simp) (n :: named ++ (used ++ left)) []
      rw [List.append_assoc, List.singleton_append, ← hts, hv] at hf
      exact hf.kind hk (by decide) (by decide)
    refine ⟨head', ms', ?_, freed_group hmarks hfreed⟩
    · have htokens : v :: (vs' ++ (n :: named) ++ u :: us ++ left') = vs ++ k' :: (n :: named ++ (u :: us ++ left')) := by
        have := congrArg (· ++ (n :: named ++ (u :: us ++ left'))) hv
        simpa using this.symm
      refine declarationRun_group hkind ?_ hi' hheader hms'
      exact (congrArg (headFrom v).run htokens).trans hrun

theorem flat_trimmed (registered : String → Bool) {found : Option Decl} (hk : t.kind ≠ .hashWord)
    (hh : (headFrom t).run (t :: ts) = .ok (head, k :: rest)) (hi : ∀ keyword, Introducer.ofToken? k ≠ some (.type keyword))
    (hf : (flatDeclaration strict head k (Introducer.ofToken? k)).run rest = .ok (found, left)) :
    ∃ used u us, t :: ts = used ++ left ∧ Trimmed used (marksAmong registered found.toList) (u :: us) ∧
      ∀ left', MayFollow found left left' → ∃ found', declarationRun strict u (us ++ left') = .ok (found', left') ∧
        Freed registered found.toList found'.toList := by
  have hnone (p : String → Bool) := marksAmong_flat p hf
  obtain ⟨used, rfl⟩ := (flatDeclaration strict head k _).suffix hf
  obtain ⟨front, hfront⟩ := (headFrom t).suffix hh
  obtain ⟨us, hus⟩ : ∃ us, front ++ k :: used = t :: us := by
    cases front with
    | nil =>
      cases hfront
      exact ⟨_, rfl⟩
    | cons v front =>
      cases hfront
      exact ⟨_, rfl⟩
  refine ⟨front ++ k :: used, t, us, by rw [← hfront]; simp, ?_, fun left' hleft => ?_⟩
  · rw [hnone, hus]
    exact .refl _
  · rw [← hfront] at hh
    have hhead := headFrom_steady hh hi hf (used ++ left')
    have hflat := steady_flatDeclaration strict head k _ (P := Anything) hf (follows_of_flat hf hleft) trivial
    refine ⟨found, declarationRun_flat hk (k := k) ?_ hi hflat, freed_of_unmarked hnone hnone⟩
    rw [← hhead]
    refine congrArg (headFrom t).run ?_
    rw [← List.cons_append, ← hus, List.append_assoc]
    rfl

end Declarations

/-- What is read of a file is read again without its registered attributes. -/
def trimmingInvariant : ReadingInvariant where
  declared strict t ts found left := ∀ registered, ∃ used u us, t :: ts = used ++ left ∧
    Trimmed used (marksAmong registered found.toList) (u :: us) ∧ ∀ left', MayFollow found left left' →
      ∃ found', declarationRun strict u (us ++ left') = .ok (found', left') ∧ Freed registered found.toList found'.toList
  listed ts found left := ∀ registered, ∃ used u us, ts = used ++ left ∧
    Trimmed used (marksAmong registered found) (u :: us) ∧
      ∀ left', ∃ found', membersRun (u :: us ++ left') = .ok (found', left') ∧ Freed registered found found'
  divided strict start mark keyword ts _ left := ∃ used, ts = used ++ left ∧
    ∀ left', ∃ found', clausesRun strict start mark keyword (used ++ left') = .ok (found', left')
  enclosed strict start ts _ m left := ∃ u us, ts = u :: us ++ left ∧
    ∀ left', ∃ found', clauseMembersRun strict start (u :: us ++ left') = .ok ((found', m), left')
  conditional {strict t ts cs left} hk ht _ h := by
    obtain ⟨used, rfl, h⟩ := h
    intro registered
    refine ⟨t :: used, t, used, rfl, ?_, fun left' _ => ?_⟩
    · rw [Option.toList_some, marksAmong_conditional]
      exact .refl _
    · obtain ⟨found', hf⟩ := h left'
      exact ⟨_, declarationRun_conditional hk ht hf,
        freed_of_unmarked (marksAmong_conditional · _ _) (marksAmong_conditional · _ _)⟩
  directive {strict t ts left} hk ht h := by
    obtain ⟨used, rfl⟩ := (directive t).suffix h
    intro registered
    refine ⟨t :: used, t, used, rfl, ?_, fun left' hleft => ?_⟩
    · rw [Option.toList_some, marksAmong_other]
      exact .refl _
    · have hf : Follows left left' := hleft.resolve_right (by rintro ⟨_, _, _, hx⟩; cases hx)
      exact ⟨_, declarationRun_directive hk ht (steady_directive t (P := Anything) h hf trivial),
        freed_of_unmarked (marksAmong_other · _ _ _) (marksAmong_other · _ _ _)⟩
  group {strict t ts head k rest keyword header inside ms left} hk hh hi ht _ hm := by
    intro registered
    obtain ⟨used, u, us, hts, htrim, h⟩ := @group_trimmed strict _ _ _ _ _ _ _ registered _ _ _ hk hh hi ht (hm registered)
    refine ⟨used, u, us, hts, htrim, fun left' _ => ?_⟩
    obtain ⟨head', ms', hrun, hfreed⟩ := h left'
    exact ⟨_, hrun, hfreed⟩
  flat hk hh hi hf := fun registered => flat_trimmed registered hk hh hi hf
  close {t rest} hk := fun registered =>
    ⟨[t], t, [], rfl, .refl _, fun left' => ⟨[], membersRun_close hk, .nil⟩⟩
  semicolon {t rest ms left} hk h := by
    intro registered
    obtain ⟨used, u, us, rfl, htrim, h⟩ := h registered
    refine ⟨t :: used, t, u :: us, rfl, .keep htrim, fun left' => ?_⟩
    rw [List.cons_append, membersRun_semicolon hk]
    exact h left'
  member {t rest first after others left} hb hs _ hd _ hm := by
    intro registered
    obtain ⟨used, u, us, hused, htrim, hfirst⟩ := hd registered
    obtain ⟨used', v, vs, rfl, htrim', hothers⟩ := hm registered
    have hf : Follows (t :: rest) (u :: us) := by
      have := htrim.follows htrim.ne_nil (used' ++ left) []
      rwa [← hused, List.append_nil] at this
    refine ⟨used ++ used', u, us ++ (v :: vs), by rw [hused, List.append_assoc], ?_, fun left' => ?_⟩
    · rw [marksAmong_append]
      exact htrim.append htrim'
    · obtain ⟨first', hrun, hfreed⟩ := hfirst (v :: vs ++ left') (.inl (htrim'.follows htrim'.ne_nil left left'))
      obtain ⟨others', hrun', hfreed'⟩ := hothers left'
      refine ⟨first'.toList ++ others', ?_, hfreed.append hfreed'⟩
      rw [List.cons_append, List.append_assoc]
      exact membersRun_member (hf.kind hb (by decide) (by decide)) (hf.kind hs (by decide) (by decide)) hrun hrun'
  finish {strict start mark keyword ts condition inside ms t left} hc _ hm := by
    obtain ⟨named, rfl⟩ := (clauseCondition keyword mark).suffix hc
    obtain ⟨u, us, rfl, h⟩ := hm
    refine ⟨named ++ u :: us, by simp, fun left' => ?_⟩
    obtain ⟨found', hrun⟩ := h left'
    have hcondition := steady_clauseCondition keyword mark (P := Anything) hc (follows_cons u _ (us ++ left')) trivial
    rw [List.append_assoc]
    exact ⟨_, clausesRun_finish hcondition hrun⟩
  next {strict start mark keyword ts condition inside ms t keyword' after others left} hc _ hm _ ho := by
    obtain ⟨named, rfl⟩ := (clauseCondition keyword mark).suffix hc
    obtain ⟨u, us, rfl, h⟩ := hm
    obtain ⟨used, rfl, h'⟩ := ho
    refine ⟨named ++ u :: us ++ used, by simp, fun left' => ?_⟩
    obtain ⟨found', hrun⟩ := h (used ++ left')
    obtain ⟨others', hrun'⟩ := h' left'
    have hcondition := steady_clauseCondition keyword mark (P := Anything) hc (follows_cons u _ (us ++ (used ++ left')))
      trivial
    rw [List.append_assoc, List.append_assoc]
    exact ⟨_, clausesRun_next hcondition hrun hrun'⟩
  mark {strict start t rest m} hm := ⟨t, [], rfl, fun left' => ⟨[], clauseMembersRun_mark hm⟩⟩
  separator {strict start t rest ms m left} hm hk h := by
    obtain ⟨u, us, rfl, h⟩ := h
    refine ⟨t, u :: us, rfl, fun left' => ?_⟩
    rw [List.cons_append, clauseMembersRun_semicolon hm hk]
    exact h left'
  enclosedMember {strict start t rest first after others m left} hm hs hb _ hd _ ho := by
    -- Nothing is taken from conditional blocks.
    obtain ⟨used, u, us, hused, htrim, hfirst⟩ := hd fun _ => false
    obtain ⟨v, vs, rfl, hothers⟩ := ho
    rw [marksAmong, annotatedAmong_none] at htrim
    have hsame := htrim.eq
    rw [← hsame] at hused
    obtain ⟨rfl, hrest⟩ := List.cons.inj hused
    refine ⟨t, us ++ v :: vs, by rw [hrest]; simp, fun left' => ?_⟩
    obtain ⟨first', hrun, -⟩ := hfirst (v :: vs ++ left') (.inl (follows_cons v _ _))
    obtain ⟨others', hrun'⟩ := hothers left'
    refine ⟨first'.toList ++ others', ?_⟩
    rw [List.cons_append, List.append_assoc]
    exact clauseMembersRun_member hm hs hb hrun hrun'

/-! ### The top of a file -/

/-- Reading the top of a file comes from the first tokens to the second and has found the declarations by then. -/
inductive Reaches : List Token → List Decl → List Token → Prop
  | here {ts : List Token} : Reaches ts [] ts
  | semicolon {t : Token} {rest left : List Token} {ds : List Decl} (hk : t.kind = .semicolon)
    (h : Reaches rest ds left) : Reaches (t :: rest) ds left
  | declaration {t : Token} {rest after left : List Token} {first : Option Decl} {ds : List Decl}
    (hs : t.kind ≠ .semicolon) (hb : t.kind ≠ .rightBrace) (hd : declarationRun false t rest = .ok (first, after))
    (h : Reaches after ds left) : Reaches (t :: rest) (first.toList ++ ds) left

theorem Reaches.topLevel {ts left : List Token} {ds es : List Decl} (h : Reaches ts ds left)
    (hl : topLevel left = .ok es) : Swift.topLevel ts = .ok (ds ++ es) := by
  induction h with
  | here => exact hl
  | semicolon hk _ ih =>
    rw [topLevel_semicolon hk]
    exact ih hl
  | declaration hs hb hd _ ih =>
    rw [topLevel_declaration hs hb hd, ih hl, List.append_assoc]
    rfl

theorem Trimmed.followed {ts us left left' : List Token} {as : List Attribute} (h : Trimmed ts as us)
    (hf : Follows left left') : Follows (ts ++ left) (us ++ left') := by
  by_cases hn : ts = []
  · subst hn
    cases h
    exact hf
  · exact h.follows hn left left'

/-- What comes before some token at the top of a file is read again without its registered attributes, also when other
tokens follow or none. -/
theorem trimming (registered : String → Bool) {ts left : List Token} {ds : List Decl} (h : Reaches ts ds left) :
    ∃ used us, ts = used ++ left ∧ Trimmed used (marksAmong registered ds) us ∧
      ∀ left', Follows left left' → ∃ ds', Reaches (us ++ left') ds' left' ∧ Freed registered ds ds' := by
  induction h with
  | here => exact ⟨[], [], rfl, .nil, fun left' _ => ⟨[], .here, .nil⟩⟩
  | @semicolon t rest left ds hk _ ih =>
    obtain ⟨used, us, rfl, htrim, h⟩ := ih
    refine ⟨t :: used, t :: us, rfl, .keep htrim, fun left' hf => ?_⟩
    obtain ⟨ds', hr, hfreed⟩ := h left' hf
    exact ⟨ds', .semicolon hk hr, hfreed⟩
  | @declaration t rest after left first ds hs hb hd _ ih =>
    obtain ⟨used', vs, rfl, htrim', h⟩ := ih
    obtain ⟨used, u, us, hused, htrim, hfirst⟩ := trimmingInvariant.declared_of_run hd registered
    have hkind : Follows (t :: rest) (u :: us) := by
      have := htrim.follows htrim.ne_nil (used' ++ left) []
      rwa [← hused, List.append_nil] at this
    refine ⟨used ++ used', u :: us ++ vs, by rw [hused, List.append_assoc], ?_, fun left' hf => ?_⟩
    · rw [marksAmong_append]
      exact htrim.append htrim'
    · obtain ⟨ds', hr, hfreed⟩ := h left' hf
      obtain ⟨first', hrun, hfreed'⟩ := hfirst (vs ++ left') (.inl (htrim'.followed hf))
      refine ⟨first'.toList ++ ds', ?_, hfreed'.append hfreed⟩
      rw [List.append_assoc]
      exact .declaration (hkind.kind hs (by decide) (by decide)) (hkind.kind hb (by decide) (by decide)) hrun hr

/-- An extension without registered attributes is read alike before anything else. -/
theorem extension_reaches (registered : String → Bool) {t : Token} {ts inside : List Token} {header : TypeHeader}
    {ms : List Decl} (hk : t.kind = .identifier) (ht : t.text = "extension")
    (hh : (typeHeader .extensionType).run ts = .ok (header, inside)) (hm : membersRun inside = .ok (ms, []))
    (hn : marksAmong registered ms = []) (left : List Token) :
    ∃ ds, Reaches (t :: (ts ++ left)) ds left ∧ marksAmong registered ds = [] := by
  obtain ⟨used, u, us, hused, htrim, hmembers⟩ := trimmingInvariant.listed_of_run hm registered
  rw [List.append_nil] at hused
  rw [hn] at htrim
  have hsame := htrim.eq
  rw [hused, ← hsame] at hh
  obtain ⟨named, rfl⟩ := (typeHeader .extensionType).suffix hh
  obtain ⟨ms', hrun, hfreed⟩ := hmembers left
  have hheader := steady_typeHeader .extensionType (P := Anything) hh (follows_cons u us (us ++ left)) trivial
  have hi : Introducer.ofToken? t = some (.type .extensionType) := introducer_type hk ht
  have hword : t.kind ≠ .hashWord ∧ t.kind ≠ .semicolon ∧ t.kind ≠ .rightBrace := by
    rw [hk]
    decide
  have hhead := headFrom_word hk (by rw [ht]; decide) (named ++ u :: us ++ left)
  rw [List.append_assoc] at hhead ⊢
  refine ⟨_, .declaration hword.2.1 hword.2.2 (declarationRun_group hword.1 hhead hi hheader hrun) .here, ?_⟩
  rw [List.append_nil, Option.toList_some, marksAmong_group, hfreed.unmarked]
  rfl

end TestHooks.Swift
