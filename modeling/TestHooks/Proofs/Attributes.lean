import TestHooks.Proofs.Lexing
import TestHooks.Proofs.Reading
import TestHooks.Proofs.Removal

/-!
# Where attributes stand

The attributes that the declarations of a file keep are read one after another from its tokens. Therefore they
stand in the text in the order of the tree and never overlap.
-/

namespace TestHooks.Swift

open TestHooks.Reader TestHooks.Text Reader

/-! ### The attributes of a tree -/

mutual

/-- Every attribute in a declaration, conditional blocks included. -/
def attributesOf : Decl → List Attribute
  | .group head _ members => head.attributes ++ attributesAmong members
  | .variableList head _ _ => head.attributes
  | .function head _ => head.attributes
  | .conditional _ clauses => attributesOfClauses clauses
  | .other head _ _ => head.attributes

def attributesAmong : List Decl → List Attribute
  | [] => []
  | d :: ds => attributesOf d ++ attributesAmong ds

def attributesOfClauses : List Clause → List Attribute
  | [] => []
  | .mk _ _ members :: cs => attributesAmong members ++ attributesOfClauses cs

end

theorem attributesAmong_append (ds es : List Decl) :
    attributesAmong (ds ++ es) = attributesAmong ds ++ attributesAmong es := by
  induction ds with
  | nil => rfl
  | cons d ds ih => rw [List.cons_append, attributesAmong, attributesAmong, ih, List.append_assoc]

/-! ### Attributes among tokens -/

/-- The attributes are read one after another from the tokens. Something follows each of them, and `rest` follows
the last. -/
inductive AttributesIn : List Token → List Attribute → List Token → Prop
  | done {ts rest : List Token} (hs : rest <:+ ts) : AttributesIn ts [] rest
  | next {ts more after rest : List Token} {t : Token} {a : Attribute} {as : List Attribute} (hs : t :: more <:+ ts)
    (hk : t.kind = .atWord) (hr : (attributeAfter t).run more = .ok (a, after)) (hn : after ≠ [])
    (ha : AttributesIn after as rest) : AttributesIn ts (a :: as) rest

namespace AttributesIn

theorem of_suffix {ts us rest : List Token} {as : List Attribute} (h : AttributesIn ts as rest) (hs : ts <:+ us) :
    AttributesIn us as rest := by
  cases h with
  | done hr => exact .done (hr.trans hs)
  | next hr hk ha hn h => exact .next (hr.trans hs) hk ha hn h

theorem append {ts middle rest : List Token} {as bs : List Attribute} (h : AttributesIn ts as middle)
    (h' : AttributesIn middle bs rest) : AttributesIn ts (as ++ bs) rest := by
  induction h with
  | done hs => exact h'.of_suffix hs
  | next hs hk hr hn _ ih => exact .next hs hk hr hn (ih h')

theorem leaving {ts rest left : List Token} {as : List Attribute} (h : AttributesIn ts as rest)
    (hs : left <:+ rest) : AttributesIn ts as left := by
  rw [← List.append_nil as]
  exact h.append (.done hs)

theorem of_attributes {ts left : List Token} {t : Token} {as : List Attribute}
    (h : attributes.run ts = .ok (as, t :: left)) : AttributesIn ts as (t :: left) := by
  change whileNextRun _ _ ts = _ at h
  generalize hr : t :: left = rest at h
  fun_induction whileNextRun (fun t : Token => t.kind == .atWord) attributeAfter ts generalizing as with
  | case1 =>
    cases h
    cases hr
  | case2 u us hk a after ha bs left' hw ih =>
    cases h
    subst hr
    have hb := ih hw
    refine .next (List.suffix_refl _) (by simpa using hk) ha ?_ hb
    rintro rfl
    rw [whileNextRun] at hw
    cases hw
  | case3 => cases h
  | case4 => cases h
  | case5 =>
    cases h
    exact .done (List.suffix_refl _)

theorem of_headFrom {ts left : List Token} {t k : Token} {head : Head}
    (h : (headFrom t).run ts = .ok (head, k :: left)) : AttributesIn ts head.attributes (k :: left) := by
  obtain ⟨after, ha, hm, -⟩ := headFrom_cases h
  have hs : k :: left <:+ after := by
    have := splitModifiers_suffix after
    rwa [hm] at this
  obtain ⟨u, us, rfl⟩ := List.exists_cons_of_ne_nil (List.ne_nil_of_mem (hs.subset (List.mem_cons_self)))
  exact (of_attributes ha).leaving hs

theorem of_flatDeclaration {strict : Bool} {head : Head} {t : Token} {introducer : Option Introducer}
    {ts left : List Token} {found : Option Decl}
    (h : (flatDeclaration strict head t introducer).run ts = .ok (found, left)) :
    attributesAmong found.toList = head.attributes := by
  rcases flatDeclaration_cases h with ⟨_, _, -, -, rfl⟩ | ⟨_, -, -, rfl⟩ | ⟨_, _, -, -, rfl⟩ |
    ⟨-, -, ha, -, rfl, -⟩
  · simp [attributesAmong, attributesOf]
  · simp [attributesAmong, attributesOf]
  · simp [attributesAmong, attributesOf]
  · rw [ha]
    rfl

end AttributesIn

/-- The attributes of what is read stand among the tokens it is read from. -/
def attributesInvariant : ReadingInvariant where
  declared _ t ts found left := AttributesIn (t :: ts) (attributesAmong found.toList) left
  listed ts found left := AttributesIn ts (attributesAmong found) left
  divided _ _ _ _ ts found left := AttributesIn ts (attributesOfClauses found) left
  enclosed _ _ ts found _ left := AttributesIn ts (attributesAmong found) left
  conditional {_ t _ cs _} _ _ _ h := by
    have hc : attributesAmong (some (Decl.conditional t.position cs)).toList = attributesOfClauses cs := by
      simp [attributesAmong, attributesOf]
    rw [hc]
    exact h.of_suffix (List.suffix_cons _ _)
  directive _ _ h := .done (((directive _).suffix h).trans (List.suffix_cons _ _))
  group {_ t _ head _ _ keyword header _ ms _} _ hh _ ht _ hm := by
    have hc : attributesAmong (some (Decl.group head header ms)).toList = head.attributes ++ attributesAmong ms := by
      simp [attributesAmong, attributesOf]
    rw [hc]
    have hs := (typeHeader keyword).suffix ht
    exact ((AttributesIn.of_headFrom hh).leaving (hs.trans (List.suffix_cons _ _))).append hm
  flat {strict t _ head k _ _ _} _ hh _ hf := by
    rw [AttributesIn.of_flatDeclaration hf]
    have hs := (flatDeclaration strict head k _).suffix hf
    exact (AttributesIn.of_headFrom hh).leaving (hs.trans (List.suffix_cons _ _))
  close _ := .done (List.suffix_cons _ _)
  semicolon _ h := h.of_suffix (List.suffix_cons _ _)
  member _ _ _ hd _ hm := by
    rw [attributesAmong_append]
    exact hd.append hm
  finish {_ _ mark keyword _ _ _ ms _ _} hc _ hm := by
    simp only [attributesOfClauses, List.append_nil]
    exact hm.of_suffix ((clauseCondition keyword mark).suffix hc)
  next {_ _ mark keyword _ _ _ _ _ _ _ _ _} hc _ hm _ ho := by
    rw [attributesOfClauses]
    exact (hm.of_suffix ((clauseCondition keyword mark).suffix hc)).append ho
  mark _ := .done (List.suffix_cons _ _)
  separator _ _ h := h.of_suffix (List.suffix_cons _ _)
  enclosedMember _ _ _ _ hd _ ho := by
    rw [attributesAmong_append]
    exact hd.append ho

theorem attributes_topLevel {ts : List Token} {found : List Decl} (h : topLevel ts = .ok found) :
    AttributesIn ts (attributesAmong found) [] := by
  rcases topLevel_cases h with ⟨rfl, rfl⟩ | ⟨t, rest, hts, ⟨hk, hr⟩ | ⟨hs, hb, first, after, others, hd, ho, rfl⟩⟩
  · exact .done (List.suffix_refl _)
  · rw [hts]
    exact (attributes_topLevel hr).of_suffix (List.suffix_cons _ _)
  · rw [hts, attributesAmong_append]
    exact (attributesInvariant.declared_of_run hd).append (attributes_topLevel ho)
termination_by ts.length
decreasing_by
  · rw [hts, List.length_cons]
    omega
  · have := (declarationRun_suffix hd).length_le
    rw [hts, List.length_cons]
    omega

/-! ### Attributes in the text -/

theorem splitGroup_last {opener closer : TokenKind} {depth : Nat} {ts group rest : List Token}
    (h : splitGroup opener closer depth ts = some (group, rest)) :
    ∃ inside last, group = inside ++ [last] ∧ last.kind = closer := by
  induction ts generalizing depth group with
  | nil => cases h
  | cons t ts ih =>
    have step : ∀ {d : Nat}, (splitGroup opener closer d ts).map (fun p => (t :: p.1, p.2)) = some (group, rest) →
        ∃ inside last, group = inside ++ [last] ∧ last.kind = closer := by
      intro d hd
      obtain ⟨⟨g, r⟩, hg, he⟩ := Option.map_eq_some_iff.1 hd
      cases he
      obtain ⟨inside, last, rfl, hl⟩ := ih hg
      exact ⟨t :: inside, last, rfl, hl⟩
    unfold splitGroup at h
    split at h
    · exact step h
    · split at h
      · next hk =>
        split at h
        · cases h
          exact ⟨[], t, rfl, hk⟩
        · exact step h
      · exact step h

/-- An attribute is its at-word, or goes on to a closing parenthesis. -/
theorem attributeAfter_cases {t : Token} {more after : List Token} {a : Attribute}
    (h : (attributeAfter t).run more = .ok (a, after)) :
    a.name = String.ofList (t.text.toList.drop 1) ∧ a.start = t.start ∧
      ((after = more ∧ a.stop = t.stop) ∨
        ∃ inside last, more = inside ++ last :: after ∧ last.kind = .rightParen ∧ a.stop = last.stop) := by
  obtain ⟨arguments, rest, ho, h⟩ := run_bind_eq_ok.1 h
  obtain ⟨rfl, rfl⟩ := run_pure_eq_ok.1 h
  refine ⟨rfl, rfl, ?_⟩
  cases more with
  | nil =>
    cases ho
    exact .inl ⟨rfl, rfl⟩
  | cons p more =>
    simp only [optionally] at ho
    split at ho
    · split at ho
      · next hg =>
        cases ho
        simp only [Reader.group] at hg
        split at hg
        · next hs =>
          cases hg
          obtain ⟨inside, last, rfl, hl⟩ := splitGroup_last hs
          have ha := splitGroup_append hs
          refine .inr ⟨p :: inside, last, ?_, hl, ?_⟩
          · rw [← ha, List.append_assoc]
            rfl
          · simp [List.getLast?_cons]
        · cases hg
      · cases ho
    · cases ho
      exact .inl ⟨rfl, rfl⟩

/-- The characters of the attribute. -/
def Attribute.span (a : Attribute) : Expansion.Span :=
  ⟨a.start.offset, a.stop⟩

theorem attribute_stands {cs : List Char} {ts before more after : List Token} {t : Token} {a : Attribute}
    (hs : Token.Standing cs ts) (ht : ts = before ++ t :: more) (hk : t.kind = .atWord)
    (hr : (attributeAfter t).run more = .ok (a, after)) (hn : after ≠ []) :
    a.span.StandsIn cs ∧ ∀ u ∈ after, a.stop ≤ u.start.offset := by
  obtain ⟨-, hstart, hstop⟩ := attributeAfter_cases hr
  have hm : t ∈ ts := by simp [ht]
  obtain ⟨u, us, rfl⟩ := List.exists_cons_of_ne_nil hn
  -- The last token of the attribute, with its last character.
  obtain ⟨head, last, c, hl, hsl, hc, hb⟩ : ∃ head last c, ts = head ++ last :: u :: us ∧
      (a.stop = last.stop ∧ t.start.offset < last.stop) ∧ last.text.toList.getLast? = some c ∧ isBlank c = false := by
    rcases hstop with ⟨rfl, hstop⟩ | ⟨inside, last, rfl, hlast, hstop⟩
    · obtain ⟨ds, hd, hne, hw⟩ := (hs.lexed t hm).of_atWord hk
      refine ⟨before, t, ds.getLast hne, ht, ⟨hstop, hs.start_lt_stop hm⟩, ?_, word_not_blank (hw _ (List.getLast_mem hne))⟩
      rw [hd, List.getLast?_cons, List.getLast?_eq_some_getLast hne]
      rfl
    · have hml : last ∈ ts := by simp [ht]
      have htext := (hs.lexed last hml).of_mark (c := ')') (by rw [hlast]; rfl)
      refine ⟨before ++ t :: inside, last, ')', by rw [ht, List.append_assoc]; rfl, ⟨hstop, ?_⟩, by rw [htext]; rfl, by decide⟩
      have := hs.start_lt_stop hm
      have := hs.stop_le_start ht (u := last) (by simp)
      have := hs.start_lt_stop hml
      omega
  have hml : last ∈ ts := by simp [hl]
  have hmu : u ∈ ts := by simp [hl]
  obtain ⟨d, hd, hdb⟩ := hs.getElem_start hmu
  have hle : ∀ v ∈ u :: us, a.stop ≤ v.start.offset := by
    intro v hv
    rw [hsl.1]
    exact hs.stop_le_start hl hv
  have hclosing : cs[a.stop - 1]? = some c := by
    rw [hsl.1]
    exact hs.getElem_stop hml hc
  have hlt : a.start.offset < a.stop := by
    rw [hstart, hsl.1]
    exact hsl.2
  exact ⟨⟨hlt, ⟨c, hclosing, hb⟩, ⟨_, d, hle u List.mem_cons_self, hd, hdb⟩⟩, hle⟩

/-- Attributes that are read one after another stand in the text one after another. -/
theorem AttributesIn.stand {cs : List Char} {ts us rest : List Token} {as : List Attribute}
    (h : AttributesIn us as rest) (hs : Token.Standing cs ts) (hu : us <:+ ts) :
    as.Pairwise (fun a b => a.stop ≤ b.start.offset) ∧
      ∀ a ∈ as, a.span.StandsIn cs ∧ ∃ t ∈ us, a.start = t.start := by
  induction h with
  | done => exact ⟨List.Pairwise.nil, by simp⟩
  | @next us more after rest t a as hm hk hr hn ha ih =>
    obtain ⟨before, hb⟩ := hm.trans hu
    obtain ⟨hst, hle⟩ := attribute_stands hs hb.symm hk hr hn
    have hmore : more <:+ us := (List.suffix_cons _ _).trans hm
    have hafter : after <:+ us := ((attributeAfter t).suffix hr).trans hmore
    obtain ⟨hp, hall⟩ := ih (hafter.trans hu)
    refine ⟨List.pairwise_cons.2 ⟨?_, hp⟩, ?_⟩
    · intro b hb
      obtain ⟨v, hv, he⟩ := (hall b hb).2
      rw [he]
      exact hle v hv
    · intro b hb
      rcases List.mem_cons.1 hb with rfl | hb
      · exact ⟨hst, t, hm.subset (by simp), (attributeAfter_cases hr).2.1⟩
      · obtain ⟨hb, v, hv, he⟩ := hall b hb
        exact ⟨hb, v, hafter.subset hv, he⟩

theorem parse_cases {text : String} {ds : List Decl} (h : parse text = .ok ds) :
    (Tokens.ofText text).failure = none ∧ topLevel (Tokens.ofText text).tokens = .ok ds := by
  unfold parse at h
  dsimp only at h
  split at h
  · cases h
  · next hf =>
    refine ⟨hf, ?_⟩
    cases ht : topLevel (Tokens.ofText text).tokens with
    | error fault =>
      rw [ht] at h
      cases h
    | ok found =>
      rw [ht] at h
      cases h
      rfl

/-- The attributes of a file stand in its text in the order of the tree, and none reaches into the next. -/
theorem attributes_stand {text : String} {ds : List Decl} (h : parse text = .ok ds) :
    Expansion.Apart text.toList ((attributesAmong ds).map Attribute.span) := by
  have hi := attributes_topLevel (parse_cases h).2
  obtain ⟨hp, hall⟩ := hi.stand (Token.standing_ofText text) (List.suffix_refl _)
  refine ⟨List.pairwise_map.2 hp, ?_⟩
  intro s hs
  obtain ⟨a, ha, rfl⟩ := List.mem_map.1 hs
  exact (hall a ha).1

end TestHooks.Swift
