import TestHooks.Proofs.Attributes
import TestHooks.Proofs.Phrases

/-!
# Names and types in a tree

Wherever declarations are read, names are identifiers and types are texts of types. Only the last declaration of a
text may end inside brackets; it holds no members.
-/

namespace TestHooks.Reader

variable {τ ε α : Type}

/-- Each value of a loop is read from a part of what the loop is given, and leaves what the loop leaves. -/
theorem whileNext_forall {test : τ → Bool} {p : τ → Reader τ ε α} {ts rest : List τ} {xs : List α}
    (h : whileNextRun test p ts = .ok (xs, rest)) :
    ∀ x ∈ xs, ∃ t us after, t :: us <:+ ts ∧ test t = true ∧ (p t).run us = .ok (x, after) ∧ rest <:+ after := by
  fun_induction whileNextRun test p ts generalizing xs rest with
  | case1 =>
    cases h
    exact List.forall_mem_nil _
  | case2 t ts ht x after hp xs' left hw ih =>
    cases h
    intro y hy
    rcases List.mem_cons.1 hy with rfl | hy
    · exact ⟨t, ts, after, List.suffix_refl _, ht, hp, suffix_whileNextRun hw⟩
    · obtain ⟨u, us, after', hu, hut, hup, hr⟩ := ih hw y hy
      exact ⟨u, us, after', (hu.trans ((p t).suffix hp)).trans (List.suffix_cons _ _), hut, hup, hr⟩
  | case3 => cases h
  | case4 => cases h
  | case5 =>
    cases h
    exact List.forall_mem_nil _

end TestHooks.Reader

namespace TestHooks.Swift

open TestHooks.Reader TestHooks.Text Reader

theorem byCommas_forall {α : Type} {p : Reader α} {ts rest : List Token} {xs : List α}
    (h : (byCommas p).run ts = .ok (xs, rest)) :
    ∀ x ∈ xs, ∃ us after, us <:+ ts ∧ p.run us = .ok (x, after) ∧ rest <:+ after := by
  obtain ⟨first, after, others, hf, ho, rfl⟩ := byCommas_cases h
  intro x hx
  rcases List.mem_cons.1 hx with rfl | hx
  · exact ⟨ts, after, List.suffix_refl _, hf, suffix_whileNextRun ho⟩
  · obtain ⟨t, us, left, hu, -, hp, hr⟩ := whileNext_forall ho x hx
    exact ⟨us, left, ((List.suffix_cons _ _).trans hu).trans (p.suffix hf), hp, hr⟩

/-! ### Tokens of a text -/

theorem scanned_suffix {ts us : List Token} (h : Scanned ts) (hs : us <:+ ts) : Scanned us := by
  obtain ⟨before, rfl⟩ := hs
  obtain ⟨place, gap, es, after, he, hf⟩ := h
  cases before with
  | nil => exact ⟨place, gap, es, after, he, hf⟩
  | cons t before =>
    obtain ⟨lead, e, es', place', rfl, -, -, -, -, hts⟩ := ofElements_cons he.symm
    obtain ⟨es₁, es₂, place'', rfl, -, -, -, hu⟩ := ofElements_split hts.symm
    refine ⟨place'', [], es₂, after, hu, ?_⟩
    have := (fitting_append.1 hf).2
    rw [← List.cons_append] at this
    exact (fitting_append.1 this).2

theorem name_of_token {ts : List Token} {t : Token} (h : Scanned ts) (ht : t ∈ ts) (hk : t.kind = .identifier) :
    Name t.text.toList := by
  obtain ⟨place, gap, es, after, rfl, hf⟩ := h
  obtain ⟨c, cs, rest, hc, -, hl⟩ := Token.lexed_of_mem hf ht
  rw [hk] at hl
  rw [hc]
  exact name_of_lexeme hl

theorem typeText_spelled {stops : List String} (hb : ∀ w ∈ stops, ∀ c ∈ w.toList, isBlank c = false)
    {ts rest : List Token} {text : String} (hs : Scanned ts) (h : (typeText stops).run ts = .ok (text, rest))
    (hr : rest ≠ []) : TypeText stops text := by
  obtain ⟨t, taken, hsplit, rfl⟩ := phraseBy_eq_ok.1 h
  exact typeText_of_split hb hs hsplit hr

theorem ne_nil_of_suffix {α : Type} {xs ys : List α} (h : xs <:+ ys) (hn : xs ≠ []) : ys ≠ [] := by
  rintro rfl
  exact hn (List.suffix_nil.1 h)

/-! ### Members -/

structure Binding.Spelled (b : Binding) : Prop where
  name : b.isPattern = false → Name b.name.toList
  type : ∀ text, b.type = some text → TypeText [] text

structure Parameter.Spelled (p : Parameter) : Prop where
  firstName : Name p.firstName.toList
  secondName : ∀ name, p.secondName = some name → Name name.toList
  type : TypeText [] p.type

structure Signature.Spelled (s : Signature) : Prop where
  name : s.isOperator = false → Name s.name.toList
  parameters : ∀ p ∈ s.parameters, p.Spelled
  returnType : ∀ text, s.returnType = some text → TypeText ["where"] text

theorem optional_type_spelled {stops : List String} (hb : ∀ w ∈ stops, ∀ c ∈ w.toList, isBlank c = false)
    {test : Token → Bool} {ts rest : List Token} {type : Option String} (hs : Scanned ts)
    (h : (optionally test fun _ => typeText stops).run ts = .ok (type, rest)) (hr : rest ≠ []) :
    ∀ text, type = some text → TypeText stops text := by
  rintro text rfl
  rcases optionally_cases h with ⟨-, hx, -⟩ | ⟨t, more, y, rfl, -, hp, hx⟩
  · cases hx
  · cases hx
    exact typeText_spelled hb (scanned_suffix hs (List.suffix_cons _ _)) hp hr

theorem binding_spelled {ts rest : List Token} {b : Binding} (hs : Scanned ts) (h : binding.run ts = .ok (b, rest))
    (hr : rest ≠ []) : b.Spelled := by
  obtain ⟨named, typed, valued, hn, ht, hi, ha⟩ := binding_cases h
  have hvalued := ne_nil_of_suffix (Reader.suffix _ ha) hr
  have htyped := ne_nil_of_suffix (Reader.suffix _ hi) hvalued
  constructor
  · intro hp
    rw [hp] at hn
    obtain ⟨t, rfl, hk, hname⟩ := bindingName_cases hn
    rw [hname]
    exact name_of_token hs List.mem_cons_self hk
  · exact optional_type_spelled (by simp) (scanned_suffix hs (Reader.suffix _ hn)) ht htyped

theorem parameter_spelled {ts rest : List Token} {p : Parameter} (hs : Scanned ts)
    (h : parameter.run ts = .ok (p, rest)) (hr : rest ≠ []) : p.Spelled := by
  obtain ⟨found, first, named, second, colon, after, typed, ha, hfirst, hname, hsec, hsecond, -, ht, hd⟩ :=
    parameter_cases h
  have hscanned := scanned_suffix hs (Reader.suffix _ ha)
  have hnamed := scanned_suffix hscanned (List.suffix_cons first named)
  have hafter := scanned_suffix hnamed ((List.suffix_cons colon after).trans (Reader.suffix _ hsec))
  constructor
  · rw [hname]
    exact name_of_token hscanned List.mem_cons_self hfirst
  · rintro name hn
    rw [hsecond] at hn
    rcases optionally_cases hsec with ⟨-, rfl, -⟩ | ⟨t, more, y, rfl, hk, hp, rfl⟩
    · cases hn
    · obtain ⟨rfl, -⟩ := run_pure_eq_ok.1 hp
      cases hn
      exact name_of_token hnamed List.mem_cons_self (by simpa using hk)
  · exact typeText_spelled (by simp) hafter ht (ne_nil_of_suffix (Reader.suffix _ hd) hr)

theorem parameterUnlessClosed_spelled {ts rest : List Token} {found : Option Parameter} (hs : Scanned ts)
    (h : parameterUnlessClosed.run ts = .ok (found, rest)) (hr : rest ≠ []) : ∀ p, found = some p → p.Spelled := by
  rcases parameterUnlessClosed_cases h with ⟨rfl, -⟩ | ⟨p, rfl, hp⟩
  · exact nofun
  · rintro q ⟨⟩
    exact parameter_spelled hs hp hr

theorem parameterClause_spelled {ts rest : List Token} {ps : List Parameter} (hs : Scanned ts)
    (h : parameterClause.run ts = .ok (ps, rest)) : ∀ p ∈ ps, p.Spelled := by
  obtain ⟨opener, inside, first, after, others, closer, rfl, hf, hw, -, rfl⟩ := parameterClause_cases h
  have hinside := scanned_suffix hs (List.suffix_cons opener inside)
  have hafter := scanned_suffix hinside (Reader.suffix _ hf)
  have hclosed : closer :: rest ≠ [] := List.cons_ne_nil _ _
  intro p hp
  obtain ⟨found, hm, he⟩ := List.mem_filterMap.1 hp
  rcases List.mem_cons.1 hm with rfl | hm
  · exact parameterUnlessClosed_spelled hinside hf (ne_nil_of_suffix (Reader.suffix _ hw) hclosed) p he
  · obtain ⟨t, us, left, hu, -, hq, hl⟩ := whileNext_forall hw found hm
    have hus := scanned_suffix hafter ((List.suffix_cons _ _).trans hu)
    exact parameterUnlessClosed_spelled hus hq (ne_nil_of_suffix hl hclosed) p he

theorem function_spelled {ts rest : List Token} {s : Signature} (hs : Scanned ts) (h : function.run ts = .ok (s, rest))
    (hr : rest ≠ []) : s.Spelled := by
  obtain ⟨named, listing, listed, returning, returned, required, found, body, hn, hg, hp, he, ht, hq, hb, -⟩ :=
    signature_cases h
  have hlisting := scanned_suffix hs ((Reader.suffix _ hg).trans (Reader.suffix _ hn))
  have hreturning := scanned_suffix hlisting ((Reader.suffix _ he).trans (Reader.suffix _ hp))
  have hrequired := ne_nil_of_suffix (Reader.suffix _ hb) hr
  constructor
  · intro ho
    rw [ho] at hn
    obtain ⟨t, rfl, hk, hname⟩ := functionName_cases hn
    rw [hname]
    exact name_of_token hs List.mem_cons_self hk
  · exact parameterClause_spelled hlisting hp
  · exact optional_type_spelled (by decide) hreturning ht (ne_nil_of_suffix (Reader.suffix _ hq) hrequired)

/-! ### Declarations -/

/-- A text that stands on one line and begins with something to read. -/
structure Titled (text : List Char) : Prop where
  line : '\n' ∉ text
  begins : ∃ c cs, text = c :: cs ∧ isBlank c = false

structure TypeHeader.Spelled (h : TypeHeader) : Prop where
  titled : Titled h.name.toList
  name : h.keyword ≠ .extensionType → Name h.name.toList

/-- Every name and every type in the declaration is spelled as one. -/
inductive Decl.Spelled : Decl → Prop
  | group {head : Head} {header : TypeHeader} {members : List Decl} (hh : header.Spelled)
    (hm : ∀ d ∈ members, d.Spelled) : (Decl.group head header members).Spelled
  | variableList {head : Head} {keyword : VariableKeyword} {bindings : List Binding} (hb : ∀ b ∈ bindings, b.Spelled) :
    (Decl.variableList head keyword bindings).Spelled
  | function {head : Head} {signature : Signature} (hs : signature.Spelled) : (Decl.function head signature).Spelled
  | conditional {position : Position} {clauses : List Clause} : (Decl.conditional position clauses).Spelled
  | other {head : Head} {keyword name : String} : (Decl.other head keyword name).Spelled

theorem Name.titled {cs : List Char} (h : Name cs) : Titled cs := by
  have hw (c : Char) (hc : isWordChar c = true) : c ≠ '\n' := by
    rintro rfl
    exact absurd hc (by decide)
  constructor
  · intro hm
    cases h with
    | plain hc hs =>
      rcases List.mem_cons.1 hm with rfl | hm
      · exact absurd hc (by decide)
      · exact hw _ (hs _ hm) rfl
    | dollar _ hs =>
      rcases List.mem_cons.1 hm with hx | hm
      · exact absurd hx (by decide)
      · exact hw _ (hs _ hm) rfl
    | escaped _ hs =>
      rcases List.mem_cons.1 hm with hx | hm
      · exact absurd hx (by decide)
      · rcases List.mem_append.1 hm with hm | hm
        · exact (hs _ hm).2 rfl
        · exact absurd (List.mem_singleton.1 hm) (by decide)
  · cases h with
    | plain hc _ =>
      rw [isWordStart, Bool.and_eq_true] at hc
      exact ⟨_, _, rfl, word_not_blank hc.1⟩
    | dollar _ _ => exact ⟨_, _, rfl, by decide⟩
    | escaped _ _ => exact ⟨_, _, rfl, by decide⟩

theorem titled_phrase {t : Token} {ts : List Token} (h : t.Lexed) : Titled (phrase (t :: ts)).toList := by
  obtain ⟨c, cs, ht, hb⟩ := h.text_eq_cons
  constructor
  · rw [phrase, String.toList_ofList]
    exact newline_not_mem_collapse false _
  · refine ⟨c, collapseFrom false (cs ++ Token.written ts), ?_, hb⟩
    rw [phrase, String.toList_ofList, ht, List.cons_append, collapse, collapseFrom, if_neg (by simp [hb])]

theorem typeHeader_spelled {keyword : TypeKeyword} {ts left : List Token} {header : TypeHeader} (hs : Scanned ts)
    (h : (typeHeader keyword).run ts = .ok (header, left)) : header.Spelled := by
  obtain ⟨named, inherited, required, brace, hn, -, -, -, hk⟩ := typeHeader_cases h
  rcases typeName_cases hn with ⟨he, -, t, taken, hsplit, hname⟩ | ⟨-, t, more, rfl, htk, hname, -⟩
  · have ha := splitType_append ["where"] 0 none ts
    rw [hsplit] at ha
    have ht : t ∈ ts := ha ▸ List.mem_append_left _ List.mem_cons_self
    obtain ⟨place, gap, es, after, rfl, hf⟩ := hs
    constructor
    · rw [hname]
      exact titled_phrase (Token.lexed_of_mem hf ht)
    · intro hx
      exact absurd (hk.trans he) hx
  · have hname' : Name header.name.toList := by
      rw [hname]
      exact name_of_token hs List.mem_cons_self htk
    exact ⟨hname'.titled, fun _ => hname'⟩

/-- Members are followed by something, so that their types end before something. -/
def spelledInvariant : ReadingInvariant where
  declared _ t ts found left := Scanned (t :: ts) →
    ∀ d, found = some d → (left ≠ [] ∨ ∃ head header ms, d = .group head header ms) → d.Spelled
  listed ts ms _ := Scanned ts → ∀ d ∈ ms, d.Spelled
  divided _ _ _ _ _ _ _ := True
  enclosed _ _ _ _ _ _ := True
  conditional _ _ _ _ := by
    rintro - d ⟨⟩ -
    exact .conditional
  directive _ _ _ := by
    rintro - d ⟨⟩ -
    exact .other
  group {strict t ts head k rest keyword header inside ms left} _ hh _ ht _ hm := by
    rintro hs d ⟨⟩ -
    have hr := scanned_suffix hs ((List.suffix_cons _ _).trans ((headFrom t).suffix hh))
    exact .group (typeHeader_spelled hr ht) (hm (scanned_suffix hr ((typeHeader keyword).suffix ht)))
  flat {strict t ts head k rest found left} _ hh _ hf := by
    intro hs d hd hl
    have hr := scanned_suffix hs ((List.suffix_cons _ _).trans ((headFrom t).suffix hh))
    have hleft (hg : ∀ head header ms, d ≠ .group head header ms) : left ≠ [] := by
      rcases hl with hl | ⟨head, header, ms, hx⟩
      · exact hl
      · exact absurd hx (hg _ _ _)
    rcases flatDeclaration_cases hf with ⟨keyword, bs, -, hb, rfl⟩ | ⟨s, -, hfun, rfl⟩ | ⟨keyword, name, -, -, rfl⟩ |
      ⟨-, -, -, -, rfl, -⟩
    · cases hd
      constructor
      intro b hm
      obtain ⟨us, after, hu, hrun, hsuf⟩ := byCommas_forall hb b hm
      exact binding_spelled (scanned_suffix hr hu) hrun (ne_nil_of_suffix hsuf (hleft nofun))
    · cases hd
      exact .function (function_spelled hr hfun (hleft nofun))
    · cases hd
      exact .other
    · cases hd
  close _ _ := nofun
  semicolon _ h hs := h (scanned_suffix hs (List.suffix_cons _ _))
  member {t rest first after others left} _ _ hd hf ho h hs := by
    have hn : after ≠ [] := by
      rintro rfl
      obtain ⟨u, us, hx, -⟩ := membersRun_cases ho
      cases hx
    intro d hm
    rcases List.mem_append.1 hm with hm | hm
    · exact hf hs d (Option.mem_toList.1 hm) (.inl hn)
    · exact h (scanned_suffix hs ((declarationRun_suffix hd).trans (List.suffix_cons _ _))) d hm
  finish _ _ _ := trivial
  next _ _ _ _ _ := trivial
  mark _ := trivial
  separator _ _ _ := trivial
  enclosedMember _ _ _ _ _ _ _ := trivial

/-- The types at the top of a text, and everything in them. -/
theorem spelled_topLevel {ts : List Token} {ds : List Decl} (h : topLevel ts = .ok ds) (hs : Scanned ts) {head : Head}
    {header : TypeHeader} {ms : List Decl} (hd : .group head header ms ∈ ds) :
    (Decl.group head header ms).Spelled := by
  induction hn : ts.length using Nat.strongRecOn generalizing ts ds with
  | ind n ih =>
    rcases topLevel_cases h with ⟨-, rfl⟩ | ⟨t, rest, rfl, ⟨-, hr⟩ | ⟨-, -, first, after, others, hf, ho, rfl⟩⟩
    · cases hd
    · exact ih rest.length (by simp [← hn]) hr (scanned_suffix hs (List.suffix_cons _ _)) hd rfl
    · rcases List.mem_append.1 hd with hm | hm
      · exact spelledInvariant.declared_of_run hf hs _ (Option.mem_toList.1 hm) (.inr ⟨_, _, _, rfl⟩)
      · have ha := declarationRun_suffix hf
        apply ih after.length ?_ ho (scanned_suffix hs (ha.trans (List.suffix_cons _ _))) hm rfl
        have := ha.length_le
        rw [← hn, List.length_cons]
        omega

theorem scanned_ofText (text : String) : Scanned (Tokens.ofText text).tokens :=
  ⟨_, _, _, _, rfl, fitting_ofText text.toList⟩

theorem spelled_parse {text : String} {ds : List Decl} (h : parse text = .ok ds) {head : Head} {header : TypeHeader}
    {ms : List Decl} (hd : .group head header ms ∈ ds) : (Decl.group head header ms).Spelled :=
  spelled_topLevel (parse_cases h).2 (scanned_ofText text) hd

end TestHooks.Swift
