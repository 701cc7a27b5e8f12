import TestHooks.Proofs.Outcomes
import TestHooks.Proofs.Parameters

/-!
# Members that come from text

What is forwarded of a type that was read has names that were read as names and types that were read as types
(`found_spelled`). The names that a proxy makes up are words.
-/

namespace TestHooks.Proxy

open TestHooks.Swift TestHooks.Text

/-! ### Words -/

/-- A word with a letter or an underscore in front. -/
def IsWord (s : String) : Prop :=
  ∃ c cs, s.toList = c :: cs ∧ isWordStart c = true ∧ ∀ d ∈ cs, isWordChar d = true

theorem IsWord.name {s : String} (h : IsWord s) : Name s.toList := by
  obtain ⟨c, cs, hs, hc, hcs⟩ := h
  rw [hs]
  exact .plain hc hcs

theorem word_freeName {taken : List String} {name : String} (h : IsWord name) : IsWord (freeName taken name) := by
  fun_induction freeName taken name with
  | case1 taken name _ ih =>
    refine ih ?_
    obtain ⟨c, cs, hs, hc, hcs⟩ := h
    rw [isWordStart, Bool.and_eq_true] at hc
    refine ⟨'_', c :: cs, by rw [String.toList_append, hs]; rfl, by decide, ?_⟩
    intro d hd
    rcases List.mem_cons.1 hd with rfl | hd
    · exact hc.1
    · exact hcs d hd
  | case2 => exact h

theorem word_reference (names : List String) : IsWord (reference names) :=
  word_freeName ⟨'t', "arget".toList, rfl, by decide, by decide⟩

/-- Words that number parameters. -/
theorem word_numbered (index : Nat) : IsWord ("arg" ++ toString index) := by
  refine ⟨'a', "rg".toList ++ (toString index).toList, by rw [String.toList_append]; rfl, by decide, ?_⟩
  intro d hd
  rcases List.mem_append.1 hd with hd | hd
  · have hall : ∀ d ∈ "rg".toList, isWordChar d = true := by decide
    exact hall d hd
  · have hdigit := Nat.isDigit_of_mem_toDigits (by decide) (by decide) (Nat.toList_repr ▸ hd)
    have hsmall : d.toNat < 128 := by
      rw [Char.isDigit, Bool.and_eq_true, decide_eq_true_eq, decide_eq_true_eq] at hdigit
      exact Nat.lt_of_le_of_lt hdigit.2 (by decide)
    refine isWordChar_of_isAlphanum ?_ hsmall
    rw [Char.isAlphanum, hdigit, Bool.or_true]

/-- A word is the text of a type. -/
theorem typeText_word {s : String} (h : IsWord s) : TypeText [] s := by
  have hn := h.name
  have hw := receiver_word hn
  refine ⟨[.word s.toList], [], hw.spelling, ⟨.identifier, s.toList, [], rfl⟩, ?_, ⟨0, rfl, fun _ => rfl⟩, ?_⟩
  · rintro - e he
    cases he
    exact ⟨.identifier, rfl⟩
  · obtain ⟨c, cs, hs, hc, hcs⟩ := h
    rw [isWordStart, Bool.and_eq_true] at hc
    refine (collapse_eq_iff ?_).2 rfl
    intro d hd
    rw [hs] at hd
    rcases List.mem_cons.1 hd with rfl | hd
    · exact word_not_blank hc.1
    · exact word_not_blank (hcs d hd)

theorem literalType_word {initializer : Option String} {type : String} (h : literalType? initializer = some type) :
    IsWord type := by
  obtain ⟨text, -, h⟩ := Option.bind_eq_some_iff.1 h
  unfold literalTypeOf? at h
  split at h
  · cases h
    exact ⟨'B', "ool".toList, rfl, by decide, by decide⟩
  split at h
  · cases h
    exact ⟨'S', "tring".toList, rfl, by decide, by decide⟩
  split at h
  · cases h
    exact ⟨'I', "nt".toList, rfl, by decide, by decide⟩
  split at h
  · cases h
    exact ⟨'D', "ouble".toList, rfl, by decide, by decide⟩
  · cases h

end TestHooks.Proxy

namespace TestHooks

/-! ### Members -/

open TestHooks.Swift TestHooks.Text TestHooks.Proxy

structure Property.Spelled (p : Property) : Prop where
  name : Name p.name.toList
  type : ∀ text, p.type = some text → TypeText [] text

structure Parameter.Spelled (p : Parameter) : Prop where
  label : Name p.label.toList
  name : Name p.name.toList
  type : TypeText [] p.type

structure Function.Spelled (f : Function) : Prop where
  name : Name f.name.toList
  parameters : ∀ p ∈ f.parameters, p.Spelled
  returnType : f.returnType.isEmpty = true ∨ TypeText ["where"] f.returnType

/-- Every text of the member that can be forwarded was read as what it is. -/
def Member.Spelled : Member → Prop
  | .property p => p.Spelled
  | .function f => f.Spelled
  | .unsupported _ => True
  | .unknown _ => True

theorem types_spelled {bs : List Binding} (h : ∀ b ∈ bs, b.Spelled) :
    (∀ type ∈ (bindingTypes bs).1, ∀ text, type = some text → TypeText [] text) ∧
      ∀ text, (bindingTypes bs).2 = some text → TypeText [] text := by
  induction bs with
  | nil => exact ⟨List.forall_mem_nil _, fun text hx => absurd hx (Option.some_ne_none text).symm⟩
  | cons b bs ih =>
    obtain ⟨htypes, hcarried⟩ := ih fun c hc => h c (List.mem_cons_of_mem b hc)
    have hb := (h b List.mem_cons_self).type
    rw [bindingTypes]
    dsimp only
    split
    · next type htype =>
      have hspelled := hb type (Option.filter_eq_some_iff.1 htype).1
      refine ⟨fun t ht text hx => ?_, fun text hx => Option.some.inj hx ▸ hspelled⟩
      rcases List.mem_cons.1 ht with rfl | ht
      · exact Option.some.inj hx ▸ hspelled
      · exact htypes t ht text hx
    · split
      · refine ⟨fun t ht text hx => ?_, hcarried⟩
        rcases List.mem_cons.1 ht with rfl | ht
        · exact hcarried text hx
        · exact htypes t ht text hx
      · refine ⟨fun t ht text hx => ?_, fun text hx => absurd hx (Option.some_ne_none text).symm⟩
        rcases List.mem_cons.1 ht with rfl | ht
        · cases hx
        · exact htypes t ht text hx

theorem memberOfBinding_spelled {head : Head} {keyword : VariableKeyword} {b : Binding} {type : Option String}
    (hb : b.Spelled) (ht : ∀ text, type = some text → TypeText [] text) :
    (memberOfBinding head keyword b type).Spelled := by
  rcases memberOfBinding_cases head keyword b type with ⟨reason, hm⟩ | ⟨hp, hm⟩
  · rw [hm]
    trivial
  · rw [hm]
    exact ⟨hb.name hp, ht⟩

theorem ofLabel_spelled {p : Swift.Parameter} (h : p.Spelled) :
    (Parameter.ofLabel p.firstName p.secondName p.type).Spelled := by
  refine ⟨h.firstName, ?_, h.type⟩
  unfold Parameter.ofLabel
  split
  · next name hn =>
    dsimp only
    split
    · exact h.firstName
    · exact h.secondName name hn
  · exact h.firstName

theorem memberOfSignature_spelled {head : Head} {s : Signature} (h : s.Spelled) : (memberOfSignature head s).Spelled := by
  unfold memberOfSignature
  split
  · trivial
  · next hr =>
    refine ⟨h.name (unsupportedReason?_eq_none hr).1, ?_, ?_⟩
    · intro p hp
      obtain ⟨q, hq, rfl⟩ := List.mem_map.1 hp
      exact ofLabel_spelled (h.parameters q hq)
    · dsimp only
      cases hx : s.returnType with
      | none => exact .inl rfl
      | some text => exact .inr (h.returnType text hx)

theorem membersOfDecl_spelled {d : Decl} (h : d.Spelled) : ∀ m ∈ membersOfDecl d, m.Spelled := by
  intro m hm
  cases h with
  | @variableList head keyword bindings hb =>
    obtain ⟨b, hmem, type, htype, rfl⟩ := mem_membersOfBindings hm
    exact memberOfBinding_spelled (hb b hmem) ((types_spelled hb).1 type htype)
  | function hs =>
    rw [List.mem_singleton.1 hm]
    exact memberOfSignature_spelled hs
  | group | conditional | other =>
    rw [List.mem_singleton.1 hm]
    trivial

/-! ### Parameters and types of members -/

theorem localNames_spelled {index : Nat} {taken : List String} {ps : List Parameter} (h : ∀ p ∈ ps, p.Spelled) :
    ∀ name ∈ localNamesFrom index taken ps, Name name.toList := by
  induction ps generalizing index taken with
  | nil => exact List.forall_mem_nil _
  | cons p ps ih =>
    have hps : ∀ q ∈ ps, q.Spelled := fun q hq => h q (List.mem_cons_of_mem p hq)
    intro name hn
    rw [localNamesFrom] at hn
    split at hn
    · rcases List.mem_cons.1 hn with rfl | hn
      · exact (word_freeName (word_numbered index)).name
      · exact ih hps name hn
    · rcases List.mem_cons.1 hn with rfl | hn
      · exact (h p List.mem_cons_self).name
      · exact ih hps name hn

theorem Function.Spelled.declared {f : Function} (h : f.Spelled) :
    ∀ q ∈ f.parameters.zip (localNames f), SpelledParameter q := by
  intro q hq
  obtain ⟨hp, hn⟩ := List.of_mem_zip hq
  have hs := h.parameters q.1 hp
  exact ⟨hs.label, localNames_spelled h.parameters q.2 hn, hs.type⟩

theorem Property.Spelled.resolved {p : Property} (h : p.Spelled) {typing : Typing} (hw : IsWord typing.placeholder) :
    TypeText [] (typing.resolve p) := by
  cases hk : typing.known? p with
  | none =>
    rw [Typing.resolve, hk]
    exact typeText_word hw
  | some type =>
    rw [Typing.resolve, hk, Option.getD_some]
    unfold Typing.known? at hk
    split at hk
    · next written hx =>
      cases hk
      exact h.type _ (Option.filter_eq_some_iff.1 hx).1
    · split at hk
      · exact typeText_word (literalType_word hk)
      · cases hk

end TestHooks

namespace TestHooks.Expansion

open TestHooks.Swift TestHooks.Text TestHooks.Proxy

/-! ### Annotated types -/

/-- The text ends with a name. -/
def EndsInName (text : List Char) : Prop :=
  ∃ d, text.getLast? = some d ∧ isNameEnd d = true

theorem titled_qualify {outer : Option String} {name : String} (ho : ∀ o, outer = some o → Titled o.toList)
    (hn : Titled name.toList) : Titled (qualify outer name).toList := by
  unfold qualify
  split
  · next o =>
    split
    · exact hn
    · have hline := (ho o rfl).line
      obtain ⟨c, cs, hc, hb⟩ := (ho o rfl).begins
      refine ⟨?_, c, cs ++ '.' :: name.toList, ?_, hb⟩
      · simp [hline, hn.line]
      · simp [hc]
  · exact hn

theorem endsInName_qualify {outer : Option String} {name : String} (hn : Name name.toList) :
    EndsInName (qualify outer name).toList := by
  obtain ⟨d, hd, he⟩ := hn.ends
  refine ⟨d, ?_, he⟩
  unfold qualify
  split
  · split
    · exact hd
    · rw [String.toList_append, List.getLast?_append, hd, Option.some_or]
  · exact hd

/-- Everything about an annotated type was read as what it is. -/
structure AnnotatedType.Spelled (a : AnnotatedType) : Prop where
  decl : (Decl.group a.head a.header a.members).Spelled
  titled : Titled a.name.toList
  ends : a.header.keyword ≠ .extensionType → EndsInName a.name.toList

section

variable (registered : String → Bool)

mutual

theorem annotatedIn_spelled {outer : Option String} {d : Decl} (ho : ∀ o, outer = some o → Titled o.toList)
    (h : ∀ head header members, Decl.group head header members = d → (Decl.group head header members).Spelled) :
    ∀ a ∈ annotatedIn registered outer d, a.Spelled := by
  intro a ha
  cases d with
  | group head header members =>
    have h := h head header members rfl
    rw [annotatedIn] at ha
    have hparts : header.Spelled ∧ ∀ d ∈ members, d.Spelled := by
      cases h with
      | group hh hm => exact ⟨hh, hm⟩
    have htitled := titled_qualify ho hparts.1.titled
    rcases List.mem_append.1 ha with ha | ha
    · obtain ⟨mark, -, rfl⟩ := List.mem_map.1 ha
      exact ⟨h, htitled, fun hk => endsInName_qualify (hparts.1.name hk)⟩
    · exact annotatedAmong_spelled (fun o hx => Option.some.inj hx ▸ htitled) (fun _ _ _ hd => hparts.2 _ hd) a ha
  | variableList => simp [annotatedIn] at ha
  | function => simp [annotatedIn] at ha
  | conditional => simp [annotatedIn] at ha
  | other => simp [annotatedIn] at ha

theorem annotatedAmong_spelled {outer : Option String} {ds : List Decl} (ho : ∀ o, outer = some o → Titled o.toList)
    (h : ∀ head header members, .group head header members ∈ ds → (Decl.group head header members).Spelled) :
    ∀ a ∈ annotatedAmong registered outer ds, a.Spelled := by
  intro a ha
  cases ds with
  | nil => simp [annotatedAmong] at ha
  | cons d ds =>
    rw [annotatedAmong] at ha
    rcases List.mem_append.1 ha with ha | ha
    · exact annotatedIn_spelled ho (fun head header members hd => h _ _ _ (hd ▸ List.mem_cons_self)) a ha
    · exact annotatedAmong_spelled ho (fun _ _ _ he => h _ _ _ (List.mem_cons_of_mem d he)) a ha

end

end

theorem found_spelled {registry : Registry} {text : String} {a : AnnotatedType} (h : a ∈ foundIn registry text) :
    a.Spelled := by
  obtain ⟨ds, hparse, h⟩ := mem_foundIn_cases h
  exact annotatedAmong_spelled registry.isRegistered (fun o hx => absurd hx.symm (Option.some_ne_none o))
    (fun _ _ _ hd => spelled_parse hparse hd) a h

theorem AnnotatedType.Spelled.members {a : AnnotatedType} (h : a.Spelled) : ∀ m ∈ a.declaration.members, m.Spelled := by
  intro m hm
  obtain ⟨d, hd, hm⟩ := List.mem_flatMap.1 hm
  cases h.decl with
  | group hh hms => exact membersOfDecl_spelled (hms d hd) m hm

theorem name_ofType {head : Head} {header : TypeHeader} {members : List Decl} {name : String}
    (h : name.isEmpty = false) : (Declaration.ofType head header members (some name)).name = name := by
  rw [Declaration.ofType, nonEmpty?, Option.filter_some, h, Bool.not_false, if_pos rfl, Option.getD_some]

/-- The declaration has the full name of the annotated type. -/
theorem AnnotatedType.Spelled.declaration_name {a : AnnotatedType} (h : a.Spelled) : a.declaration.name = a.name := by
  obtain ⟨c, cs, hc, -⟩ := h.titled.begins
  exact name_ofType (isEmpty_of_cons hc)

end TestHooks.Expansion
