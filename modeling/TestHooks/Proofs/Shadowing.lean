import TestHooks.Proofs.LocalNames

/-!
# Receivers and local names

The receiver of a forwarding call begins with a name that is looked up among the local names first. The stored instance
is reached past them. The type that a static function belongs to is not, and is hidden by a parameter or a placeholder
of its name (`receiver_captured_iff`).
-/

namespace TestHooks.Swift

open TestHooks.Text TestHooks.Reader Reader

/-! ### Beginnings of texts -/

theorem lexemes_eq (text : String) : lexemes text = lexemesOf (Cut.ofText text.toList).elements := by
  rw [lexemes, lexemesOf, ← map_bare_ofElements .origin [], List.map_map]
  rfl

/-- Elements that fit at the head of a text are read first. -/
theorem lexemes_of_fitting {text : String} {es : List Element} {rest : List Char} (h : Fitting es rest)
    (ht : text.toList = es.flatMap Element.text ++ rest) : lexemes text = lexemesOf es ++ lexemes (String.ofList rest) := by
  rw [lexemes_eq, ht, ofText_flatten h, lexemesOf_append, lexemes_eq, String.toList_ofList]

/-- A word goes on to the end of its letters, whatever text is put behind the text that it stands in. -/
theorem word_fits_append {cs rest more : List Char} (hn : Name cs) (h : (Element.word cs).Fits rest)
    (hm : more.head?.any isWordChar = false) : (Element.word cs).Fits (rest ++ more) := by
  obtain ⟨c, ds, rfl, -⟩ := name_begins hn
  by_cases hb : c = backtick
  · subst hb
    obtain ⟨body, hne, hs, rfl⟩ := hn.of_backtick
    refine ⟨backtick, _, rfl, measure_of_lexeme (by decide) (fun hx => absurd hx (by decide)) ?_⟩
    exact lexeme_of_escaped hne hs _
  · -- The letters at the head of the rest would belong to the word.
    have hletters : Name (c :: ds ++ rest.takeWhile isWordChar) := by
      have hrest : ∀ d ∈ rest.takeWhile isWordChar, isWordChar d = true := fun d hd => List.mem_takeWhile_imp hd
      cases hn with
      | plain hc hs => exact .plain hc fun d hd => (List.mem_append.1 hd).elim (hs d) (hrest d)
      | dollar hne hs =>
        exact .dollar (List.append_ne_nil_of_left_ne_nil hne _) fun d hd => (List.mem_append.1 hd).elim (hs d) (hrest d)
      | escaped _ _ => exact absurd rfl hb
    have hend : (rest.dropWhile isWordChar).head?.any isWordChar = false := by
      have := List.head?_dropWhile_not isWordChar rest
      cases hx : (rest.dropWhile isWordChar).head? with
      | none => rfl
      | some d => simpa [hx] using this
    have heq := h.unique (word_fits hletters hend) (by
      rw [Element.word, Element.word, List.append_assoc, List.takeWhile_append_dropWhile])
    have hnone : rest.takeWhile isWordChar = [] := by
      have hlength := congrArg (fun e => e.text.length) heq
      simp only [Element.word, List.length_append] at hlength
      exact List.eq_nil_of_length_eq_zero (by omega)
    apply word_fits hn
    cases rest with
    | nil => exact hm
    | cons d rest =>
      rw [List.cons_append, List.head?_cons, Option.any_some]
      rw [List.takeWhile_cons] at hnone
      split at hnone
      · cases hnone
      · next hd => exact Bool.eq_false_iff.2 hd

/-! ### Names of types -/

/-- The text begins with a lexeme. -/
def BeginsInLexeme (text : List Char) : Prop :=
  ∃ e es, Fitting (e :: es) [] ∧ (e :: es).flatMap Element.text = text ∧ ∃ kind, e.shape = .lexeme kind

theorem header_begins {text : String} {ds : List Decl} (h : parse text = .ok ds) {head : Head} {header : TypeHeader}
    {members : List Decl} (hg : .group head header members ∈ nodesAmong ds) : BeginsInLexeme header.name.toList := by
  have hread := nodes_parse h _ hg
  cases hread with
  | @group _ _ _ rest _ _ _ _ _ hs hh hi ht =>
    have hscanned := scanned_suffix (scanned_ofText text)
      ((List.suffix_cons _ _).trans (((headFrom _).suffix hh).trans hs))
    obtain ⟨named, inherited, required, brace, hn, -, -, -, hk⟩ := typeHeader_cases ht
    rcases typeName_cases hn with ⟨-, -, t, taken, hsplit, hname⟩ | ⟨-, t, more, rfl, htk, hname, -⟩
    · have happend := splitType_append ["where"] 0 none rest
      rw [hsplit] at happend
      obtain ⟨e, es, hfits, hflat, hkind, -⟩ := phrase_tokens hscanned happend
      rw [hname]
      exact ⟨e, es, hfits, hflat, t.kind, hkind⟩
    · have hword := name_of_token hscanned List.mem_cons_self htk
      rw [hname]
      exact ⟨.word t.text.toList, [], ⟨word_fits hword rfl, trivial⟩, by simp [Element.word], .identifier, rfl⟩

/-- The first token of a text is at its beginning, and is the same before a dot. -/
theorem BeginsInLexeme.leads {text : String} {name : String} (h : BeginsInLexeme text.toList)
    (hl : (lexemes text).head? = some (.identifier, name)) :
    ∃ rest, text.toList = name.toList ++ rest ∧ Name name.toList ∧
      ∀ more, more.head?.any isWordChar = false → (Element.word name.toList).Fits (rest ++ more) := by
  obtain ⟨e, es, hfits, hflat, kind, hkind⟩ := h
  have htoken : lexemesOf (e :: es) = (kind, String.ofList e.text) :: lexemesOf es := by
    simp only [lexemesOf, bareTokens, List.filterMap_cons, Element.token?, hkind, List.map_cons]
  rw [lexemes_eq, ← hflat, cut_flatten hfits, htoken, List.head?_cons, Option.some.injEq, Prod.mk.injEq] at hl
  obtain ⟨rfl, rfl⟩ := hl
  have hword : e = .word (String.ofList e.text).toList := by
    rw [String.toList_ofList, Element.word, ← hkind]
  have hfirst := hfits.1
  rw [List.append_nil] at hfirst
  have hn : Name (String.ofList e.text).toList := by
    have hlexed : (⟨.identifier, String.ofList e.text, "", .origin⟩ : Token).Lexed := Token.lexed_of_fits hfirst hkind
    obtain ⟨c, cs, rest, ht, -, hlex⟩ := hlexed
    rw [ht]
    exact name_of_lexeme hlex
  rw [hword] at hfirst
  refine ⟨es.flatMap Element.text, ?_, hn, fun more hm => word_fits_append hn hfirst hm⟩
  rw [← hflat, List.flatMap_cons, String.toList_ofList]

end TestHooks.Swift

namespace TestHooks.Expansion

open TestHooks.Swift TestHooks.Text TestHooks.Proxy

/-- The name of the outermost type around the declaration, or its own if there is none. -/
def Site.outermost (s : Site) : String := s.path.head?.getD s.header.name

/-- The declaration that the type is lowered to. -/
def Site.declaration (s : Site) : Declaration :=
  .ofType s.head s.header s.members (some s.name)

mutual

theorem outermost_sitesIn {path : List String} {conditional : Bool} {d : Decl} {s : Site}
    (h : s ∈ sitesIn path conditional d) :
    s.outermost ∈ path.head? ∨ path = [] ∧ ∃ head header members, .group head header members ∈ nodesOf d ∧
      s.outermost = header.name := by
  cases d with
  | group head header members =>
    rw [sitesIn] at h
    have hself : Decl.group head header members ∈ nodesOf (.group head header members) := mem_nodesOf_self _
    cases path with
    | nil =>
      refine .inr ⟨rfl, head, header, members, hself, ?_⟩
      rcases List.mem_cons.1 h with rfl | h
      · rfl
      · rcases outermost_sitesAmong h with h | ⟨h, -⟩
        · exact (Option.mem_some.1 h).symm
        · cases h
    | cons first others =>
      left
      rcases List.mem_cons.1 h with rfl | h
      · rfl
      · rcases outermost_sitesAmong h with h | ⟨h, -⟩
        · exact h
        · cases h
  | conditional position clauses =>
    rw [sitesIn] at h
    rcases outermost_sitesOfClauses h with h | ⟨hp, head, header, members, hm, hx⟩
    · exact .inl h
    · exact .inr ⟨hp, head, header, members, List.mem_cons_of_mem _ hm, hx⟩
  | variableList | function | other => cases h

/-- The outermost name of a site was given, or is the name of a type at the top. -/
theorem outermost_sitesAmong {path : List String} {conditional : Bool} {ds : List Decl} {s : Site}
    (h : s ∈ sitesAmong path conditional ds) :
    s.outermost ∈ path.head? ∨ path = [] ∧ ∃ head header members, .group head header members ∈ nodesAmong ds ∧
      s.outermost = header.name := by
  cases ds with
  | nil => cases h
  | cons d ds =>
    rw [sitesAmong] at h
    rcases List.mem_append.1 h with h | h
    · exact (outermost_sitesIn h).imp_right fun ⟨hp, head, header, members, hm, hx⟩ =>
        ⟨hp, head, header, members, List.mem_append_left _ hm, hx⟩
    · exact (outermost_sitesAmong h).imp_right fun ⟨hp, head, header, members, hm, hx⟩ =>
        ⟨hp, head, header, members, List.mem_append_right _ hm, hx⟩

theorem outermost_sitesOfClauses {path : List String} {cs : List Clause} {s : Site} (h : s ∈ sitesOfClauses path cs) :
    s.outermost ∈ path.head? ∨ path = [] ∧ ∃ head header members, .group head header members ∈ nodesOfClauses cs ∧
      s.outermost = header.name := by
  cases cs with
  | nil => cases h
  | cons c cs =>
    cases c with
    | mk keyword condition members =>
      rw [sitesOfClauses] at h
      rcases List.mem_append.1 h with h | h
      · exact (outermost_sitesAmong h).imp_right fun ⟨hp, head, header, members, hm, hx⟩ =>
          ⟨hp, head, header, members, List.mem_append_left _ hm, hx⟩
      · exact (outermost_sitesOfClauses h).imp_right fun ⟨hp, head, header, members, hm, hx⟩ =>
          ⟨hp, head, header, members, List.mem_append_right _ hm, hx⟩

end

theorem outermost_begins {text : String} {ds : List Decl} (h : Swift.parse text = .ok ds) {s : Site}
    (hs : s ∈ sitesAmong [] false ds) : BeginsInLexeme s.outermost.toList := by
  rcases outermost_sitesAmong hs with hx | ⟨-, head, header, members, hg, hx⟩
  · cases hx
  · rw [hx]
    exact header_begins h hg

/-- The name of a type is the outermost name, or goes on behind it with a dot. -/
theorem Site.name_eq (s : Site) :
    ∃ rest, s.name.toList = s.outermost.toList ++ rest ∧ (rest ++ ['.']).head? = some '.' := by
  obtain ⟨path, conditional, head, header, members⟩ := s
  cases path with
  | nil => exact ⟨[], by simp [Site.name, Site.outermost, joinTexts, joinWith], rfl⟩
  | cons first others =>
    refine ⟨((others ++ [header.name]).map String.toList).flatMap (".".toList ++ ·), ?_, ?_⟩
    · rw [Site.name, joinTexts, String.toList_ofList, List.cons_append, List.map_cons, joinWith_cons]
      rfl
    · cases others <;> rfl

theorem Site.declaration_name {text : String} {ds : List Decl} (h : Swift.parse text = .ok ds) {s : Site}
    (hs : s ∈ sitesAmong [] false ds) : s.declaration.name = s.name := by
  obtain ⟨e, es, hfits, hflat, -⟩ := outermost_begins h hs
  obtain ⟨c, cs, hc, -⟩ := hfits.1
  obtain ⟨rest, hname, -⟩ := s.name_eq
  rw [← hflat, List.flatMap_cons, hc] at hname
  exact name_ofType (isEmpty_of_cons hname)

end TestHooks.Expansion

namespace TestHooks.Proxy

open TestHooks.Swift TestHooks.Text

/-! ### Beginnings of calls -/

/-- The words before the receiver of a call. -/
def effectLexemes (f : Function) : List (TokenKind × String) :=
  (if f.isThrowing then [(.identifier, "try")] else []) ++ (if f.isAsync then [(.identifier, "await")] else [])

/-- The elements before the receiver of a call. -/
def leadingElements (f : Function) : List Element :=
  wordIf f.isThrowing "try" ++ wordIf f.isAsync "await"

theorem lexemesOf_leading (f : Function) : lexemesOf (leadingElements f) = effectLexemes f := by
  rw [leadingElements, lexemesOf_append, lexemesOf_wordIf, lexemesOf_wordIf, effectLexemes]

theorem leading_text (f : Function) : (leadingElements f).flatMap Element.text =
    (if f.isThrowing then "try " else "").toList ++ (if f.isAsync then "await " else "").toList := by
  unfold leadingElements
  cases f.isThrowing <;> cases f.isAsync <;> rfl

theorem leading_fits (f : Function) {after : List Char} (ha : after.head?.any isBlank = false) :
    Fitting (leadingElements f) after := by
  have hwords : Name "try".toList ∧ Name "await".toList :=
    ⟨.plain (by decide) (by decide), .plain (by decide) (by decide)⟩
  have hspace : isWordChar ' ' = false := by decide
  have hawait : isBlank 'a' = false := by decide
  unfold leadingElements
  cases f.isThrowing <;> cases f.isAsync
  · trivial
  · exact ⟨word_fits hwords.2 hspace, space_fits ha, trivial⟩
  · exact ⟨word_fits hwords.1 hspace, space_fits ha, trivial⟩
  · exact ⟨word_fits hwords.1 hspace, space_fits hawait, word_fits hwords.2 hspace, space_fits ha, trivial⟩

/-- What the receiver and the dot behind it begin with is read behind the words of the effects. -/
theorem call_begins {target : Target} {f : Function} {es : List Element} {tail : List Char} (wildcardLabels : Bool)
    (ht : (target.receiverFor (localNames f)).toList ++ ['.'] = es.flatMap Element.text ++ tail)
    (hb : (target.receiverFor (localNames f)).toList.head?.any (!isBlank ·) = true)
    (hf : ∀ after, Fitting es (tail ++ after)) :
    ∃ rest, lexemes (call target wildcardLabels f) = effectLexemes f ++ (lexemesOf es ++ rest) := by
  let after := (f.name ++ "(" ++ joinTexts ", " (f.parameters.zipWith (argument wildcardLabels) (localNames f)) ++ ")").toList
  have htext : (call target wildcardLabels f).toList =
      (leadingElements f ++ es).flatMap Element.text ++ (tail ++ after) := by
    rw [List.flatMap_append, List.append_assoc, ← List.append_assoc (es.flatMap _), ← ht, leading_text]
    simp [call, after]
  have hhead : (es.flatMap Element.text ++ (tail ++ after)).head?.any isBlank = false := by
    rw [← List.append_assoc, ← ht]
    cases hx : (target.receiverFor (localNames f)).toList with
    | nil =>
      rw [hx] at hb
      cases hb
    | cons c cs =>
      rw [hx] at hb
      simpa using hb
  have hfits : Fitting (leadingElements f ++ es) (tail ++ after) :=
    fitting_append.2 ⟨leading_fits f hhead, hf after⟩
  refine ⟨lexemes (String.ofList (tail ++ after)), ?_⟩
  rw [lexemes_of_fitting hfits htext, lexemesOf_append, lexemesOf_leading, List.append_assoc]

/-! ### Names that are hidden -/

/-- No local name of the function is the name, backticks aside. -/
def Uncaptured (name : String) (f : Function) : Prop :=
  ∀ known ∈ localNames f, plainName known ≠ plainName name

instance (name : String) (f : Function) : Decidable (Uncaptured name f) :=
  inferInstanceAs (Decidable (∀ known ∈ localNames f, plainName known ≠ plainName name))

theorem uncaptured_iff {name : String} {f : Function} :
    Uncaptured name f ↔ (∀ p ∈ f.parameters, p.name ≠ wildcard → plainName p.name ≠ plainName name) ∧
      ∀ i p, f.parameters[i]? = some p → p.name = wildcard →
        placeholder (f.parameters.map Parameter.name) i ≠ plainName name := by
  have hplain (i : Nat) := plainName_word (word_placeholder (f.parameters.map Parameter.name) i)
  constructor
  · intro h
    refine ⟨fun p hp hw => h p.name (mem_localNames.2 (.inl ⟨p, hp, hw, rfl⟩)), fun i p hp hw => ?_⟩
    rw [← hplain i]
    exact h _ (mem_localNames.2 (.inr ⟨i, p, hp, hw, rfl⟩))
  · rintro ⟨hreadable, hmade⟩ known hk
    rcases mem_localNames.1 hk with ⟨p, hp, hw, rfl⟩ | ⟨i, p, hp, hw, rfl⟩
    · exact hreadable p hp hw
    · rw [hplain i]
      exact hmade i p hp hw

section

variable (typeName : String) (f : Function) (wildcardLabels : Bool)

theorem instance_call_begins {stored : String} (hw : IsWord stored) :
    ∃ rest, lexemes (call ⟨typeName, false, stored⟩ wildcardLabels f) =
          effectLexemes f ++ (.identifier, "self") :: (.dot, ".") :: (.identifier, stored) :: rest ∨
        lexemes (call ⟨typeName, false, stored⟩ wildcardLabels f) = effectLexemes f ++ (.identifier, stored) :: rest ∧
          Uncaptured stored f := by
  have hn := hw.name
  have hdot : isWordChar '.' = false := by decide
  have hreceiver : Target.receiverFor ⟨typeName, false, stored⟩ (localNames f) =
      if ((localNames f).map plainName).contains stored then "self." ++ stored else stored := rfl
  by_cases hhidden : ((localNames f).map plainName).contains stored = true
  · rw [if_pos hhidden] at hreceiver
    have hself : Name "self".toList := .plain (by decide) (by decide)
    obtain ⟨c, ds, hc, hne, -⟩ := name_begins hn
    have hfits (after : List Char) :
        Fitting [.word "self".toList, .mark .dot '.', .word stored.toList] (['.'] ++ after) := by
      refine ⟨word_fits hself hdot, mark_fits rfl ?_, word_fits hn hdot, trivial⟩
      rw [List.flatMap_singleton, Element.word, hc]
      rintro - hx
      exact hne.1 (Option.some.inj hx)
    obtain ⟨rest, hrest⟩ := @call_begins ⟨typeName, false, stored⟩ f
      [.word "self".toList, .mark .dot '.', .word stored.toList] ['.'] wildcardLabels
      (by rw [hreceiver]; simp [Element.word, Element.mark]) (by rw [hreceiver, String.toList_append]; rfl) hfits
    refine ⟨rest, .inl (hrest.trans ?_)⟩
    simp
  · rw [if_neg hhidden] at hreceiver
    obtain ⟨rest, hrest⟩ := @call_begins ⟨typeName, false, stored⟩ f [.word stored.toList] ['.'] wildcardLabels
      (by rw [hreceiver]; simp [Element.word]) (by rw [hreceiver]; exact (receiver_word hn).begins)
      fun after => ⟨word_fits hn hdot, trivial⟩
    refine ⟨rest, .inr ⟨hrest.trans ?_, fun known hk hx => hhidden ?_⟩⟩
    · simp
    · rw [plainName_word hw] at hx
      exact List.contains_iff_mem.2 (hx ▸ List.mem_map_of_mem hk)

end

/-- A call on the type begins with the name that the outermost type around it begins with. -/
theorem static_call_begins {outermost name : String} {typeName : String} {rest : List Char}
    (ht : typeName.toList = outermost.toList ++ rest) (hr : (rest ++ ['.']).head? = some '.')
    (hb : BeginsInLexeme outermost.toList) (hl : (lexemes outermost).head? = some (.identifier, name)) (stored : String)
    (f : Function) (wildcardLabels : Bool) :
    ∃ more, lexemes (call ⟨typeName, true, stored⟩ wildcardLabels f) = effectLexemes f ++ (.identifier, name) :: more := by
  obtain ⟨front, hfront, hn, hfits⟩ := hb.leads hl
  have hreceiver : Target.receiverFor ⟨typeName, true, stored⟩ (localNames f) = typeName := rfl
  have hdot : isWordChar '.' = false := by decide
  have hafter (after : List Char) : Fitting [.word name.toList] (front ++ (rest ++ ['.']) ++ after) := by
    refine ⟨?_, trivial⟩
    rw [List.append_assoc]
    apply hfits
    rw [List.head?_append, hr, Option.some_or, Option.any_some, hdot]
  obtain ⟨more, hmore⟩ := @call_begins ⟨typeName, true, stored⟩ f [.word name.toList] (front ++ (rest ++ ['.']))
    wildcardLabels (by rw [hreceiver, ht, hfront]; simp [Element.word]) (by
      obtain ⟨c, cs, hc, -, -, -, hblank⟩ := name_begins hn
      rw [hreceiver, ht, hfront, hc, List.append_assoc, List.cons_append, List.head?_cons, Option.any_some, hblank]
      rfl) hafter
  refine ⟨more, hmore.trans ?_⟩
  simp

end TestHooks.Proxy

namespace TestHooks.Expansion

open TestHooks.Swift TestHooks.Text TestHooks.Proxy

/-- A call on the stored instance begins with `self` and a dot, or with the name of the stored instance, which is then none
of the local names. A call on the type begins with the name that the outermost type around it begins with, whatever the
local names are; so that name is not hidden if and only if no parameter that can be read and no placeholder has it,
backticks aside. -/
theorem receiver_captured_iff {text : String} {ds : List Decl} (h : Swift.parse text = .ok ds) {s : Site}
    (hs : s ∈ sitesAmong [] false ds) (matcher : Matcher) (wildcardLabels : Bool) :
    let c := Classification.ofMembers matcher s.declaration.members
    let stored := referenceFor c
    (∀ f ∈ c.instanceFunctions, ∃ rest,
      lexemes (call ⟨s.declaration.name, false, stored⟩ wildcardLabels f) =
          effectLexemes f ++ (.identifier, "self") :: (.dot, ".") :: (.identifier, stored) :: rest ∨
        lexemes (call ⟨s.declaration.name, false, stored⟩ wildcardLabels f) =
          effectLexemes f ++ (.identifier, stored) :: rest ∧ Uncaptured stored f) ∧
      ∀ f ∈ c.staticFunctions, ∀ name, (lexemes s.outermost).head? = some (.identifier, name) →
        (∃ rest, lexemes (call ⟨s.declaration.name, true, stored⟩ wildcardLabels f) =
          effectLexemes f ++ (.identifier, name) :: rest) ∧
        (Uncaptured name f ↔ (∀ p ∈ f.parameters, p.name ≠ wildcard → Proxy.plainName p.name ≠ Proxy.plainName name) ∧
          ∀ i p, f.parameters[i]? = some p → p.name = wildcard →
            placeholder (f.parameters.map Parameter.name) i ≠ Proxy.plainName name) := by
  intro c stored
  refine ⟨fun f _ => instance_call_begins _ f wildcardLabels (word_reference _), fun f _ name hname =>
    ⟨?_, uncaptured_iff⟩⟩
  obtain ⟨rest, htext, hdot⟩ := s.name_eq
  exact static_call_begins (Site.declaration_name h hs ▸ htext) hdot (outermost_begins h hs) hname stored f wildcardLabels

/-- A nested class with a function that hides the stored instance, and with a static function that hides the class but
not the type around it. -/
def shadowedText : String :=
  "struct Outer \x7b @Testable class Inner \x7b private func f(target: Int) \x7b\x7d; " ++
    "private static func g(Inner: Int, _ _: Int) \x7b\x7d \x7d \x7d"

theorem shadowedText_receivers :
    ∃ ds s, Swift.parse shadowedText = .ok ds ∧ s ∈ sitesAmong [] false ds ∧
      let c := Classification.ofMembers (.ofSettings {}) s.declaration.members
      (∃ f ∈ c.instanceFunctions, ∃ rest, lexemes (call ⟨s.declaration.name, false, referenceFor c⟩ false f) =
        (.identifier, "self") :: (.dot, ".") :: (.identifier, "target") :: rest) ∧
      ∃ f ∈ c.staticFunctions, localNames f = ["Inner", "arg1"] ∧ Uncaptured "Outer" f ∧ ∃ rest,
        lexemes (call ⟨s.declaration.name, true, referenceFor c⟩ false f) = (.identifier, "Outer") :: rest := by
  have hread : (Swift.parse shadowedText).toOption.any (fun ds => (sitesAmong [] false ds).any fun s =>
      let c := Classification.ofMembers (.ofSettings {}) s.declaration.members
      referenceFor c == "target" && (lexemes s.outermost).head? == some (.identifier, "Outer") &&
        c.instanceFunctions.any (fun f => effectLexemes f == [] && !decide (Uncaptured "target" f)) &&
        c.staticFunctions.any fun f => effectLexemes f == [] && localNames f == ["Inner", "arg1"] &&
          decide (Uncaptured "Outer" f)) = true := by
    decide +kernel
  obtain ⟨ds, hds, hread⟩ := exists_ok hread
  obtain ⟨s, hs, hread⟩ := List.any_eq_true.1 hread
  simp only [Bool.and_eq_true, beq_iff_eq, List.any_eq_true, decide_eq_true_eq, Bool.not_eq_true',
    decide_eq_false_iff_not] at hread
  obtain ⟨⟨⟨hstored, hname⟩, f, hf, hfe, hhidden⟩, g, hg, ⟨hge, hlocal⟩, hfree⟩ := hread
  obtain ⟨hinstance, hstatic⟩ := receiver_captured_iff hds hs (.ofSettings {}) false
  refine ⟨ds, s, hds, hs, ⟨f, hf, ?_⟩, g, hg, hlocal, hfree, ?_⟩
  · obtain ⟨rest, hcall | ⟨-, hx⟩⟩ := hinstance f hf
    · rw [hfe, hstored] at hcall
      exact ⟨rest, by rw [hstored]; exact hcall⟩
    · exact absurd (hstored ▸ hx) hhidden
  · obtain ⟨rest, hcall⟩ := (hstatic g hg "Outer" hname).1
    rw [hge] at hcall
    exact ⟨rest, hcall⟩

/-- A class with a static function whose parameter has the name of the class. -/
def hiddenTypeText : String :=
  "@Testable\nclass A \x7b private static func f(A: Int) \x7b\x7d \x7d"

/-- The function is called on its argument. -/
theorem argument_hides_type :
    ∃ ds s, Swift.parse hiddenTypeText = .ok ds ∧ s ∈ sitesAmong [] false ds ∧
      let c := Classification.ofMembers (.ofSettings {}) s.declaration.members
      ∃ f ∈ c.staticFunctions, localNames f = ["A"] ∧
        (lexemes (call ⟨s.declaration.name, true, referenceFor c⟩ false f)).map Prod.snd =
          ["A", ".", "f", "(", "A", ":", "A", ")"] := by
  have hread : (Swift.parse hiddenTypeText).toOption.any (fun ds => (sitesAmong [] false ds).any fun s =>
      let c := Classification.ofMembers (.ofSettings {}) s.declaration.members
      c.staticFunctions.any fun f => localNames f == ["A"] &&
        (lexemes (call ⟨s.declaration.name, true, referenceFor c⟩ false f)).map Prod.snd ==
          ["A", ".", "f", "(", "A", ":", "A", ")"]) = true := by
    decide +kernel
  obtain ⟨ds, hds, hread⟩ := exists_ok hread
  obtain ⟨s, hs, hread⟩ := List.any_eq_true.1 hread
  simp only [List.any_eq_true, Bool.and_eq_true, beq_iff_eq] at hread
  exact ⟨ds, s, hds, hs, hread⟩

end TestHooks.Expansion
