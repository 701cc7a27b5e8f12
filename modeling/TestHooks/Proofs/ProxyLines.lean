import TestHooks.Proofs.TwinLines

/-!
# An extension as lines

An extension is one list of lines with levels (`extensionOf_lines`): writing the members first, and cutting what was
written at its line breaks to move it in, moves each line of a member in by two levels. Every line can stand on its own,
whatever the names and types in it are, as each of them was read on a line.
-/

namespace TestHooks.Swift

open TestHooks.Text

/-! ### Texts on a line -/

namespace Spells

variable {text : List Char} (h : Spells text)

include h

theorem line : '\n' ∉ text := by
  obtain ⟨es, tail, h⟩ := h
  exact h.line

/-- A keyword and a space in front. -/
theorem keyword {word : String} (hn : Name word.toList) (hb : text.head?.any (!isBlank ·) = true) :
    Spells (word.toList ++ ' ' :: text) := by
  obtain ⟨es, tail, h⟩ := h
  have hspace : isWordChar ' ' = false := by decide
  exact ⟨_, tail, (h.space hb).word hn hspace⟩

/-- A type or its name in front, whether or not it ends in a comment. -/
theorem behind {front : List Char} (hf : Spells front) (hs : Separated text) : Spells (front ++ text) := by
  obtain ⟨es, tail, h⟩ := h
  obtain ⟨fs, cut, hf⟩ := hf
  by_cases hc : cut = []
  · subst hc
    exact ⟨_, _, hf.append h hs⟩
  · exact ⟨_, _, hf.swallow hc hs h.line⟩

end Spells

theorem TypeText.spells {stops : List String} {type : String} (h : TypeText stops type) : Spells type.toList := by
  obtain ⟨es, tail, h⟩ := h
  exact ⟨es, tail, h.toSpelling⟩

namespace Addressed

variable {text : List Char} (h : Addressed text)

include h

theorem begins : text.head?.any (!isBlank ·) = true := by
  cases h with
  | stem h => exact h.begins
  | swallowed hb _ _ _ => exact hb

theorem spells : Spells text := by
  cases h with
  | stem h => exact ⟨_, _, h.spelling⟩
  | swallowed _ _ h _ => exact ⟨_, _, h⟩

/-- The name of a member behind a dot. -/
theorem member {name rest : List Char} (hn : Name name) (hr : Spells rest) (hs : rest.head?.any isWordChar = false) :
    Spells (text ++ '.' :: (name ++ rest)) := by
  obtain ⟨fs, tail, hr⟩ := hr
  cases h with
  | stem h => exact ⟨_, _, h.member hn hr hs⟩
  | swallowed _ ht h hc =>
    refine ⟨_, _, h.longer ht hc ?_⟩
    simp [hn.titled.line, hr.line]

end Addressed

end TestHooks.Swift

namespace TestHooks.Proxy

open TestHooks.Swift TestHooks.Text TestHooks.Expansion

/-! ### Lines of members -/

/-- Every line can stand on its own. -/
def Stands (ls : List Line) : Prop := ∀ l ∈ ls, IsLine l.text.toList

theorem brace_stands : IsLine "\x7d".toList := ⟨by decide, _, _, brace_line⟩

theorem head_begins {modifier : Option String} {keyword : String}
    (hm : modifier = none ∨ modifier = some "static" ∨ modifier = some "mutating")
    (hk : keyword = "var" ∨ keyword = "func") (rest : List Char) :
    (headText modifier keyword ++ rest).head?.any (!isBlank ·) = true := by
  rcases hm with rfl | rfl | rfl <;> rcases hk with rfl | rfl <;> rfl

section Members

variable {target : Target} (hr : ∀ locals, Addressed (target.receiverFor locals).toList)

include hr

theorem addressed_receiver : Addressed target.receiver.toList := by
  have hnone : target.receiverFor [] = target.receiver := by simp [Target.receiverFor]
  exact hnone ▸ hr []

omit hr in
theorem opener_stands (word : String) (hword : Name word.toList) : IsLine (word ++ " \x7b").toList := by
  obtain ⟨c, cs, hc, -, -, -, hb⟩ := name_begins hword
  have hmark : Spelling ['\x7b'] [.mark .leftBrace '\x7b'] [] := spelling_nil.mark rfl (by decide)
  have hspells : Spells ['\x7b'] := ⟨_, _, hmark⟩
  rw [String.toList_append]
  exact ⟨by simp [hc, hb], hspells.keyword hword (by decide)⟩

omit hr in
theorem property_stands {typing : Typing} (hw : IsWord typing.placeholder) {p : Property} (hp : p.Spelled) :
    IsLine (target.qualifier ++ "var " ++ p.name ++ ": " ++ typing.resolve p ++ " \x7b").toList := by
  have htype := hp.resolved hw
  have hbrace : Spells [' ', '\x7b'] := ⟨_, _, brace_spelling⟩
  obtain ⟨es, tail, hs⟩ := hbrace.behind htype.spells rfl
  have hm : (if target.isStatic then some "static" else none) = none ∨
      (if target.isStatic then some "static" else none) = some "static" ∨
        (if target.isStatic then some "static" else none) = some "mutating" := by
    cases target.isStatic
    · exact .inl rfl
    · exact .inr (.inl rfl)
  rw [property_text]
  exact ⟨head_begins hm (.inl rfl) _,
    _, _, head_spelling hm (.inl rfl) (name_spelling hp.name hs (type_begins htype _)) rfl⟩

theorem getter_stands {name : String} (hn : Name name.toList) :
    IsLine ("return " ++ (target.receiver ++ "." ++ name)).toList := by
  have hreceiver := addressed_receiver hr
  have hmember := hreceiver.member hn ⟨_, _, spelling_nil⟩ rfl
  have hreturn : Name "return".toList := .plain (by decide) (by decide)
  have htext : ("return " ++ (target.receiver ++ "." ++ name)).toList =
      "return".toList ++ ' ' :: (target.receiver.toList ++ '.' :: (name.toList ++ [])) := by
    simp
  rw [htext]
  exact ⟨rfl, hmember.keyword hreturn (begins_before hreceiver.begins _)⟩

theorem setter_stands {name : String} (hn : Name name.toList) :
    IsLine (target.receiver ++ "." ++ name ++ " = newValue").toList := by
  have hreceiver := addressed_receiver hr
  have hnew : Name "newValue".toList := .plain (by decide) (by decide)
  have hassigned := ((spelling_nil.word hnew rfl).space (by decide)).operator (.inl rfl) (by decide)
  have hmember := hreceiver.member hn ⟨_, _, hassigned.space (by decide)⟩ (by decide)
  have htext : (target.receiver ++ "." ++ name ++ " = newValue").toList =
      target.receiver.toList ++ '.' :: (name.toList ++ " = newValue".toList) := by
    simp
  rw [htext]
  exact ⟨begins_before hreceiver.begins _, hmember⟩

theorem propertyLines_stand {typing : Typing} (hw : IsWord typing.placeholder) {p : Property} (hp : p.Spelled) :
    Stands (propertyLines target typing p) := by
  have hget : IsLine "get \x7b".toList := opener_stands "get" (.plain (by decide) (by decide))
  have hset : IsLine "set \x7b".toList := opener_stands "set" (.plain (by decide) (by decide))
  intro l hl
  simp only [propertyLines, List.mem_append, List.mem_cons, List.not_mem_nil, or_false] at hl
  rcases hl with ((rfl | rfl | rfl | rfl) | hl) | rfl
  · exact property_stands hw hp
  · exact hget
  · exact getter_stands hr hp.name
  · exact brace_stands
  · split at hl
    · simp only [List.mem_cons, List.not_mem_nil, or_false] at hl
      rcases hl with rfl | rfl | rfl
      · exact hset
      · exact setter_stands hr hp.name
      · exact brace_stands
    · cases hl
  · exact brace_stands

omit hr in
theorem signature_stands {f : Function} (hf : f.Spelled) : IsLine (signature target f ++ " \x7b").toList := by
  have hm := modifier_cases target.isStatic f
  have hclause : Spells (declaredText (f.parameters.zip (localNames f)) ++ clauseRest f) := by
    obtain ⟨fs, tail, hs⟩ := clauseRest_spelled hf.returnType
    rcases clause_spelling hf.declared with ⟨es, -, -, h⟩ | ⟨es, -, -, h⟩
    · exact ⟨_, _, h hs (clauseRest_separated f)⟩
    · exact ⟨_, h hs.line (clauseRest_separated f)⟩
  obtain ⟨es, tail, hs⟩ := hclause
  rw [signature_text]
  exact ⟨head_begins hm (.inr rfl) _, _, _, head_spelling hm (.inr rfl) (opener_spelling hf.name hs) rfl⟩

omit hr in
/-- What a forwarding function calls with can be passed in a call. -/
theorem passed_arguments (wildcardLabels : Bool) {qs : List (Parameter × String)} (hq : ∀ q ∈ qs, SpelledParameter q) :
    ∃ es, passedElements wildcardLabels qs = es ++ [.mark .rightParen ')'] ∧ Passed es := by
  have hline {es : List Element} (h : passedElements wildcardLabels qs = es ++ [.mark .rightParen ')']) :
      '\n' ∉ es.flatMap Element.text := by
    have hs := passed_spelling wildcardLabels hq
    intro hx
    refine hs.line (hs.flatten ▸ List.mem_append_left _ ?_)
    rw [h, List.flatMap_append]
    exact List.mem_append_left _ hx
  have hargument (q : Parameter × String) : EndsInLexeme (argumentElements wildcardLabels q) := by
    rw [argumentElements, ← List.append_assoc]
    exact ⟨_, .identifier, q.2.toList, rfl⟩
  have hnext (qs : List (Parameter × String)) :
      nextArguments wildcardLabels qs = [] ∨ EndsInLexeme (nextArguments wildcardLabels qs) := by
    rcases List.eq_nil_or_concat qs with rfl | ⟨front, q, rfl⟩
    · exact .inl rfl
    · obtain ⟨es, kind, cs, he⟩ := hargument q
      right
      refine ⟨nextArguments wildcardLabels front ++ .mark .comma ',' :: .space :: es, kind, cs, ?_⟩
      simp [nextArguments, he]
  cases qs with
  | nil => exact ⟨[], rfl, List.forall_mem_nil _, List.not_mem_nil, .inl rfl⟩
  | cons q qs =>
    have hes : passedElements wildcardLabels (q :: qs) =
        (argumentElements wildcardLabels q ++ nextArguments wildcardLabels qs) ++ [.mark .rightParen ')'] :=
      (List.append_assoc _ _ _).symm
    refine ⟨_, hes, ?_, hline hes, .inr ?_⟩
    · rw [bareTokens_append]
      exact (argument_flat wildcardLabels q).append (next_flat wildcardLabels qs)
    · rcases hnext qs with hn | ⟨es, kind, cs, hn⟩
      · rw [hn, List.append_nil]
        exact hargument q
      · exact ⟨argumentElements wildcardLabels q ++ es, kind, cs, by rw [hn, List.append_assoc]⟩

/-- The lines of a call are twins, whether or not unlabeled arguments are labeled. -/
theorem call_twins (wildcardLabels wildcardLabels' : Bool) {f : Function} (hf : f.Spelled) :
    TwinLine ("return " ++ call target wildcardLabels f).toList
      ("return " ++ call target wildcardLabels' f).toList := by
  have hbegins (wildcardLabels : Bool) :
      ("return " ++ call target wildcardLabels f).toList.head?.any (!isBlank ·) = true := by
    rw [call_text]
    rfl
  cases hr (localNames f) with
  | @stem res h =>
    obtain ⟨es, hes, hpassed⟩ := passed_arguments wildcardLabels hf.declared
    obtain ⟨fs, hfs, hpassed'⟩ := passed_arguments wildcardLabels' hf.declared
    have hmatch := (matched_self (.word "return".toList :: .space ::
      (wordIf f.isThrowing "try" ++ (wordIf f.isAsync "await" ++ res)))).append (matched_call f.name hpassed hpassed')
    simp only [memberCall, ← hes, ← hfs, List.cons_append, List.append_assoc] at hmatch
    refine ⟨hbegins _, hbegins _, _, _, _, _, call_spelling _ hf.name h hf.declared,
      call_spelling _ hf.name h hf.declared, ?_⟩
    rw [commented, if_pos rfl, List.append_nil, List.append_nil]
    exact hmatch
  | @swallowed es tail hb ht h hc =>
    have hline (wildcardLabels : Bool) : '\n' ∉ '.' :: (f.name.toList ++ '(' :: passedText wildcardLabels f) := by
      have hcalled := (called_spelling wildcardLabels hf.declared).line
      simp only [List.mem_cons, List.mem_append, not_or] at hcalled ⊢
      exact ⟨by decide, hf.name.titled.line, hcalled⟩
    have hspelling (wildcardLabels : Bool) :=
      lead_spelling f (h.longer ht hc (hline wildcardLabels)) (begins_before hb _)
    simp only [← call_text] at hspelling
    refine twinLine_of_comment (hspelling _) (hspelling _) ?_ ?_ (hbegins _) (hbegins _)
    · exact List.append_ne_nil_of_left_ne_nil ht _
    · exact List.append_ne_nil_of_left_ne_nil ht _

theorem functionLines_twins (wildcardLabels wildcardLabels' : Bool) {f : Function} (hf : f.Spelled) :
    TwinLines (functionLines target wildcardLabels f) (functionLines target wildcardLabels' f) :=
  .cons (signature_stands hf).twins (.cons (call_twins hr wildcardLabels wildcardLabels' hf)
    (.cons brace_stands.twins .nil))

end Members

/-! ### Lines of an extension -/

/-- The lines of the members of a proxy, bucket by bucket. -/
def memberLines (settings : Settings) (typeName : String) (c : Classification) : List Line :=
  let proxied : Target := ⟨typeName, false, referenceFor c⟩
  let ofType : Target := ⟨typeName, true, referenceFor c⟩
  let typing := Typing.ofSettings settings
  c.instanceProperties.flatMap (propertyLines proxied typing) ++
    (c.instanceFunctions.flatMap (functionLines proxied settings.wildcardCallLabels) ++
      (c.staticProperties.flatMap (propertyLines ofType typing) ++
        c.staticFunctions.flatMap (functionLines ofType settings.wildcardCallLabels)))

/-- The line of a member where it stands in a proxy. -/
def Line.inside (l : Line) : Line := ⟨l.level + 2, l.text⟩

/-- The lines of an extension. They do not depend on the indentation. -/
def proxyLines (settings : Settings) (typeName : String) (c : Classification) : List Line :=
  openingLines (plan settings typeName c) ++ ((memberLines settings typeName c).map Line.inside ++ closingLines)

theorem openingLines_stand {plan : Plan} (hcondition : plan.condition = "DEBUG") (ht : Addressed plan.typeName.toList)
    (hn : Name plan.reference.toList) : Stands (openingLines plan) := by
  have hname := ht.spells
  have hbrace : Spells [' ', '\x7b'] := ⟨_, _, brace_spelling⟩
  have hclose : Spells [')', ' ', '\x7b'] := ⟨_, _, close_spelling⟩
  have hheader : IsLine ("extension " ++ plan.typeName ++ " \x7b").toList := by
    have hextension : Name "extension".toList := .plain (by decide) (by decide)
    have hspells := (hbrace.behind hname rfl).keyword hextension (begins_before ht.begins _)
    have htext : ("extension " ++ plan.typeName ++ " \x7b").toList =
        "extension".toList ++ ' ' :: (plan.typeName.toList ++ [' ', '\x7b']) := by
      simp
    rw [htext]
    exact ⟨rfl, hspells⟩
  have hreference : IsLine ("private var " ++ plan.reference ++ ": " ++ plan.typeName).toList := by
    obtain ⟨es, tail, hs⟩ := hname
    exact ⟨by simp [show isBlank 'p' = false by decide], _, _, reference_spelling hn hs ht.begins⟩
  have hinitializer : IsLine ("fileprivate init(target: " ++ plan.typeName ++ ") \x7b").toList := by
    obtain ⟨es, tail, hs⟩ := hclose.behind hname rfl
    exact ⟨by simp [show isBlank 'f' = false by decide], _, _, initializer_spelling hs ht.begins⟩
  have hstore : IsLine ("self." ++ plan.reference ++ " = target").toList :=
    ⟨by simp [show isBlank 's' = false by decide], _, _, store_spelling hn⟩
  have hgate : IsLine ("#if " ++ plan.condition).toList := by
    rw [hcondition]
    exact ⟨by decide, _, _, gate_spelling⟩
  intro l hl
  simp only [openingLines, List.mem_cons, List.not_mem_nil, or_false] at hl
  rcases hl with rfl | rfl | rfl | rfl | rfl | rfl | rfl | rfl | rfl | rfl
  · exact hheader
  · exact hgate
  · exact ⟨by decide, _, _, hooks_spelling⟩
  · exact ⟨by decide, _, _, maker_spelling⟩
  · exact brace_stands
  · exact ⟨by decide, _, _, proxy_spelling⟩
  · exact hreference
  · exact hinitializer
  · exact hstore
  · exact brace_stands

theorem closingLines_stand : Stands closingLines := by
  intro l hl
  simp only [closingLines, List.mem_cons, List.not_mem_nil, or_false] at hl
  rcases hl with rfl | rfl | rfl
  · exact brace_stands
  · exact ⟨by decide, _, _, endif_spelling⟩
  · exact brace_stands

theorem twinLines_flatMap {α : Type} {xs : List α} {text text' : α → List Line}
    (h : ∀ x ∈ xs, TwinLines (text x) (text' x)) : TwinLines (xs.flatMap text) (xs.flatMap text') := by
  induction xs with
  | nil => exact .nil
  | cons x xs ih =>
    rw [List.flatMap_cons, List.flatMap_cons]
    exact List.rel_append (h x List.mem_cons_self) (ih fun y hy => h y (List.mem_cons_of_mem x hy))

theorem Stands.twins {ls : List Line} (h : Stands ls) : TwinLines ls ls :=
  List.forall₂_same.2 fun l hl => (h l hl).twins

section Proxies

variable {settings settings' : Settings} {typeName : String} {c : Classification}
  (htyping : Typing.ofSettings settings = .ofSettings settings') (hw : IsWord settings.placeholderType)
  (hn : Addressed typeName.toList) (hm : ∀ m ∈ c.forwarded, m.Spelled)

theorem addressed_target {reference : String} (isStatic : Bool) (hn : Addressed typeName.toList)
    (hr : Name reference.toList) (locals : List String) :
    Addressed ((⟨typeName, isStatic, reference⟩ : Target).receiverFor locals).toList := by
  unfold Target.receiverFor Target.receiver
  split
  · rw [String.toList_append]
    exact .stem (receiver_self hr).stem
  · split
    · exact hn
    · exact .stem (receiver_word hr).stem

include htyping hw hn hm

/-- Settings that agree in how types are found give members whose lines are twins. -/
theorem memberLines_twins : TwinLines (memberLines settings typeName c) (memberLines settings' typeName c) := by
  have hreference : Name (referenceFor c).toList := (word_reference _).name
  have haddressed (isStatic : Bool) := addressed_target isStatic hn hreference
  have hproperties (isStatic : Bool) {ps : List Property} (hp : ∀ p ∈ ps, .property p ∈ c.forwarded) :
      TwinLines (ps.flatMap (propertyLines ⟨typeName, isStatic, referenceFor c⟩ (.ofSettings settings)))
        (ps.flatMap (propertyLines ⟨typeName, isStatic, referenceFor c⟩ (.ofSettings settings'))) := by
    rw [← htyping]
    exact twinLines_flatMap fun p h => (propertyLines_stand (haddressed isStatic) hw (hm (.property p) (hp p h))).twins
  have hfunctions (isStatic : Bool) {fs : List Function} (hf : ∀ f ∈ fs, .function f ∈ c.forwarded) :
      TwinLines (fs.flatMap (functionLines ⟨typeName, isStatic, referenceFor c⟩ settings.wildcardCallLabels))
        (fs.flatMap (functionLines ⟨typeName, isStatic, referenceFor c⟩ settings'.wildcardCallLabels)) :=
    twinLines_flatMap fun f h => functionLines_twins (haddressed isStatic) _ _ (hm (.function f) (hf f h))
  refine List.rel_append (hproperties false ?_) (List.rel_append (hfunctions false ?_)
    (List.rel_append (hproperties true ?_) (hfunctions true ?_)))
  all_goals
    intro m h
    simp [Classification.forwarded, h]

/-- The lines of the extensions are twins, too. -/
theorem proxyLines_twins (hcondition : settings.buildCondition = "DEBUG")
    (hcondition' : settings'.buildCondition = settings.buildCondition) :
    TwinLines (proxyLines settings typeName c) (proxyLines settings' typeName c) := by
  have hreference : Name (referenceFor c).toList := (word_reference _).name
  have hopening : TwinLines (openingLines (plan settings typeName c)) (openingLines (plan settings' typeName c)) := by
    have hsame : openingLines (plan settings typeName c) = openingLines (plan settings' typeName c) := by
      simp [openingLines, plan, hcondition']
    rw [← hsame]
    exact (openingLines_stand hcondition hn hreference).twins
  have hmembers : TwinLines ((memberLines settings typeName c).map Line.inside)
      ((memberLines settings' typeName c).map Line.inside) :=
    List.forall₂_map_left_iff.2 (List.forall₂_map_right_iff.2 (memberLines_twins htyping hw hn hm))
  exact List.rel_append hopening (List.rel_append hmembers closingLines_stand.twins)

end Proxies

/-! ### The text of an extension -/

theorem TwinLines.stands {ls ls' : List Line} (h : TwinLines ls ls') : Stands ls := by
  induction h with
  | nil => exact List.forall_mem_nil _
  | cons hl _ ih =>
    obtain ⟨es, es', tail, tail', hs, -⟩ := hl.cut
    exact List.forall_mem_cons.2 ⟨⟨hl.begins, es, tail, hs⟩, ih⟩

/-- What was written of members is moved in line by line. -/
theorem fragmentLines_inside {indent : String} (hindent : ∀ c ∈ indent.toList, c = ' ') {ls : List Line}
    (h : Stands ls) :
    (fragmentLines (writeLines indent ls)).map (Line.write indent) = (ls.map Line.inside).map (Line.write indent) := by
  have hmember : memberText indent = (fun l => (l.write indent).toList) ∘ Line.inside := by
    funext l
    have hl : (l.write indent).toList = (List.replicate l.level indent).flatMap String.toList ++ l.text.toList :=
      toList_write indent l.level l.text
    rw [memberText, toList_write, hl, Function.comp_apply, Line.inside, toList_write, Nat.add_comm, List.replicate_add,
      List.flatMap_append, List.append_assoc]
  have hinside : TwinLines (ls.map Line.inside) (ls.map Line.inside) :=
    List.forall₂_map_left_iff.2 (List.forall₂_map_right_iff.2 h.twins)
  obtain ⟨es, -, hp, -⟩ := pages_match hindent hindent hinside
  rw [List.map_map, ← hmember] at hp
  have hlines := fragmentLines_writeLines hindent hp
  have hinjective : Function.Injective String.toList := fun _ _ => String.toList_injective
  apply List.map_injective_iff.2 hinjective
  rw [List.map_map, List.map_map, List.map_map]
  rwa [hmember] at hlines

theorem indent_spaces (settings : Settings) : ∀ c ∈ settings.indent.toList, c = ' ' := by
  intro c hc
  rw [Settings.indent, spaces, String.toList_ofList] at hc
  exact List.eq_of_mem_replicate hc

/-- Lines that are written are the lines of what is written. -/
theorem lines_writeLines {indent : String} (hindent : ∀ c ∈ indent.toList, c = ' ') {ls : List Line} (h : Stands ls)
    (hne : ls ≠ []) : lines (writeLines indent ls) = ls.map (Line.write indent) := by
  refine lines_unlines (by simpa using hne) fun t ht => ?_
  obtain ⟨⟨level, text⟩, hl, rfl⟩ := List.mem_map.1 ht
  rw [toList_write, List.mem_append, not_or]
  exact ⟨fun hx => absurd (spaces_of_level hindent level _ hx) (by decide), (h _ hl).spells.line⟩

/-- The extension of a declaration is written line by line. -/
theorem extensionOf_lines {settings : Settings} {typeName : String} {d : Declaration}
    (hw : IsWord settings.placeholderType) (hn : Addressed typeName.toList)
    (hm : ∀ m ∈ (Classification.ofMembers (.ofSettings settings) d.members).forwarded, m.Spelled) :
    extensionOf settings typeName d =
      writeLines settings.indent (proxyLines settings typeName (.ofMembers (.ofSettings settings) d.members)) := by
  have hstands := (memberLines_twins rfl hw hn hm).stands
  unfold extensionOf
  generalize Classification.ofMembers (.ofSettings settings) d.members = c at hstands ⊢
  have hpart {part : List Line} (h : ∀ l ∈ part, l ∈ memberLines settings typeName c) :=
    fragmentLines_inside (indent_spaces settings) fun l hl => hstands l (h l hl)
  have hmembers : ((fragments settings typeName c).ordered.flatMap fragmentLines).map (Line.write settings.indent) =
      ((memberLines settings typeName c).map Line.inside).map (Line.write settings.indent) := by
    simp only [Fragments.ordered, List.flatMap_cons, List.flatMap_nil, List.append_nil, List.map_append, memberLines]
    refine congrArg₂ _ (hpart ?_) (congrArg₂ _ (hpart ?_) (congrArg₂ _ (hpart ?_) (hpart ?_)))
    all_goals
      intro l hl
      simp only [memberLines, List.mem_append]
      tauto
  rw [writeExtension, extensionLines, writeLines, writeLines, proxyLines, List.map_append, List.map_append,
    List.map_append, List.map_append, List.append_assoc]
  exact congrArg _ (congrArg _ (congrArg (· ++ _) hmembers))

end TestHooks.Proxy
