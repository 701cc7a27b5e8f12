import TestHooks.Proofs.ReadBack

/-!
# Expanded types read back

Whatever a file says, an extension that is made of one of its types reads back as it is meant: one conditional block with
the variable and the proxy, and in the proxy the forwarded members of the type (`extension_reads_back`). The name of the
type has to nest its brackets. A name that does not can bring a declaration into the proxy, and the extension
still passes (`imported_by_name`).
-/

namespace TestHooks.Proxy

open TestHooks.Swift TestHooks.Text TestHooks.Expansion

/-! ### Forwarded members in their order -/

/-- The declarations of the forwarded members, bucket by bucket. -/
def forwardedMembers (typing : Typing) (c : Classification) : List (Position → Decl) :=
  c.instanceProperties.map (forwardedProperty false typing) ++ (c.instanceFunctions.map (forwardedFunction false) ++
    (c.staticProperties.map (forwardedProperty true typing) ++ c.staticFunctions.map (forwardedFunction true)))

/-- Members of one bucket in a row. -/
theorem forwards_members {α : Type} {write : Line → List Char} {text : α → List Line} {expected : α → Position → Decl}
    {xs : List α} (h : ∀ x ∈ xs, ∃ es, Forwarding ((text x).map write) (expected x) es) :
    ∃ es, Forwards ((xs.flatMap text).map write) (xs.map expected) es := by
  induction xs with
  | nil => exact ⟨[], .nil⟩
  | cons x xs ih =>
    obtain ⟨es, hx⟩ := h x List.mem_cons_self
    obtain ⟨fs, hxs⟩ := ih fun y hy => h y (List.mem_cons_of_mem x hy)
    refine ⟨es ++ fs, ?_⟩
    rw [List.flatMap_cons, List.map_append, List.map_cons]
    exact .cons hx hxs

section Members

variable {indent : String} (hindent : ∀ c ∈ indent.toList, c = ' ')

include hindent

/-- The members of one bucket as they stand in a proxy. -/
theorem forwards_fragment {α : Type} {text : α → List Line} {expected : α → Position → Decl} {xs : List α}
    (h : ∀ x ∈ xs, ∃ es, Forwarding ((text x).map (memberText indent)) (expected x) es) :
    ∃ es, Forwards ((fragmentLines (writeLines indent (xs.flatMap text))).map fun l => (l.write indent).toList)
      (xs.map expected) es := by
  obtain ⟨es, hes⟩ := forwards_members h
  refine ⟨es, ?_⟩
  rw [fragmentLines_writeLines hindent hes.page]
  exact hes

theorem forwards_properties (target : Target) (typing : Typing) {res : List Element} {ps : List Property}
    (hw : IsWord typing.placeholder) (hr : Receiver target.receiver.toList res) (hp : ∀ p ∈ ps, p.Spelled) :
    ∃ es, Forwards ((fragmentLines (writeProperties target typing indent ps)).map fun l => (l.write indent).toList)
      (ps.map (forwardedProperty target.isStatic typing)) es :=
  forwards_fragment hindent fun p h =>
    property_forwarding (indents_memberText hindent) (hp p h).name ((hp p h).resolved hw) hr

theorem forwards_functions (target : Target) (wildcardLabels : Bool) {fs : List Function}
    (hr : ∀ f ∈ fs, ∃ res, Receiver (target.receiverFor (localNames f)).toList res) (hf : ∀ f ∈ fs, f.Spelled) :
    ∃ es, Forwards ((fragmentLines (writeFunctions target wildcardLabels indent fs)).map fun l => (l.write indent).toList)
      (fs.map (forwardedFunction target.isStatic)) es := by
  refine forwards_fragment hindent fun f h => ?_
  obtain ⟨res, hres⟩ := hr f h
  exact function_forwarding (indents_memberText hindent) (hf f h).name (hf f h).declared (hf f h).returnType hres

/-- All members of a proxy of a type whose name is a receiver. -/
theorem forwards_fragments {settings : Settings} (hi : settings.indent = indent) {name : String} {c : Classification}
    {nes : List Element} (hr : Receiver name.toList nes) (hw : IsWord settings.placeholderType)
    (hm : ∀ m ∈ c.forwarded, m.Spelled) :
    ∃ es, Forwards (((fragments settings name c).ordered.flatMap fragmentLines).map fun l => (l.write indent).toList)
      (forwardedMembers (.ofSettings settings) c) es := by
  have hreference : Name (referenceFor c).toList := (word_reference _).name
  have hproperties : ∀ p ∈ c.instanceProperties ++ c.staticProperties, p.Spelled := by
    intro p hp
    refine hm (.property p) ?_
    rcases List.mem_append.1 hp with hp | hp <;> simp [Classification.forwarded, hp]
  have hfunctions : ∀ f ∈ c.instanceFunctions ++ c.staticFunctions, f.Spelled := by
    intro f hf
    refine hm (.function f) ?_
    rcases List.mem_append.1 hf with hf | hf <;> simp [Classification.forwarded, hf]
  subst hi
  let proxied : Target := ⟨name, false, referenceFor c⟩
  let ofType : Target := ⟨name, true, referenceFor c⟩
  have hproxied (locals : List String) : ∃ res, Receiver (proxied.receiverFor locals).toList res := by
    unfold Target.receiverFor
    split
    · rw [String.toList_append]
      exact ⟨_, receiver_self hreference⟩
    · exact ⟨_, receiver_word hreference⟩
  obtain ⟨es₁, h₁⟩ := forwards_properties hindent proxied (.ofSettings settings) hw (receiver_word hreference)
    fun p h => hproperties p (List.mem_append_left _ h)
  obtain ⟨es₂, h₂⟩ := forwards_functions hindent proxied settings.wildcardCallLabels (fun f _ => hproxied (localNames f))
    fun f h => hfunctions f (List.mem_append_left _ h)
  obtain ⟨es₃, h₃⟩ := forwards_properties hindent ofType (.ofSettings settings) hw hr
    fun p h => hproperties p (List.mem_append_right _ h)
  obtain ⟨es₄, h₄⟩ := forwards_functions hindent ofType settings.wildcardCallLabels (fun f _ => ⟨nes, hr⟩)
    fun f h => hfunctions f (List.mem_append_right _ h)
  refine ⟨es₁ ++ (es₂ ++ (es₃ ++ es₄)), ?_⟩
  have hall := h₁.append (h₂.append (h₃.append h₄))
  simpa [fragments, Fragments.ordered, forwardedMembers] using hall

end Members

end TestHooks.Proxy

namespace TestHooks.Expansion

open TestHooks.Proxy TestHooks.Swift TestHooks.Text

/-! ### Types of a file -/

theorem supported_of_success {settings : Settings} {d : Declaration} {marker : Marker}
    (h : (runGenerator settings testable marker d).success = true) : supportedKinds.contains d.kind = true := by
  rw [← Bool.not_eq_false]
  intro hkind
  rw [runGenerator, testable_unsupported marker d.name hkind, Record.ofOutcome_error _ _ rfl] at h
  cases h

theorem mem_of_forwarded {matcher : Matcher} {ms : List Member} {m : Member}
    (h : m ∈ (Classification.ofMembers matcher ms).forwarded) : m ∈ ms := by
  rw [Classification.forwarded_ofMembers] at h
  exact (matcher.forwarded_append_leftOut_perm ms).subset (List.mem_append_left _ h)

/-- Extensions get no hooks. -/
theorem AnnotatedType.keyword_of_supported {a : AnnotatedType} (h : supportedKinds.contains a.declaration.kind = true) :
    a.header.keyword ≠ .extensionType := by
  intro hk
  have htext : a.declaration.kind = a.header.keyword.text := rfl
  rw [htext, hk] at h
  exact absurd h (by decide)

/-- Only extensions have names that do not end in a name. -/
theorem AnnotatedType.Spelled.ends_of_success {a : AnnotatedType} (h : a.Spelled) {settings : Settings}
    (hsuccess : (runGenerator settings testable a.marker a.declaration).success = true) : EndsInName a.name.toList :=
  h.ends (AnnotatedType.keyword_of_supported (supported_of_success hsuccess))

/-- The extension of a record is read through its last token as a conditional block with the variable and the proxy. -/
theorem extension_of_record {settings : Settings} {text : String} {record : Record}
    (hplaceholder : settings.placeholderType = "Any") (hcondition : settings.buildCondition = "DEBUG")
    (h : record ∈ (expandFile .standard settings text).records) (hsuccess : record.success = true)
    (hname : isPlain record.typeName = true) :
    ∃ a ∈ foundIn .standard text, record = runGenerator settings testable a.marker a.declaration ∧
      let c := Classification.ofMembers (.ofSettings settings) a.declaration.members
      ∃ code head header members p p₁ p₂ p₃ p₄ type ms, record.extensions = [code] ∧ ReadThrough code members ∧
        parse code = .ok [.group head header members] ∧ header.keyword = .extensionType ∧
        members = [.conditional p [.mk .ifClause "DEBUG" [hooksVariable p₁,
          proxyType (storedReference (referenceFor c) type p₂ :: proxyInitializer p₃ :: ms) p₄]]] ∧
        Stand (forwardedMembers (.ofSettings settings) c) ms := by
  rw [records_standard] at h
  obtain ⟨a, ha, rfl⟩ := List.mem_map.1 h
  refine ⟨a, ha, rfl, ?_⟩
  intro c
  have hspelled := found_spelled ha
  have hnamed : a.declaration.name = a.name := hspelled.declaration_name
  have htitled : (runGenerator settings testable a.marker a.declaration).typeName = a.name := by
    rw [← hnamed]
    exact (names_ofOutcome _ _ _).2.1
  rw [htitled] at hname
  obtain ⟨hextensions, hcomplaint⟩ := extension_of_success hsuccess
  obtain ⟨head, header, members, hparse, hkeyword⟩ := complaint?_eq_none_iff.1 hcomplaint
  rw [hnamed] at hextensions hparse
  have hindent : ∀ s ∈ (plan settings a.name c).indent.toList, s = ' ' := by
    intro s hs
    rw [plan, Settings.indent, spaces, String.toList_ofList] at hs
    exact List.eq_of_mem_replicate hs
  have hreference : Name (plan settings a.name c).reference.toList := (word_reference _).name
  have hwritten : parse (writeExtension (plan settings a.name c) (fragments settings a.name c)) =
      .ok [.group head header members] := hparse
  rcases receiver_of_plain hspelled.titled (hspelled.ends_of_success hsuccess) hname with
    ⟨nes, hr, hlast⟩ | ⟨front, tail, htail, hs, hnests⟩
  · have hplaceholderWord : IsWord settings.placeholderType := by
      rw [hplaceholder]
      exact ⟨'A', "ny".toList, rfl, by decide, by decide⟩
    obtain ⟨es, hes⟩ := forwards_fragments hindent rfl hr hplaceholderWord fun m hm =>
      hspelled.members m (mem_of_forwarded hm)
    obtain ⟨head', header', members', p, p₁, p₂, p₃, p₄, type, ms, hstand, hthrough, hfound, hmembers⟩ :=
      extension_reads hindent hcondition hwritten hr hlast hreference hes
    simp only [List.cons.injEq, Decl.group.injEq, and_true] at hfound
    obtain ⟨rfl, rfl, rfl⟩ := hfound
    exact ⟨_, _, _, _, p, p₁, p₂, p₃, p₄, type, ms, hextensions, hthrough, hparse, hkeyword, hmembers, hstand⟩
  · have hbegins : a.name.toList.head?.any (!isBlank ·) = true := by
      obtain ⟨b, bs, hb, hblank⟩ := hspelled.titled.begins
      rw [hb, List.head?_cons, Option.any_some, hblank]
      rfl
    exact (extension_swallowed hindent hcondition hwritten hs htail hbegins hnests).elim

/-- An extension that is made of a type of a file reads back as a conditional block with the variable and the proxy,
which stores the instance, has an initializer and forwards the members of the type, bucket by bucket and as they were
declared. The name of the type nests its brackets. -/
theorem extension_reads_back {settings : Settings} {text : String} {record : Record}
    (hplaceholder : settings.placeholderType = "Any") (hcondition : settings.buildCondition = "DEBUG")
    (h : record ∈ (expandFile .standard settings text).records) (hsuccess : record.success = true)
    (hname : isPlain record.typeName = true) :
    ∃ a ∈ foundIn .standard text, record = runGenerator settings testable a.marker a.declaration ∧
      let c := Classification.ofMembers (.ofSettings settings) a.declaration.members
      ∃ code head header p p₁ p₂ p₃ p₄ type ms, record.extensions = [code] ∧ parse code = .ok [.group head header
        [.conditional p [.mk .ifClause "DEBUG" [hooksVariable p₁,
          proxyType (storedReference (referenceFor c) type p₂ :: proxyInitializer p₃ :: ms) p₄]]]] ∧
        header.keyword = .extensionType ∧ Stand (forwardedMembers (.ofSettings settings) c) ms := by
  obtain ⟨a, ha, hrecord, code, head, header, members, p, p₁, p₂, p₃, p₄, type, ms, hcode, -, hparse, hkeyword, rfl, hstand⟩ :=
    extension_of_record hplaceholder hcondition h hsuccess hname
  exact ⟨a, ha, hrecord, code, head, header, p, p₁, p₂, p₃, p₄, type, ms, hcode, hparse, hkeyword, hstand⟩

/-- An annotated type whose extension reads back as one has a record that succeeds. -/
theorem record_of_annotated {a : AnnotatedType} (hkind : supportedKinds.contains a.declaration.kind = true)
    (hread : (parse (extensionOf {} a.declaration.name a.declaration)).toOption.any isSingleExtension = true) :
    let record := runGenerator {} testable a.marker a.declaration
    record.success = true ∧ record.typeName = a.declaration.name ∧
      record.extensions = [extensionOf {} a.declaration.name a.declaration] := by
  obtain ⟨ds, hds, hsingle⟩ := exists_ok hread
  obtain ⟨head, header, members, rfl, hkeyword⟩ := isSingleExtension_iff.1 hsingle
  have hsuccess : (runGenerator {} testable a.marker a.declaration).success = true :=
    success_of_no_complaint _ rfl hkind (complaint?_eq_none_iff.2 ⟨head, header, members, hds, hkeyword⟩)
  exact ⟨hsuccess, (names_ofOutcome _ _ _).2.1, (extension_of_success hsuccess).1⟩

theorem record_of_reads {text : String} {d : Declaration}
    (ha : (foundIn .standard text).map AnnotatedType.declaration = [d]) (hkind : supportedKinds.contains d.kind = true)
    {head : Head} {header : TypeHeader} {members : List Decl}
    (hparse : parse (extensionOf {} d.name d) = .ok [.group head header members])
    (hkeyword : header.keyword = .extensionType) :
    ∃ record ∈ (expandFile .standard {} text).records, record.success = true ∧ record.typeName = d.name ∧
      record.extensions = [extensionOf {} d.name d] := by
  obtain ⟨a, hfound, rfl⟩ := List.map_eq_singleton_iff.1 ha
  have hread : (parse (extensionOf {} a.declaration.name a.declaration)).toOption.any isSingleExtension = true := by
    rw [hparse]
    exact beq_iff_eq.2 hkeyword
  refine ⟨runGenerator {} testable a.marker a.declaration, ?_, record_of_annotated hkind hread⟩
  rw [records_standard, hfound]
  exact List.mem_singleton_self _

/-- The records of a file whose extensions all read back. -/
theorem records_of_declarations {text : String} {declared : List Declaration}
    (hfound : (foundIn .standard text).map AnnotatedType.declaration = declared)
    (h : ∀ d ∈ declared, supportedKinds.contains d.kind = true ∧
      (parse (extensionOf {} d.name d)).toOption.any isSingleExtension = true) :
    (expandFile .standard {} text).records.map Record.success = declared.map (fun _ => true) ∧
      (expandFile .standard {} text).records.map Record.typeName = declared.map Declaration.name ∧
      (expandFile .standard {} text).records.map Record.extensions = declared.map fun d => [extensionOf {} d.name d] := by
  subst hfound
  have hrecord (a : AnnotatedType) (ha : a ∈ foundIn .standard text) :=
    record_of_annotated (h a.declaration (List.mem_map_of_mem ha)).1 (h a.declaration (List.mem_map_of_mem ha)).2
  rw [records_standard]
  simp only [List.map_map]
  exact ⟨List.map_congr_left fun a ha => (hrecord a ha).1, List.map_congr_left fun a ha => (hrecord a ha).2.1,
    List.map_congr_left fun a ha => (hrecord a ha).2.2⟩

/-- A class with a property of the instance and a function of the type. -/
def forwardedText : String :=
  "@Testable class A \x7b\n  private var x: [Int] = []\n  private static func f(_ n: Int) -> Int \x7b n \x7d\n\x7d\n"

def forwardedX : Property := ⟨"x", some "[Int]", true, ["private"], some "[]", some ⟨2, 3⟩⟩

def forwardedF : Function := ⟨"f", [⟨"_", "n", "Int"⟩], "Int", ["private", "static"], false, false, some ⟨3, 3⟩⟩

/-- What `forwardedText` declares. -/
def forwardedDeclaration : Declaration where
  name := "A"
  kind := "class"
  members := [.property forwardedX, .function forwardedF]
  attributes := [⟨"Testable", some ⟨1, 1⟩⟩]
  position := some ⟨1, 1⟩

theorem forwardedText_reads_back :
    ∃ record code head header p p₁ p₂ p₃ p₄ p₅ p₆ type, record ∈ (expandFile .standard {} forwardedText).records ∧
      record.success = true ∧ record.extensions = [code] ∧ parse code = .ok [.group head header
        [.conditional p [.mk .ifClause "DEBUG" [hooksVariable p₁,
          proxyType [storedReference "target" type p₂, proxyInitializer p₃,
            forwardedProperty false ⟨"Any", true⟩ forwardedX p₅, forwardedFunction true forwardedF p₆] p₄]]]] := by
  have hfound : (foundIn .standard forwardedText).map AnnotatedType.declaration = [forwardedDeclaration] := by
    decide +kernel
  have hread : (parse (extensionOf {} forwardedDeclaration.name forwardedDeclaration)).toOption.any isSingleExtension =
      true := by
    rw [parse, Tokens.ofText, extensionOf, toList_writeExtension]
    decide +kernel
  obtain ⟨ds, hds, hsingle⟩ := exists_ok hread
  obtain ⟨head, header, members, rfl, hkeyword⟩ := isSingleExtension_iff.1 hsingle
  obtain ⟨record, hrecord, hsuccess, hname, -⟩ := record_of_reads hfound (by decide) hds hkeyword
  have hplain : isPlain record.typeName = true := by
    rw [hname]
    decide +kernel
  obtain ⟨a, ha, -, code, head', header', p, p₁, p₂, p₃, p₄, type, ms, hcode, hparse, -, hms⟩ :=
    extension_reads_back rfl rfl hrecord hsuccess hplain
  have hdeclaration : a.declaration = forwardedDeclaration :=
    List.mem_singleton.1 (hfound ▸ List.mem_map_of_mem ha)
  have hc : Classification.ofMembers (.ofSettings {}) forwardedDeclaration.members =
      ⟨[forwardedX], [], [], [forwardedF], []⟩ := by
    decide +kernel
  have hreference : referenceFor ⟨[forwardedX], [], [], [forwardedF], []⟩ = "target" := by
    decide +kernel
  rw [hdeclaration, hc] at hparse hms
  rw [hreference] at hparse
  obtain ⟨d₁, ds₁, ⟨p₅, rfl⟩, hrest, rfl⟩ := List.forall₂_cons_left_iff.1 hms
  obtain ⟨d₂, ds₂, ⟨p₆, rfl⟩, hnone, rfl⟩ := List.forall₂_cons_left_iff.1 hrest
  obtain rfl := List.forall₂_nil_left_iff.1 hnone
  exact ⟨record, code, head', header', p, p₁, p₂, p₃, p₄, p₅, p₆, type, hrecord, hsuccess, hcode, hparse⟩

/-- A type whose name does not nest its brackets. -/
def importingText : String := "extension Foo<<); import (>> \x7b @Testable class C \x7b\x7d \x7d"

/-- What `importingText` declares. It has no members. -/
def importingDeclaration : Declaration where
  name := "Foo<<); import (>>.C"
  kind := "class"
  members := []
  attributes := [⟨"Testable", some ⟨1, 32⟩⟩]
  position := some ⟨1, 32⟩

/-- True for an extension with a proxy whose third member is an import. -/
def imports : List Decl → Bool
  | [.group _ header [.conditional _ [.mk .ifClause _ [_, .group _ _ [_, _, .other _ keyword _]]]]] =>
    header.keyword == .extensionType && keyword == "import"
  | _ => false

theorem imports_cases {ds : List Decl} (h : imports ds = true) :
    ∃ head header p condition d head' header' d₁ d₂ head'' name, ds = [.group head header [.conditional p
      [.mk .ifClause condition [d, .group head' header' [d₁, d₂, .other head'' "import" name]]]]] ∧
        header.keyword = .extensionType := by
  unfold imports at h
  split at h
  · simp only [Bool.and_eq_true, beq_iff_eq] at h
    obtain ⟨hkeyword, rfl⟩ := h
    exact ⟨_, _, _, _, _, _, _, _, _, _, _, rfl, hkeyword⟩
  · cases h

/-- The name of a type can bring an import into its proxy: the type has no members, but the proxy has three. -/
theorem imported_by_name :
    ∃ a record code head header p condition d head' header' d₁ d₂ head'' name,
      foundIn .standard importingText = [a] ∧ a.declaration.members = [] ∧
      record ∈ (expandFile .standard {} importingText).records ∧ record.success = true ∧ record.extensions = [code] ∧
      parse code = .ok [.group head header [.conditional p
        [.mk .ifClause condition [d, .group head' header' [d₁, d₂, .other head'' "import" name]]]]] := by
  have hfound : (foundIn .standard importingText).map AnnotatedType.declaration = [importingDeclaration] := by
    decide +kernel
  have hread : (parse (extensionOf {} importingDeclaration.name importingDeclaration)).toOption.any imports = true := by
    rw [parse, Tokens.ofText, extensionOf, toList_writeExtension]
    decide +kernel
  obtain ⟨ds, hds, himports⟩ := exists_ok hread
  obtain ⟨head, header, p, condition, d, head', header', d₁, d₂, head'', name, rfl, hkeyword⟩ := imports_cases himports
  obtain ⟨record, hrecord, hsuccess, -, hcode⟩ := record_of_reads hfound (by decide) hds hkeyword
  obtain ⟨a, ha, hdeclaration⟩ := List.map_eq_singleton_iff.1 hfound
  exact ⟨a, record, _, head, header, p, condition, d, head', header', d₁, d₂, head'', name, ha, by rw [hdeclaration]; rfl,
    hrecord, hsuccess, hcode, hds⟩

end TestHooks.Expansion
