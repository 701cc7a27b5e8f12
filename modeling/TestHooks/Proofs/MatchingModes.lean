import TestHooks.Proofs.Locations

/-!
# Modes of matching

Modifiers are compared as whole words or by what occurs in them. On the modifiers that a Swift member can have the
two ways of comparing differ in one word only, `class`. Where no member has it, they lead to the same expansion
(`matching_modes_agree`).
-/

namespace TestHooks

namespace Swift

open TestHooks.Swift.Reader

/-! ### Modifiers of declarations -/

/-- The modifiers in front of a declaration. A conditional block has none. -/
def Decl.modifierNames : Decl → List String
  | .group head _ _ => head.modifierNames
  | .variableList head _ _ => head.modifierNames
  | .function head _ => head.modifierNames
  | .conditional _ _ => []
  | .other head _ _ => head.modifierNames

/-- The declarations that stand directly in a type, whatever the type stands in. -/
def memberDecls (ds : List Decl) : List Decl :=
  (nodesAmong ds).flatMap fun
    | .group _ _ members => members
    | _ => []

theorem mem_memberDecls {ds members : List Decl} {head : Head} {header : TypeHeader} {d : Decl}
    (hg : .group head header members ∈ nodesAmong ds) (hd : d ∈ members) : d ∈ memberDecls ds :=
  List.mem_flatMap.2 ⟨_, hg, hd⟩

theorem splitModifiers_words (ts : List Token) : ∀ m ∈ (splitModifiers ts).1, m.name ∈ modifierWords := by
  fun_induction splitModifiers ts with
  | case1 => exact List.forall_mem_nil _
  | case2 t rest h detail after ih =>
    have hword : t.text ∈ modifierWords := by
      simp only [Token.isOneOf, Bool.and_eq_true] at h
      exact List.contains_iff_mem.1 h.1.2
    exact List.forall_mem_cons.2 ⟨hword, ih⟩
  | case3 => exact List.forall_mem_nil _

theorem headFrom_words {t : Token} {ts left : List Token} {head : Head}
    (h : (headFrom t).run ts = .ok (head, left)) : ∀ w ∈ head.modifierNames, w ∈ modifierWords := by
  obtain ⟨after, -, hm, -⟩ := headFrom_cases h
  intro w hw
  obtain ⟨m, hmem, rfl⟩ := List.mem_map.1 hw
  exact splitModifiers_words after m (by rw [hm]; exact hmem)

/-- Only words that the reader knows as modifiers stand in front of a declaration. -/
theorem ReadAmong.words {ts : List Token} {d : Decl} (h : ReadAmong ts d) :
    ∀ w ∈ d.modifierNames, w ∈ modifierWords := by
  cases h with
  | conditional _ => exact List.forall_mem_nil _
  | directive _ => exact List.forall_mem_nil _
  | group _ hh _ _ => exact headFrom_words hh
  | variableList _ hh _ => exact headFrom_words hh
  | function _ hh _ => exact headFrom_words hh
  | other _ hh _ => exact headFrom_words hh

end Swift

open TestHooks.Swift

/-- A member has the modifiers of its declaration. -/
theorem modifiers_of_membersOfDecl {d : Decl} {m : Member} (h : m ∈ membersOfDecl d) :
    m.modifiers = d.modifierNames := by
  cases d with
  | group head header members =>
    cases List.mem_singleton.1 h
    rfl
  | variableList head keyword bindings =>
    obtain ⟨b, -, type, -, rfl⟩ := mem_membersOfBindings h
    rcases memberOfBinding_cases head keyword b type with ⟨reason, hm⟩ | ⟨-, hm⟩
    · rw [hm]
      rfl
    · rw [hm]
      rfl
  | function head signature =>
    cases List.mem_singleton.1 h
    unfold memberOfSignature
    split <;> rfl
  | conditional position clauses =>
    cases List.mem_singleton.1 h
    rfl
  | other head keyword name =>
    cases List.mem_singleton.1 h
    rfl

/-! ### The two matchers -/

/-- Two matchers that tell the same of some modifiers. -/
structure Matcher.Agree (matcher matcher' : Matcher) (modifiers : List String) : Prop where
  qualifies : matcher.qualifies modifiers = matcher'.qualifies modifiers
  isStatic : matcher.isStatic modifiers = matcher'.isStatic modifiers

/-- The words of the exact matcher are those that the substring matcher finds, `class` aside. -/
theorem occursIn_modifierWords :
    (∀ w ∈ modifierWords, Text.occursIn "private".toList w.toList = ["private", "fileprivate"].contains w) ∧
      ∀ w ∈ modifierWords, w ≠ "class" → Text.occursIn "static".toList w.toList = ["static", "class"].contains w := by
  decide +kernel

theorem any_congr_of_mem {p q : String → Bool} {words : List String} (h : ∀ w ∈ words, p w = q w) :
    words.any p = words.any q := by
  rw [Bool.eq_iff_iff, List.any_eq_true, List.any_eq_true]
  exact exists_congr fun w => and_congr_right fun hw => by rw [h w hw]

theorem contains_congr {words words' : List String} (h : ∀ w, w ∈ words ↔ w ∈ words') (w : String) :
    words.contains w = words'.contains w := by
  rw [Bool.eq_iff_iff, List.contains_iff_mem, List.contains_iff_mem]
  exact h w

section

variable {qualifying static : List String} (hq : ∀ w, w ∈ qualifying ↔ w ∈ ["private", "fileprivate"])
  (hs : ∀ w, w ∈ static ↔ w ∈ ["static", "class"])

include hq hs

theorem standardSubstring_agrees {modifiers : List String} (hw : ∀ w ∈ modifiers, w ∈ modifierWords)
    (hc : "class" ∉ modifiers) : Matcher.standardSubstring.Agree (.exact qualifying static) modifiers where
  qualifies := any_congr_of_mem fun w hm => by
    rw [contains_congr hq]
    exact occursIn_modifierWords.1 w (hw w hm)
  isStatic := any_congr_of_mem fun w hm => by
    rw [contains_congr hs]
    exact occursIn_modifierWords.2 w (hw w hm) fun h => hc (h ▸ hm)

end

theorem Classification.place_congr {matcher matcher' : Matcher} (c : Classification) {m : Member}
    (h : matcher.Agree matcher' m.modifiers) : c.place matcher.tests m = c.place matcher'.tests m := by
  have hq : matcher.tests.qualifies m.modifiers = matcher'.tests.qualifies m.modifiers := h.qualifies
  have hs : matcher.tests.isStatic m.modifiers = matcher'.tests.isStatic m.modifiers := h.isStatic
  unfold Classification.place
  rw [hq]
  cases m with
  | property p =>
    have hp : matcher.tests.isStatic p.modifiers = matcher'.tests.isStatic p.modifiers := hs
    simp only [hp]
  | function f =>
    have hf : matcher.tests.isStatic f.modifiers = matcher'.tests.isStatic f.modifiers := hs
    simp only [hf]
  | unsupported u => rfl
  | unknown u => rfl

theorem Classification.ofMembers_congr {matcher matcher' : Matcher} {ms : List Member}
    (h : ∀ m ∈ ms, matcher.Agree matcher' m.modifiers) : ofMembers matcher ms = ofMembers matcher' ms :=
  List.foldl_ext _ _ _ fun c m hm => c.place_congr (h m hm)

namespace Expansion

/-! ### Expansions -/

/-- The matching mode matters to the generator of test hooks only through the classification. -/
theorem testable_congr_matching (settings : Settings) (mode mode' : Matching) (marker : Marker) (d : Declaration)
    (typeName : String)
    (h : Classification.ofMembers (.ofSettings { settings with matching := mode }) d.members =
      Classification.ofMembers (.ofSettings { settings with matching := mode' }) d.members) :
    testable marker d typeName { settings with matching := mode } =
      testable marker d typeName { settings with matching := mode' } := by
  unfold testable
  rw [h]
  rfl

section

variable {settings : Settings} {text : String}
  (hq : ∀ w, w ∈ settings.qualifyingModifiers ↔ w ∈ ["private", "fileprivate"])
  (hs : ∀ w, w ∈ settings.staticModifiers ↔ w ∈ ["static", "class"])
  (hc : ∀ ds, Swift.parse text = .ok ds → ∀ d ∈ memberDecls ds, "class" ∉ d.modifierNames)

include hq hs hc

/-- The members of an annotated type are classified alike in both modes. -/
theorem classification_of_found {x : AnnotatedType} (hx : x ∈ foundIn .standard text) :
    Classification.ofMembers (.ofSettings { settings with matching := .substring }) x.declaration.members =
      Classification.ofMembers (.ofSettings { settings with matching := .exact }) x.declaration.members := by
  obtain ⟨ds, hparse, hx⟩ := mem_foundIn_cases hx
  have hnodes := (nodes_annotatedAmong hx).2
  refine Classification.ofMembers_congr fun m hm => ?_
  obtain ⟨d, hd, hmd⟩ := List.mem_flatMap.1 hm
  have hread : ReadAmong (Tokens.ofText text).tokens d := nodes_parse hparse d (hnodes (mem_nodesOf_member hd))
  rw [modifiers_of_membersOfDecl hmd]
  exact standardSubstring_agrees hq hs hread.words
    (hc ds hparse d (mem_memberDecls (hnodes (mem_nodesOf_self _)) hd))

/-- With the plain sets of modifiers, and where no member has the modifier `class`, it does not matter whether
modifiers are compared as whole words or by what occurs in them. -/
theorem matching_modes_agree :
    expandFile .standard { settings with matching := .substring } text =
      expandFile .standard { settings with matching := .exact } text := by
  apply expandFile_congr
  rw [records_standard, records_standard]
  refine List.map_congr_left fun x hx => ?_
  rw [runGenerator, runGenerator,
    testable_congr_matching settings .substring .exact _ _ _ (classification_of_found hq hs hc hx)]

end

/-- Members of types in types and of extensions, with and without modifiers. -/
def modesText : String :=
  "@Testable class A { private static var a = 1; fileprivate func f() {}; struct B { final private let b: Int } }"

theorem modesText_agrees :
    (∀ ds, Swift.parse modesText = .ok ds → ∀ d ∈ memberDecls ds, "class" ∉ d.modifierNames) ∧
      expandFile .standard { matching := .substring } modesText = expandFile .standard { matching := .exact } modesText := by
  have hall : ((Swift.parse modesText).toOption.all fun ds =>
      (memberDecls ds).all fun d => !d.modifierNames.contains "class") = true := by
    decide +kernel
  have hc : ∀ ds, Swift.parse modesText = .ok ds → ∀ d ∈ memberDecls ds, "class" ∉ d.modifierNames := by
    intro ds hds d hd
    rw [hds, Except.toOption, Option.all_some] at hall
    simpa using List.all_eq_true.1 hall d hd
  exact ⟨hc, @matching_modes_agree {} modesText (fun _ => Iff.rfl) (fun _ => Iff.rfl) hc⟩

end Expansion

end TestHooks
