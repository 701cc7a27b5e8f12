import TestHooks.Proofs.ProxyLines
import TestHooks.Proofs.Roundtrip

/-!
# Settings of style

The labels of calls and the indentation decide how code looks, and nothing else: runs that differ in them make the same
records with the same success (`runs_agree`), although whether an extension passes is found out by reading what was
written.
-/

namespace TestHooks

/-- The settings with other labels in calls and another indentation. -/
def Settings.restyled (settings : Settings) (labels : Bool) (width : Nat) (hwidth : 0 < width) : Settings :=
  { settings with wildcardCallLabels := labels, indentWidth := width, indentWidth_pos := hwidth }

namespace Expansion

open TestHooks.Proxy TestHooks.Swift TestHooks.Text

/-- Records of one type that succeed or fail together, and report the same if they succeed. -/
structure Record.Agrees (r r' : Record) : Prop where
  generator : r.generator = r'.generator
  typeName : r.typeName = r'.typeName
  line : r.line = r'.line
  success : r.success = r'.success
  diagnostics : r.success = true → r.diagnostics = r'.diagnostics

theorem Record.agrees_self (r : Record) : r.Agrees r := ⟨rfl, rfl, rfl, rfl, fun _ => rfl⟩

/-- Outcomes of the same reports agree if both extensions pass or neither does. -/
theorem settle_agrees {code code' : String} {site : Option Position}
    (h : complaint? code site = none ↔ complaint? code' site = none) (marker : Marker) (d : Declaration)
    (recorded : List Diagnostic) :
    (Record.ofOutcome marker d (settle recorded code site)).Agrees
      (Record.ofOutcome marker d (settle recorded code' site)) := by
  obtain ⟨hg, ht, hl⟩ := names_ofOutcome marker d (settle recorded code site)
  obtain ⟨hg', ht', hl'⟩ := names_ofOutcome marker d (settle recorded code' site)
  have hrest : (Record.ofOutcome marker d (settle recorded code site)).success =
        (Record.ofOutcome marker d (settle recorded code' site)).success ∧
      ((Record.ofOutcome marker d (settle recorded code site)).success = true →
        (Record.ofOutcome marker d (settle recorded code site)).diagnostics =
          (Record.ofOutcome marker d (settle recorded code' site)).diagnostics) := by
    unfold settle
    cases recorded.find? (·.isError) with
    | some first => exact ⟨rfl, fun _ => rfl⟩
    | none =>
      cases hc : complaint? code site with
      | none =>
        rw [h.1 hc]
        exact ⟨rfl, fun _ => rfl⟩
      | some fault =>
        obtain ⟨fault', hc'⟩ := Option.ne_none_iff_exists'.1 (mt h.2 (by rw [hc]; exact Option.some_ne_none fault))
        rw [hc']
        exact ⟨rfl, nofun⟩
  exact ⟨hg.trans hg'.symm, ht.trans ht'.symm, hl.trans hl'.symm, hrest.1, hrest.2⟩

section

variable {settings : Settings} (hplaceholder : settings.placeholderType = "Any")

include hplaceholder

theorem word_placeholder : IsWord settings.placeholderType := by
  rw [hplaceholder]
  exact ⟨'A', "ny".toList, rfl, by decide, by decide⟩

variable {text : String} {a : AnnotatedType} (ha : a ∈ foundIn .standard text)

include ha

/-- The extension of a type that gets hooks, line by line. -/
theorem extension_of_found (hkind : supportedKinds.contains a.declaration.kind = true) :
    extensionOf settings a.declaration.name a.declaration = writeLines settings.indent
      (proxyLines settings a.name (.ofMembers (.ofSettings settings) a.declaration.members)) := by
  have hspelled := found_spelled ha
  rw [hspelled.declaration_name]
  exact extensionOf_lines (word_placeholder hplaceholder)
    (found_addressed ha (AnnotatedType.keyword_of_supported hkind)) fun m hm => hspelled.members m (mem_of_forwarded hm)

variable (hcondition : settings.buildCondition = "DEBUG") (labels : Bool) {width : Nat} (hwidth : 0 < width)

include hcondition

/-- The lines of the extensions of a type that gets hooks are twins in all styles. -/
theorem lines_of_found (hkind : supportedKinds.contains a.declaration.kind = true) :
    let c := Classification.ofMembers (.ofSettings settings) a.declaration.members
    TwinLines (proxyLines settings a.name c) (proxyLines (settings.restyled labels width hwidth) a.name c) := by
  have hspelled := found_spelled ha
  exact proxyLines_twins rfl (word_placeholder hplaceholder)
    (found_addressed ha (AnnotatedType.keyword_of_supported hkind))
    (fun m hm => hspelled.members m (mem_of_forwarded hm)) hcondition rfl

/-- The records of a type in all styles agree. -/
theorem runs_agree :
    (runGenerator settings testable a.marker a.declaration).Agrees
      (runGenerator (settings.restyled labels width hwidth) testable a.marker a.declaration) := by
  rw [runGenerator, runGenerator]
  by_cases hkind : supportedKinds.contains a.declaration.kind = true
  · rw [testable_supported _ _ hkind, testable_supported _ _ hkind]
    refine settle_agrees ?_ _ _ _
    rw [extension_of_found hplaceholder ha hkind,
      @extension_of_found (settings.restyled labels width hwidth) hplaceholder _ _ ha hkind]
    exact complaint_twins (indent_spaces settings) (indent_spaces _) rfl rfl
      (lines_of_found hplaceholder ha hcondition labels hwidth hkind) _
  · rw [Bool.not_eq_true] at hkind
    rw [testable_unsupported _ _ hkind, testable_unsupported _ _ hkind]
    exact Record.agrees_self _

end

/-- Runs make one record of a text with one annotated type, whatever the settings. By default it succeeds if the
extension is read back as one. -/
theorem sole_record {text : String} {d : Declaration}
    (hfound : (foundIn .standard text).map AnnotatedType.declaration = [d])
    (hkind : supportedKinds.contains d.kind = true)
    (hread : (parse (extensionOf {} d.name d)).toOption.any isSingleExtension = true) :
    ∃ a, foundIn .standard text = [a] ∧ a.declaration = d ∧
      (∀ settings, (expandFile .standard settings text).records =
        [runGenerator settings testable a.marker a.declaration]) ∧
      (runGenerator {} testable a.marker a.declaration).success = true := by
  obtain ⟨a, ha, rfl⟩ := List.map_eq_singleton_iff.1 hfound
  refine ⟨a, ha, rfl, fun settings => ?_, (record_of_annotated hkind hread).1⟩
  rw [records_standard, ha]
  rfl

end Expansion

end TestHooks
