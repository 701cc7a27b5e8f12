import TestHooks.Proofs.Reports

/-!
# Strict and lenient runs

A strict run stops at a declaration that a lenient run warns about, and is the lenient run everywhere else. The two
runs are compared on one declaration first (`hardens_runGenerator`) and then record by record over a whole file.
-/

namespace TestHooks

/-- The settings under which warnings stay warnings. -/
def Settings.lenient (s : Settings) : Settings := { s with strictMode := false }

/-- The settings under which warnings count as errors. -/
def Settings.strict (s : Settings) : Settings := { s with strictMode := true }

namespace Expansion

open TestHooks.Proxy

variable {settings : Settings} {d : Declaration}

/-! ### One declaration -/

theorem testable_lenient (marker : Marker) (typeName : String) (h : supportedKinds.contains d.kind = true) :
    testable marker d typeName settings.lenient =
      settle (noticesOf settings d) (extensionOf settings typeName d) marker.position := by
  have hsame : (noticesOf settings d).map (·.promote false) = noticesOf settings d := List.map_id' _
  rw [testable_supported marker typeName h]
  exact congrArg (settle · (extensionOf settings typeName d) marker.position) hsame

theorem testable_strict (marker : Marker) (typeName : String) (h : supportedKinds.contains d.kind = true) :
    testable marker d typeName settings.strict =
      settle ((noticesOf settings d).map (·.promote true)) (extensionOf settings typeName d) marker.position :=
  testable_supported marker typeName h

/-- A lenient run records the report, and the fault of an extension that does not read back. -/
theorem diagnostics_lenient (marker : Marker) (typeName : String) (h : supportedKinds.contains d.kind = true) :
    (testable marker d typeName settings.lenient).diagnostics =
      noticesOf settings d ++ (complaint? (extensionOf settings typeName d) marker.position).toList := by
  have hsound : (noticesOf settings d).any (·.isError) = false := by
    rw [List.any_eq_false]
    intro e he
    rw [isError_of_mem_noticesOf he]
    exact Bool.false_ne_true
  rw [testable_lenient marker typeName h, diagnostics_settle, hsound, if_neg Bool.false_ne_true]

theorem testable_strict_of_no_warning (marker : Marker) (typeName : String)
    (h : ∀ e ∈ (testable marker d typeName settings.lenient).diagnostics, e.isWarning = false) :
    testable marker d typeName settings.strict = testable marker d typeName settings.lenient := by
  by_cases hkind : supportedKinds.contains d.kind = true
  · rw [diagnostics_lenient marker typeName hkind] at h
    have hsame : (noticesOf settings d).map (·.promote true) = noticesOf settings d := by
      refine (List.map_congr_left fun e he => ?_).trans (List.map_id' _)
      exact Diagnostic.promote_of_not_warning true (h e (List.mem_append_left _ he))
    rw [testable_strict marker typeName hkind, hsame, testable_lenient marker typeName hkind]
  · rw [Bool.not_eq_true] at hkind
    rw [testable_unsupported marker typeName hkind, testable_unsupported marker typeName hkind]

/-- A warning of a lenient run is in the report, since all that follows the report is an error. -/
theorem mem_noticesOf_of_warning {marker : Marker} {typeName : String} {e : Diagnostic}
    (he : e ∈ (testable marker d typeName settings.lenient).diagnostics) (hw : e.isWarning = true) :
    supportedKinds.contains d.kind = true ∧ e ∈ noticesOf settings d := by
  by_cases hkind : supportedKinds.contains d.kind = true
  · rw [diagnostics_lenient marker typeName hkind] at he
    rcases List.mem_append.1 he with he | he
    · exact ⟨hkind, he⟩
    · have herror := isError_of_complaint? (Option.mem_toList.1 he)
      rw [Diagnostic.isWarning_of_isError herror] at hw
      cases hw
  · rw [Bool.not_eq_true] at hkind
    rw [testable_unsupported marker typeName hkind] at he
    rw [List.mem_singleton.1 he] at hw
    cases hw

/-- A strict run stops where a lenient run warns, with the report as it stands. -/
theorem testable_strict_of_warning {marker : Marker} {typeName : String} {e : Diagnostic}
    (he : e ∈ (testable marker d typeName settings.lenient).diagnostics) (hw : e.isWarning = true) :
    ∃ first ∈ (noticesOf settings d).map (·.promote true), testable marker d typeName settings.strict =
      ⟨(noticesOf settings d).map (·.promote true), .error first⟩ := by
  obtain ⟨hkind, hmem⟩ := mem_noticesOf_of_warning he hw
  have herror : ∃ e ∈ (noticesOf settings d).map (·.promote true), e.isError = true := by
    refine ⟨e.promote true, List.mem_map_of_mem hmem, ?_⟩
    rw [Diagnostic.isError_promote, hw, Bool.and_true, Bool.or_true]
  obtain ⟨first, hfirst, -, hs⟩ := settle_of_error (extensionOf settings typeName d) marker.position herror
  exact ⟨first, hfirst, (testable_strict marker typeName hkind).trans hs⟩

/-! ### One record -/

/-- How the strict record `r'` of a declaration follows from the lenient record `r`. -/
structure Hardens (settings : Settings) (marker : Marker) (d : Declaration) (r r' : Record) : Prop where
  generator : r'.generator = r.generator
  typeName : r'.typeName = r.typeName
  line : r'.line = r.line
  same : (∀ e ∈ r.diagnostics, e.isWarning = false) → r' = r
  stopped : (∃ e ∈ r.diagnostics, e.isWarning = true) →
    r'.success = false ∧ r'.extensions = [] ∧
      r.diagnostics = report settings d.members ++ (complaint? (extensionOf settings d.name d) marker.position).toList ∧
      r'.diagnostics = (report settings d.members).map fun e => if e.isWarning then { e with severity := .error } else e

theorem hardens_runGenerator (settings : Settings) (marker : Marker) (d : Declaration) :
    Hardens settings marker d (runGenerator settings.lenient testable marker d)
      (runGenerator settings.strict testable marker d) := by
  obtain ⟨hgenerator, htype, hline⟩ := names_ofOutcome marker d (testable marker d d.name settings.lenient)
  obtain ⟨hgenerator', htype', hline'⟩ := names_ofOutcome marker d (testable marker d d.name settings.strict)
  have hlisted : (runGenerator settings.lenient testable marker d).diagnostics =
      (testable marker d d.name settings.lenient).diagnostics :=
    diagnostics_ofOutcome (testable_consistent marker d d.name settings.lenient) marker d
  refine ⟨hgenerator'.trans hgenerator.symm, htype'.trans htype.symm, hline'.trans hline.symm, ?_, ?_⟩
  · intro hnone
    rw [hlisted] at hnone
    rw [runGenerator, testable_strict_of_no_warning marker d.name hnone]
    rfl
  · rintro ⟨e, he, hw⟩
    rw [hlisted] at he
    obtain ⟨hkind, -⟩ := mem_noticesOf_of_warning he hw
    obtain ⟨first, hfirst, hstrict⟩ := testable_strict_of_warning he hw
    have hstopped : runGenerator settings.strict testable marker d =
        ⟨marker.name, d.name, marker.position.map Position.line, false, [],
          (report settings d.members).map (·.promote true)⟩ := by
      rw [noticesOf_eq_report] at hfirst hstrict
      rw [runGenerator, hstrict, Record.ofOutcome_error _ _ rfl, if_pos hfirst, List.append_nil]
    refine ⟨by rw [hstopped], by rw [hstopped], ?_, ?_⟩
    · rw [hlisted, diagnostics_lenient marker d.name hkind, noticesOf_eq_report]
    · rw [hstopped]
      exact List.map_congr_left fun e _ => by rw [Diagnostic.promote, Bool.true_and]

/-! ### Whole files -/

/-- A strict record without errors is the lenient one, and that has no warning. -/
theorem Hardens.no_warning {marker : Marker} {r r' : Record} (h : Hardens settings marker d r r')
    (hsound : ∀ e ∈ r'.diagnostics, e.isError = false) : ∀ e ∈ r.diagnostics, e.isWarning = false := by
  intro e he
  by_contra hw
  rw [Bool.not_eq_false] at hw
  obtain ⟨-, -, hr, hr'⟩ := h.stopped ⟨e, he, hw⟩
  rw [hr] at he
  rcases List.mem_append.1 he with hreport | hfault
  · have hpromoted : { e with severity := .error } ∈ r'.diagnostics := by
      rw [hr']
      exact List.mem_map.2 ⟨e, hreport, if_pos hw⟩
    cases hsound _ hpromoted
  · rw [Diagnostic.isWarning_of_isError (isError_of_complaint? (Option.mem_toList.1 hfault))] at hw
    cases hw

/-- Strictness adds failures for warnings and nothing else. The records of a strict and a lenient run belong to the
same annotated types; records without warnings are equal, and for a record with warnings the strict run fails with
the report in which they are errors. So a strict run succeeds exactly if the lenient one does so without warnings,
and then the two are the same. -/
theorem strict_run_fails_on_warnings (settings : Settings) (text : String) :
    let found := foundIn .standard text
    let lenient := expandFile .standard settings.lenient text
    let strict := expandFile .standard settings.strict text
    lenient.records.length = found.length ∧ strict.records.length = found.length ∧
      (∀ (i : Nat) (x : AnnotatedType), found[i]? = some x →
        ∃ r r', lenient.records[i]? = some r ∧ strict.records[i]? = some r' ∧
          Hardens settings x.marker x.declaration r r') ∧
      (strict.success = true ↔ lenient.success = true ∧ lenient.warnings = []) ∧
      (strict.success = true → strict = lenient) := by
  intro found lenient strict
  have hlenient := records_standard settings.lenient text
  have hstrict := records_standard settings.strict text
  have hsame : (∀ r ∈ lenient.records, ∀ e ∈ r.diagnostics, e.isWarning = false) → strict = lenient := by
    intro hnone
    apply expandFile_congr
    rw [hlenient, hstrict]
    refine List.map_congr_left fun x hx => (hardens_runGenerator settings x.marker x.declaration).same ?_
    apply hnone
    rw [hlenient]
    exact List.mem_map_of_mem hx
  have hforward : strict.success = true → lenient.warnings = [] ∧ strict = lenient := by
    intro hs
    obtain ⟨ds, hparse⟩ := parse_of_success _ _ hs
    have hnone : ∀ r ∈ lenient.records, ∀ e ∈ r.diagnostics, e.isWarning = false := by
      intro r hr
      rw [hlenient] at hr
      obtain ⟨x, hx, rfl⟩ := List.mem_map.1 hr
      refine (hardens_runGenerator settings x.marker x.declaration).no_warning fun e he => ?_
      refine (success_eq_true_iff strict).1 hs e ?_
      rw [diagnostics_expandFile .standard settings.strict hparse, hstrict]
      exact List.mem_flatMap.2 ⟨_, List.mem_map_of_mem hx, he⟩
    refine ⟨?_, hsame hnone⟩
    rw [warnings_eq_nil_iff]
    intro e he
    rw [diagnostics_expandFile .standard settings.lenient hparse] at he
    obtain ⟨r, hr, he⟩ := List.mem_flatMap.1 he
    exact hnone r hr e he
  have hbackward : lenient.success = true → lenient.warnings = [] → strict = lenient := by
    intro hs hw
    obtain ⟨ds, hparse⟩ := parse_of_success _ _ hs
    refine hsame fun r hr e he => (warnings_eq_nil_iff lenient).1 hw e ?_
    rw [diagnostics_expandFile .standard settings.lenient hparse]
    exact List.mem_flatMap.2 ⟨r, hr, he⟩
  refine ⟨?_, ?_, ?_, ?_, fun hs => (hforward hs).2⟩
  · rw [hlenient, List.length_map]
  · rw [hstrict, List.length_map]
  · intro i x hx
    refine ⟨_, _, ?_, ?_, hardens_runGenerator settings x.marker x.declaration⟩
    · rw [hlenient, List.getElem?_map, hx]
      rfl
    · rw [hstrict, List.getElem?_map, hx]
      rfl
  · constructor
    · intro hs
      exact ⟨(hforward hs).2 ▸ hs, (hforward hs).1⟩
    · rintro ⟨hs, hw⟩
      exact (hbackward hs hw).symm ▸ hs

/-- A file with a property whose type is not known. -/
def warnedText : String := "@Testable class A { private var x = make() }\n"

theorem warnedText_strict :
    ∃ r r', (expandFile .standard (Settings.lenient {}) warnedText).records[0]? = some r ∧
      (expandFile .standard (Settings.strict {}) warnedText).records[0]? = some r' ∧
      (∃ e ∈ r.diagnostics, e.isWarning = true) ∧ r'.success = false ∧ r'.extensions = [] ∧
      r'.diagnostics = [⟨.error, "Property 'x' has no type annotation; forwarding it as 'Any'", some ⟨1, 21⟩⟩] := by
  obtain ⟨-, -, hrecords, -, -⟩ := strict_run_fails_on_warnings {} warnedText
  have hfound : (foundIn .standard warnedText).map (fun x => (x.declaration.kind, noticesOf {} x.declaration)) =
      [("class", [⟨.warning, "Property 'x' has no type annotation; forwarding it as 'Any'", some ⟨1, 21⟩⟩])] := by
    decide +kernel
  obtain ⟨x, hx, hkind⟩ := List.map_eq_singleton_iff.1 hfound
  rw [Prod.mk.injEq] at hkind
  obtain ⟨r, r', hr, hr', hardens⟩ := hrecords 0 x (by rw [hx]; rfl)
  have hlisted : r.diagnostics = noticesOf {} x.declaration ++
      (complaint? (extensionOf {} x.declaration.name x.declaration) x.marker.position).toList := by
    have hr₀ : r = runGenerator (Settings.lenient {}) testable x.marker x.declaration := by
      rw [records_standard, hx] at hr
      exact (Option.some.inj hr).symm
    rw [hr₀, runGenerator, diagnostics_ofOutcome (testable_consistent _ _ _ _)]
    exact diagnostics_lenient x.marker x.declaration.name (by rw [hkind.1]; decide)
  have hwarning : ∃ e ∈ r.diagnostics, e.isWarning = true := by
    rw [hlisted, hkind.2]
    exact ⟨_, List.mem_cons_self, rfl⟩
  obtain ⟨hfailed, hnone, -, hstrict⟩ := hardens.stopped hwarning
  rw [← noticesOf_eq_report, hkind.2] at hstrict
  exact ⟨r, r', hr, hr', hwarning, hfailed, hnone, hstrict⟩

end Expansion

end TestHooks
