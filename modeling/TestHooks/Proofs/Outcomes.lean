import Mathlib.Data.List.Basic
import TestHooks.Expansion.File
import TestHooks.Proofs.Annotated

/-!
# What an attribute comes to

The generator of test hooks fails on a kind that gets no hooks. On others it records a report and settles the outcome
(`testable_supported`): the first error of the report is a failure, and so is an extension that does not read back. The
records of a file are those of its annotated types, one by one (`records_expandFile`).
-/

namespace TestHooks

namespace Diagnostic

theorem isError_promote (strict : Bool) (d : Diagnostic) :
    (d.promote strict).isError = (d.isError || (strict && d.isWarning)) := by
  rcases d with ⟨severity, message, position⟩
  cases strict <;> cases severity <;> rfl

theorem promote_of_not_warning {d : Diagnostic} (strict : Bool) (h : d.isWarning = false) : d.promote strict = d := by
  rw [promote, h, Bool.and_false, if_neg Bool.false_ne_true]

theorem isWarning_of_isError {d : Diagnostic} (h : d.isError = true) : d.isWarning = false := by
  rcases d with ⟨severity, message, position⟩
  cases severity
  · rfl
  · cases h
  · cases h

end Diagnostic

namespace Expansion

open TestHooks.Proxy

variable {settings : Settings} {d : Declaration}

/-! ### The generator of test hooks -/

/-- The report on a declaration, as it is before strictness. -/
def noticesOf (settings : Settings) (d : Declaration) : List Diagnostic :=
  notices (.ofSettings settings) (.ofMembers (.ofSettings settings) d.members)

/-- The extension of a declaration, as it is before it is read back. -/
def extensionOf (settings : Settings) (typeName : String) (d : Declaration) : String :=
  let c := Classification.ofMembers (.ofSettings settings) d.members
  writeExtension (plan settings typeName c) (fragments settings typeName c)

theorem isError_skippedNotice (s : Skipped) : (skippedNotice s).isError = false := by
  rcases s with ⟨member, reason, qualifying⟩
  cases qualifying <;> rfl

theorem isError_of_collisionNotice? {c : Classification} {e : Diagnostic} (h : collisionNotice? c = some e) :
    e.isError = false := by
  obtain ⟨m, -, rfl⟩ := Option.map_eq_some_iff.1 h
  rfl

theorem isError_of_warning? {typing : Typing} {p : Property} {e : Diagnostic} (h : typing.warning? p = some e) :
    e.isError = false := by
  unfold Typing.warning? at h
  split at h
  · cases h
  · cases h
    rfl

/-- A report holds warnings and notes only. -/
theorem isError_of_mem_noticesOf {e : Diagnostic} (h : e ∈ noticesOf settings d) : e.isError = false := by
  simp only [noticesOf, notices, List.mem_append, List.mem_map, Option.mem_toList, List.mem_filterMap] at h
  rcases h with ((⟨s, -, rfl⟩ | hc) | ⟨p, -, hw⟩) | ⟨p, -, hw⟩
  · exact isError_skippedNotice s
  · exact isError_of_collisionNotice? hc
  · exact isError_of_warning? hw
  · exact isError_of_warning? hw

/-- A complaint is an error at the place that it is made for. -/
theorem complaint?_cases {code : String} {site : Option Position} {e : Diagnostic}
    (h : complaint? code site = some e) : ∃ message, e = ⟨.error, message, site⟩ := by
  unfold complaint? at h
  split at h
  · exact ⟨_, (Option.some.inj h).symm⟩
  · split at h
    · cases h
    · exact ⟨_, (Option.some.inj h).symm⟩

theorem isError_of_complaint? {code : String} {site : Option Position} {e : Diagnostic}
    (h : complaint? code site = some e) : e.isError = true := by
  obtain ⟨message, rfl⟩ := complaint?_cases h
  rfl

theorem isSingleExtension_iff {ds : List Swift.Decl} :
    isSingleExtension ds = true ↔
      ∃ head header members, ds = [.group head header members] ∧ header.keyword = .extensionType := by
  unfold isSingleExtension
  split
  · next head header members =>
    simp
  · next hother =>
    simp only [Bool.false_eq_true, false_iff]
    rintro ⟨head, header, members, rfl, -⟩
    exact hother head header members rfl

/-- Code without a complaint is read back as one extension. -/
theorem complaint?_eq_none_iff {code : String} {site : Option Position} :
    complaint? code site = none ↔ ∃ head header members, Swift.parse code = .ok [.group head header members] ∧
      header.keyword = .extensionType := by
  unfold complaint?
  cases hparse : Swift.parse code with
  | error e => simp
  | ok ds =>
    simp only [ite_eq_left_iff, reduceCtorEq, imp_false, not_not, isSingleExtension_iff, Except.ok.injEq]

theorem testable_unsupported (marker : Marker) (typeName : String) (h : supportedKinds.contains d.kind = false) :
    testable marker d typeName settings = ⟨[unsupportedKind marker d], .error (unsupportedKind marker d)⟩ := by
  rw [testable, if_neg (by rw [h]; exact Bool.false_ne_true)]

/-- What is made of recorded diagnostics and an extension. The first error decides, then whether the extension reads
back. -/
def settle (recorded : List Diagnostic) (code : String) (site : Option Position) : Outcome :=
  match recorded.find? (·.isError) with
  | some first => ⟨recorded, .error first⟩
  | none =>
    match complaint? code site with
    | none => ⟨recorded, .ok [code]⟩
    | some fault => ⟨recorded ++ [fault], .error fault⟩

theorem testable_supported (marker : Marker) (typeName : String) (h : supportedKinds.contains d.kind = true) :
    testable marker d typeName settings =
      settle ((noticesOf settings d).map (·.promote settings.strictMode)) (extensionOf settings typeName d)
        marker.position := by
  have hentries : ((Journal.empty settings.strictMode).recordAll (noticesOf settings d)).entries =
      (noticesOf settings d).map (·.promote settings.strictMode) := by
    rw [Journal.entries_recordAll]
    rfl
  rw [testable, if_pos h]
  dsimp only
  rw [← noticesOf, Journal.firstError?, hentries, settle]
  cases ((noticesOf settings d).map (·.promote settings.strictMode)).find? (·.isError) with
  | some first => rfl
  | none =>
    rw [assemble, ← extensionOf]
    cases complaint? (extensionOf settings typeName d) marker.position with
    | none => rfl
    | some fault => simp only [Journal.append, hentries]

theorem settle_of_error {recorded : List Diagnostic} (code : String) (site : Option Position)
    (h : ∃ e ∈ recorded, e.isError = true) :
    ∃ first ∈ recorded, first.isError = true ∧ settle recorded code site = ⟨recorded, .error first⟩ := by
  obtain ⟨e, he, herror⟩ := h
  cases hfirst : recorded.find? (·.isError) with
  | none => exact absurd herror (List.find?_eq_none.1 hfirst e he)
  | some first =>
    refine ⟨first, List.mem_of_find?_eq_some hfirst, by simpa using List.find?_some hfirst, ?_⟩
    rw [settle, hfirst]

theorem settle_of_no_error {recorded : List Diagnostic} (code : String) (site : Option Position)
    (h : ∀ e ∈ recorded, e.isError = false) :
    settle recorded code site =
      match complaint? code site with
      | none => ⟨recorded, .ok [code]⟩
      | some fault => ⟨recorded ++ [fault], .error fault⟩ := by
  have hnone : recorded.find? (·.isError) = none := by
    rw [List.find?_eq_none]
    intro e he
    rw [h e he]
    exact Bool.false_ne_true
  rw [settle, hnone]

theorem diagnostics_settle (recorded : List Diagnostic) (code : String) (site : Option Position) :
    (settle recorded code site).diagnostics =
      recorded ++ if recorded.any (·.isError) then [] else (complaint? code site).toList := by
  by_cases h : ∃ e ∈ recorded, e.isError = true
  · obtain ⟨first, -, -, hs⟩ := settle_of_error code site h
    rw [hs, if_pos (List.any_eq_true.2 h), List.append_nil]
  · rw [settle_of_no_error code site (by simpa using h), if_neg (fun hany => h (List.any_eq_true.1 hany))]
    cases complaint? code site with
    | none => simp
    | some fault => rfl

/-- An outcome with one extension records no error, and one that fails records its failure. -/
def Outcome.Consistent (o : Outcome) : Prop :=
  (∃ code, o.result = .ok [code] ∧ ∀ e ∈ o.diagnostics, e.isError = false) ∨
    ∃ fault ∈ o.diagnostics, o.result = .error fault ∧ fault.isError = true

theorem consistent_settle (recorded : List Diagnostic) (code : String) (site : Option Position) :
    (settle recorded code site).Consistent := by
  by_cases h : ∃ e ∈ recorded, e.isError = true
  · obtain ⟨first, hmem, herror, hs⟩ := settle_of_error code site h
    rw [hs]
    exact .inr ⟨first, hmem, rfl, herror⟩
  · have hsound : ∀ e ∈ recorded, e.isError = false := by simpa using h
    rw [settle_of_no_error code site hsound]
    cases hc : complaint? code site with
    | none => exact .inl ⟨code, rfl, hsound⟩
    | some fault =>
      refine .inr ⟨fault, ?_, rfl, isError_of_complaint? hc⟩
      simp

theorem testable_consistent (marker : Marker) (d : Declaration) (typeName : String) (settings : Settings) :
    (testable marker d typeName settings).Consistent := by
  by_cases hkind : supportedKinds.contains d.kind = true
  · rw [testable_supported marker typeName hkind]
    exact consistent_settle _ _ _
  · rw [Bool.not_eq_true] at hkind
    rw [testable_unsupported marker typeName hkind]
    exact .inr ⟨unsupportedKind marker d, by simp, rfl, rfl⟩

/-! ### Records -/

theorem Record.ofOutcome_ok (marker : Marker) (d : Declaration) {outcome : Outcome} {extensions : List String}
    (h : outcome.result = .ok extensions) :
    Record.ofOutcome marker d outcome =
      ⟨marker.name, d.name, marker.position.map Position.line, true, extensions, outcome.diagnostics⟩ := by
  rw [Record.ofOutcome, h]

theorem Record.ofOutcome_error (marker : Marker) (d : Declaration) {outcome : Outcome} {fault : Diagnostic}
    (h : outcome.result = .error fault) :
    Record.ofOutcome marker d outcome =
      ⟨marker.name, d.name, marker.position.map Position.line, false, [],
        outcome.diagnostics ++ if fault ∈ outcome.diagnostics then [] else [fault]⟩ := by
  rw [Record.ofOutcome, h]
  by_cases hf : fault ∈ outcome.diagnostics <;> simp [hf]

theorem names_ofOutcome (marker : Marker) (d : Declaration) (o : Outcome) :
    (Record.ofOutcome marker d o).generator = marker.name ∧ (Record.ofOutcome marker d o).typeName = d.name ∧
      (Record.ofOutcome marker d o).line = marker.position.map Position.line := by
  unfold Record.ofOutcome
  split <;> exact ⟨rfl, rfl, rfl⟩

/-- A record of a consistent outcome lists what was recorded: the failure is not listed again. -/
theorem diagnostics_ofOutcome {o : Outcome} (h : o.Consistent) (marker : Marker) (d : Declaration) :
    (Record.ofOutcome marker d o).diagnostics = o.diagnostics := by
  rcases h with ⟨code, hok, -⟩ | ⟨fault, hmem, herror, -⟩
  · rw [Record.ofOutcome_ok marker d hok]
  · rw [Record.ofOutcome_error marker d herror, if_pos hmem, List.append_nil]

/-- A run succeeds with the extension as written, which has passed. -/
theorem extension_of_success {marker : Marker} (h : (runGenerator settings testable marker d).success = true) :
    (runGenerator settings testable marker d).extensions = [extensionOf settings d.name d] ∧
      complaint? (extensionOf settings d.name d) marker.position = none := by
  have hfailed {o : Outcome} {fault : Diagnostic} (hr : o.result = .error fault) :
      (Record.ofOutcome marker d o).success = false := by
    rw [Record.ofOutcome_error _ _ hr]
  by_cases hkind : supportedKinds.contains d.kind = true
  · rw [runGenerator, testable_supported marker d.name hkind] at h ⊢
    by_cases herror : ∃ e ∈ (noticesOf settings d).map (·.promote settings.strictMode), e.isError = true
    · obtain ⟨first, -, -, hs⟩ := settle_of_error (extensionOf settings d.name d) marker.position herror
      rw [hs, hfailed rfl] at h
      cases h
    · rw [settle_of_no_error _ _ (by simpa using herror)] at h ⊢
      cases hc : complaint? (extensionOf settings d.name d) marker.position with
      | none => exact ⟨rfl, rfl⟩
      | some fault =>
        simp only [hc] at h
        rw [hfailed rfl] at h
        cases h
  · rw [Bool.not_eq_true] at hkind
    rw [runGenerator, testable_unsupported marker d.name hkind, hfailed rfl] at h
    cases h

/-- Outside strict mode an extension that reads back is all that a success takes. -/
theorem success_of_no_complaint (marker : Marker) (hstrict : settings.strictMode = false)
    (hkind : supportedKinds.contains d.kind = true)
    (hc : complaint? (extensionOf settings d.name d) marker.position = none) :
    (runGenerator settings testable marker d).success = true := by
  have hsound : ∀ e ∈ (noticesOf settings d).map (·.promote settings.strictMode), e.isError = false := by
    intro e he
    obtain ⟨e, hmem, rfl⟩ := List.mem_map.1 he
    rw [hstrict]
    exact isError_of_mem_noticesOf hmem
  rw [runGenerator, testable_supported marker d.name hkind, settle_of_no_error _ _ hsound, hc]
  rfl

/-! ### Annotated types -/

/-- The annotated types of a text. There are none in a text that cannot be read. -/
def foundIn (registry : Registry) (text : String) : List AnnotatedType :=
  match Swift.parse text with
  | .ok ds => annotatedAmong registry.isRegistered none ds
  | .error _ => []

theorem foundIn_of_parse (registry : Registry) {text : String} {ds : List Swift.Decl} (h : Swift.parse text = .ok ds) :
    foundIn registry text = annotatedAmong registry.isRegistered none ds := by
  rw [foundIn, h]

/-- An annotated type is found in the tree of a text that can be read. -/
theorem mem_foundIn_cases {registry : Registry} {text : String} {x : AnnotatedType} (h : x ∈ foundIn registry text) :
    ∃ ds, Swift.parse text = .ok ds ∧ x ∈ annotatedAmong registry.isRegistered none ds := by
  cases hparse : Swift.parse text with
  | ok ds =>
    rw [foundIn_of_parse registry hparse] at h
    exact ⟨ds, rfl, h⟩
  | error e =>
    rw [foundIn, hparse] at h
    cases h

theorem records_expandFile (registry : Registry) (settings : Settings) (text : String) :
    (expandFile registry settings text).records =
      (foundIn registry text).filterMap (runAnnotated registry settings) := by
  unfold expandFile foundIn
  cases Swift.parse text with
  | error e => rfl
  | ok ds =>
    dsimp only
    split <;> rfl

theorem registered_of_mem_annotationsOf {registered : String → Bool} {head : Swift.Head} {header : Swift.TypeHeader}
    {members : List Swift.Decl} {name : String} {x : AnnotatedType}
    (h : x ∈ annotationsOf registered head header members name) : registered x.mark.name = true := by
  obtain ⟨a, ha, rfl⟩ := List.mem_map.1 h
  exact (List.mem_filter.1 ha).2

theorem isRegistered_of_mem_foundIn {registry : Registry} {text : String} {x : AnnotatedType}
    (h : x ∈ foundIn registry text) : registry.isRegistered x.mark.name = true := by
  obtain ⟨ds, hparse, hx⟩ := mem_foundIn_cases h
  rw [annotatedAmong_of_parse registry.isRegistered hparse] at hx
  obtain ⟨s, -, hx⟩ := List.mem_flatMap.1 hx
  exact registered_of_mem_annotationsOf hx

/-! ### Files -/

theorem success_eq_true_iff (e : FileExpansion) :
    e.success = true ↔ ∀ x ∈ e.diagnostics, x.isError = false := by
  simp [FileExpansion.success, FileExpansion.errors]

theorem warnings_eq_nil_iff (e : FileExpansion) :
    e.warnings = [] ↔ ∀ x ∈ e.diagnostics, x.isWarning = false := by
  simp [FileExpansion.warnings]

section

variable (registry : Registry) (settings : Settings) {text : String}

theorem expandFile_of_error {e : Swift.SyntaxError} (h : Swift.parse text = .error e) :
    expandFile registry settings text = ⟨"", [], [⟨.error, e.cause.message, e.position⟩]⟩ := by
  rw [expandFile, h]

theorem expandFile_of_ok {ds : List Swift.Decl} (h : Swift.parse text = .ok ds) :
    let found := foundIn registry text
    let records := (expandFile registry settings text).records
    expandFile registry settings text =
      ⟨if found.isEmpty then text else
          String.ofList (layout text.toList (found.map AnnotatedType.span) (records.flatMap Record.extensions)),
        records, records.flatMap Record.diagnostics⟩ := by
  dsimp only
  rw [records_expandFile, foundIn_of_parse registry h, expandFile, h]
  dsimp only
  cases (annotatedAmong registry.isRegistered none ds).isEmpty <;> rfl

theorem diagnostics_expandFile {ds : List Swift.Decl} (h : Swift.parse text = .ok ds) :
    (expandFile registry settings text).diagnostics =
      (expandFile registry settings text).records.flatMap Record.diagnostics := by
  conv_lhs => rw [expandFile_of_ok registry settings h]

theorem parse_of_success (h : (expandFile registry settings text).success = true) :
    ∃ ds, Swift.parse text = .ok ds := by
  cases hparse : Swift.parse text with
  | ok ds => exact ⟨ds, rfl⟩
  | error e =>
    rw [expandFile_of_error registry settings hparse] at h
    cases h

end

/-- The records decide the whole expansion. -/
theorem expandFile_congr {registry : Registry} {settings settings' : Settings} {text : String}
    (h : (expandFile registry settings text).records = (expandFile registry settings' text).records) :
    expandFile registry settings text = expandFile registry settings' text := by
  cases hparse : Swift.parse text with
  | error e => rw [expandFile_of_error registry settings hparse, expandFile_of_error registry settings' hparse]
  | ok ds => rw [expandFile_of_ok registry settings hparse, expandFile_of_ok registry settings' hparse, h]

/-! ### The standard registry -/

theorem lookup_standard {name : String} (h : Registry.standard.isRegistered name = true) :
    Registry.standard.lookup name = some testable := by
  by_cases hname : testableName = name
  · rw [← hname]
    rfl
  · simp [Registry.isRegistered, Registry.lookup, Registry.standard, hname] at h

/-- Every annotated type of a file has its record. -/
theorem records_standard (settings : Settings) (text : String) :
    (expandFile .standard settings text).records =
      (foundIn .standard text).map fun x => runGenerator settings testable x.marker x.declaration := by
  rw [records_expandFile, List.filterMap_eq_map_iff_forall_eq_some]
  intro x hx
  rw [runAnnotated, lookup_standard (isRegistered_of_mem_foundIn hx)]
  rfl

/-- A declaration that is given without text has its record. -/
theorem expandDeclaration_standard (settings : Settings) (d : Declaration) :
    expandDeclaration? .standard settings d =
      some (runGenerator settings testable (markerNamed d testableName) d) := by
  have hname : Registry.standard.isRegistered testableName = true := rfl
  rw [expandDeclaration?, lookup_standard hname, Option.map_some]

end Expansion

end TestHooks
