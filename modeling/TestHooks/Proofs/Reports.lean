import TestHooks.Proofs.Outcomes
import TestHooks.Proofs.Partition

/-!
# Reports

What is reported on a declaration that gets hooks: one diagnostic for every member that is left out, a note if a
forwarded member has the name of the stored instance, and one warning for every forwarded property whose type is not
known. The report is a function of the members and their places, and nothing else is recorded before the extension is
read back.
-/

namespace TestHooks.Expansion

open TestHooks.Proxy

/-! ### The diagnostics of a report -/

/-- A warning if the member is left out for its kind alone, else a note. -/
def leftOutNotice (matcher : Matcher) (m : Member) : Diagnostic :=
  ⟨if matcher.qualifies m.modifiers && !m.isForwardable then .warning else .note,
    "'" ++ (if m.name.isEmpty then m.kind else m.name) ++ "' is not forwarded: " ++ matcher.reason m, m.position⟩

/-- True if the name is that of the stored instance, backticks aside. -/
def isNamedLikeReference (m : Member) : Bool :=
  plainName m.name == plainReference

/-- The note on the first forwarded member with the name of the stored instance. -/
def renamingNote? (forwarded : List Member) : Option Diagnostic :=
  (forwarded.find? isNamedLikeReference).map fun m =>
    ⟨.note, "'" ++ m.name ++ "' collides with the proxy's stored '" ++ plainReference ++
      "'; the proxy stores the instance as '" ++ reference (forwarded.map Member.name) ++ "'", m.position⟩

/-- True for a property without a type, written or inferred. -/
def isUntyped (settings : Settings) (p : Property) : Bool :=
  (p.type.getD "").isEmpty && !(settings.inferLiteralTypes && (literalType? p.initializer).isSome)

/-- The warning on a property that gets the placeholder. -/
def placeholderWarning? (settings : Settings) : Member → Option Diagnostic
  | .property p =>
    if isUntyped settings p then
      some ⟨.warning, "Property '" ++ p.name ++ "' has no type annotation; forwarding it as '" ++
        settings.placeholderType ++ "'", p.position⟩
    else none
  | _ => none

/-- The report on a list of members. -/
def report (settings : Settings) (ms : List Member) : List Diagnostic :=
  let matcher := Matcher.ofSettings settings
  (matcher.leftOut ms).map (leftOutNotice matcher) ++ (renamingNote? (matcher.forwarded ms)).toList ++
    (matcher.inBucket .instanceProperties ms).filterMap (placeholderWarning? settings) ++
    (matcher.inBucket .staticProperties ms).filterMap (placeholderWarning? settings)

/-! ### The report is what is recorded -/

variable {settings : Settings} {d : Declaration}

theorem isSome_known? (settings : Settings) (p : Property) :
    ((Typing.ofSettings settings).known? p).isSome = !isUntyped settings p := by
  rcases p with ⟨name, type, hasSetter, modifiers, initializer, position⟩
  have hempty : "".isEmpty = true := rfl
  cases type with
  | none =>
    cases hinfer : settings.inferLiteralTypes <;>
      simp [Typing.known?, Typing.ofSettings, isUntyped, hempty, hinfer]
  | some t =>
    by_cases ht : t = ""
    · have hwritten : (some "").filter (!·.isEmpty) = none := rfl
      cases hinfer : settings.inferLiteralTypes <;>
        simp [Typing.known?, Typing.ofSettings, isUntyped, hwritten, ht, hempty, hinfer]
    · simp [Typing.known?, isUntyped, Option.filter, ht]

theorem warning?_ofSettings (settings : Settings) (p : Property) :
    (Typing.ofSettings settings).warning? p = placeholderWarning? settings (.property p) := by
  have hknown := isSome_known? settings p
  rw [Typing.warning?, placeholderWarning?]
  cases hk : (Typing.ofSettings settings).known? p with
  | some type =>
    rw [hk, Option.isSome_some, Bool.true_eq, Bool.not_eq_true'] at hknown
    rw [hknown, if_neg Bool.false_ne_true]
  | none =>
    rw [hk, Option.isSome_none, Bool.false_eq, Bool.not_eq_false'] at hknown
    rw [hknown, if_pos rfl]
    rfl

theorem filterMap_warning? (settings : Settings) (ps : List Property) :
    ps.filterMap (Typing.ofSettings settings).warning? =
      (ps.map Member.property).filterMap (placeholderWarning? settings) := by
  rw [List.filterMap_map]
  congr 1
  funext p
  exact warning?_ofSettings settings p

theorem noticesOf_eq_report (settings : Settings) (d : Declaration) : noticesOf settings d = report settings d.members := by
  let matcher := Matcher.ofSettings settings
  have hbucket := Classification.bucket_ofMembers matcher d.members
  have hleft : ((Classification.ofMembers matcher d.members).skipped.map skippedNotice) =
      (matcher.leftOut d.members).map (leftOutNotice matcher) := by
    rw [Classification.skipped_ofMembers, List.map_map]
    rfl
  have hnote : collisionNotice? (Classification.ofMembers matcher d.members) =
      renamingNote? (matcher.forwarded d.members) := by
    rw [← Classification.forwarded_ofMembers]
    rfl
  rw [noticesOf, notices, hleft, hnote, filterMap_warning?, filterMap_warning?, report,
    ← hbucket .instanceProperties, ← hbucket .staticProperties]
  rfl

/-! ### The members are all accounted for -/

/-- What is recorded on a class, a structure or an enumeration is the report, with warnings as errors in strict mode,
and behind it at most the fault of an extension that does not read back. The report covers every member: those of a
bucket are forwarded, all others have a diagnostic of their own, and each member is counted as often as it is
declared. -/
theorem testable_reports (marker : Marker) (typeName : String) (hkind : d.kind ∈ ["class", "struct", "enum"]) :
    let matcher := Matcher.ofSettings settings
    let classification := Classification.ofMembers matcher d.members
    let recorded := (report settings d.members).map (·.promote settings.strictMode)
    let fault? := complaint? (extensionOf settings typeName d) marker.position
    (testable marker d typeName settings).diagnostics =
        recorded ++ (if recorded.any (·.isError) then [] else fault?.toList) ∧
      (∀ b, classification.bucket b = matcher.inBucket b d.members) ∧
      classification.skipped.map Skipped.member = matcher.leftOut d.members ∧
      (classification.forwarded ++ classification.skipped.map Skipped.member).Perm d.members ∧
      ((renamingNote? (matcher.forwarded d.members)).isSome ↔
        ∃ m ∈ matcher.forwarded d.members, plainName m.name = "target") := by
  intro matcher classification recorded fault?
  have hskipped : classification.skipped.map Skipped.member = matcher.leftOut d.members := by
    rw [Classification.skipped_ofMembers, List.map_map]
    exact List.map_id' _
  refine ⟨?_, Classification.bucket_ofMembers matcher d.members, hskipped, ?_, ?_⟩
  · have hsupported : supportedKinds.contains d.kind = true := List.contains_iff_mem.2 hkind
    rw [testable_supported marker typeName hsupported, noticesOf_eq_report, diagnostics_settle]
  · rw [hskipped, Classification.forwarded_ofMembers]
    exact matcher.forwarded_append_leftOut_perm d.members
  · simp [renamingNote?, isNamedLikeReference, plainReference, List.find?_isSome]

/-- An enumeration with a member of every kind: one in each bucket, two with the name of the stored instance, and
members that are left out for their modifiers, for their kind, or for both. -/
def mixedDeclaration : Declaration where
  name := "Meter"
  kind := "enum"
  members :=
    [.unsupported ⟨"init", "", ["private"], "initializers are not forwarded", some ⟨2, 3⟩⟩,
      .property ⟨"`target`", none, true, ["private"], some "0", some ⟨3, 3⟩⟩,
      .property ⟨"shared", some "", false, ["private", "static"], none, some ⟨4, 3⟩⟩,
      .function ⟨"target", [], "", ["fileprivate"], false, false, some ⟨5, 3⟩⟩,
      .property ⟨"open", some "Int", true, ["public"], none, some ⟨6, 3⟩⟩,
      .property ⟨"plain", none, true, ["private"], some "make()", some ⟨7, 3⟩⟩,
      .unknown ⟨"macro", ["private"], none⟩,
      .function ⟨"make", [], "Int", ["private", "class"], false, false, some ⟨9, 3⟩⟩]
  attributes := [⟨"Testable", some ⟨1, 1⟩⟩]
  position := some ⟨1, 1⟩

theorem mixedDeclaration_reports :
    mixedDeclaration.kind ∈ ["class", "struct", "enum"] ∧
      (testable ⟨"Testable", some ⟨1, 1⟩⟩ mixedDeclaration "Meter" { strictMode := true }).diagnostics =
        [⟨.error, "'init' is not forwarded: initializers are not forwarded", some ⟨2, 3⟩⟩,
          ⟨.note, "'open' is not forwarded: not declared private", some ⟨6, 3⟩⟩,
          ⟨.error, "'macro' is not forwarded: unknown member kind", none⟩,
          ⟨.note, "'`target`' collides with the proxy's stored 'target'; the proxy stores the instance as '_target'",
            some ⟨3, 3⟩⟩,
          ⟨.error, "Property 'plain' has no type annotation; forwarding it as 'Any'", some ⟨7, 3⟩⟩,
          ⟨.error, "Property 'shared' has no type annotation; forwarding it as 'Any'", some ⟨4, 3⟩⟩] := by
  have hkind : mixedDeclaration.kind ∈ ["class", "struct", "enum"] := by decide
  refine ⟨hkind, (testable_reports _ _ hkind).1.trans ?_⟩
  decide +kernel

end TestHooks.Expansion
