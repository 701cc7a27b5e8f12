import TestHooks.Proofs.Outcomes

/-!
# Positions decide nothing

Positions are carried along and reported, and nothing else depends on them: without its positions a declaration has
the same classification, the same report and the same extension. So the record of a declaration without positions is
its record without positions (`runGenerator_unplaced`).
-/

namespace TestHooks

/-! ### Without positions -/

def Diagnostic.unplaced (d : Diagnostic) : Diagnostic := { d with position := none }

def Property.unplaced (p : Property) : Property := { p with position := none }

def Function.unplaced (f : Function) : Function := { f with position := none }

def Member.unplaced : Member → Member
  | property p => .property p.unplaced
  | function f => .function f.unplaced
  | unsupported u => .unsupported { u with position := none }
  | unknown u => .unknown { u with position := none }

/-- The declaration without positions and attributes. -/
def Declaration.unplaced (d : Declaration) : Declaration :=
  { d with members := d.members.map Member.unplaced, attributes := [], position := none }

def Skipped.unplaced (s : Skipped) : Skipped := { s with member := s.member.unplaced }

def Classification.unplaced (c : Classification) : Classification where
  instanceProperties := c.instanceProperties.map Property.unplaced
  instanceFunctions := c.instanceFunctions.map Function.unplaced
  staticProperties := c.staticProperties.map Property.unplaced
  staticFunctions := c.staticFunctions.map Function.unplaced
  skipped := c.skipped.map Skipped.unplaced

@[simp] theorem Member.name_unplaced (m : Member) : m.unplaced.name = m.name := by
  cases m <;> rfl

@[simp] theorem Member.kind_unplaced (m : Member) : m.unplaced.kind = m.kind := by
  cases m <;> rfl

@[simp] theorem Member.modifiers_unplaced (m : Member) : m.unplaced.modifiers = m.modifiers := by
  cases m <;> rfl

@[simp] theorem Member.position_unplaced (m : Member) : m.unplaced.position = none := by
  cases m <;> rfl

theorem Diagnostic.promote_unplaced (strict : Bool) (d : Diagnostic) :
    d.unplaced.promote strict = (d.promote strict).unplaced := by
  rcases d with ⟨severity, message, position⟩
  cases strict <;> cases severity <;> rfl

/-! ### Classification -/

namespace Classification

theorem place_unplaced (tests : Tests) (c : Classification) (m : Member) :
    c.unplaced.place tests m.unplaced = (c.place tests m).unplaced := by
  have hskip (m' : Member) (reason : String) (qualifying : Bool) :
      c.unplaced.skip m'.unplaced reason qualifying = (c.skip m' reason qualifying).unplaced := by
    simp [skip, unplaced, Skipped.unplaced]
  have hproperty (isStatic : Bool) (p : Property) :
      c.unplaced.addProperty isStatic p.unplaced = (c.addProperty isStatic p).unplaced := by
    cases isStatic <;> simp [addProperty, unplaced]
  have hfunction (isStatic : Bool) (f : Function) :
      c.unplaced.addFunction isStatic f.unplaced = (c.addFunction isStatic f).unplaced := by
    cases isStatic <;> simp [addFunction, unplaced]
  unfold place
  rw [Member.modifiers_unplaced]
  cases tests.qualifies m.modifiers with
  | false => cases m <;> exact hskip _ _ _
  | true =>
    cases m with
    | property p => exact hproperty _ p
    | function f => exact hfunction _ f
    | unsupported u => exact hskip (.unsupported u) _ _
    | unknown u => exact hskip (.unknown u) _ _

theorem ofMembers_unplaced (matcher : Matcher) (ms : List Member) :
    ofMembers matcher (ms.map Member.unplaced) = (ofMembers matcher ms).unplaced := by
  have hfold (c : Classification) :
      (ms.map Member.unplaced).foldl (place matcher.tests) c.unplaced =
        (ms.foldl (place matcher.tests) c).unplaced := by
    induction ms generalizing c with
    | nil => rfl
    | cons m ms ih => rw [List.map_cons, List.foldl_cons, place_unplaced, ih, List.foldl_cons]
  exact hfold empty

theorem forwarded_unplaced (c : Classification) : c.unplaced.forwarded = c.forwarded.map Member.unplaced := by
  simp [forwarded, unplaced, Member.unplaced, Function.comp_def]

end Classification

namespace Expansion

open TestHooks.Proxy

variable {settings : Settings}

/-! ### The report -/

theorem referenceFor_unplaced (c : Classification) : referenceFor c.unplaced = referenceFor c := by
  simp [referenceFor, Classification.forwarded_unplaced, Function.comp_def]

theorem skippedNotice_unplaced (s : Skipped) : skippedNotice s.unplaced = (skippedNotice s).unplaced := by
  simp only [skippedNotice, Skipped.unplaced, Member.name_unplaced, Member.kind_unplaced, Member.position_unplaced]
  rfl

theorem collisionNotice?_unplaced (c : Classification) :
    collisionNotice? c.unplaced = (collisionNotice? c).map Diagnostic.unplaced := by
  simp only [collisionNotice?, Classification.forwarded_unplaced, List.find?_map, Function.comp_def,
    Member.name_unplaced, Option.map_map, referenceFor_unplaced, Member.position_unplaced, Diagnostic.unplaced]

theorem warning?_unplaced (typing : Typing) (p : Property) :
    typing.warning? p.unplaced = (typing.warning? p).map Diagnostic.unplaced := by
  have hknown : typing.known? p.unplaced = typing.known? p := rfl
  unfold Typing.warning?
  rw [hknown]
  cases typing.known? p <;> rfl

theorem notices_unplaced (typing : Typing) (c : Classification) :
    notices typing c.unplaced = (notices typing c).map Diagnostic.unplaced := by
  have hwarnings (ps : List Property) :
      (ps.map Property.unplaced).filterMap typing.warning? =
        (ps.filterMap typing.warning?).map Diagnostic.unplaced := by
    rw [List.filterMap_map, List.map_filterMap]
    exact List.filterMap_congr fun p _ => warning?_unplaced typing p
  simp only [notices, List.map_append, collisionNotice?_unplaced, Option.toList_map]
  simp only [Classification.unplaced, hwarnings, List.map_map, Function.comp_def, skippedNotice_unplaced]

/-! ### The extension -/

theorem fragments_unplaced (typeName : String) (c : Classification) :
    fragments settings typeName c.unplaced = fragments settings typeName c := by
  simp only [fragments, referenceFor_unplaced, writeProperties, writeFunctions]
  simp only [Classification.unplaced, List.flatMap_map]
  rfl

variable {d : Declaration}

theorem noticesOf_unplaced : noticesOf settings d.unplaced = (noticesOf settings d).map Diagnostic.unplaced := by
  rw [noticesOf, Declaration.unplaced, Classification.ofMembers_unplaced, notices_unplaced, noticesOf]

theorem extensionOf_unplaced (typeName : String) :
    extensionOf settings typeName d.unplaced = extensionOf settings typeName d := by
  simp only [extensionOf, Declaration.unplaced, Classification.ofMembers_unplaced, fragments_unplaced, plan,
    referenceFor_unplaced]

/-! ### Outcomes -/

def Outcome.unplaced (o : Outcome) : Outcome :=
  ⟨o.diagnostics.map Diagnostic.unplaced, o.result.mapError Diagnostic.unplaced⟩

theorem complaint?_unplaced (code : String) (site : Option Position) :
    complaint? code none = (complaint? code site).map Diagnostic.unplaced := by
  unfold complaint?
  cases Swift.parse code with
  | error e => rfl
  | ok ds =>
    dsimp only
    cases isSingleExtension ds <;> rfl

theorem settle_unplaced (recorded : List Diagnostic) (code : String) (site : Option Position) :
    settle (recorded.map Diagnostic.unplaced) code none = (settle recorded code site).unplaced := by
  have hfirst : (recorded.map Diagnostic.unplaced).find? (·.isError) =
      (recorded.find? (·.isError)).map Diagnostic.unplaced := by
    rw [List.find?_map]
    rfl
  unfold settle
  rw [hfirst, complaint?_unplaced code site]
  cases recorded.find? (·.isError) with
  | some first => rfl
  | none =>
    cases complaint? code site with
    | none => rfl
    | some fault => simp [Outcome.unplaced, Except.mapError]

theorem testable_unplaced (marker : Marker) (typeName : String) :
    testable ⟨marker.name, none⟩ d.unplaced typeName settings = (testable marker d typeName settings).unplaced := by
  by_cases hkind : supportedKinds.contains d.kind = true
  · have hkind' : supportedKinds.contains d.unplaced.kind = true := hkind
    have hpromoted : ((noticesOf settings d).map Diagnostic.unplaced).map (·.promote settings.strictMode) =
        ((noticesOf settings d).map (·.promote settings.strictMode)).map Diagnostic.unplaced := by
      simp only [List.map_map, Function.comp_def, Diagnostic.promote_unplaced]
    rw [testable_supported _ typeName hkind', testable_supported _ typeName hkind, noticesOf_unplaced,
      extensionOf_unplaced, hpromoted, settle_unplaced]
  · rw [Bool.not_eq_true] at hkind
    have hkind' : supportedKinds.contains d.unplaced.kind = false := hkind
    rw [testable_unsupported _ typeName hkind', testable_unsupported _ typeName hkind]
    rfl

/-! ### Records -/

/-- The record without positions. -/
def Record.unplaced (r : Record) : Record :=
  { r with line := none, diagnostics := r.diagnostics.map Diagnostic.unplaced }

theorem ofOutcome_unplaced {o : Outcome} (ho : o.Consistent) (ho' : o.unplaced.Consistent) (marker : Marker) :
    Record.ofOutcome ⟨marker.name, none⟩ d.unplaced o.unplaced = (Record.ofOutcome marker d o).unplaced := by
  have hd := diagnostics_ofOutcome ho marker d
  have hd' := diagnostics_ofOutcome ho' ⟨marker.name, none⟩ d.unplaced
  cases hr : o.result with
  | ok extensions =>
    have hr' : o.unplaced.result = .ok extensions := by rw [Outcome.unplaced, hr]; rfl
    rw [Record.ofOutcome_ok _ _ hr, Record.ofOutcome_ok _ _ hr']
    rfl
  | error fault =>
    have hr' : o.unplaced.result = .error fault.unplaced := by rw [Outcome.unplaced, hr]; rfl
    rw [Record.ofOutcome_error _ _ hr] at hd ⊢
    rw [Record.ofOutcome_error _ _ hr'] at hd' ⊢
    dsimp only at hd hd'
    rw [hd, hd']
    rfl

/-- The record of a declaration without positions is its record without positions. -/
theorem runGenerator_unplaced (marker : Marker) :
    runGenerator settings testable ⟨marker.name, none⟩ d.unplaced =
      (runGenerator settings testable marker d).unplaced := by
  have hc := testable_consistent ⟨marker.name, none⟩ d.unplaced d.unplaced.name settings
  have hname : d.unplaced.name = d.name := rfl
  rw [hname, testable_unplaced marker] at hc
  rw [runGenerator, hname, testable_unplaced marker]
  exact ofOutcome_unplaced (testable_consistent marker d d.name settings) hc marker

theorem expandDeclaration_unplaced (settings : Settings) (d : Declaration) (position : Option Position) :
    expandDeclaration? .standard settings d.unplaced =
      some (runGenerator settings testable ⟨testableName, position⟩ d).unplaced := by
  rw [expandDeclaration_standard, ← runGenerator_unplaced]
  rfl

end Expansion

end TestHooks
